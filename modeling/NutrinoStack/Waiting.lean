import NutrinoStack.ByteChannel

namespace NutrinoStack.LedSystem

open Application CoreFsm MachineWords Relays Runs

def Active {C : Channel} (s : State C) : Prop :=
  (∃ q, s.queue q ≠ []) ∨ s.hand ≠ [] ∨ s.reply ≠ none

def SendRule.Fair (rule : SendRule) : Prop := ∀ q n, rule q n false → n ≠ 0

theorem bounded_fair {capacity : Queue → ℕ} (hc : ∀ q, 1 ≤ capacity q) : SendRule.Fair (bounded capacity) := by
  intro q n hn
  have := hc q
  simp only [bounded, beq_iff_eq, Bool.false_eq, decide_eq_false_iff_not] at hn
  omega

variable {C : Channel} {rule : SendRule} {sid : ℕ → ℤ} {d : Msgbuff} {tr : List Event} {s t : State C}

theorem put_queue_ne_nil (hrule : rule.Fair) {q : Queue} {placed : Bool} (hr : rule q (s.queue q).length placed)
    (p : Packet C) : (s.put q p placed).queue q ≠ [] := by
  cases placed with
  | true => simp [State.put]
  | false =>
    intro hnil
    apply hrule _ _ hr
    rw [State.put] at hnil
    rw [hnil, List.length_nil]

theorem move_waiting {e : Event} (hm : Move C rule sid s e t) {client : ℕ} {r : Request} {m : Msgbuff}
    (hw : t.waiting client = some (r, m)) :
    (∃ placed, e = .request r m placed ∧ r.number = s.issued ∧ r.client = client) ∨
      s.waiting client = some (r, m) ∧ ∀ r' p m', e = .clientRead r' p m' →
        ∃ client' m'', s.waiting client' = some (r', m'') ∧ client' ≠ client := by
  cases hm with
  | call client' c old placed hw' hr =>
    by_cases hc : c.waits ∧ client = client'
    · obtain ⟨hc, rfl⟩ := hc
      left
      obtain ⟨rfl, rfl⟩ : (⟨s.issued, client, c⟩ : Request) = r ∧ c.message (sid s.issued) old = m := by
        simpa [State.afterCall, hc] using hw
      exact ⟨placed, rfl, rfl, rfl⟩
    · right
      refine ⟨?_, by simp⟩
      rw [← hw]
      by_cases hcw : c.waits
      · have hne : client ≠ client' := fun h => hc ⟨hcw, h⟩
        simp [State.afterCall, hcw, hne]
      · simp [State.afterCall, hcw]
  | clientRead client' r' m' p rest hw' hq =>
    right
    have hne : client ≠ client' := by
      rintro rfl
      simp [State.afterClientRead] at hw
    refine ⟨by simpa [State.afterClientRead, hne] using hw, ?_⟩
    rintro _ _ _ ⟨⟩
    exact ⟨client', m', hw', hne.symm⟩
  | coreRead | deviceRead => exact .inr ⟨hw, by simp⟩
  | coreSend => exact .inr ⟨by simpa [State.afterCoreSend] using hw, by simp⟩
  | deviceSend => exact .inr ⟨by simpa [State.afterDeviceSend] using hw, by simp⟩

theorem waiting_request (h : Reaches C rule sid d tr s) :
    ∀ client r m, s.waiting client = some (r, m) → r ∈ requests tr ∧ r.client = client := by
  apply h.invariant (I := fun tr s => ∀ client r m, s.waiting client = some (r, m) →
    r ∈ requests tr ∧ r.client = client) (by simp [State.initial])
  intro tr s a e t _ ih hs client r m hw
  rcases move_waiting (step_move hs) hw with ⟨placed, rfl, -, hc⟩ | ⟨hold, -⟩
  · exact ⟨by simp [requests, Event.request?], hc⟩
  · obtain ⟨hr, hc⟩ := ih client r m hold
    exact ⟨by simp [hr], hc⟩

variable [Carrier C]

theorem onward_ne_nil {p : Parcel} (hp : p.target = .core) : p.onward ≠ [] := by
  obtain ⟨⟨n, client, c⟩, hop⟩ := p
  cases hop <;> cases c <;> simp_all [Parcel.target, Parcel.onward]

section

variable (hfit : ∀ p : Parcel, Carrier.Fits C (p.header sid))
include hfit

theorem move_active (hrule : rule.Fair) {e : Event} (h : Routed sid s) (hm : Move C rule sid s e t) :
    Active t ∨ ∃ client rest, s.waiting client ≠ none ∧ t = s.afterClientRead client rest := by
  cases hm with
  | call client c old placed hw hr =>
    left; left
    exact ⟨.core, put_queue_ne_nil hrule hr _⟩
  | clientRead client r m p rest hw hq => exact .inr ⟨client, rest, by simp [hw], rfl⟩
  | coreRead p rest hs hh hq =>
    left; right; left
    obtain ⟨-, hturn, -, hpar, -⟩ := core_read hfit h hq
    have hne := onward_ne_nil (h.packets .core p (by simp [hq])).1
    intro hnil
    apply hne
    rw [← hpar, ← hturn]
    simpa [State.afterCoreRead] using hnil
  | coreSend x rest placed hh hr =>
    left; left
    exact ⟨x.queue, put_queue_ne_nil (s := { s with hand := rest }) hrule hr _⟩
  | deviceRead p rest hp hq =>
    left; right; right
    simp [State.afterDeviceRead]
  | deviceSend p placed hp hr =>
    left; left
    exact ⟨.core, put_queue_ne_nil (s := { s with device := deviceAnswer s.device, reply := none }) hrule hr _⟩

theorem waiting_active (hrule : rule.Fair) (h : Reaches C rule sid d tr s) {client : ℕ}
    (hone : ∀ r ∈ requests tr, r.client = client) (hw : s.waiting client ≠ none) : Active s := by
  cases h with
  | nil => simp [State.initial] at hw
  | @snoc tr s _ a e hr hs =>
    rcases move_active hfit hrule (reaches_routed hfit hr) (step_move hs) with hactive | ⟨client', rest, hw', rfl⟩
    · exact hactive
    · obtain ⟨⟨r, m⟩, hm⟩ := Option.ne_none_iff_exists'.mp hw'
      obtain ⟨hmem, rfl⟩ := waiting_request hr _ r m hm
      obtain rfl : r.client = client := hone r (by simp [hmem])
      simp [State.afterClientRead] at hw

theorem bounded_waiting_active {capacity : Queue → ℕ} (hc : ∀ q, 1 ≤ capacity q) (client : ℕ)
    (h : Reaches C (bounded capacity) sid d tr s) (hone : ∀ r ∈ requests tr, r.client = client)
    (hw : s.waiting client ≠ none) : Active s :=
  waiting_active hfit (bounded_fair hc) h hone hw

end

theorem refused_waiting_active : ∃ tr s,
    Reaches (bytes amd64) (bounded fun _ => 1) (fun _ => sessionId) .zeroed tr s ∧
    (∃ r m, tr.getLast? = some (.request r m false)) ∧ s.waiting 0 ≠ none ∧ Active s := by
  have hrun : Reaches (bytes amd64) (bounded fun _ => 1) (fun _ => sessionId) .zeroed _ _ := run_exec
    [.call 0 .glowLed .zeroed true, .call 0 .glowLedWithBoardAck .zeroed false] rfl
  exact ⟨_, _, hrun, ⟨_, _, rfl⟩, Option.some_ne_none _,
    bounded_waiting_active header_fits (fun _ => le_rfl) 0 hrun (by decide) (Option.some_ne_none _)⟩

end NutrinoStack.LedSystem

import NutrinoStack.Exhaustion
import NutrinoStack.Takes

namespace NutrinoStack.LedSystem

open Application CoreFsm Relays Runs

def Event.collects : Event → Bool
  | .clientRead _ _ _ => true
  | _ => false

def collected (tr : List Event) : ℕ := tr.countP Event.collects

def waitingCount {C : Channel} (n : ℕ) (s : State C) : ℕ :=
  ∑ i ∈ Finset.range n, (s.waiting i).isSome.toNat

def waits (tr : List Event) : ℕ := ((requests tr).map fun r => r.call.waits.toNat).sum

variable {C : Channel} {rule : SendRule} {sid : ℕ → ℤ} {d : Msgbuff} {tr : List Event} {s t : State C}

theorem move_collected {e : Event} (hm : Move C rule sid s e t) :
    (if e.collects then 1 else 0) + (t.queue .application).length =
      (s.queue .application).length + if e.answers then 1 else 0 := by
  cases hm with
  | call client c old placed => cases placed <;> simp [Event.collects, Event.answers, State.afterCall, State.put]
  | clientRead client r m p rest hw hq => simp [Event.collects, Event.answers, State.afterClientRead, hq, add_comm]
  | coreRead p rest => simp [Event.collects, Event.answers, State.afterCoreRead]
  | coreSend x rest placed =>
    cases placed with
    | false => simp [Event.collects, Event.answers, State.afterCoreSend, State.put]
    | true =>
      by_cases hq : x.queue = .application
      · simp [Event.collects, Event.answers, State.afterCoreSend, State.put, hq]
      · have hne : Queue.application ≠ x.queue := Ne.symm hq
        simp [Event.collects, Event.answers, State.afterCoreSend, State.put, hq, Function.update_of_ne hne]
  | deviceRead p rest => simp [Event.collects, Event.answers, State.afterDeviceRead]
  | deviceSend p placed => cases placed <;> simp [Event.collects, Event.answers, State.afterDeviceSend, State.put]

theorem collected_balance (h : Reaches C rule sid d tr s) :
    collected tr + (s.queue .application).length = tr.countP Event.answers := by
  apply h.invariant (I := fun tr s => collected tr + (s.queue .application).length = tr.countP Event.answers) rfl
  intro tr t a e u _ ih hs
  have hstep := move_collected (step_move hs)
  simp only [collected, List.countP_append, List.countP_singleton] at ih ⊢
  omega

theorem waitingCount_update (s : State C) {n i : ℕ} (hi : i < n) (w : Option (Request × Msgbuff)) :
    ∑ j ∈ Finset.range n, (Function.update s.waiting i w j).isSome.toNat + (s.waiting i).isSome.toNat =
      waitingCount n s + w.isSome.toNat := by
  have hrest : ∑ j ∈ (Finset.range n).erase i, (Function.update s.waiting i w j).isSome.toNat =
      ∑ j ∈ (Finset.range n).erase i, (s.waiting j).isSome.toNat := by
    apply Finset.sum_congr rfl
    intro j hj
    rw [Function.update_of_ne (Finset.ne_of_mem_erase hj)]
  have hnew := Finset.add_sum_erase (Finset.range n) (fun j => (Function.update s.waiting i w j).isSome.toNat)
    (Finset.mem_range.mpr hi)
  have hold := Finset.add_sum_erase (Finset.range n) (fun j => (s.waiting j).isSome.toNat) (Finset.mem_range.mpr hi)
  simp only [Function.update_self] at hnew
  simp only [waitingCount]
  omega

theorem move_waitingCount {e : Event} {n : ℕ} (h : Reaches C rule sid d tr s)
    (hn : ∀ r ∈ requests (tr ++ [e]), r.client < n) (hm : Move C rule sid s e t) :
    (if e.collects then 1 else 0) + waitingCount n t = waitingCount n s + waits [e] := by
  cases hm with
  | call client c old placed hw hr =>
    have hlt : client < n := hn ⟨s.issued, client, c⟩ (by simp [requests, Event.request?])
    cases hc : c.waits
    · simp [Event.collects, waits, requests, Event.request?, State.afterCall, waitingCount, hc]
    · have hup := waitingCount_update s hlt (some (⟨s.issued, client, c⟩, c.message (sid s.issued) old))
      simpa [Event.collects, waits, requests, Event.request?, State.afterCall, waitingCount, hc, hw] using hup
  | clientRead client r m p rest hw hq =>
    obtain ⟨hr, rfl⟩ := waiting_request h client r m hw
    have hlt : r.client < n := hn r (by simp [hr])
    have hup := waitingCount_update s hlt none
    simpa [Event.collects, waits, requests, Event.request?, List.filterMap_cons, State.afterClientRead, waitingCount,
      hw, add_comm] using hup
  | coreRead p rest =>
    simp [Event.collects, waits, requests, Event.request?, List.filterMap_cons, State.afterCoreRead, waitingCount]
  | coreSend x rest placed =>
    simp [Event.collects, waits, requests, Event.request?, List.filterMap_cons, State.afterCoreSend, waitingCount]
  | deviceRead p rest =>
    simp [Event.collects, waits, requests, Event.request?, List.filterMap_cons, State.afterDeviceRead, waitingCount]
  | deviceSend p placed =>
    simp [Event.collects, waits, requests, Event.request?, List.filterMap_cons, State.afterDeviceSend, waitingCount]

theorem waiting_balance {n : ℕ} (h : Reaches C rule sid d tr s) (hn : ∀ r ∈ requests tr, r.client < n) :
    collected tr + waitingCount n s = waits tr := by
  revert hn
  apply h.invariant (I := fun tr s => (∀ r ∈ requests tr, r.client < n) → collected tr + waitingCount n s = waits tr)
  · simp [collected, waits, waitingCount, requests, State.initial]
  · intro tr t a e u hrun ih hs hn
    have hprev := ih fun r hr => hn r (by simp [hr])
    have hstep := move_waitingCount hrun hn (step_move hs)
    simp only [collected, waits, requests_append, List.map_append, List.sum_append, List.countP_append,
      List.countP_singleton] at hprev hstep ⊢
    omega

variable [Carrier C]

theorem credited_eq (A : Account network) (hplaced : ∀ e ∈ tr, e.refused = false) :
    A.credited (tr.map Event.relay) = ((requests tr).map fun r => A.unread ⟨r, .request⟩).sum := by
  induction tr with
  | nil => rfl
  | cons e tr ih =>
    have ht := ih fun x hx => hplaced x (by simp [hx])
    have he := hplaced e (by simp)
    simp only [Account.credited, requests, List.map_cons, List.sum_cons, List.map_map] at ht ⊢
    rw [ht]
    cases e with
    | request r m placed =>
      obtain rfl : placed = true := by simpa [Event.refused] using he
      simp [Event.relay, Account.credit, Event.request?]
    | _ => simp [Event.relay, Account.credit, Event.request?, List.filterMap_cons]

theorem gain_answers {e : Event} (h : e.Sound sid) : ackAccount.gain e.relay = if e.answers then 1 else 0 := by
  cases e with
  | coreSend x placed =>
    have hq := h.1
    cases placed with
    | false => simp [Event.relay, ackAccount, Event.answers]
    | true => by_cases ht : x.parcel.target = .application <;> simp [Event.relay, ackAccount, Event.answers, hq, ht]
  | clientRead r p m => simp [Event.relay, ackAccount, Event.answers, acksAhead_application h.1]
  | deviceSend p m placed =>
    have hp : p.target = .core := by simp [Parcel.target, h.1]
    cases placed <;> simp [Event.relay, ackAccount, Event.answers, hp]
  | _ => rfl

section

variable (hfit : ∀ p : Parcel, Carrier.Fits C (p.header sid))
include hfit

theorem outstanding_eq (A : Account network) (h : Reaches C reliable sid d tr s) :
    A.earned (tr.map Event.relay) + A.outstanding s.load = ((requests tr).map fun r => A.unread ⟨r, .request⟩).sum := by
  have hplaced := reaches_refused h
  have hsent : ∀ p, .sent p false ∉ tr.map Event.relay := by
    intro p hp
    obtain ⟨e, he, hep⟩ := List.mem_map.mp hp
    have := hplaced e he
    cases e <;> simp_all [Event.relay, Event.refused]
  have hrun := run_account A (reaches_relay hfit h) hsent
  rw [credited_eq A hplaced] at hrun
  simpa [Account.outstanding, Load.empty] using hrun

theorem answers_settled (h : Reaches C reliable sid d tr s) (hq : Quiet s) :
    tr.countP Event.answers = ((requests tr).map fun r => Parcel.acksAhead ⟨r, .request⟩).sum := by
  have hearned := earned_eq_countP ackAccount Event.relay Event.answers fun e he =>
    gain_answers (reaches_sound hfit h e he)
  have hzero := quiet_outstanding ackAccount (fun _ => acksAhead_application) (reaches_routed hfit h) hq
  have htotal := outstanding_eq hfit ackAccount h
  rwa [hzero, add_zero, hearned] at htotal

theorem application_settled {n : ℕ} (h : Reaches C reliable sid d tr s) (hq : Quiet s)
    (hn : ∀ r ∈ requests tr, r.client < n) :
    (s.queue .application).length + waits tr =
      ((requests tr).map fun r => Parcel.acksAhead ⟨r, .request⟩).sum + waitingCount n s := by
  have hcollected := collected_balance h
  have hwaiting := waiting_balance h hn
  have hsettled := answers_settled hfit h hq
  omega

end

end NutrinoStack.LedSystem

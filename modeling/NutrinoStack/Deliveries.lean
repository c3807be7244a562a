import NutrinoStack.Quiescence

namespace NutrinoStack.LedSystem

open Application CoreFsm MachineWords Relays Runs

def Event.delivers (r : Request) : Event → Bool
  | .deviceRead p _ => p.origin = r
  | _ => false

def deliveries (tr : List Event) (r : Request) : ℕ := tr.countP (Event.delivers r)

variable {C : Channel} [Carrier C] {rule : SendRule} {sid : ℕ → ℤ} {d : Msgbuff} {tr : List Event} {s : State C}

theorem gain_delivers {e : Event} (h : e.Sound sid) (r : Request) :
    (Account.of commandAccount r).gain e.relay = if e.delivers r then 1 else 0 := by
  cases e with
  | deviceRead p m =>
    have hp := target_device h.1
    simp [Event.relay, Account.of, Account.only, commandAccount, Event.delivers, Relays.Event.parcel, hp]
  | coreRead p m fn =>
    have hp : p.hop ≠ .command := by
      intro hp
      simp [Event.Sound, Parcel.target, hp] at h
    simp [Event.relay, Account.of, Account.only, commandAccount, Event.delivers, hp]
  | clientRead call p m =>
    simp [Event.relay, Account.of, Account.only, commandAccount, Event.delivers, commandsAhead_application h.1]
  | _ => simp [Event.relay, Account.of, Account.only, commandAccount, Event.delivers]

section

variable (hfit : ∀ p : Parcel, Carrier.Fits C (p.header sid))
include hfit

theorem deliveries_balance (h : Reaches C reliable sid d tr s) {r : Request} (hr : r ∈ requests tr) :
    deliveries tr r + (Account.of commandAccount r).outstanding s.load = Parcel.commandsAhead ⟨r, .request⟩ := by
  have he : (Account.of commandAccount r).earned (tr.map Event.relay) = deliveries tr r :=
    earned_eq_countP _ _ _ fun e he => gain_delivers (reaches_sound hfit h e he) r
  rw [← he]
  exact balance hfit commandAccount h hr

theorem deliveries_quiet (h : Reaches C reliable sid d tr s) (hq : Quiet s) {r : Request} (hr : r ∈ requests tr) :
    deliveries tr r = if r.call = .glowLed then 0 else 1 := by
  have hz : (Account.of commandAccount r).outstanding s.load = 0 := by
    apply quiet_outstanding _ _ (reaches_routed hfit h) hq
    intro p ht
    simp [Account.of, Account.only, commandAccount, commandsAhead_application ht]
  have := deliveries_balance hfit h hr
  rw [hz] at this
  exact this

theorem deliveries_iff (h : Reaches C reliable sid d tr s) (hq : Quiet s) :
    (∀ r ∈ requests tr, deliveries tr r = 1) ↔ ∀ r ∈ requests tr, r.call ≠ .glowLed := by
  have hd := fun r => deliveries_quiet hfit (r := r) h hq
  constructor
  · intro hall r hr hc
    have := hall r hr
    simp [hd r hr, hc] at this
  · intro hall r hr
    simp [hd r hr, hall r hr]

end

theorem board_delivered : ∃ tr s, Reaches (bytes amd64) reliable (fun _ => sessionId) .zeroed tr s ∧ Quiet s ∧
    requests tr = [⟨0, 0, .glowLedWithBoardAck⟩] ∧ ∀ r ∈ requests tr, deliveries tr r = 1 := by
  obtain ⟨tr, s, hrun, hq, hr, -⟩ := board_run
  exact ⟨tr, s, hrun, hq, hr, (deliveries_iff header_fits hrun hq).mpr (by simp [hr])⟩

theorem glowLed_undelivered : ¬ ∀ tr s, Reaches records reliable (fun _ => sessionId) .zeroed tr s → Quiet s →
    ∀ r ∈ requests tr, deliveries tr r = 1 := by
  intro hall
  have hone := hall _ _ (run_exec
    [.call 0 .glowLed .zeroed true, .coreRead, .coreSend true, .coreRead, .coreSend true] rfl) ⟨rfl, rfl, rfl, rfl⟩
  exact absurd (hone ⟨0, 0, .glowLed⟩ (by decide)) (by decide)

end NutrinoStack.LedSystem

import NutrinoStack.Quiescence

namespace NutrinoStack.LedSystem

open Application CoreFsm MachineWords Relays Runs

def Event.acknowledges (r : Request) : Event → Bool
  | .coreSend x true => x.queue = .application ∧ x.parcel.origin = r
  | _ => false

def acks (tr : List Event) (r : Request) : ℕ := tr.countP (Event.acknowledges r)

structure AckAccounting {C : Channel} (tr : List Event) (s : State C) : Prop where
  silent : ∀ r ∈ requests tr, r.call = .glowLed → acks tr r = 0
  atMostOne : ∀ r ∈ requests tr, r.call ≠ .glowLed → acks tr r ≤ 1
  settled : Quiet s → ∀ r ∈ requests tr, r.call ≠ .glowLed → acks tr r = 1

variable {C : Channel} [Carrier C] {rule : SendRule} {sid : ℕ → ℤ} {d : Msgbuff} {tr : List Event} {s : State C}

theorem gain_acknowledges {e : Event} (h : e.Sound sid) (r : Request) :
    (Account.of ackAccount r).gain e.relay = if e.acknowledges r then 1 else 0 := by
  cases e with
  | coreSend x placed =>
    have hq := h.1
    cases placed with
    | false => simp [Event.relay, Account.of, Account.only, ackAccount, Event.acknowledges]
    | true =>
      by_cases hr : x.parcel.origin = r <;> by_cases ht : x.parcel.target = .application <;>
        simp [Event.relay, Account.of, Account.only, ackAccount, Event.acknowledges, Relays.Event.parcel, hq, hr, ht]
  | clientRead call p m =>
    simp [Event.relay, Account.of, Account.only, ackAccount, Event.acknowledges, acksAhead_application h.1]
  | deviceSend p m placed =>
    have hp : p.target = .core := by simp [Parcel.target, h.1]
    cases placed <;> simp [Event.relay, Account.of, Account.only, ackAccount, Event.acknowledges, hp]
  | _ => simp [Event.relay, Account.of, Account.only, ackAccount, Event.acknowledges]

section

variable (hfit : ∀ p : Parcel, Carrier.Fits C (p.header sid))
include hfit

theorem acks_earned (h : Reaches C rule sid d tr s) (r : Request) :
    (Account.of ackAccount r).earned (tr.map Event.relay) = acks tr r :=
  earned_eq_countP _ _ _ fun e he => gain_acknowledges (reaches_sound hfit h e he) r

theorem acks_balance (h : Reaches C reliable sid d tr s) {r : Request} (hr : r ∈ requests tr) :
    acks tr r + (Account.of ackAccount r).outstanding s.load = Parcel.acksAhead ⟨r, .request⟩ := by
  rw [← acks_earned hfit h r]
  exact balance hfit ackAccount h hr

theorem acks_quiet (h : Reaches C reliable sid d tr s) (hq : Quiet s) {r : Request} (hr : r ∈ requests tr) :
    acks tr r = Parcel.acksAhead ⟨r, .request⟩ := by
  have hz : (Account.of ackAccount r).outstanding s.load = 0 := by
    apply quiet_outstanding _ _ (reaches_routed hfit h) hq
    intro p ht
    simp [Account.of, Account.only, ackAccount, acksAhead_application ht]
  have := acks_balance hfit h hr
  omega

theorem accounting_iff (h : Reaches C reliable sid d tr s) :
    (∀ tr' t, Run (step C reliable sid) s tr' t → requests tr' = [] → AckAccounting (tr ++ tr') t) ↔
      ∀ r ∈ requests tr, r.call = .glowLedWithBoardAck := by
  constructor
  · intro hacc r hr
    obtain ⟨tr', t, hrun, htr', hquiet⟩ := drain hfit (reaches_routed hfit h)
    have ha := hacc tr' t hrun htr'
    have hr' : r ∈ requests (tr ++ tr') := by simp [hr]
    have hn := acks_quiet hfit (h.trans hrun) hquiet hr'
    obtain ⟨n, client, c⟩ := r
    cases c with
    | glowLed =>
      have := ha.silent _ hr' rfl
      simp [hn, Parcel.acksAhead] at this
    | glowLedWithFsmAck =>
      have := ha.atMostOne _ hr' (by simp)
      simp [hn, Parcel.acksAhead] at this
    | glowLedWithBoardAck => rfl
  · intro hboard tr' t hrun htr'
    have hreach := h.trans hrun
    have hcall : ∀ r ∈ requests (tr ++ tr'), r.call = .glowLedWithBoardAck := by
      simpa [htr'] using hboard
    have hworth : ∀ r ∈ requests (tr ++ tr'), Parcel.acksAhead ⟨r, .request⟩ = 1 := by
      intro r hr
      simp [Parcel.acksAhead, hcall r hr]
    refine ⟨fun r hr hg => ?_, fun r hr _ => ?_, fun hq r hr _ => ?_⟩
    · simp [hcall r hr] at hg
    · have := acks_balance hfit hreach hr
      have := hworth r hr
      omega
    · rw [acks_quiet hfit hreach hq hr, hworth r hr]

end

theorem accounting_board : ∃ tr s, Reaches (bytes amd64) reliable (fun _ => sessionId) .zeroed tr s ∧ Quiet s ∧
    requests tr = [⟨0, 0, .glowLedWithBoardAck⟩] ∧ acks tr ⟨0, 0, .glowLedWithBoardAck⟩ = 1 ∧
    ∀ tr' t, Run (step (bytes amd64) reliable fun _ => sessionId) s tr' t → requests tr' = [] →
      AckAccounting (tr ++ tr') t := by
  obtain ⟨tr, s, hrun, hq, hr, -⟩ := board_run
  refine ⟨tr, s, hrun, hq, hr, ?_, (accounting_iff header_fits hrun).mpr (by simp [hr])⟩
  rw [acks_quiet header_fits hrun hq (by simp [hr])]
  rfl

theorem glowLed_acknowledged :
    ¬ ∀ tr s, Reaches records reliable (fun _ => sessionId) .zeroed tr s → AckAccounting tr s := by
  intro hall
  have hacc := hall _ _ (run_exec
    [.call 0 .glowLed .zeroed true, .coreRead, .coreSend true, .coreRead, .coreSend true] rfl)
  have := hacc.silent ⟨0, 0, .glowLed⟩ (by decide) rfl
  exact absurd this (by decide)

end NutrinoStack.LedSystem

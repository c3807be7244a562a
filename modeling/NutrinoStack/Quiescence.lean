import NutrinoStack.Balances
import NutrinoStack.ByteChannel

namespace NutrinoStack.LedSystem

open Application CoreFsm MachineWords Relays Runs

structure Quiet {C : Channel} (s : State C) : Prop where
  core : s.queue .core = []
  device : s.queue .device = []
  hand : s.hand = []
  reply : s.reply = none

variable {C : Channel} [Carrier C] {sid : ℕ → ℤ} {d : Msgbuff} {tr : List Event} {s : State C}

theorem quiet_outstanding (A : Account network) (hA : ∀ p, p.target = .application → A.unread p = 0)
    (h : Routed sid s) (hq : Quiet s) : A.outstanding s.load = 0 := by
  have hqueue : ∀ q, ((s.load.queue q).map A.unread).sum = 0 := by
    intro q
    cases q with
    | device => simp [State.load, hq.device]
    | application =>
      apply List.sum_eq_zero
      intro n hn
      obtain ⟨p, hp, rfl⟩ := List.mem_map.mp hn
      obtain ⟨x, hx, rfl⟩ := List.mem_map.mp hp
      exact hA _ (h.packets _ x hx).1
    | core => simp [State.load, hq.core]
  have hhand : ∀ q, ((s.load.hand q).map A.unsent).sum = 0 := by
    intro q
    cases q <;> simp [State.load, hq.hand, hq.reply]
  simp only [Account.outstanding, hqueue, hhand, Finset.sum_const_zero, add_zero]

theorem busy_move (h : Routed sid s) (hq : ¬ Quiet s) :
    ∃ e t, Move C reliable sid s e t ∧ e.request? = none ∧ 1 ≤ workAccount.gain e.relay := by
  cases hh : s.hand with
  | cons x rest => exact ⟨_, _, .coreSend x rest true hh rfl, rfl, le_rfl⟩
  | nil =>
    cases hc : s.queue .core with
    | cons p rest =>
      have htarget := (h.packets .core p (by simp [hc])).1
      exact ⟨_, _, .coreRead p rest h.idle.running hh hc, rfl, by simp [workAccount, Event.relay, htarget]⟩
    | nil =>
      cases hr : s.reply with
      | some p => exact ⟨_, _, .deviceSend p true hr rfl, rfl, le_rfl⟩
      | none =>
        cases hd : s.queue .device with
        | cons p rest =>
          have htarget := (h.packets .device p (by simp [hd])).1
          exact ⟨_, _, .deviceRead p rest hr hd, rfl, by simp [workAccount, Event.relay, htarget]⟩
        | nil => exact (hq ⟨hc, hd, hh, hr⟩).elim

theorem drain (hfit : ∀ p : Parcel, Carrier.Fits C (p.header sid)) (h : Routed sid s) :
    ∃ tr t, Run (step C reliable sid) s tr t ∧ requests tr = [] ∧ Quiet t := by
  generalize hn : workAccount.outstanding s.load = n
  induction n using Nat.strong_induction_on generalizing s with
  | _ n ih =>
    by_cases hq : Quiet s
    · exact ⟨[], s, .nil, rfl, hq⟩
    · obtain ⟨e, t, hmove, hreq, hgain⟩ := busy_move h hq
      obtain ⟨a, hs⟩ := move_step hmove
      obtain ⟨b, hb⟩ := move_relay hfit h hmove
      have hcredit : workAccount.credit e.relay = 0 := by
        cases e <;> first | rfl | simp [Event.request?] at hreq
      have hwork := (step_account workAccount hb).1
      obtain ⟨tr, u, hrun, htr, hu⟩ := ih _ (by omega) (move_routed hfit h hmove) rfl
      exact ⟨e :: tr, u, (Run.single hs).trans hrun, by simp [requests, hreq] at htr ⊢; exact htr, hu⟩

theorem board_run : ∃ tr s, Reaches (bytes amd64) reliable (fun _ => sessionId) .zeroed tr s ∧ Quiet s ∧
    requests tr = [⟨0, 0, .glowLedWithBoardAck⟩] ∧
    ∃ m p, s.waiting 0 = some (⟨0, 0, .glowLedWithBoardAck⟩, m) ∧ s.queue .application = [p] := by
  obtain ⟨tr, s, hrun, hs⟩ := run_any (step (bytes amd64) reliable fun _ => sessionId) (State.initial _ .zeroed)
    [.call 0 .glowLedWithBoardAck .zeroed true, .coreRead, .coreSend true, .deviceRead, .deviceSend true, .coreRead,
      .coreSend true]
    (p := fun r => decide (((r.2.queue .core).length = 0 ∧ (r.2.queue .device).length = 0 ∧ r.2.hand.length = 0 ∧
      r.2.reply = none) ∧ requests r.1 = [⟨0, 0, .glowLedWithBoardAck⟩] ∧
      (r.2.waiting 0).map Prod.fst = some ⟨0, 0, .glowLedWithBoardAck⟩ ∧ (r.2.queue .application).length = 1))
    (by decide +kernel)
  obtain ⟨⟨hc, hd, hh, hr⟩, hreq, hw, hq⟩ := of_decide_eq_true hs
  obtain ⟨⟨r, m⟩, hm, rfl⟩ := Option.map_eq_some_iff.mp hw
  obtain ⟨p, hp⟩ := List.length_eq_one_iff.mp hq
  exact ⟨tr, s, hrun, ⟨List.length_eq_zero_iff.mp hc, List.length_eq_zero_iff.mp hd, List.length_eq_zero_iff.mp hh, hr⟩,
    hreq, m, p, hm, hp⟩

end NutrinoStack.LedSystem

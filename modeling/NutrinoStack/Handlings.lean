import NutrinoStack.ByteChannel

namespace NutrinoStack.LedSystem

open Application CoreFsm MachineWords Runs

def Pending.fsm (q : Queue) (z : ℤ) (x : Pending) : Bool :=
  x.fn = .initLed ∧ x.cause.msgEvent = evSendToCore ∧ x.msg.msgSessionId = z ∧ x.queue = q

def Event.fsmSend (q : Queue) (z : ℤ) (done : Bool) : Event → Bool
  | .coreSend x placed => x.fsm q z && placed == done
  | _ => false

def Event.fsmHandling (z : ℤ) : Event → Bool
  | .coreRead _ m fn => fn = some .initLed ∧ m.msgEvent = evSendToCore ∧ m.msgSessionId = z
  | _ => false

def fsmPlaced (tr : List Event) (q : Queue) (z : ℤ) : ℕ := tr.countP (Event.fsmSend q z true)

def fsmRefused (tr : List Event) (q : Queue) (z : ℤ) : ℕ := tr.countP (Event.fsmSend q z false)

def fsmHandlings (tr : List Event) (z : ℤ) : ℕ := tr.countP (Event.fsmHandling z)

variable {C : Channel} {rule : SendRule} {sid : ℕ → ℤ} {d : Msgbuff} {tr : List Event} {s t : State C}

theorem iteration_sends (g : Globals) (m : Msgbuff) :
    (iteration g m).1 = ⟨none, []⟩ ∨ ∃ f : Handler, (iteration g m).1 = ⟨some f, (f.run m).sends⟩ := by
  simp only [iteration, receive_msg]
  cases dispatch (getMessageStateEvent g m) with
  | none => exact .inl rfl
  | some row => exact .inr ⟨row.fn, rfl⟩

theorem handling_pending (g : Globals) (p : Parcel) (m : Msgbuff) (z : ℤ) {q : Queue} (hq : q ≠ .core) :
    (pending p m (iteration g m).1).countP (Pending.fsm q z) =
      if Event.fsmHandling z (.coreRead p m (iteration g m).1.fn) then 1 else 0 := by
  rcases iteration_sends g m with h | ⟨f, h⟩
  · simp [h, pending, Event.fsmHandling]
  · rw [h]
    cases f with
    | sendAck =>
      apply List.countP_eq_zero.mpr
      intro x hx
      obtain ⟨y, -, rfl⟩ := List.mem_map.mp hx
      simp [Pending.fsm]
    | initLed =>
      by_cases he : m.msgEvent = evSendToCore
      · by_cases hz : m.msgSessionId = z <;>
          cases q <;> simp_all [pending, Handler.run, initLed, Pending.fsm, Event.fsmHandling]
      · simp [pending, Pending.fsm, Event.fsmHandling, he, List.countP_eq_zero]

theorem move_handlings {e : Event} (hm : Move C rule sid s e t) (z : ℤ) {q : Queue} (hq : q ≠ .core) :
    (if e.fsmSend q z true then 1 else 0) + (if e.fsmSend q z false then 1 else 0) +
      t.hand.countP (Pending.fsm q z) = s.hand.countP (Pending.fsm q z) + if e.fsmHandling z then 1 else 0 := by
  cases hm with
  | call => simp [Event.fsmSend, Event.fsmHandling, State.afterCall]
  | clientRead client r m p rest => simp [Event.fsmSend, Event.fsmHandling, State.afterClientRead]
  | coreRead p rest hs hh hq' =>
    have := handling_pending s.core p.parcel (C.recv s.core.msg p.wire) z hq
    simp [Event.fsmSend, State.afterCoreRead, hh, this]
  | coreSend x rest placed hh hr =>
    cases placed <;>
      simp [Event.fsmSend, Event.fsmHandling, State.afterCoreSend, hh, List.countP_cons, add_comm]
  | deviceRead p rest => simp [Event.fsmSend, Event.fsmHandling, State.afterDeviceRead]
  | deviceSend => simp [Event.fsmSend, Event.fsmHandling, State.afterDeviceSend]

theorem reaches_handlings (h : Reaches C rule sid d tr s) (z : ℤ) {q : Queue} (hq : q ≠ .core) :
    fsmPlaced tr q z + fsmRefused tr q z + s.hand.countP (Pending.fsm q z) = fsmHandlings tr z := by
  apply h.invariant (I := fun tr s =>
    fsmPlaced tr q z + fsmRefused tr q z + s.hand.countP (Pending.fsm q z) = fsmHandlings tr z) rfl
  intro tr t a e u _ ih hs
  have hstep := move_handlings (step_move hs) z hq
  simp only [fsmPlaced, fsmRefused, fsmHandlings, List.countP_append, List.countP_singleton] at ih ⊢
  omega

theorem bounded_handlings {capacity : Queue → ℕ} (h : Reaches C (bounded capacity) sid d tr s)
    (hh : s.hand = []) (z : ℤ) :
    fsmPlaced tr .application z + fsmRefused tr .application z = fsmHandlings tr z ∧
      fsmPlaced tr .device z + fsmRefused tr .device z = fsmHandlings tr z ∧
      (fsmPlaced tr .application z = fsmPlaced tr .device z ↔
        fsmRefused tr .application z = fsmRefused tr .device z) := by
  have happ := reaches_handlings h z (q := .application) nofun
  have hdev := reaches_handlings h z (q := .device) nofun
  simp only [hh, List.countP_nil, add_zero] at happ hdev
  exact ⟨happ, hdev, by omega⟩

def slowDevice : List Action :=
  [.call 0 .glowLedWithFsmAck .zeroed true, .coreRead, .coreSend true, .coreSend true, .clientRead 0,
    .call 0 .glowLedWithFsmAck .zeroed true, .coreRead, .coreSend true, .coreSend false]

theorem slowDevice_handlings : ∃ tr s,
    Reaches (bytes amd64) (bounded fun _ => 1) (fun _ => sessionId) .zeroed tr s ∧ s.hand = [] ∧
    fsmHandlings tr sessionId = 2 ∧
    (fsmPlaced tr .application sessionId + fsmRefused tr .application sessionId = fsmHandlings tr sessionId ∧
      fsmPlaced tr .device sessionId + fsmRefused tr .device sessionId = fsmHandlings tr sessionId ∧
      (fsmPlaced tr .application sessionId = fsmPlaced tr .device sessionId ↔
        fsmRefused tr .application sessionId = fsmRefused tr .device sessionId)) := by
  obtain ⟨tr, s, hrun, hs⟩ := run_any (step (bytes amd64) (bounded fun _ => 1) fun _ => sessionId)
    (State.initial _ .zeroed) slowDevice
    (p := fun r => decide (r.2.hand.length = 0 ∧ fsmHandlings r.1 sessionId = 2)) (by decide +kernel)
  obtain ⟨hlen, htwo⟩ := of_decide_eq_true hs
  have hhand := List.length_eq_zero_iff.mp hlen
  exact ⟨tr, s, hrun, hhand, htwo, bounded_handlings hrun hhand sessionId⟩

theorem slowDevice_unbalanced :
    ¬ ∀ (capacity : Queue → ℕ) (tr : List Event) (s : State records),
      Reaches records (bounded capacity) (fun _ => sessionId) .zeroed tr s → s.hand = [] →
        ∀ z, fsmPlaced tr .application z = fsmPlaced tr .device z := by
  intro hall
  have hrun : Reaches records (bounded fun _ => 1) (fun _ => sessionId) .zeroed _ _ := run_exec slowDevice rfl
  have := hall _ _ _ hrun rfl sessionId
  exact absurd this (by decide)

end NutrinoStack.LedSystem

import NutrinoStack.ApplicationHandler
import NutrinoStack.CoreLoop
import NutrinoStack.QueueStore

namespace NutrinoStack.LedStack

open Application CoreFsm Interactions MessageQueues Processes QueueManager Reductions Stores

abbrev operations : Interface := commands Key Msgbuff

/-! `core/src/core_fsm.c` -/

def initLed (m : Msgbuff) : Prog operations ℤ :=
  if m.msgEvent = evSendToCoreNoAck then do
    let m := { m with msgState := stSendToDevice, msgEvent := evSendToDeviceNoAck }
    let _ ← queueWrite Queue.core.name m
    return 0
  else if m.msgEvent = evSendToCore then do
    let m := { m with msgState := stSendAck, msgEvent := evSendToApp }
    let _ ← queueWrite Queue.application.name m
    let m := { m with msgState := stSendToDevice, msgEvent := evSendToDeviceNoAck }
    let _ ← queueWrite Queue.device.name m
    return 0
  else if m.msgEvent = evSendToCoreDevAck then do
    let m := { m with msgState := stSendToDevice, msgEvent := evSendToDevice }
    let m := m.withText heyDevice
    let _ ← queueWrite Queue.device.name m
    return 0
  else return 0

def sendAck (m : Msgbuff) : Prog operations ℤ :=
  if evSendToDevice ≠ 0 then do
    let m := { m with msgState := stSendAck, msgEvent := evSendToApp }
    let m := m.withText ackForApplication
    let _ ← queueWrite Queue.application.name m
    return 0
  else return 0

def handle : Handler → Msgbuff → Prog operations ℤ
  | .initLed => LedStack.initLed
  | .sendAck => LedStack.sendAck

def getMessageStateEvent (g : Globals) : Prog operations Globals := do
  let (_, msg) ← queueRead Queue.core.name g.msg
  if msg.msgType = msgTypeGlowLed then return { g with msg := msg, state := msg.msgState, event := msg.msgEvent }
  return { g with msg := msg }

def callTransition (g : Globals) : Prog operations Globals :=
  match dispatch g with
  | some t => do
    let state ← handle t.fn g.msg
    return { g with state := state }
  | none => return g

def turn (g : Globals) : Prog operations Globals := do
  let g ← getMessageStateEvent g
  callTransition g

inductive Stage
  | start
  | loop (g : Globals)

def main : Stage → Option (Prog operations Stage)
  | .start => some do
    let _ ← queueInit Queue.core.name
    let _ ← queueInit Queue.application.name
    let _ ← queueInit Queue.device.name
    return .loop Globals.initial
  | .loop g =>
    if g.state = stTerm then none
    else some do
      let g ← turn g
      return .loop g

/-! `application/callback_tester.c` -/

def deviceWrapper (msg : Msgbuff) : Prog operations Msgbuff := do
  let (_, msg) ← queueRead Queue.device.name msg
  let msg := deviceAnswer msg
  let _ ← queueWrite Queue.core.name msg
  return msg

/-! `application/application_handler.c` -/

def request (c : Call) (old : Msgbuff) : Prog operations ℤ := do
  let msg := c.message sessionId old
  let _ ← queueWrite Queue.core.name msg
  if c.waits then
    let _ ← queueRead Queue.application.name msg
    return 0
  return 0

abbrev Script : Type := List (Call × Msgbuff)

def client : Script → Option (Prog operations Script)
  | [] => none
  | (c, old) :: rest => some do
    let _ ← request c old
    return rest

inductive Process
  | core
  | device
  | client (i : ℕ)
  deriving DecidableEq

abbrev Process.Memory : Process → Type
  | .core => Stage
  | .device => Msgbuff
  | .client _ => Script

def Send.place (x : Send) : Key × Msgbuff := (x.queue.name, x.msg)

theorem initLed_writes (m : Msgbuff) :
    LedStack.initLed m = writes ((CoreFsm.initLed m).sends.map Send.place) (CoreFsm.initLed m).result := by
  unfold LedStack.initLed CoreFsm.initLed
  split_ifs <;> rfl

theorem sendAck_writes (m : Msgbuff) :
    LedStack.sendAck m = writes ((CoreFsm.sendAck m).sends.map Send.place) (CoreFsm.sendAck m).result := by
  unfold LedStack.sendAck CoreFsm.sendAck
  split_ifs <;> rfl

theorem handle_writes (f : Handler) (m : Msgbuff) :
    handle f m = writes ((f.run m).sends.map Send.place) (f.run m).result := by
  cases f with
  | initLed => exact initLed_writes m
  | sendAck => exact sendAck_writes m

theorem getMessageStateEvent_read (g : Globals) :
    LedStack.getMessageStateEvent g =
      .call (I := operations) (.read Queue.core.name g.msg) fun got : ℤ × Msgbuff =>
        .done (CoreFsm.getMessageStateEvent g got.2) := by
  apply congrArg (Prog.call (I := operations) (.read Queue.core.name g.msg))
  funext got
  unfold CoreFsm.getMessageStateEvent
  by_cases ht : got.2.msgType = msgTypeGlowLed
  · exact (if_pos ht).trans (by rw [if_pos ht]; rfl)
  · exact (if_neg ht).trans (by rw [if_neg ht]; rfl)

theorem callTransition_writes (g : Globals) (msg : Msgbuff) :
    callTransition (CoreFsm.getMessageStateEvent g msg) =
      writes ((iteration g msg).1.sends.map Send.place) (iteration g msg).2 := by
  rw [callTransition, iteration]
  cases dispatch (CoreFsm.getMessageStateEvent g msg) with
  | none => rfl
  | some t =>
    simp only [handle_writes]
    exact writes_bind _ _ _

def answers (g : Globals) (msg : Msgbuff) : Prog operations Stage :=
  writes ((iteration g msg).1.sends.map Send.place) (.loop (iteration g msg).2)

def starts : List Queue → Prog operations Stage
  | [] => .done (.loop Globals.initial)
  | q :: qs => .call (I := operations) (.init q.name) fun _ => starts qs

theorem main_start : main .start = some (starts [.core, .application, .device]) := rfl

theorem main_loop {g : Globals} (hg : g.state ≠ stTerm) :
    main (.loop g) = some (.call (I := operations) (.read Queue.core.name g.msg) fun got : ℤ × Msgbuff =>
      answers g got.2) := by
  rw [main, if_neg hg, turn, getMessageStateEvent_read]
  apply congrArg (fun next => some (Prog.call (I := operations) (.read Queue.core.name g.msg) next))
  funext got
  refine Eq.trans ?_ (writes_bind _ _ Stage.loop)
  rw [← callTransition_writes]
  rfl

def replies (msg : Msgbuff) : Prog operations Msgbuff :=
  .call (I := operations) (.write Queue.core.name (deviceAnswer msg)) fun _ => .done (deviceAnswer msg)

theorem deviceWrapper_read (msg : Msgbuff) :
    deviceWrapper msg = .call (I := operations) (.read Queue.device.name msg) fun got : ℤ × Msgbuff => replies got.2 :=
  rfl

def awaits (c : Call) (msg : Msgbuff) (rest : Script) : Prog operations Script :=
  if c.waits then .call (I := operations) (.read Queue.application.name msg) fun _ => .done rest else .done rest

theorem client_write (c : Call) (m : Msgbuff) (rest : Script) :
    client ((c, m) :: rest) = some (.call (I := operations) (.write Queue.core.name (c.message sessionId m)) fun _ =>
      awaits c (c.message sessionId m) rest) := by
  cases c <;> rfl

def programs : Family operations Process where
  Memory := Process.Memory
  body
    | .core => main
    | .device => fun msg => some (deviceWrapper msg)
    | .client _ => client
  active i m a h := by
    cases i with
    | core =>
      cases m with
      | start => cases h
      | loop g =>
        by_cases hg : g.state = stTerm
        · simp [main, hg] at h
        · cases (main_loop hg).symm.trans h
    | device => cases h
    | client i =>
      cases m with
      | nil => cases h
      | cons x rest => cases (client_write x.1 x.2 rest).symm.trans h

theorem request_program (P : MachineWords.Platform) (c : Call) (m : Msgbuff) :
    translate (manager P).program (request c m) = ApplicationHandler.program P c m := by
  have hw : translate (manager P).program (queueWrite Queue.core.name (c.message sessionId m)) =
      messageQueueWrite P Queue.core.key (c.message sessionId m) := translate_perform _ _
  have hr : translate (manager P).program (queueRead Queue.application.name (c.message sessionId m)) =
      messageQueueRead P Queue.application.key (c.message sessionId m) := translate_perform _ _
  rw [request, translate_bind, hw]
  cases c with
  | glowLed => rfl
  | glowLedWithFsmAck | glowLedWithBoardAck =>
    apply congrArg (messageQueueWrite P Queue.core.key _ >>= ·)
    funext _
    refine (translate_bind _ _ _).trans ?_
    rw [hr]
    rfl

end NutrinoStack.LedStack

import NutrinoStack.Messages

namespace NutrinoStack.CoreFsm

open CStrings

structure Send where
  queue : Queue
  msg : Msgbuff

inductive Handler
  | initLed
  | sendAck
  deriving DecidableEq

structure Response where
  sends : List Send
  result : ℤ

def heyDevice : List UInt8 := literal "Hey Device Please GLow the LED\n"

def ackForApplication : List UInt8 := literal "Ack for the Application\n"

theorem core_text_plain : Plain 11 heyDevice ∧ Plain 11 ackForApplication := by decide +kernel

def initLed (m : Msgbuff) : Response :=
  if m.msgEvent = evSendToCoreNoAck then
    let m := { m with msgState := stSendToDevice, msgEvent := evSendToDeviceNoAck }
    ⟨[⟨.core, m⟩], 0⟩
  else if m.msgEvent = evSendToCore then
    let m₁ := { m with msgState := stSendAck, msgEvent := evSendToApp }
    let m₂ := { m₁ with msgState := stSendToDevice, msgEvent := evSendToDeviceNoAck }
    ⟨[⟨.application, m₁⟩, ⟨.device, m₂⟩], 0⟩
  else if m.msgEvent = evSendToCoreDevAck then
    let m := { m with msgState := stSendToDevice, msgEvent := evSendToDevice }
    ⟨[⟨.device, m.withText heyDevice⟩], 0⟩
  else ⟨[], 0⟩

/-- Both conditions of the source test an event constant, which is never zero. -/
def sendAck (m : Msgbuff) : Response :=
  if evSendToDevice ≠ 0 then
    let m := { m with msgState := stSendAck, msgEvent := evSendToApp }
    ⟨[⟨.application, m.withText ackForApplication⟩], 0⟩
  else ⟨[], 0⟩

def Handler.run : Handler → Msgbuff → Response
  | .initLed => CoreFsm.initLed
  | .sendAck => CoreFsm.sendAck

structure Transition where
  st : ℤ
  ev : ℤ
  fn : Handler
  deriving DecidableEq

def trans : List Transition :=
  [⟨stInit, evSendToCoreNoAck, .initLed⟩,
   ⟨stInit, evSendToCore, .initLed⟩,
   ⟨stInit, evSendToCoreDevAck, .initLed⟩,
   ⟨stSendToDevice, evSendToDeviceNoAck, .sendAck⟩,
   ⟨stSendToDevice, evSendToDevice, .sendAck⟩]

def rowFor (state event : ℤ) : Option Transition :=
  trans.find? fun t => state = t.st ∧ event = t.ev

structure Globals where
  state : ℤ
  event : ℤ
  messageType : ℤ
  msg : Msgbuff

def Globals.initial : Globals := ⟨stInit, 0, 0, .zeroed⟩

def getMessageStateEvent (g : Globals) (received : Msgbuff) : Globals :=
  if received.msgType = msgTypeGlowLed then
    { g with msg := received, state := received.msgState, event := received.msgEvent }
  else { g with msg := received }

def dispatch (g : Globals) : Option Transition :=
  if g.messageType = msgTypeGlowLed then rowFor g.state g.event else none

structure Turn where
  fn : Option Handler
  sends : List Send

def iteration (g : Globals) (received : Msgbuff) : Turn × Globals :=
  let g := getMessageStateEvent g received
  match dispatch g with
  | some t =>
    let r := t.fn.run g.msg
    (⟨some t.fn, r.sends⟩, { g with state := r.result })
  | none => (⟨none, []⟩, g)

structure LoopRun where
  turns : List Turn
  unread : List Msgbuff
  globals : Globals

def loop (g : Globals) : List Msgbuff → LoopRun
  | [] => ⟨[], [], g⟩
  | m :: ms =>
    if g.state = stTerm then ⟨[], m :: ms, g⟩
    else
      let r := loop (iteration g m).2 ms
      ⟨(iteration g m).1 :: r.turns, r.unread, r.globals⟩

def main (received : List Msgbuff) : LoopRun := loop Globals.initial received

end NutrinoStack.CoreFsm

import NutrinoStack.Application
import NutrinoStack.CoreFsm
import NutrinoStack.Runs

namespace NutrinoStack.LedSystem

open Application CoreFsm Runs

/-- How the kernel carries a struct: what lies on the queue, and what a read leaves in the receiver's struct. -/
structure Channel where
  Wire : Type
  send : Msgbuff → Wire
  recv : Msgbuff → Wire → Msgbuff

abbrev records : Channel := ⟨Msgbuff, id, fun _ m => m⟩

structure Request where
  number : ℕ
  client : ℕ
  call : Call
  deriving DecidableEq

inductive Hop
  | request
  | requeue
  | command
  | answer
  | initAck
  | finalAck
  deriving DecidableEq

/-- The attribution of a message: the request whose handling produced it, and the send that did. -/
structure Parcel where
  origin : Request
  hop : Hop
  deriving DecidableEq

def hopOf : Handler → Queue → Hop
  | .initLed, .core => .requeue
  | .initLed, .device => .command
  | .initLed, .application => .initAck
  | .sendAck, _ => .finalAck

structure Packet (C : Channel) where
  wire : C.Wire
  parcel : Parcel

structure Pending where
  fn : Handler
  cause : Msgbuff
  queue : Queue
  msg : Msgbuff
  parcel : Parcel

/-- `hand` and `reply` are the sends the core and the device wrapper make before they read again, `waiting` the
struct in which a blocked client receives. -/
structure State (C : Channel) where
  queue : Queue → List (Packet C)
  core : Globals
  hand : List Pending
  device : Msgbuff
  reply : Option Parcel
  waiting : ℕ → Option (Request × Msgbuff)
  issued : ℕ

variable {C : Channel}

def State.initial (C : Channel) (d : Msgbuff) : State C where
  queue _ := []
  core := Globals.initial
  hand := []
  device := d
  reply := none
  waiting _ := none
  issued := 0

abbrev SendRule := Queue → ℕ → Bool → Bool

def reliable : SendRule := fun _ _ placed => placed

def lossy : SendRule := fun _ _ _ => true

def bounded (capacity : Queue → ℕ) : SendRule := fun q n placed => placed == decide (n < capacity q)

def State.put (s : State C) (q : Queue) (p : Packet C) : Bool → State C
  | true => { s with queue := Function.update s.queue q (s.queue q ++ [p]) }
  | false => s

@[simp] theorem put_hand (s : State C) (q : Queue) (p : Packet C) (placed : Bool) :
    (s.put q p placed).hand = s.hand := by
  cases placed <;> rfl

@[simp] theorem put_waiting (s : State C) (q : Queue) (p : Packet C) (placed : Bool) :
    (s.put q p placed).waiting = s.waiting := by
  cases placed <;> rfl

inductive Action
  | call (client : ℕ) (c : Call) (old : Msgbuff) (placed : Bool)
  | clientRead (client : ℕ)
  | coreRead
  | coreSend (placed : Bool)
  | deviceRead
  | deviceSend (placed : Bool)

inductive Event
  | request (r : Request) (m : Msgbuff) (placed : Bool)
  | clientRead (r : Request) (p : Parcel) (m : Msgbuff)
  | coreRead (p : Parcel) (m : Msgbuff) (fn : Option Handler)
  | coreSend (x : Pending) (placed : Bool)
  | deviceRead (p : Parcel) (m : Msgbuff)
  | deviceSend (p : Parcel) (m : Msgbuff) (placed : Bool)

def State.afterCall (s : State C) (r : Request) (m : Msgbuff) (placed : Bool) : State C :=
  { s.put .core ⟨C.send m, ⟨r, .request⟩⟩ placed with
    waiting := if r.call.waits then Function.update s.waiting r.client (some (r, m)) else s.waiting
    issued := s.issued + 1 }

def State.afterClientRead (s : State C) (client : ℕ) (rest : List (Packet C)) : State C :=
  { s with
    queue := Function.update s.queue .application rest
    waiting := Function.update s.waiting client none }

def pending (p : Parcel) (m : Msgbuff) (turn : Turn) : List Pending :=
  match turn.fn with
  | none => []
  | some f => turn.sends.map fun x => ⟨f, m, x.queue, x.msg, ⟨p.origin, hopOf f x.queue⟩⟩

def State.afterCoreRead (s : State C) (p : Packet C) (rest : List (Packet C)) : State C :=
  let m := C.recv s.core.msg p.wire
  { s with
    queue := Function.update s.queue .core rest
    core := (iteration s.core m).2
    hand := pending p.parcel m (iteration s.core m).1 }

def State.afterCoreSend (s : State C) (x : Pending) (rest : List Pending) (placed : Bool) : State C :=
  State.put { s with hand := rest } x.queue ⟨C.send x.msg, x.parcel⟩ placed

def State.afterDeviceRead (s : State C) (p : Packet C) (rest : List (Packet C)) : State C :=
  { s with
    queue := Function.update s.queue .device rest
    device := C.recv s.device p.wire
    reply := some ⟨p.parcel.origin, .answer⟩ }

def State.afterDeviceSend (s : State C) (p : Parcel) (placed : Bool) : State C :=
  let m := deviceAnswer s.device
  State.put { s with device := m, reply := none } .core ⟨C.send m, p⟩ placed

def step (C : Channel) (rule : SendRule) (sid : ℕ → ℤ) (s : State C) : Action → Option (Event × State C)
  | .call client c old placed =>
    if (s.waiting client).isNone ∧ rule .core (s.queue .core).length placed then
      let r : Request := ⟨s.issued, client, c⟩
      let m := c.message (sid s.issued) old
      some (.request r m placed, s.afterCall r m placed)
    else none
  | .clientRead client =>
    match s.waiting client, s.queue .application with
    | some (r, m), p :: rest =>
      some (.clientRead r p.parcel (C.recv m p.wire), s.afterClientRead client rest)
    | _, _ => none
  | .coreRead =>
    if s.core.state = stTerm then none
    else match s.hand, s.queue .core with
      | [], p :: rest =>
        let m := C.recv s.core.msg p.wire
        some (.coreRead p.parcel m (iteration s.core m).1.fn, s.afterCoreRead p rest)
      | _, _ => none
  | .coreSend placed =>
    match s.hand with
    | x :: rest =>
      if rule x.queue (s.queue x.queue).length placed then
        some (.coreSend x placed, s.afterCoreSend x rest placed)
      else none
    | [] => none
  | .deviceRead =>
    match s.reply, s.queue .device with
    | none, p :: rest => some (.deviceRead p.parcel (C.recv s.device p.wire), s.afterDeviceRead p rest)
    | _, _ => none
  | .deviceSend placed =>
    match s.reply with
    | some p =>
      if rule .core (s.queue .core).length placed then
        some (.deviceSend p (deviceAnswer s.device) placed, s.afterDeviceSend p placed)
      else none
    | none => none

abbrev Reaches (C : Channel) (rule : SendRule) (sid : ℕ → ℤ) (d : Msgbuff) : List Event → State C → Prop :=
  Run (step C rule sid) (State.initial C d)

end NutrinoStack.LedSystem

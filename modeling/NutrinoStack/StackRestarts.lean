import NutrinoStack.FailedReads
import NutrinoStack.Restarts
import NutrinoStack.StackRefinement

namespace NutrinoStack.LedStack

open Application CoreFsm Interactions LedSystem MachineWords MessageQueues Processes QueueManager Reductions Restarts
  Stores StructLayout

def Proper (i : Process) (m : Msgbuff) : Prop :=
  m.msgSessionId = sessionId ∧ m.msgType = msgTypeGlowLed ∧
    match i with
    | .core => m.msgState ≠ stTerm ∧ (rowFor m.msgState m.msgEvent).isSome
    | .device => (m.msgState, m.msgEvent) = (stSendToDevice, evSendToDevice)
    | .client _ => (m.msgState, m.msgEvent) = (stSendAck, evSendToApp)

def Refused (P : Platform) (m : Msgbuff) : Prop := decode P.order ((store P m).take P.long) ≤ 0

instance (P : Platform) (m : Msgbuff) : Decidable (Refused P m) := inferInstanceAs (Decidable (_ ≤ _))

/-- What a process may be started with, whatever was left of it before. The device wrapper's struct holds anything at
first; it must not be one that goes out as an answer while there is no queue to read a command from. -/
def may (P : Platform) (k : Kernel) : (i : Process) → programs.Memory i → Bool
  | .core => fun m : Stage =>
    match m with
    | .start => true
    | .loop _ => false
  | .device => fun m : Msgbuff => (k.ident Queue.device.key).isSome || decide (Refused P m)
  | .client _ => fun _ => true

structure World (P : Platform) where
  state : State (bytes P)
  store : Store Key Msgbuff

variable {P : Platform} {k k' : Kernel} {d : Msgbuff} {script : ℕ → Script}
  {σ σ' : Store Key Msgbuff}
  {s t : State (bytes P)} {queue : Queue → List (Packet (bytes P))}

def Wires (P : Platform) (queue : Queue → List (Packet (bytes P))) (σ : Store Key Msgbuff) : Prop :=
  ∀ q : Queue, (queue q).map Packet.wire = (σ.queued q.name).map (send P)

structure Steady (w : World P) : Prop where
  routed : Routed (fun _ => sessionId) w.state
  wires : Wires P w.state.queue w.store
  owner : ∀ i r m, w.state.waiting i = some (r, m) → r.client = i
  core : w.store.queue Queue.core.name = none → w.state.core.msg = .zeroed
  device : w.store.queue Queue.device.name = none → w.state.reply = none ∧ Refused P w.state.device

def CoreStands (s : State (bytes P)) (p : Prog operations Stage) : Prop :=
  p = writes (s.hand.map placeOf) (.loop s.core) ∨
    s.hand = [] ∧ s.core = Globals.initial ∧ (p = .done .start ∨ ∃ qs, p = starts qs)

def DeviceStands (s : State (bytes P)) (p : Prog operations Msgbuff) : Prop :=
  match s.reply with
  | none => p = .done s.device ∨ p = replies s.device ∧ Refused P s.device
  | some _ => p = replies s.device

def ClientStands (i : ℕ) (s : State (bytes P)) (p : Prog operations Script) : Prop :=
  match s.waiting i with
  | none => ∃ rest, p = .done rest
  | some (_, m) => ∃ rest, p = .call (I := operations) (.read Queue.application.name m) fun _ => .done rest

def Stands (s : State (bytes P)) : (i : Process) → Prog operations (programs.Memory i) → Prop
  | .core => CoreStands s
  | .device => DeviceStands s
  | .client i => ClientStands i s

section

variable (h : Steady (P := P) ⟨s, σ⟩)
include h

end

structure Survives (P : Platform) (tr : List (Processes.Event operations Process)) (k : Kernel) (w : World P) :
    Prop where
  keeps : KeepsOn keys (send P) k w.store
  steady : Steady w
  proper : ∀ e ∈ tr, ∀ m, exchanged P e.entry = some (.received m) → Proper e.who m

end NutrinoStack.LedStack

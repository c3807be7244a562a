import Mathlib.Algebra.Order.Group.Int
import NutrinoStack.Loops
import NutrinoStack.Messages

namespace NutrinoStack.UtilityHandler

open Loops Runs

abbrev stAny : ℤ := -1
abbrev stInit : ℤ := 0
abbrev stTerm : ℤ := 2
abbrev stAuth : ℤ := 3
abbrev stRead : ℤ := 4
abbrev stEnd : ℤ := 5

abbrev evReadFromDevice : ℤ := 5000

abbrev queueWriteToApplication : ℤ := 10204

structure Send where
  key : ℤ
  msg : Msgbuff

inductive Handler
  | gotKey
  | auth
  | readData
  | endComm
  | fsmError
  deriving DecidableEq

structure Response where
  send : Send
  result : ℤ

structure Globals where
  state : ℤ
  event : ℤ
  deriving DecidableEq

def Globals.initial : Globals := ⟨stInit, 0⟩

def announce (st : ℤ) (msg : Msgbuff) : Send :=
  ⟨queueWriteToApplication, { msg with msgState := st, msgEvent := evReadFromDevice }⟩

def gotKey (msg : Msgbuff) : Response := ⟨announce stAuth msg, 0⟩

def fsmError (msg : Msgbuff) : Response := ⟨announce stTerm msg, 0⟩

def auth (msg : Msgbuff) : Response := ⟨announce stRead msg, 0⟩

def readData (msg : Msgbuff) : Response := ⟨announce stRead msg, 0⟩

def endComm (g : Globals) (msg : Msgbuff) : Response := ⟨announce stTerm msg, g.state⟩

def Handler.run (g : Globals) : Handler → Msgbuff → Response
  | .gotKey => UtilityHandler.gotKey
  | .auth => UtilityHandler.auth
  | .readData => UtilityHandler.readData
  | .endComm => UtilityHandler.endComm g
  | .fsmError => UtilityHandler.fsmError

structure Transition where
  st : ℤ
  ev : ℤ
  fn : Handler
  deriving DecidableEq

def trans : List Transition :=
  [⟨stInit, evReadFromDevice, .gotKey⟩,
   ⟨stAuth, evReadFromDevice, .auth⟩,
   ⟨stRead, evReadFromDevice, .readData⟩,
   ⟨stEnd, evReadFromDevice, .endComm⟩,
   ⟨stAny, evReadFromDevice, .fsmError⟩]

def rowFor (state event : ℤ) : Option Transition :=
  trans.find? fun t => state = t.st ∧ event = t.ev

/-- A `long` assigned to one of the globals, which are of type `int`. -/
def toInt (z : ℤ) : ℤ := Int.bmod z (2 ^ 32)

/-- `result` is the struct that `GetMessageStateEvent` hands to its caller: it has no return statement, so this is
whatever it happens to be. -/
structure Reading where
  msg : Msgbuff
  result : Msgbuff

def getMessageStateEvent (g : Globals) (msg : Msgbuff) : Globals :=
  if msg.msgType = 1 then ⟨toInt msg.msgState, toInt msg.msgEvent⟩ else g

structure Turn where
  fn : Option Handler
  sends : List Send

def iteration (g : Globals) (x : Reading) : Turn × Globals :=
  let g := getMessageStateEvent g x.msg
  match rowFor g.state g.event with
  | some t =>
    let r := t.fn.run g x.result
    (⟨some t.fn, [r.send]⟩, { g with state := r.result })
  | none => (⟨none, []⟩, g)

def mainLoop : Loop Globals Reading Turn where
  running g := g.state ≠ stTerm
  body := iteration

abbrev Iteration := Pass Globals Reading Turn

def main (readings : List Reading) : List Iteration := mainLoop.passes Globals.initial readings

def Handler.announced : Handler → ℤ
  | .gotKey => stAuth
  | .auth | .readData => stRead
  | .endComm | .fsmError => stTerm

theorem run_send (g : Globals) (f : Handler) (msg : Msgbuff) : (f.run g msg).send = announce f.announced msg := by
  cases f <;> rfl

theorem mem_trans {t : Transition} (h : t ∈ trans) :
    t = ⟨stInit, evReadFromDevice, .gotKey⟩ ∨ t = ⟨stAuth, evReadFromDevice, .auth⟩ ∨
      t = ⟨stRead, evReadFromDevice, .readData⟩ ∨ t = ⟨stEnd, evReadFromDevice, .endComm⟩ ∨
      t = ⟨stAny, evReadFromDevice, .fsmError⟩ := by
  simpa only [trans, List.mem_cons, List.not_mem_nil, or_false] using h

theorem rowFor_eq_some {state event : ℤ} {t : Transition} :
    rowFor state event = some t ↔ t ∈ trans ∧ state = t.st ∧ event = evReadFromDevice := by
  constructor
  · intro h
    have hm := List.mem_of_find?_eq_some h
    have hp := List.find?_some h
    simp only [decide_eq_true_eq] at hp
    refine ⟨hm, hp.1, hp.2.trans ?_⟩
    rcases mem_trans hm with rfl | rfl | rfl | rfl | rfl <;> rfl
  · rintro ⟨hm, rfl, rfl⟩
    rcases mem_trans hm with rfl | rfl | rfl | rfl | rfl <;> decide

def Handler.resting : Handler → ℤ
  | .endComm => stEnd
  | _ => stInit

theorem run_result {t : Transition} (ht : t ∈ trans) (event : ℤ) (msg : Msgbuff) :
    (t.fn.run ⟨t.st, event⟩ msg).result = t.fn.resting := by
  rcases mem_trans ht with rfl | rfl | rfl | rfl | rfl <;> rfl

theorem receive_own (g : Globals) {m : Msgbuff} (h : m.msgType = 1) :
    getMessageStateEvent g m = ⟨toInt m.msgState, toInt m.msgEvent⟩ := by
  rw [getMessageStateEvent, if_pos h]

theorem receive_foreign (g : Globals) {m : Msgbuff} (h : m.msgType ≠ 1) : getMessageStateEvent g m = g := by
  rw [getMessageStateEvent, if_neg h]

theorem iteration_some {g : Globals} {x : Reading} {t : Transition} (ht : t ∈ trans)
    (hg : getMessageStateEvent g x.msg = ⟨t.st, evReadFromDevice⟩) :
    iteration g x =
      (⟨some t.fn, [announce t.fn.announced x.result]⟩, ⟨t.fn.resting, evReadFromDevice⟩) := by
  have hrow := rowFor_eq_some.mpr ⟨ht, rfl, rfl⟩
  simp only [iteration, hg, hrow, run_send, run_result ht]

theorem iteration_none {g : Globals} {x : Reading}
    (h : rowFor (getMessageStateEvent g x.msg).state (getMessageStateEvent g x.msg).event = none) :
    iteration g x = (⟨none, []⟩, getMessageStateEvent g x.msg) := by
  simp only [iteration, h]

theorem iteration_cases (g : Globals) (x : Reading) :
    (∃ t ∈ trans, getMessageStateEvent g x.msg = ⟨t.st, evReadFromDevice⟩ ∧ iteration g x =
      (⟨some t.fn, [announce t.fn.announced x.result]⟩, ⟨t.fn.resting, evReadFromDevice⟩)) ∨
    rowFor (getMessageStateEvent g x.msg).state (getMessageStateEvent g x.msg).event = none ∧
      iteration g x = (⟨none, []⟩, getMessageStateEvent g x.msg) := by
  cases h : rowFor (getMessageStateEvent g x.msg).state (getMessageStateEvent g x.msg).event with
  | none => exact .inr ⟨rfl, iteration_none h⟩
  | some t =>
    obtain ⟨ht, hs, he⟩ := rowFor_eq_some.mp h
    have hg : getMessageStateEvent g x.msg = ⟨t.st, evReadFromDevice⟩ := by rw [← hs, ← he]
    exact .inl ⟨t, ht, hg, iteration_some ht hg⟩

end NutrinoStack.UtilityHandler

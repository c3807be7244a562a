import NutrinoStack.UtilityHandler

namespace NutrinoStack.DirectMachine

open Loops
open UtilityHandler (Handler stAny stInit stTerm stAuth stRead stEnd)

/-! `core/src/utility_handler.c`; its header numbers the states as the other one does -/

abbrev evKeypress : ℤ := 5000

def getNextEvent : ℤ := evKeypress

def gotKey : ℤ := stAuth

def auth : ℤ := stRead

def readData : ℤ := stEnd

def endComm : ℤ := stTerm

/-- `FsmError` has no return statement; `missing` is what its caller finds. -/
def returned (missing : ℤ) : Handler → ℤ
  | .gotKey => gotKey
  | .auth => auth
  | .readData => readData
  | .endComm => endComm
  | .fsmError => missing

structure Transition where
  st : ℤ
  ev : ℤ
  fn : Handler

def trans : List Transition :=
  [⟨stInit, evKeypress, .gotKey⟩,
   ⟨stAuth, evKeypress, .auth⟩,
   ⟨stRead, evKeypress, .readData⟩,
   ⟨stEnd, evKeypress, .endComm⟩,
   ⟨stAny, evKeypress, .fsmError⟩]

def mainLoop (missing : ℤ) : Loop ℤ Unit (Option Handler) where
  running state := state ≠ stTerm
  body state _ :=
    match trans.find? fun t => state = t.st ∧ getNextEvent = t.ev with
    | some t => (some t.fn, returned missing t.fn)
    | none => (none, state)

def move (p : Pass ℤ Unit (Option Handler)) : Option (Handler × ℤ) := p.turn.map fun f => (f, p.after)

def main (missing : ℤ) (n : ℕ) : List (Handler × ℤ) :=
  ((mainLoop missing).passes stInit (List.replicate n ())).filterMap move

def walk : List (Handler × ℤ) := [(.gotKey, stAuth), (.auth, stRead), (.readData, stEnd), (.endComm, stTerm)]

theorem main_walk (missing : ℤ) (n : ℕ) : main missing n = walk.take n := by
  match n with
  | 0 => rfl
  | 1 => rfl
  | 2 => rfl
  | 3 => rfl
  | n + 4 =>
    have hend : (mainLoop missing).passes stTerm (List.replicate n ()) = [] := passes_ended rfl _
    change walk ++ ((mainLoop missing).passes stTerm (List.replicate n ())).filterMap move = _
    rw [hend, List.filterMap_nil, List.append_nil, List.take_of_length_le]
    simp [walk]

end NutrinoStack.DirectMachine

import Mathlib.Logic.Function.Basic
import NutrinoStack.Interactions
import NutrinoStack.MachineWords

namespace NutrinoStack.MessageQueues

open Interactions MachineWords

/-- What a queue can be found by: `msgget` makes a queue of its own for the key 0, which is `IPC_PRIVATE`. -/
abbrev Key : Type := {key : ℤ // key ≠ 0}

/-- `spare` are the identifiers of the queues that there is still room for. -/
structure Kernel where
  ident : ℤ → Option ℕ
  queue : ℤ → Option (List Bytes)
  capacity : ℤ → ℕ
  spare : List ℕ
  unnamed : ident 0 = none

/-- `msgget` is called with `IPC_CREAT` or without, `msgsnd` with `IPC_NOWAIT`; `msgrcv` waits for the oldest message of
the type `msgtyp`, which is the oldest of any type if that is 0. -/
inductive SysCall
  | msgget (key : ℤ) (create : Bool)
  | msgsnd (id : ℤ) (buf : Bytes) (size : ℕ)
  | msgrcv (id : ℤ) (buf : Bytes) (limit msgtyp : ℕ)

abbrev SysCall.Reply : SysCall → Type
  | .msgget _ _ => ℤ
  | .msgsnd _ _ _ => ℤ
  | .msgrcv _ _ _ _ => ℤ × Bytes

abbrev interface : Interface := ⟨SysCall, SysCall.Reply⟩

def msgget (key : ℤ) (create : Bool) : Prog interface ℤ := perform (I := interface) (.msgget key create)

def msgsnd (id : ℤ) (buf : Bytes) (size : ℕ) : Prog interface ℤ := perform (I := interface) (.msgsnd id buf size)

def msgrcv (id : ℤ) (buf : Bytes) (limit msgtyp : ℕ) : Prog interface (ℤ × Bytes) :=
  perform (I := interface) (.msgrcv id buf limit msgtyp)

def Kernel.set (k : Kernel) (id : ℤ) (q : List Bytes) : Kernel :=
  { k with queue := Function.update k.queue id (some q) }

def Kernel.create (k : Kernel) (key : ℤ) (id : ℕ) (spare : List ℕ) : Kernel where
  ident key' := if key' = key ∧ key ≠ 0 then some id else k.ident key'
  queue := Function.update k.queue id (some [])
  capacity := k.capacity
  spare := spare
  unnamed := by
    rw [if_neg fun h => h.2 h.1.symm]
    exact k.unnamed

def messageSize (P : Platform) (x : Bytes) : ℕ := x.length - P.long

def ofType (P : Platform) (msgtyp : ℕ) (x : Bytes) : Bool :=
  msgtyp = 0 ∨ decode P.order (x.take P.long) = msgtyp

def answer (P : Platform) (k : Kernel) : (c : SysCall) → Option (c.Reply × Kernel)
  | .msgget key create =>
    match k.ident key with
    | some id => some ((id : ℤ), k)
    | none =>
      if create ∨ key = 0 then
        match k.spare with
        | id :: rest => some ((id : ℤ), k.create key id rest)
        | [] => some ((-1 : ℤ), k)
      else some ((-1 : ℤ), k)
  | .msgsnd id buf size =>
    match k.queue id with
    | some q =>
      if 0 < decode P.order (buf.take P.long) ∧ (q.map (messageSize P)).sum + size ≤ k.capacity id then
        some ((0 : ℤ), k.set id (q ++ [buf.take (P.long + size)]))
      else some ((-1 : ℤ), k)
    | none => some ((-1 : ℤ), k)
  | .msgrcv id buf limit msgtyp =>
    match k.queue id with
    | some q =>
      match q.find? (ofType P msgtyp) with
      | some x =>
        if messageSize P x ≤ limit then
          some (((messageSize P x : ℤ), x ++ buf.drop x.length), k.set id (q.eraseP (ofType P msgtyp)))
        else some ((-1, buf), k)
      | none => none
    | none => some ((-1, buf), k)

def SysCall.failure : (c : SysCall) → c.Reply
  | .msgget _ _ => (-1 : ℤ)
  | .msgsnd _ _ _ => (-1 : ℤ)
  | .msgrcv _ buf _ _ => ((-1 : ℤ), buf)

def SysCall.Succeeds : (c : SysCall) → c.Reply → Prop
  | .msgget _ _, r => (0 : ℤ) ≤ r
  | .msgsnd _ _ _, r => (0 : ℤ) ≤ r
  | .msgrcv _ _ _ _, r => 0 ≤ r.1

abbrev Entry : Type := Σ c : SysCall, c.Reply

def Entry.found? (key : ℤ) : Entry → Option ℤ
  | ⟨.msgget key' _, (r : ℤ)⟩ => if key' = key ∧ 0 ≤ r then some r else none
  | _ => none

def Entry.sent? : Entry → Option ℤ
  | ⟨.msgsnd id _ _, (r : ℤ)⟩ => if 0 ≤ r then some id else none
  | _ => none

def Entry.taken? : Entry → Option ℤ
  | ⟨.msgrcv id _ _ _, r⟩ => if 0 ≤ r.1 then some id else none
  | _ => none

def Placed (log : List Entry) (key : ℤ) : Prop :=
  ∃ id ∈ log.filterMap (Entry.found? key), id ∈ log.filterMap Entry.sent?

def Taken (log : List Entry) (key : ℤ) : Prop :=
  ∃ id ∈ log.filterMap (Entry.found? key), id ∈ log.filterMap Entry.taken?

def Faulty (P : Platform) (others : Kernel → Kernel → Prop) (k : Kernel) (c : SysCall) (r : c.Reply) (k' : Kernel) :
    Prop :=
  ∃ k₁, others k k₁ ∧ (answer P k₁ c = some (r, k') ∨ r = c.failure ∧ k' = k₁)

variable {P : Platform} {k : Kernel}

theorem eval_msgget {key : ℤ} {id : ℕ} (h : k.ident key = some id) (create : Bool) :
    eval (answer P) (msgget key create) k = some ((id : ℤ), k) := by
  apply (eval_perform (I := interface) (.msgget key create)).trans
  simp only [answer, h]

theorem eval_msgsnd {id : ℤ} {q : List Bytes} {buf : Bytes} {size : ℕ} (hq : k.queue id = some q)
    (htype : 0 < decode P.order (buf.take P.long)) (hroom : (q.map (messageSize P)).sum + size ≤ k.capacity id) :
    eval (answer P) (msgsnd id buf size) k = some ((0 : ℤ), k.set id (q ++ [buf.take (P.long + size)])) := by
  apply (eval_perform (I := interface) (.msgsnd id buf size)).trans
  simp only [answer, hq]
  exact if_pos ⟨htype, hroom⟩

theorem ofType_append {msgtyp : ℕ} {pre : List Bytes} (post : List Bytes) {x : Bytes}
    (hpre : ∀ y ∈ pre, ofType P msgtyp y = false) (ht : ofType P msgtyp x) :
    (pre ++ x :: post).find? (ofType P msgtyp) = some x ∧
      (pre ++ x :: post).eraseP (ofType P msgtyp) = pre ++ post := by
  have hpre' : ∀ y ∈ pre, ¬ ofType P msgtyp y := by simpa using hpre
  constructor
  · rw [List.find?_append, List.find?_eq_none.mpr hpre', Option.none_or, List.find?_cons_of_pos ht]
  · rw [List.eraseP_append_right _ hpre', List.eraseP_cons_of_pos ht]

theorem eval_msgrcv {id : ℤ} {x : Bytes} {l post : List Bytes} {limit msgtyp : ℕ}
    (hq : k.queue id = some (l ++ x :: post)) (hl : ∀ y ∈ l, ofType P msgtyp y = false)
    (ht : ofType P msgtyp x) (hx : messageSize P x ≤ limit) (buf : Bytes) :
    eval (answer P) (msgrcv id buf limit msgtyp) k =
      some (((messageSize P x : ℤ), x ++ buf.drop x.length), k.set id (l ++ post)) := by
  apply (eval_perform (I := interface) (.msgrcv id buf limit msgtyp)).trans
  obtain ⟨hfind, herase⟩ := ofType_append post hl ht
  simp only [answer, hq, hfind, herase]
  exact if_pos hx

def equipped (keys : List Key) (capacity room : ℕ) : Kernel where
  ident key := (keys.map Subtype.val).idxOf? key
  queue id := if 0 ≤ id ∧ id < keys.length then some [] else none
  capacity _ := capacity
  spare := List.range' keys.length room
  unnamed := by
    apply List.idxOf?_eq_none_iff.mpr
    simp

end NutrinoStack.MessageQueues

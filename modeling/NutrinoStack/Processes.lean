import Mathlib.Algebra.BigOperators.Group.Finset.Basic
import Mathlib.Algebra.BigOperators.Group.Finset.Piecewise
import Mathlib.Logic.Function.Basic
import NutrinoStack.Interactions
import NutrinoStack.Runs

namespace NutrinoStack.Processes

open Interactions Runs

/-- Processes that each run one program after another: `body` gives the next one, from what the last one returned,
or ends the process. -/
structure Family (I : Interface) (ι : Type) where
  Memory : ι → Type
  body : (i : ι) → Memory i → Option (Prog I (Memory i))
  active : ∀ i m a, body i m ≠ some (.done a)

variable {I : Interface} {ι κ : Type}

structure Pool (F : Family I ι) (κ : Type) where
  kernel : κ
  thread : (i : ι) → Prog I (F.Memory i)

def Family.next (F : Family I ι) (i : ι) : Prog I (F.Memory i) → Option (Prog I (F.Memory i))
  | .done m => F.body i m
  | .call c next => some (.call c next)

structure Event (I : Interface) (ι : Type) where
  who : ι
  entry : Σ c : I.Call, I.Reply c

variable {F : Family I ι}

@[simp] theorem next_call (i : ι) (c : I.Call) (next : I.Reply c → Prog I (F.Memory i)) :
    F.next i (.call c next) = some (.call c next) := rfl

theorem next_active {i : ι} {p : Prog I (F.Memory i)} {a : F.Memory i} : F.next i p ≠ some (.done a) := by
  cases p with
  | done m => exact F.active i m a
  | call c next => simp

def Family.beside {ι' : Type} (F : Family I ι) (G : Family I ι') : Family I (ι ⊕ ι') where
  Memory := Sum.elim F.Memory G.Memory
  body
    | .inl i => F.body i
    | .inr j => G.body j
  active
    | .inl i => F.active i
    | .inr j => G.active j

variable [DecidableEq ι] {answer : κ → (c : I.Call) → Option (I.Reply c × κ)}

def step (F : Family I ι) (answer : κ → (c : I.Call) → Option (I.Reply c × κ)) (s : Pool F κ) (i : ι) :
    Option (Event I ι × Pool F κ) :=
  match F.next i (s.thread i) with
  | some (.call c next) =>
    match answer s.kernel c with
    | some (r, k) => some (⟨i, ⟨c, r⟩⟩, ⟨k, Function.update s.thread i (next r)⟩)
    | none => none
  | _ => none

theorem step_iff {s t : Pool F κ} {i : ι} {e : Event I ι} :
    step F answer s i = some (e, t) ↔
      ∃ c next r k, F.next i (s.thread i) = some (.call c next) ∧ answer s.kernel c = some (r, k) ∧
        e = ⟨i, ⟨c, r⟩⟩ ∧ t = ⟨k, Function.update s.thread i (next r)⟩ := by
  constructor
  · intro h
    simp only [step] at h
    split at h
    · next c next hn =>
      split at h
      · next r k ha =>
        obtain ⟨rfl, rfl⟩ := by simpa using h
        exact ⟨c, next, r, k, hn, ha, rfl, rfl⟩
      · simp at h
    · simp at h
  · rintro ⟨c, next, r, k, hn, ha, rfl, rfl⟩
    simp [step, hn, ha]

theorem stopped_iff {s : Pool F κ} {i : ι} :
    step F answer s i = none ↔
      F.next i (s.thread i) = none ∨
        ∃ c next, F.next i (s.thread i) = some (.call c next) ∧ answer s.kernel c = none := by
  cases hn : F.next i (s.thread i) with
  | none => simp [step, hn]
  | some p =>
    cases p with
    | done a => exact (next_active hn).elim
    | call c next =>
      cases ha : answer s.kernel c with
      | none => simp [step, hn, ha]
      | some r =>
        simp only [step, hn, ha, reduceCtorEq, false_or, false_iff, not_exists, not_and, Option.some.injEq]
        rintro c' next' ⟨⟩
        simp [ha]

def calls (tr : List (Event I ι)) (i : ι) : ℕ := tr.countP fun e => decide (e.who = i)

@[simp] theorem calls_nil (i : ι) : calls ([] : List (Event I ι)) i = 0 := rfl

@[simp] theorem calls_append (tr tr' : List (Event I ι)) (i : ι) : calls (tr ++ tr') i = calls tr i + calls tr' i :=
  List.countP_append

theorem calls_cons (e : Event I ι) (tr : List (Event I ι)) (i : ι) :
    calls (e :: tr) i = calls tr i + if e.who = i then 1 else 0 := by
  simp [calls, List.countP_cons]

theorem calls_single (e : Event I ι) (i : ι) : calls [e] i = if e.who = i then 1 else 0 := by
  simp [calls, List.countP_singleton]

theorem calls_alone {tr : List (Event I ι)} {j : ι} (h : ∀ e ∈ tr, e.who = j) (i : ι) :
    calls tr i = if j = i then tr.length else 0 := by
  split
  · next hj => exact List.countP_eq_length.mpr fun e he => by simp [h e he, hj]
  · next hj => exact List.countP_eq_zero.mpr fun e he => by simp [h e he, hj]

theorem length_calls {tr : List (Event I ι)} {S : Finset ι} (h : ∀ e ∈ tr, e.who ∈ S) :
    tr.length = ∑ i ∈ S, calls tr i := by
  induction tr with
  | nil => simp
  | cons e tr ih =>
    have he : e.who ∈ S := h e (by simp)
    simp only [calls_cons, Finset.sum_add_distrib, Finset.sum_ite_eq, he, if_true, ← ih fun x hx => h x (by simp [hx]),
      List.length_cons]

theorem sum_calls_le (tr : List (Event I ι)) (S : Finset ι) : ∑ i ∈ S, calls tr i ≤ tr.length := by
  induction tr with
  | nil => simp
  | cons e tr ih =>
    simp only [calls_cons, Finset.sum_add_distrib, Finset.sum_ite_eq, List.length_cons]
    split <;> omega

/-- A proof outline for a pool: `Local` holds of each process at each of its calls, whatever the others do, and
`Global` of the kernel, with the calls made so far. `γ` is a ghost state. -/
structure Outline (F : Family I ι) (answer : κ → (c : I.Call) → Option (I.Reply c × κ)) (γ : Type) where
  Global : List (Event I ι) → κ → γ → Prop
  Local : (i : ι) → γ → Prog I (F.Memory i) → Prop
  call : ∀ {tr k g i p c next r k'}, Global tr k g → Local i g p → F.next i p = some (.call c next) →
    answer k c = some (r, k') → ∃ g', Global (tr ++ [⟨i, ⟨c, r⟩⟩]) k' g' ∧ Local i g' (next r) ∧
      ∀ j q, j ≠ i → Local j g q → Local j g' q

structure Outline.Holds {γ : Type} (O : Outline F answer γ) (tr : List (Event I ι)) (s : Pool F κ) (g : γ) : Prop where
  overall : O.Global tr s.kernel g
  thread : ∀ i, O.Local i g (s.thread i)

theorem Outline.Holds.step {γ : Type} {O : Outline F answer γ} {s t : Pool F κ} {tr : List (Event I ι)} {g : γ} {i : ι}
    {e : Event I ι} (h : O.Holds tr s g) (hs : Processes.step F answer s i = some (e, t)) :
    ∃ g', O.Holds (tr ++ [e]) t g' := by
  obtain ⟨c, next, r, k, hn, ha, rfl, rfl⟩ := step_iff.mp hs
  obtain ⟨g', hall, hown, hothers⟩ := O.call h.overall (h.thread i) hn ha
  refine ⟨g', hall, fun j => ?_⟩
  by_cases hj : j = i
  · subst hj
    simpa using hown
  · simpa [Function.update_of_ne hj] using hothers j _ hj (h.thread j)

theorem Outline.Holds.run {γ : Type} {O : Outline F answer γ} {s t : Pool F κ} {tr tr' : List (Event I ι)} {g : γ}
    (h₀ : O.Holds tr s g) (h : Run (Processes.step F answer) s tr' t) : ∃ g', O.Holds (tr ++ tr') t g' := by
  induction h with
  | nil => exact ⟨g, by rwa [List.append_nil]⟩
  | snoc _ hs ih =>
    obtain ⟨g', hg⟩ := ih
    rw [← List.append_assoc]
    exact hg.step hs

theorem Outline.run {γ : Type} (O : Outline F answer γ) {s t : Pool F κ} {tr : List (Event I ι)} {g : γ}
    (h₀ : O.Holds [] s g) (h : Run (step F answer) s tr t) : ∃ g', O.Holds tr t g' := h₀.run h

end NutrinoStack.Processes

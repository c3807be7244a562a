import Mathlib.Data.Nat.Notation
import Mathlib.Tactic.TypeStar

namespace NutrinoStack.Runs

variable {σ α ε : Type*}

inductive Run (step : σ → α → Option (ε × σ)) (s : σ) : List ε → σ → Prop
  | nil : Run step s [] s
  | snoc {tr : List ε} {t u : σ} {a : α} {e : ε} :
      Run step s tr t → step t a = some (e, u) → Run step s (tr ++ [e]) u

variable {step : σ → α → Option (ε × σ)} {s t u : σ}

theorem Run.single {a : α} {e : ε} (h : step s a = some (e, t)) : Run step s [e] t :=
  Run.snoc .nil h

theorem Run.of_nil {tr : List ε} (h : Run step s tr t) (hn : tr = []) : t = s := by
  cases h with
  | nil => rfl
  | snoc => simp at hn

theorem Run.trans {tr tr' : List ε} (h : Run step s tr t) (h' : Run step t tr' u) :
    Run step s (tr ++ tr') u := by
  induction h' with
  | nil => simpa using h
  | snoc _ hs ih => rw [← List.append_assoc]; exact ih.snoc hs

theorem Run.invariant {I : List ε → σ → Prop} {tr : List ε} (h : Run step s tr t) (h0 : I [] s)
    (hI : ∀ tr t a e u, Run step s tr t → I tr t → step t a = some (e, u) → I (tr ++ [e]) u) :
    I tr t := by
  induction h with
  | nil => exact h0
  | snoc hr hs ih => exact hI _ _ _ _ _ hr ih hs

theorem Run.events {P : ε → Prop} {tr : List ε} (h : Run step s tr t)
    (hP : ∀ tr t a e u, Run step s tr t → step t a = some (e, u) → P e) : ∀ e ∈ tr, P e := by
  induction h with
  | nil => simp
  | snoc hr hs ih =>
    intro e he
    rcases List.mem_append.mp he with he | he
    · exact ih e he
    · obtain rfl := List.mem_singleton.mp he
      exact hP _ _ _ _ _ hr hs

theorem Run.simulation {σ' α' ε' : Type*} {step' : σ' → α' → Option (ε' × σ')} {f : σ → σ'} {g : ε → ε'}
    {tr : List ε} (h : Run step s tr t)
    (hsim : ∀ tr t a e u, Run step s tr t → step t a = some (e, u) →
      ∃ b, step' (f t) b = some (g e, f u)) :
    Run step' (f s) (tr.map g) (f t) := by
  induction h with
  | nil => exact .nil
  | snoc hr hs ih =>
    obtain ⟨b, hb⟩ := hsim _ _ _ _ _ hr hs
    rw [List.map_append]
    exact ih.snoc hb

theorem run_infinite {f : ℕ → σ} {a : ℕ → α} {e : ℕ → ε} (h : ∀ i, step (f i) (a i) = some (e i, f (i + 1))) (n : ℕ) :
    Run step (f 0) ((List.range n).map e) (f n) := by
  induction n with
  | zero => exact .nil
  | succ n ih =>
    rw [List.range_succ, List.map_append]
    exact ih.snoc (h n)

def exec (step : σ → α → Option (ε × σ)) (s : σ) : List α → Option (List ε × σ)
  | [] => some ([], s)
  | a :: as =>
    match step s a with
    | none => none
    | some (e, t) => (exec step t as).map fun r => (e :: r.1, r.2)

theorem run_exec (as : List α) {tr : List ε} (h : exec step s as = some (tr, t)) : Run step s tr t := by
  induction as generalizing s tr with
  | nil =>
    obtain ⟨rfl, rfl⟩ : [] = tr ∧ s = t := by simpa [exec] using h
    exact .nil
  | cons a as ih =>
    simp only [exec] at h
    split at h
    · simp at h
    · next e u hs =>
      obtain ⟨⟨tr', t'⟩, hr, he⟩ := Option.map_eq_some_iff.mp h
      obtain ⟨rfl, rfl⟩ : e :: tr' = tr ∧ t' = t := by simpa using he
      exact (Run.single hs).trans (ih hr)

theorem run_any (step : σ → α → Option (ε × σ)) (s : σ) (as : List α) {p : List ε × σ → Bool}
    (h : (exec step s as).any p) :
    ∃ tr t, Run step s tr t ∧ p (tr, t) := by
  obtain ⟨⟨tr, t⟩, hr, hp⟩ := (Option.any_eq_true p _).mp h
  exact ⟨tr, t, run_exec as hr, hp⟩

end NutrinoStack.Runs

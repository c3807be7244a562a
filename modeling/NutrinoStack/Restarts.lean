import NutrinoStack.Reductions

namespace NutrinoStack.Restarts

open Interactions Processes Reductions Runs

variable {I J : Interface} {ι κ O : Type}

inductive Happening (F : Family I ι)
  | call (i : ι)
  | restart (i : ι) (m : F.Memory i)

variable [DecidableEq ι] {F : Family I ι} {answer : κ → (c : I.Call) → Option (I.Reply c × κ)}
  {may : κ → (i : ι) → F.Memory i → Bool}

def restarting (F : Family I ι) (answer : κ → (c : I.Call) → Option (I.Reply c × κ))
    (may : κ → (i : ι) → F.Memory i → Bool) (s : Pool F κ) : Happening F → Option (Option (Event I ι) × Pool F κ)
  | .call i => (step F answer s i).map fun r => (some r.1, r.2)
  | .restart i m => if may s.kernel i m then some (none, ⟨s.kernel, Function.update s.thread i (.done m)⟩) else none

theorem restarting_cases {s t : Pool F κ} {a : Happening F} {o : Option (Event I ι)}
    (h : restarting F answer may s a = some (o, t)) :
    (∃ i e, o = some e ∧ step F answer s i = some (e, t)) ∨
      ∃ i m, o = none ∧ may s.kernel i m ∧ t = ⟨s.kernel, Function.update s.thread i (.done m)⟩ := by
  cases a with
  | call i =>
    obtain ⟨⟨e, u⟩, hs, he⟩ := Option.map_eq_some_iff.mp h
    obtain ⟨rfl, rfl⟩ : some e = o ∧ u = t := by simpa using he
    exact .inl ⟨i, e, rfl, hs⟩
  | restart i m =>
    simp only [restarting, Option.ite_none_right_eq_some, Option.some.injEq, Prod.mk.injEq] at h
    exact .inr ⟨i, m, h.2.1.symm, h.1, h.2.2.symm⟩

theorem restarting_call {s t : Pool F κ} {i : ι} {e : Event I ι} (h : step F answer s i = some (e, t)) :
    restarting F answer may s (.call i) = some (some e, t) := by
  rw [restarting, h, Option.map_some]

theorem restarting_restart {s : Pool F κ} {i : ι} {m : F.Memory i} (h : may s.kernel i m) :
    restarting F answer may s (.restart i m) = some (none, ⟨s.kernel, Function.update s.thread i (.done m)⟩) :=
  if_pos h

theorem outline_restarting {γ : Type} (A : Outline F answer γ)
    (hrestart : ∀ {tr k g i p m}, A.Global tr k g → A.Local i g p → may k i m →
      ∃ g', A.Global tr k g' ∧ A.Local i g' (.done m) ∧ ∀ j q, j ≠ i → A.Local j g q → A.Local j g' q)
    {s t : Pool F κ} {tr : List (Option (Event I ι))} {g : γ} (h₀ : A.Holds [] s g)
    (h : Run (restarting F answer may) s tr t) : ∃ g', A.Holds (tr.filterMap id) t g' := by
  induction h with
  | nil => exact ⟨g, h₀⟩
  | @snoc tr t u a o _ hs ih =>
    obtain ⟨g', hg⟩ := ih
    rw [List.filterMap_append]
    rcases restarting_cases hs with ⟨i, e, rfl, hstep⟩ | ⟨i, m, rfl, hm, rfl⟩
    · exact hg.step hstep
    · obtain ⟨g'', hall, hown, hothers⟩ := hrestart hg.overall (hg.thread i) hm
      refine ⟨g'', by simpa using hall, fun j => ?_⟩
      by_cases hj : j = i
      · subst hj
        simpa using hown
      · simpa [Function.update_of_ne hj] using hothers j _ hj (hg.thread j)

variable {answer' : κ → (c : J.Call) → Option (J.Reply c × κ)} {imp : Implementation I J}
  {shown : (Σ c : J.Call, J.Reply c) → Option O} {shown' : (Σ c : I.Call, I.Reply c) → Option O}

/-- A process that is killed inside an operation has at most looked, so the operation has not taken effect. -/
theorem reduces_restarting {n : ℕ} (hr : Reduces answer' imp shown shown' n) {s₀ : Pool F κ}
    {tr : List (Option (Event J ι))} {p : Pool (imp.family F) κ}
    (h : Run (restarting (imp.family F) answer' may) (imp.pool s₀) tr p) :
    ∃ tr' s left, Run (restarting F (imp.atomically answer') may) s₀ tr' s ∧
      Matches answer' imp shown shown' p s left ∧
      seen shown (tr.filterMap id) = seen shown' (tr'.filterMap id) := by
  induction h with
  | nil => exact ⟨[], s₀, fun _ => n, .nil, ⟨rfl, fun i => hr.inside _ i _⟩, rfl⟩
  | @snoc tr t u a o _ hs ih =>
    obtain ⟨tr', s, left, hrun, hm, hseen⟩ := ih
    rw [List.filterMap_append]
    rcases restarting_cases hs with ⟨i, e, rfl, hstep⟩ | ⟨i, m, rfl, hmay, rfl⟩
    · rcases hm.step hr hstep with ⟨m, -, hnone, hm'⟩ | ⟨e', s', hs', hshow, hm'⟩
      · refine ⟨tr', s, _, hrun, hm', ?_⟩
        have hlast := seen_snoc shown (tr.filterMap id) e
        rw [hnone, Option.map_none, Option.toList_none, List.append_nil, hseen] at hlast
        exact hlast
      · refine ⟨tr' ++ [some e'], s', _, hrun.snoc (restarting_call hs'), hm', ?_⟩
        obtain ⟨c, next, r, k, -, -, rfl, -⟩ := step_iff.mp hstep
        obtain ⟨c', next', r', k', -, -, rfl, -⟩ := step_iff.mp hs'
        rw [List.filterMap_append]
        refine (seen_snoc shown _ _).trans ((seen_snoc shown' _ _).trans ?_).symm
        rw [hseen, hshow]
    · rw [hm.kernel] at hmay
      refine ⟨tr' ++ [none], _, Function.update left i n, hrun.snoc (restarting_restart hmay),
        ⟨hm.kernel, fun j => ?_⟩, ?_⟩
      · by_cases hj : j = i
        · subst hj
          simp only [Function.update_self]
          exact hr.inside (F := F) s.kernel j (.done m)
        · simpa [Function.update_of_ne hj] using hm.inside j
      · simpa using hseen

end NutrinoStack.Restarts

import NutrinoStack.Runs

namespace NutrinoStack.Loops

open Runs

variable {γ ι τ : Type*}

structure Loop (γ ι τ : Type*) where
  running : γ → Bool
  body : γ → ι → τ × γ

structure Pass (γ ι τ : Type*) where
  before : γ
  input : ι
  turn : τ
  after : γ

def Loop.pass (L : Loop γ ι τ) (g : γ) (x : ι) : Pass γ ι τ := ⟨g, x, (L.body g x).1, (L.body g x).2⟩

def Loop.passes (L : Loop γ ι τ) (g : γ) : List ι → List (Pass γ ι τ)
  | [] => []
  | x :: xs => if L.running g then L.pass g x :: L.passes (L.body g x).2 xs else []

def Loop.final (L : Loop γ ι τ) (g : γ) : List ι → γ
  | [] => g
  | x :: xs => if L.running g then L.final (L.body g x).2 xs else g

def Loop.step (L : Loop γ ι τ) (g : γ) (x : ι) : Option (Pass γ ι τ × γ) :=
  if L.running g then some (L.pass g x, (L.body g x).2) else none

variable {L : Loop γ ι τ} {g t : γ} {x : ι} {xs : List ι} {p : Pass γ ι τ} {pre post : List (Pass γ ι τ)}

theorem passes_running (h : L.running g) (x : ι) (xs : List ι) :
    L.passes g (x :: xs) = L.pass g x :: L.passes (L.body g x).2 xs := by
  rw [Loop.passes, if_pos h]

theorem passes_ended (h : L.running g = false) (xs : List ι) : L.passes g xs = [] := by
  cases xs <;> simp [Loop.passes, h]

theorem step_running (h : L.running g) (x : ι) : L.step g x = some (L.pass g x, (L.body g x).2) := by
  rw [Loop.step, if_pos h]

theorem step_pass (h : L.step g x = some (p, t)) : L.running g ∧ p = L.pass g x ∧ t = p.after := by
  rw [Loop.step] at h
  split at h
  · next hr =>
    obtain ⟨rfl, rfl⟩ := by simpa using h
    exact ⟨hr, rfl, rfl⟩
  · simp at h

theorem final_running (h : L.running g) (x : ι) (xs : List ι) : L.final g (x :: xs) = L.final (L.body g x).2 xs := by
  rw [Loop.final, if_pos h]

theorem final_ended (h : L.running g = false) (xs : List ι) : L.final g xs = g := by
  cases xs <;> simp [Loop.final, h]

theorem passes_run (L : Loop γ ι τ) (g : γ) (xs : List ι) : Run L.step g (L.passes g xs) (L.final g xs) := by
  induction xs generalizing g with
  | nil => exact .nil
  | cons x xs ih =>
    by_cases hr : L.running g
    · rw [passes_running hr, final_running hr]
      exact (Run.single (step_running hr x)).trans (ih _)
    · rw [passes_ended (by simpa using hr), final_ended (by simpa using hr)]
      exact .nil

theorem final_invariant {I : γ → Prop} (h : I g) (hI : ∀ g, ∀ x ∈ xs, L.running g → I g → I (L.body g x).2) :
    I (L.final g xs) := by
  induction xs generalizing g with
  | nil => exact h
  | cons x xs ih =>
    by_cases hr : L.running g
    · rw [final_running hr]
      exact ih (hI g x (by simp) hr h) fun g y hy => hI g y (by simp [hy])
    · rwa [final_ended (by simpa using hr)]

theorem final_append (L : Loop γ ι τ) (g : γ) (xs ys : List ι) : L.final g (xs ++ ys) = L.final (L.final g xs) ys := by
  induction xs generalizing g with
  | nil => rfl
  | cons x xs ih =>
    by_cases hr : L.running g
    · rw [List.cons_append, final_running hr, final_running hr, ih]
    · have hend : L.running g = false := by simpa using hr
      simp only [final_ended hend]

theorem passes_append (L : Loop γ ι τ) (g : γ) (xs ys : List ι) :
    L.passes g (xs ++ ys) = L.passes g xs ++ L.passes (L.final g xs) ys := by
  induction xs generalizing g with
  | nil => rfl
  | cons x xs ih =>
    by_cases hr : L.running g
    · rw [List.cons_append, passes_running hr, passes_running hr, final_running hr, ih, List.cons_append]
    · have hend : L.running g = false := by simpa using hr
      simp only [passes_ended hend, final_ended hend, List.nil_append]

theorem passes_split (h : L.passes g xs = pre ++ p :: post) :
    Run L.step g pre p.before ∧ L.running p.before ∧ p = L.pass p.before p.input := by
  induction pre generalizing g xs with
  | nil =>
    cases xs with
    | nil => simp [Loop.passes] at h
    | cons x xs =>
      by_cases hr : L.running g
      · rw [passes_running hr, List.nil_append, List.cons.injEq] at h
        obtain ⟨rfl, -⟩ := h
        exact ⟨.nil, hr, rfl⟩
      · simp [Loop.passes, hr] at h
  | cons q pre ih =>
    cases xs with
    | nil => simp [Loop.passes] at h
    | cons x xs =>
      by_cases hr : L.running g
      · rw [passes_running hr, List.cons_append, List.cons.injEq] at h
        obtain ⟨rfl, hrest⟩ := h
        obtain ⟨hrun, hp⟩ := ih hrest
        exact ⟨(Run.single (step_running hr x)).trans hrun, hp⟩
      · simp [Loop.passes, hr] at h

section

variable {ω : Type*} {f : Pass γ ι τ → List ω} {g' : γ} {ys : List ι}

theorem shown_succ {n : ℕ} (hx : xs[n]? = some x) :
    (L.passes g (xs.take (n + 1))).flatMap f =
      (L.passes g (xs.take n)).flatMap f ++ (L.passes (L.final g (xs.take n)) [x]).flatMap f := by
  rw [List.take_add_one, hx, Option.toList_some, passes_append, List.flatMap_append]

theorem shown_iff (hl : xs.length = ys.length) :
    (∀ n, (L.passes g (xs.take n)).flatMap f = (L.passes g' (ys.take n)).flatMap f) ↔
      ∀ n x y, xs[n]? = some x → ys[n]? = some y →
        (L.passes (L.final g (xs.take n)) [x]).flatMap f = (L.passes (L.final g' (ys.take n)) [y]).flatMap f := by
  constructor
  · intro h n x y hx hy
    have hn := h (n + 1)
    rw [shown_succ hx, shown_succ hy, h n] at hn
    exact List.append_cancel_left hn
  · intro h n
    induction n with
    | zero => rfl
    | succ n ih =>
      by_cases hn : n < xs.length
      · obtain ⟨x, hx⟩ : ∃ x, xs[n]? = some x := ⟨_, List.getElem?_eq_getElem hn⟩
        obtain ⟨y, hy⟩ : ∃ y, ys[n]? = some y := ⟨_, List.getElem?_eq_getElem (hl ▸ hn)⟩
        rw [shown_succ hx, shown_succ hy, ih, h n x y hx hy]
      · rwa [List.take_of_length_le (by omega), List.take_of_length_le (by omega)] at ih ⊢

end

end NutrinoStack.Loops

import Mathlib.Init

namespace NutrinoStack.Interactions

structure Interface where
  Call : Type
  Reply : Call → Type

inductive Prog (I : Interface) (α : Type) : Type
  | done (a : α)
  | call (c : I.Call) (next : I.Reply c → Prog I α)

variable {I : Interface} {α β σ : Type}

def Prog.bind : Prog I α → (α → Prog I β) → Prog I β
  | .done a, f => f a
  | .call c next, f => .call c fun r => (next r).bind f

instance : Monad (Prog I) where
  pure := .done
  bind := Prog.bind

def perform (c : I.Call) : Prog I (I.Reply c) := .call c .done

abbrev Log (I : Interface) : Type := List (Σ c : I.Call, I.Reply c)

inductive Exec (step : σ → (c : I.Call) → I.Reply c → σ → Prop) :
    Prog I α → σ → Log I → α → σ → Prop
  | done (a : α) (s : σ) : Exec step (.done a) s [] a s
  | call {c : I.Call} {next : I.Reply c → Prog I α} {s t u : σ} {r : I.Reply c} {log : Log I} {a : α} :
      step s c r t → Exec step (next r) t log a u → Exec step (.call c next) s (⟨c, r⟩ :: log) a u

variable {step : σ → (c : I.Call) → I.Reply c → σ → Prop} {s t u : σ} {log : Log I}

theorem exec_pure {a b : α} : Exec step (pure a : Prog I α) s log b t ↔ log = [] ∧ b = a ∧ t = s := by
  constructor
  · rintro ⟨⟩
    exact ⟨rfl, rfl, rfl⟩
  · rintro ⟨rfl, rfl, rfl⟩
    exact .done _ _

theorem exec_bind {p : Prog I α} {f : α → Prog I β} {b : β} :
    Exec step (p >>= f) s log b u ↔
      ∃ log₁ log₂ a t, log = log₁ ++ log₂ ∧ Exec step p s log₁ a t ∧ Exec step (f a) t log₂ b u := by
  constructor
  · intro h
    induction p generalizing s log with
    | done a => exact ⟨[], log, a, s, rfl, .done a s, h⟩
    | call c next ih =>
      cases h with
      | call hs hr =>
        obtain ⟨log₁, log₂, a, t, rfl, h₁, h₂⟩ := ih _ hr
        exact ⟨_, log₂, a, t, rfl, .call hs h₁, h₂⟩
  · rintro ⟨log₁, log₂, a, t, rfl, h₁, h₂⟩
    induction h₁ with
    | done a s => exact h₂
    | call hs _ ih => exact .call hs (ih h₂)

theorem exec_perform {c : I.Call} {r : I.Reply c} :
    Exec step (perform c) s log r t ↔ log = [⟨c, r⟩] ∧ step s c r t := by
  constructor
  · intro h
    cases h with
    | call hs hr =>
      cases hr
      exact ⟨rfl, hs⟩
  · rintro ⟨rfl, hs⟩
    exact .call hs (.done _ _)

def eval (answer : σ → (c : I.Call) → Option (I.Reply c × σ)) : Prog I α → σ → Option (α × σ)
  | .done a, s => some (a, s)
  | .call c next, s =>
    match answer s c with
    | some (r, t) => eval answer (next r) t
    | none => none

variable {answer : σ → (c : I.Call) → Option (I.Reply c × σ)}

@[simp] theorem eval_pure (a : α) : eval answer (pure a : Prog I α) s = some (a, s) := rfl

theorem eval_bind (p : Prog I α) (f : α → Prog I β) :
    eval answer (p >>= f) s = (eval answer p s).bind fun r => eval answer (f r.1) r.2 := by
  induction p generalizing s with
  | done a => rfl
  | call c next ih =>
    change eval answer (.call c fun r => next r >>= f) s = _
    simp only [eval]
    cases answer s c with
    | none => rfl
    | some r => exact ih r.1

@[simp] theorem eval_perform (c : I.Call) : eval answer (perform c) s = answer s c := by
  simp only [perform, eval]
  cases answer s c <;> rfl

theorem exec_eval {p : Prog I α} {a : α} (h : eval answer p s = some (a, t))
    (hstep : ∀ {s c r t}, answer s c = some (r, t) → step s c r t) : ∃ log, Exec step p s log a t := by
  induction p generalizing s with
  | done b =>
    cases h
    exact ⟨[], .done _ _⟩
  | call c next ih =>
    cases hc : answer s c with
    | none => simp [eval, hc] at h
    | some r =>
      simp only [eval, hc] at h
      obtain ⟨log, hrest⟩ := ih r.1 h
      exact ⟨_, .call (hstep hc) hrest⟩

variable {γ : Type}

theorem Prog.bind_assoc (p : Prog I α) (f : α → Prog I β) (g : β → Prog I γ) :
    (p >>= f) >>= g = p >>= fun a => f a >>= g := by
  induction p with
  | done a => rfl
  | call c next ih => exact congrArg (Prog.call c) (funext ih)

theorem perform_active (c : I.Call) (r : I.Reply c) : perform c ≠ .done r := by
  simp [perform]

theorem Prog.bind_pure (p : Prog I α) : (p >>= fun a => (.done a : Prog I α)) = p := by
  induction p with
  | done a => rfl
  | call c next ih => exact congrArg (Prog.call c) (funext ih)

end NutrinoStack.Interactions

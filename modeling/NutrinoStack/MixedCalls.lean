import NutrinoStack.Restarts

namespace NutrinoStack.MixedCalls

open Interactions Processes Reductions Restarts Runs

variable {I J : Interface} {ι ι' κ O α : Type}

abbrev mixed (I J : Interface) : Interface where
  Call := I.Call ⊕ J.Call
  Reply
    | .inl c => I.Reply c
    | .inr d => J.Reply d

def left : Prog I α → Prog (mixed I J) α
  | .done a => .done a
  | .call c next => .call (I := mixed I J) (.inl c) fun r => left (next r)

def right : Prog J α → Prog (mixed I J) α
  | .done a => .done a
  | .call d next => .call (I := mixed I J) (.inr d) fun r => right (next r)

theorem left_active {p : Prog I α} (h : ∀ a, p ≠ .done a) (a : α) : left (J := J) p ≠ .done a := by
  cases p with
  | done b => exact (h b rfl).elim
  | call c next => simp [left]

theorem right_active {p : Prog J α} (h : ∀ a, p ≠ .done a) (a : α) : right (I := I) p ≠ .done a := by
  cases p with
  | done b => exact (h b rfl).elim
  | call d next => simp [right]

def mix (F : Family I ι) (G : Family J ι') : Family (mixed I J) (ι ⊕ ι') where
  Memory := Sum.elim F.Memory G.Memory
  body
    | .inl i => fun m => (F.body i m).map left
    | .inr j => fun m => (G.body j m).map right
  active i m a h := by
    cases i with
    | inl i =>
      obtain ⟨p, hp, he⟩ := Option.map_eq_some_iff.mp h
      exact left_active (fun b hb => F.active i m b (hp.trans (congrArg some hb))) a he
    | inr j =>
      obtain ⟨p, hp, he⟩ := Option.map_eq_some_iff.mp h
      exact right_active (fun b hb => G.active j m b (hp.trans (congrArg some hb))) a he

def withCalls (imp : Implementation I J) : Implementation (mixed I J) J where
  program
    | .inl c => imp.program c
    | .inr d => perform d
  active
    | .inl c => imp.active c
    | .inr d => perform_active d

theorem translate_left (imp : Implementation I J) (p : Prog I α) :
    translate (withCalls imp).program (left p) = translate imp.program p := by
  induction p with
  | done a => rfl
  | call c next ih => exact congrArg (imp.program c >>= ·) (funext ih)

theorem translate_right (imp : Implementation I J) (p : Prog J α) :
    translate (withCalls imp).program (right p) = p := by
  induction p with
  | done a => rfl
  | call d next ih => exact congrArg (Prog.call d) (funext ih)

def shownMixed (shown : (Σ d : J.Call, J.Reply d) → Option O) (shown' : (Σ c : I.Call, I.Reply c) → Option O) :
    (Σ c : (mixed I J).Call, (mixed I J).Reply c) → Option O
  | ⟨.inl c, r⟩ => shown' ⟨c, r⟩
  | ⟨.inr d, r⟩ => shown ⟨d, r⟩

variable {answer : κ → (d : J.Call) → Option (J.Reply d × κ)} {imp : Implementation I J}
  {shown : (Σ d : J.Call, J.Reply d) → Option O} {shown' : (Σ c : I.Call, I.Reply c) → Option O}

theorem reduces_withCalls {n : ℕ} (h : Reduces answer imp shown shown' n) :
    Reduces answer (withCalls imp) shown (shownMixed shown shown') n where
  atomic
    | .inl c, k => h.atomic c k
    | .inr _, _ => fun _ r _ _ _ => .inl ⟨r, rfl⟩
  shows
    | .inl c => h.shows c
    | .inr _ => fun r => .inl ⟨r, rfl, rfl⟩

section

variable {F : Family I ι} {G : Family J ι'}

def together (imp : Implementation I J) (s : Pool ((imp.family F).beside G) κ) :
    Pool ((withCalls imp).family (mix F G)) κ := ⟨s.kernel, s.thread⟩

theorem together_next (i : ι ⊕ ι') (p : Prog J (((imp.family F).beside G).Memory i)) :
    ((withCalls imp).family (mix F G)).next i p = ((imp.family F).beside G).next i p := by
  cases p with
  | call d next => rfl
  | done m =>
    cases i with
    | inl i =>
      change ((F.body i m).map left).map (translate (withCalls imp).program) = (F.body i m).map (translate imp.program)
      simp only [Option.map_map, Function.comp_def, translate_left]
    | inr j =>
      change ((G.body j m).map right).map (translate (withCalls imp).program) = G.body j m
      simp only [Option.map_map, Function.comp_def, translate_right, Option.map_id_fun', id_eq]

variable [DecidableEq ι] [DecidableEq ι']

theorem together_step {s t : Pool ((imp.family F).beside G) κ} {i : ι ⊕ ι'} {e : Event J (ι ⊕ ι')}
    (h : step ((imp.family F).beside G) answer s i = some (e, t)) :
    step ((withCalls imp).family (mix F G)) answer (together imp s) i = some (e, together imp t) := by
  obtain ⟨d, next, r, k, hn, ha, rfl, rfl⟩ := step_iff.mp h
  exact step_iff.mpr ⟨d, next, r, k, (together_next i (s.thread i)).trans hn, ha, rfl, rfl⟩

theorem together_run {may : κ → (i : ι ⊕ ι') → ((imp.family F).beside G).Memory i → Bool}
    {s p : Pool ((imp.family F).beside G) κ} {tr : List (Option (Event J (ι ⊕ ι')))}
    (h : Run (restarting ((imp.family F).beside G) answer may) s tr p) :
    Run (restarting ((withCalls imp).family (mix F G)) answer may) (together imp s) tr (together imp p) := by
  have hmap : Run (restarting ((withCalls imp).family (mix F G)) answer may) (together imp s) (tr.map id)
      (together imp p) := h.simulation (f := together imp) fun tr t a o u _ hs => by
      rcases restarting_cases hs with ⟨i, e, rfl, hstep⟩ | ⟨i, m, rfl, hm, rfl⟩
      · exact ⟨.call i, restarting_call (together_step hstep)⟩
      · exact ⟨.restart i m, restarting_restart hm⟩
  rwa [List.map_id] at hmap

end

end NutrinoStack.MixedCalls

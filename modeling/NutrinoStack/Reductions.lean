import Mathlib.Data.List.Basic
import Mathlib.Logic.Relation
import NutrinoStack.Processes

namespace NutrinoStack.Reductions

open Interactions Processes Runs

variable {I J : Interface} {α β κ ι O : Type}

def translate (imp : (c : I.Call) → Prog J (I.Reply c)) : Prog I α → Prog J α
  | .done a => .done a
  | .call c next => imp c >>= fun r => translate imp (next r)

theorem translate_bind (imp : (c : I.Call) → Prog J (I.Reply c)) (p : Prog I α) (f : α → Prog I β) :
    translate imp (p >>= f) = translate imp p >>= fun a => translate imp (f a) := by
  induction p with
  | done a => rfl
  | call c next ih =>
    change (imp c >>= fun r => translate imp (next r >>= f)) = _
    simp only [ih, translate, Prog.bind_assoc]

theorem translate_perform (imp : (c : I.Call) → Prog J (I.Reply c)) (c : I.Call) :
    translate imp (perform c) = imp c := Prog.bind_pure _

variable (answer : κ → (c : J.Call) → Option (J.Reply c × κ))

def Later : κ → κ → Prop := Relation.ReflTransGen fun k k' => ∃ c r, answer k c = some (r, k')

/-- A call that only looks: now and at any later time it leaves the kernel alone, and from now on its reply stays
the same. -/
def Looks (k : κ) (c : J.Call) (r : J.Reply c) : Prop := ∀ k', Later answer k k' → answer k' c = some (r, k')

def Atomic : Prog J α → ℕ → κ → Prop
  | .done _, _, _ => False
  | .call c next, n, k => ∀ k' r k₁, Later answer k k' → answer k' c = some (r, k₁) →
    (∃ a, next r = .done a) ∨ ∃ m, n = m + 1 ∧ Looks answer k' c r ∧ Atomic (next r) m k'

variable {answer}

theorem later_trans {k k' k'' : κ} (h : Later answer k k') (h' : Later answer k' k'') : Later answer k k'' :=
  Relation.ReflTransGen.trans h h'

theorem later_step {k k' k'' : κ} {c : J.Call} {r : J.Reply c} (h : Later answer k k')
    (ha : answer k' c = some (r, k'')) : Later answer k k'' :=
  Relation.ReflTransGen.tail h ⟨c, r, ha⟩

theorem Atomic.later {n : ℕ} {k k' : κ} {p : Prog J α} (h : Atomic answer p n k) (hk : Later answer k k') :
    Atomic answer p n k' := by
  cases p with
  | done a => exact h
  | call c next => exact fun k'' r k₁ h' => h k'' r k₁ (later_trans hk h')

variable (answer) in
structure Rest (p q : Prog J α) (n : ℕ) (k : κ) : Prop where
  atomic : Atomic answer q n k
  restart : ∀ k', Later answer k k' → eval answer q k' = eval answer p k'

theorem Rest.later {p q : Prog J α} {n : ℕ} {k k' : κ} (h : Rest answer p q n k) (hk : Later answer k k') :
    Rest answer p q n k' :=
  ⟨h.atomic.later hk, fun _ h' => h.restart _ (later_trans hk h')⟩

theorem Rest.call {p : Prog J α} {n : ℕ} {k k₁ : κ} {c : J.Call} {next : J.Reply c → Prog J α} {r : J.Reply c}
    (h : Rest answer p (.call c next) n k) (ha : answer k c = some (r, k₁)) :
    (∃ a, next r = .done a ∧ eval answer p k = some (a, k₁)) ∨
      ∃ m, n = m + 1 ∧ k₁ = k ∧ Rest answer p (next r) m k := by
  have hnow : Later answer k k := .refl
  rcases h.atomic k r k₁ hnow ha with ⟨a, hd⟩ | ⟨m, hn, hlook, hat⟩
  · left
    refine ⟨a, hd, ?_⟩
    rw [← h.restart k hnow, eval, ha]
    simp only [hd, eval]
  · right
    have hk : k₁ = k := by simpa [ha] using hlook k hnow
    refine ⟨m, hn, hk, hat, fun k' hk' => ?_⟩
    rw [← h.restart k' hk', eval, hlook k' hk']

theorem Rest.blocked {p : Prog J α} {n : ℕ} {k : κ} {c : J.Call} {next : J.Reply c → Prog J α}
    (h : Rest answer p (.call c next) n k) (ha : answer k c = none) : eval answer p k = none := by
  rw [← h.restart k .refl, eval, ha]

def Shows (shown : (Σ c : J.Call, J.Reply c) → Option O) (out : α → Option O) : Prog J α → Prop
  | .done _ => False
  | .call c next => ∀ r, (∃ a, next r = .done a ∧ shown ⟨c, r⟩ = out a) ∨
    shown ⟨c, r⟩ = none ∧ Shows shown out (next r)

def guarded (c : J.Call) (bad : J.Reply c → Prop) [DecidablePred bad] (a : α) (d : J.Reply c → J.Call)
    (f : (r : J.Reply c) → J.Reply (d r) → α) : Prog J α :=
  .call c fun r => if bad r then .done a else .call (d r) fun x => .done (f r x)

section

variable {c : J.Call} {bad : J.Reply c → Prop} [DecidablePred bad] {a : α} {d : J.Reply c → J.Call}
  {f : (r : J.Reply c) → J.Reply (d r) → α}

theorem guarded_of_bind {g : (r : J.Reply c) → J.Reply (d r) → Prog J α} (hg : ∀ r x, g r x = .done (f r x)) :
    (perform c >>= fun r => if bad r then pure a else perform (d r) >>= g r) = guarded c bad a d f := by
  apply congrArg (Prog.call c)
  funext r
  by_cases hb : bad r
  · rw [if_pos hb]
    exact if_pos hb
  · rw [if_neg hb]
    apply (if_neg hb).trans
    exact congrArg (Prog.call (d r)) (funext (hg r))

theorem eval_guarded (k : κ) :
    eval answer (guarded c bad a d f) k = (answer k c).bind fun r =>
      if bad r.1 then some (a, r.2) else (answer r.2 (d r.1)).map fun x => (f r.1 x.1, x.2) := by
  rw [guarded, eval]
  cases answer k c with
  | none => rfl
  | some r =>
    by_cases hb : bad r.1
    · simp [hb, eval]
    · simp only [hb, if_false, eval, Option.bind_some]
      cases answer r.2 (d r.1) <;> rfl

theorem guarded_atomic (hlook : ∀ k r k', ¬ bad r → answer k c = some (r, k') → Looks answer k c r) (k : κ) :
    Atomic answer (guarded c bad a d f) 1 k := by
  intro k' r k₁ _ h
  by_cases hb : bad r
  · exact .inl ⟨a, if_pos hb⟩
  · refine .inr ⟨0, rfl, hlook k' r k₁ hb h, ?_⟩
    simp only [if_neg hb]
    exact fun _ _ _ _ _ => .inl ⟨_, rfl⟩

theorem guarded_shows {shown : (Σ c : J.Call, J.Reply c) → Option O} {out : α → Option O}
    (hbad : ∀ r, bad r → shown ⟨c, r⟩ = out a)
    (hgood : ∀ r, ¬ bad r → shown ⟨c, r⟩ = none ∧ ∀ x, shown ⟨d r, x⟩ = out (f r x)) :
    Shows shown out (guarded c bad a d f) := by
  intro r
  by_cases hb : bad r
  · exact .inl ⟨a, if_pos hb, hbad r hb⟩
  · refine .inr ⟨(hgood r hb).1, ?_⟩
    simp only [if_neg hb]
    exact fun x => .inl ⟨_, rfl, (hgood r hb).2 x⟩

end

structure Implementation (I J : Interface) where
  program : (c : I.Call) → Prog J (I.Reply c)
  active : ∀ c a, program c ≠ .done a

def Implementation.atomically (imp : Implementation I J) (answer : κ → (c : J.Call) → Option (J.Reply c × κ)) (k : κ)
    (c : I.Call) : Option (I.Reply c × κ) := eval answer (imp.program c) k

theorem bind_active {p : Prog J α} {f : α → Prog J β} (hp : ∀ a, p ≠ .done a) (b : β) : p >>= f ≠ .done b := by
  cases p with
  | done a => exact (hp a rfl).elim
  | call c next =>
    intro h
    change Prog.call c (fun r => next r >>= f) = .done b at h
    cases h

abbrev Implementation.family (imp : Implementation I J) (F : Family I ι) : Family J ι where
  Memory := F.Memory
  body i m := (F.body i m).map (translate imp.program)
  active i m a h := by
    obtain ⟨p, hp, he⟩ := Option.map_eq_some_iff.mp h
    cases p with
    | done b => exact F.active i m b hp
    | call c next => exact bind_active (imp.active c) a he

def Implementation.pool (imp : Implementation I J) {F : Family I ι} (s : Pool F κ) : Pool (imp.family F) κ :=
  ⟨s.kernel, fun i => translate imp.program (s.thread i)⟩

variable {imp : Implementation I J} {F : Family I ι} {shown : (Σ c : J.Call, J.Reply c) → Option O}
  {shown' : (Σ c : I.Call, I.Reply c) → Option O}

/-- A process of calls, and the same process of operations, which is still where it began the operation. -/
inductive Inside (answer : κ → (c : J.Call) → Option (J.Reply c × κ)) (imp : Implementation I J) (F : Family I ι)
    (shown : (Σ c : J.Call, J.Reply c) → Option O) (shown' : (Σ c : I.Call, I.Reply c) → Option O) (k : κ) (i : ι)
    (n : ℕ) (p : Prog J (F.Memory i)) (s : Prog I (F.Memory i)) : Prop
  | ended (hs : F.next i s = none) (hp : (imp.family F).next i p = none)
  | within {c : I.Call} {next : I.Reply c → Prog I (F.Memory i)} {q : Prog J (I.Reply c)}
      (hs : F.next i s = some (.call c next))
      (hp : (imp.family F).next i p = some (q >>= fun r => translate imp.program (next r)))
      (hq : Rest answer (imp.program c) q n k) (hshow : Shows shown (fun a => shown' ⟨c, a⟩) q)

variable (answer imp shown shown') in
structure Reduces (n : ℕ) : Prop where
  atomic : ∀ c k, Atomic answer (imp.program c) n k
  shows : ∀ c, Shows shown (fun a => shown' ⟨c, a⟩) (imp.program c)

theorem next_translate (i : ι) (p : Prog I (F.Memory i)) :
    (imp.family F).next i (translate imp.program p) = (F.next i p).map (translate imp.program) := by
  cases p with
  | done m => rfl
  | call c next =>
    rw [next_call, Option.map_some]
    generalize hq : translate imp.program (.call c next) = q
    cases q with
    | done a => exact (bind_active (imp.active c) a hq).elim
    | call d next' => rfl

theorem Reduces.inside {n : ℕ} (h : Reduces answer imp shown shown' n) (k : κ) (i : ι) (p : Prog I (F.Memory i)) :
    Inside answer imp F shown shown' k i n (translate imp.program p) p := by
  have hp : (imp.family F).next i (translate imp.program p) = _ := next_translate i p
  cases hn : F.next i p with
  | none => exact .ended hn (by rw [hp, hn, Option.map_none])
  | some q =>
    cases q with
    | done a => exact (next_active hn).elim
    | call c next => exact .within hn (by rw [hp, hn]; rfl) ⟨h.atomic c k, fun _ _ => rfl⟩ (h.shows c)

theorem Inside.later {k k' : κ} {i : ι} {n : ℕ} {p : Prog J (F.Memory i)} {s : Prog I (F.Memory i)}
    (h : Inside answer imp F shown shown' k i n p s) (hk : Later answer k k') :
    Inside answer imp F shown shown' k' i n p s := by
  cases h with
  | ended hs hp => exact .ended hs hp
  | within hs hp hq hshow => exact .within hs hp (hq.later hk) hshow

variable (answer imp shown shown') in
structure Matches (p : Pool (imp.family F) κ) (s : Pool F κ) (left : ι → ℕ) : Prop where
  kernel : p.kernel = s.kernel
  inside : ∀ i, Inside answer imp F shown shown' s.kernel i (left i) (p.thread i) (s.thread i)

def seen (shown : (Σ c : I.Call, I.Reply c) → Option O) (tr : List (Event I ι)) : List (ι × O) :=
  tr.filterMap fun e => (shown e.entry).map (e.who, ·)

theorem seen_snoc (shown : (Σ c : I.Call, I.Reply c) → Option O) (tr : List (Event I ι)) (e : Event I ι) :
    seen shown (tr ++ [e]) = seen shown tr ++ ((shown e.entry).map (e.who, ·)).toList := by
  rw [seen, List.filterMap_append]
  congr 1

theorem seen_mem {shown : (Σ c : I.Call, I.Reply c) → Option O} {tr : List (Event I ι)} {e : Event I ι}
    (he : e ∈ tr) {o : O} (ho : shown e.entry = some o) : (e.who, o) ∈ seen shown tr :=
  List.mem_filterMap.mpr ⟨e, he, by rw [ho]; rfl⟩

variable [DecidableEq ι]

theorem Matches.stopped {p : Pool (imp.family F) κ} {s : Pool F κ} {left : ι → ℕ}
    (h : Matches answer imp shown shown' p s left) {i : ι} (hp : step (imp.family F) answer p i = none) :
    step F (imp.atomically answer) s i = none := by
  apply stopped_iff.mpr
  cases h.inside i with
  | ended hs _ => exact .inl hs
  | @within c next q hs hn hq _ =>
    right
    refine ⟨c, next, hs, ?_⟩
    cases q with
    | done a => exact hq.atomic.elim
    | call d next' =>
      rcases stopped_iff.mp hp with hnone | ⟨d', _, hd, ha⟩
      · rw [hn] at hnone
        cases hnone
      · rw [hn] at hd
        cases hd
        exact hq.blocked (h.kernel ▸ ha)

theorem Matches.step {n : ℕ} (hr : Reduces answer imp shown shown' n) {p p' : Pool (imp.family F) κ} {s : Pool F κ}
    {left : ι → ℕ} {i : ι} {e : Event J ι} (h : Matches answer imp shown shown' p s left)
    (hs : step (imp.family F) answer p i = some (e, p')) :
    (∃ m, left i = m + 1 ∧ shown e.entry = none ∧
      Matches answer imp shown shown' p' s (Function.update left i m)) ∨
    ∃ e' s', Processes.step F (imp.atomically answer) s i = some (e', s') ∧ shown e.entry = shown' e'.entry ∧
      Matches answer imp shown shown' p' s' (Function.update left i n) := by
  obtain ⟨d, next', r, k₁, hd, ha, rfl, rfl⟩ := step_iff.mp hs
  rw [h.kernel] at ha
  cases h.inside i with
  | ended _ hp =>
    rw [hp] at hd
    cases hd
  | @within c next q hsn hn hq hshow =>
    rw [hn] at hd
    cases q with
    | done a => exact hq.atomic.elim
    | call d' next'' =>
      cases hd
      have hlater : Later answer s.kernel k₁ := later_step .refl ha
      rcases hq.call ha with ⟨a, hdone, heval⟩ | ⟨m, hm, rfl, hrest⟩
      · right
        refine ⟨⟨i, ⟨c, a⟩⟩, ⟨k₁, Function.update s.thread i (next a)⟩, ?_, ?_, rfl, fun j => ?_⟩
        · exact step_iff.mpr ⟨c, next, a, k₁, hsn, heval, rfl, rfl⟩
        · rcases hshow r with ⟨a', hdone', he⟩ | ⟨-, hrest⟩
          · rw [hdone] at hdone'
            cases hdone'
            exact he
          · rw [hdone] at hrest
            exact hrest.elim
        · by_cases hj : j = i
          · subst hj
            simp only [Function.update_self, hdone]
            exact hr.inside k₁ j (next a)
          · simp only [Function.update_of_ne hj]
            exact (h.inside j).later hlater
      · left
        rcases hshow r with ⟨a, hdone, -⟩ | ⟨hnone, hshow'⟩
        · rw [hdone] at hrest
          exact hrest.atomic.elim
        · refine ⟨m, hm, hnone, rfl, fun j => ?_⟩
          by_cases hj : j = i
          · subst hj
            simp only [Function.update_self]
            refine .within hsn ?_ hrest hshow'
            cases hq' : next'' r with
            | done a =>
              rw [hq'] at hrest
              exact hrest.atomic.elim
            | call d₂ next₂ => rfl
          · simp only [Function.update_of_ne hj]
            exact (h.inside j).later hlater

/-- Every interleaving of the calls is one of the operations, in which each operation takes effect at one call. -/
theorem Reduces.run {n : ℕ} (hr : Reduces answer imp shown shown' n) {s₀ : Pool F κ} {tr : List (Event J ι)}
    {p : Pool (imp.family F) κ} (h : Run (Processes.step (imp.family F) answer) (imp.pool s₀) tr p) :
    ∃ tr' s left, Run (Processes.step F (imp.atomically answer)) s₀ tr' s ∧ Matches answer imp shown shown' p s left ∧
      seen shown tr = seen shown' tr' ∧ ∀ i, calls tr i + left i ≤ (n + 1) * calls tr' i + n := by
  induction h with
  | nil => exact ⟨[], s₀, fun _ => n, .nil, ⟨rfl, fun i => hr.inside _ i _⟩, rfl, fun i => by simp⟩
  | @snoc tr t u i e _ hs ih =>
    obtain ⟨tr', s, left, hrun, hm, hseen, hcalls⟩ := ih
    have he : e.who = i := by
      obtain ⟨c, next, r, k, -, -, rfl, -⟩ := step_iff.mp hs
      rfl
    rcases hm.step hr hs with ⟨m, hleft, hnone, hm'⟩ | ⟨e', s', hs', hshow, hm'⟩
    · refine ⟨tr', s, _, hrun, hm', ?_, fun j => ?_⟩
      · rw [seen_snoc, hnone, Option.map_none, Option.toList_none, List.append_nil, hseen]
      · have := hcalls j
        rw [calls_append, calls_single, he]
        by_cases hj : j = i
        · subst hj
          simp only [Function.update_self, if_true]
          omega
        · simpa [Function.update_of_ne hj, Ne.symm hj] using this
    · have he' : e'.who = i := by
        obtain ⟨c, next, r, k, -, -, rfl, -⟩ := step_iff.mp hs'
        rfl
      refine ⟨tr' ++ [e'], s', _, hrun.snoc hs', hm', ?_, fun j => ?_⟩
      · rw [seen_snoc, seen_snoc, hseen, hshow, he, he']
      · have := hcalls j
        rw [calls_append, calls_append, calls_single, calls_single, he, he']
        by_cases hj : j = i
        · subst hj
          simp only [Function.update_self, if_true, Nat.mul_add]
          omega
        · simpa [Function.update_of_ne hj, Ne.symm hj] using this

end NutrinoStack.Reductions

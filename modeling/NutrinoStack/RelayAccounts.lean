import Mathlib.Algebra.Order.BigOperators.Group.Finset
import Mathlib.Algebra.Ring.Nat
import NutrinoStack.Relays

namespace NutrinoStack.Relays

open Runs

variable {Q P : Type*}

/-- A quantity that the events of a network yield, with what a parcel still yields from where it is:
on a queue, or in the hand of a station. -/
structure Account (N : Network Q P) where
  gain : Event P → ℕ
  unread : P → ℕ
  unsent : P → ℕ
  injected : ∀ p placed, gain (.injected p placed) = 0
  read : ∀ p, gain (.read p) + ((N.onward p).map unsent).sum = unread p
  sent : ∀ p, gain (.sent p true) + unread p = unsent p
  refused : ∀ p, gain (.sent p false) ≤ unsent p
  taken : ∀ p, gain (.taken p) = unread p

variable {N : Network Q P} (A : Account N)

def Account.credit : Event P → ℕ
  | .injected p true => A.unread p
  | _ => 0

def Account.earned (tr : List (Event P)) : ℕ := (tr.map A.gain).sum

def Account.credited (tr : List (Event P)) : ℕ := (tr.map A.credit).sum

@[simp] theorem Account.earned_append (tr tr' : List (Event P)) :
    A.earned (tr ++ tr') = A.earned tr + A.earned tr' := by
  simp [Account.earned]

@[simp] theorem Account.credited_append (tr tr' : List (Event P)) :
    A.credited (tr ++ tr') = A.credited tr + A.credited tr' := by
  simp [Account.credited]

@[simp] theorem Account.earned_single (e : Event P) : A.earned [e] = A.gain e := by
  simp [Account.earned]

@[simp] theorem Account.credited_single (e : Event P) : A.credited [e] = A.credit e := by
  simp [Account.credited]

theorem earned_eq_countP {ε : Type*} (f : ε → Event P) (c : ε → Bool) {tr : List ε}
    (h : ∀ e ∈ tr, A.gain (f e) = if c e then 1 else 0) : A.earned (tr.map f) = tr.countP c := by
  induction tr with
  | nil => rfl
  | cons e tr ih =>
    have he := h e (by simp)
    have ht := ih fun x hx => h x (by simp [hx])
    simp only [Account.earned, List.map_cons, List.sum_cons, List.countP_cons] at ht ⊢
    omega

variable [Fintype Q]

def Account.outstanding (l : Load Q P) : ℕ :=
  (∑ q, ((l.queue q).map A.unread).sum) + ∑ q, ((l.hand q).map A.unsent).sum

theorem outstanding_mono {A B : Account N} (hu : ∀ p, A.unread p ≤ B.unread p) (hs : ∀ p, A.unsent p ≤ B.unsent p)
    (l : Load Q P) : A.outstanding l ≤ B.outstanding l := by
  apply Nat.add_le_add <;> apply Finset.sum_le_sum <;> intro q _
  · exact List.sum_le_sum fun p _ => hu p
  · exact List.sum_le_sum fun p _ => hs p

variable [DecidableEq Q]

theorem sum_update (f : P → ℕ) (F : Q → List P) (q : Q) (ps : List P) :
    (∑ q', ((Function.update F q ps q').map f).sum) + ((F q).map f).sum =
      (∑ q', ((F q').map f).sum) + (ps.map f).sum := by
  have hu := Finset.sum_update_of_mem (Finset.mem_univ q) (fun q' => ((F q').map f).sum) (ps.map f).sum
  have hs := Finset.sum_eq_add_sum_sdiff_singleton_of_mem (Finset.mem_univ q) (fun q' => ((F q').map f).sum)
  have he : (fun q' => ((Function.update F q ps q').map f).sum) =
      Function.update (fun q' => ((F q').map f).sum) q (ps.map f).sum := by
    funext q'
    by_cases hq : q' = q
    · subst hq; simp
    · simp [Function.update_of_ne hq]
  simp only [he, hu]
  omega

theorem outstanding_place (l : Load Q P) (p : P) :
    A.outstanding (l.place N p true) = A.outstanding l + A.unread p := by
  have h := sum_update A.unread l.queue (N.target p) (l.queue (N.target p) ++ [p])
  simp only [List.map_append, List.map_cons, List.map_nil, List.sum_append, List.sum_cons,
    List.sum_nil] at h
  simp only [Account.outstanding, Load.place]
  omega

theorem outstanding_hand (l : Load Q P) (q : Q) (p : P) (rest : List P) (hh : l.hand q = p :: rest) :
    A.outstanding { l with hand := Function.update l.hand q rest } + A.unsent p = A.outstanding l := by
  have h := sum_update A.unsent l.hand q rest
  simp only [hh, List.map_cons, List.sum_cons] at h
  simp only [Account.outstanding]
  omega

theorem outstanding_queue (l : Load Q P) (q : Q) (p : P) (rest : List P) (hq : l.queue q = p :: rest) :
    A.outstanding { l with queue := Function.update l.queue q rest } + A.unread p = A.outstanding l := by
  have h := sum_update A.unread l.queue q rest
  simp only [hq, List.map_cons, List.sum_cons] at h
  simp only [Account.outstanding]
  omega

theorem outstanding_read (l : Load Q P) (q : Q) (p : P) (rest : List P) (hq : l.queue q = p :: rest)
    (hh : l.hand q = []) :
    A.outstanding ⟨Function.update l.queue q rest, Function.update l.hand q (N.onward p)⟩ + A.gain (.read p) =
      A.outstanding l := by
  have hqu := sum_update A.unread l.queue q rest
  have hha := sum_update A.unsent l.hand q (N.onward p)
  have hr := A.read p
  simp only [hq, hh, List.map_cons, List.map_nil, List.sum_cons, List.sum_nil] at hqu hha
  simp only [Account.outstanding]
  omega

theorem step_account {l l' : Load Q P} {m : Move Q P} {e : Event P} (h : N.step l m = some (e, l')) :
    A.gain e + A.outstanding l' ≤ A.outstanding l + A.credit e ∧
      ((∀ p, e ≠ .sent p false) → A.gain e + A.outstanding l' = A.outstanding l + A.credit e) := by
  rcases step_cases h with ⟨p, placed, rfl, rfl⟩ | ⟨q, p, rest, rfl, hq, hh, rfl⟩ |
    ⟨q, p, rest, placed, rfl, hh, rfl⟩ | ⟨q, p, rest, rfl, hq, rfl⟩
  · have hg := A.injected p placed
    cases placed with
    | false => simp [hg, Load.place, Account.credit]
    | true => simp only [hg, outstanding_place, Account.credit]; omega
  · have := outstanding_read A l q p rest hq hh
    simp only [Account.credit]; omega
  · have hl := outstanding_hand A l q p rest hh
    cases placed with
    | false =>
      refine ⟨?_, fun hne => (hne p rfl).elim⟩
      have := A.refused p
      simp only [Load.place, Account.credit]; omega
    | true =>
      have := A.sent p
      simp only [outstanding_place, Account.credit]; omega
  · have := outstanding_queue A l q p rest hq
    have := A.taken p
    simp only [Account.credit]; omega

theorem run_account {l l' : Load Q P} {tr : List (Event P)} (h : Run N.step l tr l')
    (hsent : ∀ p, .sent p false ∉ tr) :
    A.earned tr + A.outstanding l' = A.outstanding l + A.credited tr := by
  induction h with
  | nil => simp [Account.earned, Account.credited]
  | @snoc tr _ _ _ e hr hs ih =>
    have hprev := ih fun p hp => hsent p (by simp [hp])
    have := (step_account A hs).2 fun p hp => hsent p (by simp [hp])
    simp only [Account.earned_append, Account.credited_append, Account.earned_single, Account.credited_single]
    omega

theorem run_account_le {l l' : Load Q P} {tr : List (Event P)} (h : Run N.step l tr l') :
    A.earned tr + A.outstanding l' ≤ A.outstanding l + A.credited tr := by
  induction h with
  | nil => simp [Account.earned, Account.credited]
  | @snoc tr _ _ _ e hr hs ih =>
    have := (step_account A hs).1
    simp only [Account.earned_append, Account.credited_append, Account.earned_single, Account.credited_single]
    omega

omit [Fintype Q] [DecidableEq Q] in
theorem sum_map_ite {S : P → Prop} [DecidablePred S] (f : P → ℕ) (b : Prop) [Decidable b] {ps : List P}
    (h : ∀ x ∈ ps, S x ↔ b) :
    (ps.map fun x => if S x then f x else 0).sum = if b then (ps.map f).sum else 0 := by
  induction ps with
  | nil => simp
  | cons x ps ih =>
    have hx := h x (by simp)
    have ht := ih fun y hy => h y (by simp [hy])
    simp only [List.map_cons, List.sum_cons, ht, hx]
    split_ifs <;> simp

def Account.only (S : P → Prop) [DecidablePred S] (hS : ∀ p, ∀ x ∈ N.onward p, S x ↔ S p) : Account N where
  gain e := if S e.parcel then A.gain e else 0
  unread p := if S p then A.unread p else 0
  unsent p := if S p then A.unsent p else 0
  injected p placed := by simp [A.injected]
  read p := by
    rw [sum_map_ite A.unsent (S p) (hS p)]
    by_cases hp : S p
    · simpa [Event.parcel, hp] using A.read p
    · simp [Event.parcel, hp]
  sent p := by
    by_cases hp : S p
    · simpa [Event.parcel, hp] using A.sent p
    · simp [Event.parcel, hp]
  refused p := by
    by_cases hp : S p
    · simpa [Event.parcel, hp] using A.refused p
    · simp [Event.parcel, hp]
  taken p := by
    by_cases hp : S p
    · simpa [Event.parcel, hp] using A.taken p
    · simp [Event.parcel, hp]

end NutrinoStack.Relays

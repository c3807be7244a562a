import Mathlib.Algebra.BigOperators.Group.Finset.Piecewise
import Mathlib.Data.Fintype.Basic
import NutrinoStack.Runs

namespace NutrinoStack.Relays

open Runs

variable {Q P : Type*}

/-- Stations that take parcels from their queues and, for each, send others on. -/
structure Network (Q P : Type*) where
  target : P → Q
  onward : P → List P

structure Load (Q P : Type*) where
  queue : Q → List P
  hand : Q → List P

inductive Move (Q P : Type*)
  | inject (p : P) (placed : Bool)
  | read (q : Q)
  | send (q : Q) (placed : Bool)
  | take (q : Q)

inductive Event (P : Type*)
  | injected (p : P) (placed : Bool)
  | read (p : P)
  | sent (p : P) (placed : Bool)
  | taken (p : P)

def Event.parcel : Event P → P
  | .injected p _ | .read p | .sent p _ | .taken p => p

def Load.empty : Load Q P := ⟨fun _ => [], fun _ => []⟩

def Load.All (S : P → Prop) (l : Load Q P) : Prop :=
  (∀ q, ∀ p ∈ l.queue q, S p) ∧ ∀ q, ∀ p ∈ l.hand q, S p

theorem Load.All.empty {S : P → Prop} : (Load.empty : Load Q P).All S := by
  simp [Load.All, Load.empty]

variable [DecidableEq Q]

def Load.place (N : Network Q P) (l : Load Q P) (p : P) : Bool → Load Q P
  | true => { l with queue := Function.update l.queue (N.target p) (l.queue (N.target p) ++ [p]) }
  | false => l

def Network.step (N : Network Q P) (l : Load Q P) : Move Q P → Option (Event P × Load Q P)
  | .inject p placed => some (.injected p placed, l.place N p placed)
  | .read q =>
    match l.queue q, l.hand q with
    | p :: rest, [] =>
      some (.read p, ⟨Function.update l.queue q rest, Function.update l.hand q (N.onward p)⟩)
    | _, _ => none
  | .send q placed =>
    match l.hand q with
    | p :: rest =>
      some (.sent p placed, Load.place N { l with hand := Function.update l.hand q rest } p placed)
    | [] => none
  | .take q =>
    match l.queue q with
    | p :: rest => some (.taken p, { l with queue := Function.update l.queue q rest })
    | [] => none

variable {N : Network Q P}

theorem step_cases {l l' : Load Q P} {m : Move Q P} {e : Event P} (h : N.step l m = some (e, l')) :
    (∃ p placed, e = .injected p placed ∧ l' = l.place N p placed) ∨
    (∃ q p rest, e = .read p ∧ l.queue q = p :: rest ∧ l.hand q = [] ∧
      l' = ⟨Function.update l.queue q rest, Function.update l.hand q (N.onward p)⟩) ∨
    (∃ q p rest placed, e = .sent p placed ∧ l.hand q = p :: rest ∧
      l' = Load.place N { l with hand := Function.update l.hand q rest } p placed) ∨
    (∃ q p rest, e = .taken p ∧ l.queue q = p :: rest ∧
      l' = { l with queue := Function.update l.queue q rest }) := by
  cases m with
  | inject p placed =>
    obtain ⟨rfl, rfl⟩ : Event.injected p placed = e ∧ l.place N p placed = l' := by
      simpa [Network.step] using h
    exact .inl ⟨p, placed, rfl, rfl⟩
  | read q =>
    simp only [Network.step] at h
    split at h
    · next p rest hq hh =>
      simp only [Option.some.injEq, Prod.mk.injEq] at h
      exact .inr (.inl ⟨q, p, rest, h.1.symm, hq, hh, h.2.symm⟩)
    · simp at h
  | send q placed =>
    simp only [Network.step] at h
    split at h
    · next p rest hh =>
      simp only [Option.some.injEq, Prod.mk.injEq] at h
      exact .inr (.inr (.inl ⟨q, p, rest, placed, h.1.symm, hh, h.2.symm⟩))
    · simp at h
  | take q =>
    simp only [Network.step] at h
    split at h
    · next p rest hq =>
      simp only [Option.some.injEq, Prod.mk.injEq] at h
      exact .inr (.inr (.inr ⟨q, p, rest, h.1.symm, hq, h.2.symm⟩))
    · simp at h

theorem Load.All.place {S : P → Prop} {l : Load Q P} (h : l.All S) {p : P} (hp : S p) (placed : Bool) :
    (l.place N p placed).All S := by
  cases placed with
  | false => exact h
  | true =>
    refine ⟨fun q x hx => ?_, h.2⟩
    by_cases hq : q = N.target p
    · subst hq
      simp only [Load.place, Function.update_self, List.mem_append, List.mem_singleton] at hx
      rcases hx with hx | rfl
      · exact h.1 _ x hx
      · exact hp
    · simp only [Load.place, Function.update_of_ne hq] at hx
      exact h.1 q x hx

theorem mem_update {F : Q → List P} {q q' : Q} {ps : List P} {p : P}
    (h : p ∈ Function.update F q ps q') : p ∈ ps ∨ p ∈ F q' := by
  by_cases hq : q' = q
  · subst hq; left; simpa using h
  · right; simpa [Function.update_of_ne hq] using h

theorem step_all {S : P → Prop} (hN : ∀ p, S p → ∀ x ∈ N.onward p, S x) {l l' : Load Q P} {m : Move Q P}
    {e : Event P} (h : N.step l m = some (e, l')) (hl : l.All S)
    (hi : ∀ p placed, e = .injected p placed → S p) : l'.All S ∧ S e.parcel := by
  rcases step_cases h with ⟨p, placed, rfl, rfl⟩ | ⟨q, p, rest, rfl, hq, hh, rfl⟩ |
    ⟨q, p, rest, placed, rfl, hh, rfl⟩ | ⟨q, p, rest, rfl, hq, rfl⟩
  · have hp := hi p placed rfl
    exact ⟨hl.place hp placed, hp⟩
  · have hp : S p := hl.1 q p (by simp [hq])
    refine ⟨⟨fun q' x hx => ?_, fun q' x hx => ?_⟩, hp⟩
    · rcases mem_update hx with hx | hx
      · exact hl.1 q x (by simp [hq, hx])
      · exact hl.1 q' x hx
    · rcases mem_update hx with hx | hx
      · exact hN p hp x hx
      · exact hl.2 q' x hx
  · have hp : S p := hl.2 q p (by simp [hh])
    have hrest : Load.All S { l with hand := Function.update l.hand q rest } := by
      refine ⟨hl.1, fun q' x hx => ?_⟩
      rcases mem_update hx with hx | hx
      · exact hl.2 q x (by simp [hh, hx])
      · exact hl.2 q' x hx
    exact ⟨hrest.place hp placed, hp⟩
  · have hp : S p := hl.1 q p (by simp [hq])
    refine ⟨⟨fun q' x hx => ?_, hl.2⟩, hp⟩
    rcases mem_update hx with hx | hx
    · exact hl.1 q x (by simp [hq, hx])
    · exact hl.1 q' x hx

theorem run_all {S : P → Prop} (hN : ∀ p, S p → ∀ x ∈ N.onward p, S x) {l l' : Load Q P}
    {tr : List (Event P)} (h : Run N.step l tr l') (hl : l.All S)
    (hi : ∀ p placed, .injected p placed ∈ tr → S p) : l'.All S ∧ ∀ e ∈ tr, S e.parcel := by
  induction h with
  | nil => exact ⟨hl, by simp⟩
  | @snoc tr t u m e hr hs ih =>
    obtain ⟨hall, hev⟩ := ih fun p placed hp => hi p placed (by simp [hp])
    obtain ⟨hu, he⟩ := step_all hN hs hall fun p placed hp => hi p placed (by simp [hp])
    refine ⟨hu, fun x hx => ?_⟩
    rcases List.mem_append.mp hx with hx | hx
    · exact hev x hx
    · obtain rfl := List.mem_singleton.mp hx
      exact he

end NutrinoStack.Relays

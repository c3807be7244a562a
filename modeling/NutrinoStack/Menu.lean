import Mathlib.Order.WellFounded
import NutrinoStack.Application
import NutrinoStack.MachineWords
import NutrinoStack.Scanf

namespace NutrinoStack.Menu

open Application MachineWords Scanf

structure Session where
  unread : List Char
  converted : List ℤ
  calls : List Call

/-- What `scanf` stores for a number. The language leaves open what it is for one that an `int` cannot hold. -/
def stored (overflow : ℤ → ℤ) (z : ℤ) : ℤ := if Fits 4 z then z else overflow z

def selected : ℤ → Option Call
  | 1 => some .glowLed
  | 2 => some .glowLedWithFsmAck
  | 3 => some .glowLedWithBoardAck
  | _ => none

def pass (overflow : ℤ → ℤ) (s : Session) : Session :=
  let (z, rest) := readInt s.unread
  let choice := match z with
    | some z => stored overflow z
    | none => 0
  ⟨rest, s.converted ++ z.toList, s.calls ++ (selected choice).toList⟩

def main (overflow : ℤ → ℤ) (input : List Char) (n : ℕ) : Session := (pass overflow)^[n] ⟨input, [], []⟩

structure Survives (overflow : ℤ → ℤ) (input : List Char) : Prop where
  progress : ∀ n, (main overflow input n).unread ≠ [] →
    (main overflow input (n + 1)).unread.length < (main overflow input n).unread.length
  finished : ∃ n, (main overflow input n).unread = []
  reached : ∃ n, (integers input).Sublist (main overflow input n).converted ∧
    ((integers input).filterMap selected).Sublist (main overflow input n).calls

variable {overflow : ℤ → ℤ} {input : List Char}

theorem pass_iterate (overflow : ℤ → ℤ) (n : ℕ) (s : Session) :
    (pass overflow)^[n] s = ⟨remainder n s.unread, s.converted ++ conversions n s.unread,
      s.calls ++ (conversions n s.unread).filterMap fun z => selected (stored overflow z)⟩ := by
  induction n generalizing s with
  | zero => simp [remainder, conversions]
  | succ n ih =>
    rw [Function.iterate_succ_apply, ih, remainder_succ, conversions]
    cases hr : readInt s.unread with
    | mk z rest =>
      cases z with
      | none => simp [pass, hr, selected]
      | some z =>
        cases hc : selected (stored overflow z) <;> simp [pass, hr, hc]

theorem main_unread (overflow : ℤ → ℤ) (input : List Char) (n : ℕ) :
    (main overflow input n).unread = remainder n input := by
  rw [main, pass_iterate]

theorem selected_stored {z : ℤ} {c : Call} (h : selected z = some c) : selected (stored overflow z) = some c := by
  have hsmall : z = 1 ∨ z = 2 ∨ z = 3 := by
    unfold selected at h
    split at h <;> simp_all
  have hfits : Fits 4 z := by
    rcases hsmall with rfl | rfl | rfl <;> decide
  rwa [stored, if_pos hfits]

theorem filterMap_sublist {α β : Type*} {f g : α → Option β} (h : ∀ a b, f a = some b → g a = some b) (l : List α) :
    (l.filterMap f).Sublist (l.filterMap g) := by
  induction l with
  | nil => exact .slnil
  | cons a l ih =>
    cases hf : f a with
    | none =>
      rw [List.filterMap_cons_none hf]
      exact ih.trans ((List.sublist_cons_self a l).filterMap g)
    | some b =>
      rw [List.filterMap_cons_some hf, List.filterMap_cons_some (h a b hf)]
      exact ih.cons_cons b

theorem main_reached {n : ℕ} (h : (main overflow input n).unread = []) :
    (integers input).Sublist (main overflow input n).converted ∧
      ((integers input).filterMap selected).Sublist (main overflow input n).calls := by
  have hrun := integers_run n input
  rw [main_unread] at h
  rw [h] at hrun
  have hall : (integers input).Sublist (conversions n input) := by simpa [integers, words] using hrun
  constructor
  · rw [main, pass_iterate]
    exact hall
  · rw [main, pass_iterate]
    exact (filterMap_sublist (fun _ _ => selected_stored) _).trans (hall.filterMap _)

theorem main_progress (h : ∀ c ∈ input, Readable c) {n : ℕ} (hn : (main overflow input n).unread ≠ []) :
    (main overflow input (n + 1)).unread.length < (main overflow input n).unread.length := by
  rw [main_unread] at hn ⊢
  rw [main_unread, remainder_last]
  obtain ⟨c, w, hw⟩ := List.exists_cons_of_ne_nil hn
  have hc : Readable c := h c ((remainder_suffix n input).subset (by simp [hw]))
  rw [hw]
  exact Nat.lt_succ_of_le (readInt_progress hc w).length_le

theorem main_endless (overflow : ℤ → ℤ) (input : List Char) :
    ¬ ∀ n, (main overflow input (n + 1)).unread.length < (main overflow input n).unread.length := by
  intro h
  obtain ⟨n, hn⟩ := WellFounded.not_rel_apply_succ (r := (· < ·)) fun n => (main overflow input n).unread.length
  exact hn (h n)

theorem main_finished (h : ∀ c ∈ input, Readable c) : ∃ n, (main overflow input n).unread = [] := by
  by_contra hall
  apply main_endless overflow input
  intro n
  exact main_progress h fun hn => hall ⟨n, hn⟩

theorem menu_survives_iff (overflow : ℤ → ℤ) (input : List Char) :
    (Survives overflow input ↔ ∀ c ∈ input, Readable c) ∧
      ¬ ∀ n, (main overflow input (n + 1)).unread.length < (main overflow input n).unread.length := by
  refine ⟨⟨fun h c hc => ?_, fun h => ?_⟩, main_endless overflow input⟩
  · obtain ⟨n, hn⟩ := h.finished
    rw [main_unread] at hn
    by_contra hbad
    have hmem := remainder_keeps hbad hc n
    simp [hn] at hmem
  · obtain ⟨n, hn⟩ : ∃ n, (main overflow input n).unread = [] := main_finished h
    exact ⟨fun _ => main_progress h, ⟨n, hn⟩, ⟨n, main_reached hn⟩⟩

theorem letter_stuck : ¬ ∀ overflow input, Survives overflow input := by
  intro hall
  have h := (hall id ['a', ' ', '1']).progress 0
  exact absurd h (by decide)

end NutrinoStack.Menu

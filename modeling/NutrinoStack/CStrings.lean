import Mathlib.Data.List.TakeWhile
import Mathlib.Tactic.Linarith

namespace NutrinoStack.CStrings

variable {n : ℕ}

abbrev Buffer (n : ℕ) := Vector UInt8 n

def text (b : Buffer n) : List UInt8 := b.toList.takeWhile (· ≠ 0)

def strlen (b : Buffer n) : ℕ := (text b).length

def Terminated (b : Buffer n) : Prop := 0 ∈ b.toList

instance (b : Buffer n) : Decidable (Terminated b) := inferInstanceAs (Decidable (0 ∈ b.toList))

@[irreducible] def zeroed (n : ℕ) : Buffer n := Vector.replicate n 0

def literal (s : String) : List UInt8 := s.toList.map fun c => UInt8.ofNat c.toNat

@[irreducible] def strcpy (b : Buffer n) (s : List UInt8) : Buffer n :=
  Vector.ofFn fun i => if h : i < s.length then s[i] else if i = s.length then 0 else b[i]

theorem strlen_le (b : Buffer n) : strlen b ≤ n := by
  have := (List.takeWhile_prefix (p := (· ≠ (0 : UInt8))) (l := b.toList)).length_le
  simpa [strlen, text] using this

theorem text_getElem (b : Buffer n) {i : ℕ} (hi : i < strlen b) (hn : i < n) :
    (text b).get ⟨i, hi⟩ = b[i] := by
  have h := (List.takeWhile_prefix (p := (· ≠ (0 : UInt8))) (l := b.toList)).getElem hi
  simpa [text] using h

theorem ne_zero_of_lt_strlen (b : Buffer n) {i : ℕ} (hi : i < strlen b) (hn : i < n) : b[i] ≠ 0 := by
  rw [← text_getElem b hi hn]
  have hm : (text b).get ⟨i, hi⟩ ∈ b.toList.takeWhile (· ≠ 0) := List.get_mem _ _
  simpa using List.mem_takeWhile_imp hm

theorem strlen_le_of_zero (b : Buffer n) {k : ℕ} (hk : k < n) (hz : b[k] = 0) : strlen b ≤ k := by
  by_contra hlt
  exact ne_zero_of_lt_strlen b (not_le.mp hlt) hk hz

theorem le_strlen (b : Buffer n) {k : ℕ} (hk : k ≤ n) (hne : ∀ i (_ : i < n), i < k → b[i] ≠ 0) :
    k ≤ strlen b := by
  have hall : ∀ x ∈ b.toList.take k, x ≠ 0 := by
    intro x hx
    obtain ⟨i, hi, rfl⟩ := List.getElem_of_mem hx
    have hik : i < k := by simp at hi; omega
    simpa using hne i (hik.trans_le hk) hik
  have ht : text b = b.toList.take k ++ (b.toList.drop k).takeWhile (· ≠ 0) := by
    rw [← List.takeWhile_append_of_pos (by simpa using hall), List.take_append_drop, text]
  have := congrArg List.length ht
  simp only [List.length_append, List.length_take, Vector.length_toList] at this
  simp only [strlen]
  omega

theorem zero_at_strlen (b : Buffer n) (h : strlen b < n) : b[strlen b] = 0 := by
  by_contra hne
  have : strlen b + 1 ≤ strlen b := by
    apply le_strlen b h
    intro i hn hi
    rcases Nat.lt_succ_iff_lt_or_eq.mp hi with hi | rfl
    · exact ne_zero_of_lt_strlen b hi hn
    · exact hne
  omega

theorem strlen_eq (b : Buffer n) {k : ℕ} (hk : k < n) (hne : ∀ i (_ : i < n), i < k → b[i] ≠ 0) (hz : b[k] = 0) :
    strlen b = k :=
  le_antisymm (strlen_le_of_zero b hk hz) (le_strlen b hk.le hne)

theorem terminated_iff (b : Buffer n) : Terminated b ↔ strlen b < n := by
  constructor
  · intro h
    obtain ⟨i, hi, hz⟩ := List.getElem_of_mem h
    have hin : i < n := by simpa using hi
    exact (strlen_le_of_zero b hin (by simpa using hz)).trans_lt hin
  · intro h
    have : b[strlen b] ∈ b.toList := by simp
    rwa [zero_at_strlen b h] at this

theorem zeroed_getElem {i : ℕ} (hi : i < n) : (zeroed n)[i] = 0 := by
  simp [zeroed]

theorem strcpy_getElem (b : Buffer n) (s : List UInt8) {i : ℕ} (hi : i < n) (hs : i < s.length) :
    (strcpy b s)[i] = s[i] := by
  simp [strcpy, hs]

theorem strlen_strcpy (b : Buffer n) (s : List UInt8) (hs : s.length < n) (h0 : 0 ∉ s) :
    strlen (strcpy b s) = s.length := by
  apply strlen_eq _ hs
  · intro i hn hi hz
    rw [strcpy_getElem b s hn hi] at hz
    exact h0 (hz ▸ List.getElem_mem hi)
  · simp [strcpy]

theorem text_eq_iff (b b' : Buffer n) (h : strlen b < n) :
    text b' = text b ↔ ∀ i (_ : i < n), i ≤ strlen b → b'[i] = b[i] := by
  constructor
  · intro he i hn hi
    have hl : strlen b' = strlen b := by simp [strlen, he]
    rcases hi.lt_or_eq with hlt | rfl
    · rw [← text_getElem b' (hl ▸ hlt) hn, ← text_getElem b hlt hn]
      exact List.getElem_of_eq he _
    · have hc := zero_at_strlen b' (hl ▸ h)
      simp only [hl] at hc
      rw [hc, zero_at_strlen b h]
  · intro he
    have hl : strlen b' = strlen b := by
      apply strlen_eq b' h
      · intro i hn hi
        rw [he i hn hi.le]
        exact ne_zero_of_lt_strlen b hi hn
      · rw [he _ h le_rfl, zero_at_strlen b h]
    apply List.ext_get hl
    intro i hi hi'
    have hn : i < n := lt_trans hi' h
    rw [text_getElem b' hi hn, text_getElem b hi' hn]
    exact he i hn (le_of_lt hi')

end NutrinoStack.CStrings

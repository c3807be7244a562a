import Mathlib.Data.Char
import Mathlib.Data.Int.Notation
import Mathlib.Data.List.DropRight
import Mathlib.Logic.Function.Iterate

namespace NutrinoStack.Scanf

/-! The conversion `%d` on a finite stream of characters. -/

def isSpace (c : Char) : Bool := c = ' ' || ('\t' ≤ c && c ≤ '\r')

def isSign (c : Char) : Bool := c = '+' || c = '-'

def isDigit (c : Char) : Bool := '0' ≤ c && c ≤ '9'

def decimal (ds : List Char) : ℕ := ds.foldl (fun n c => 10 * n + (c.toNat - '0'.toNat)) 0

def signed (s : Option Char) (n : ℕ) : ℤ := if s = some '-' then -n else n

def splitSign : List Char → Option Char × List Char
  | c :: w => if isSign c then (some c, w) else (none, c :: w)
  | [] => (none, [])

/-- The number converted, if any, and what is left unread. A sign without digits is read all the same. -/
def readInt (w : List Char) : Option ℤ × List Char :=
  let (s, body) := splitSign (w.dropWhile isSpace)
  let digits := body.takeWhile isDigit
  (if digits = [] then none else some (signed s (decimal digits)), body.dropWhile isDigit)

def conversions : ℕ → List Char → List ℤ
  | 0, _ => []
  | n + 1, w => (readInt w).1.toList ++ conversions n (readInt w).2

def remainder (n : ℕ) (w : List Char) : List Char := (fun w => (readInt w).2)^[n] w

def words (w : List Char) : List (List Char) := (w.splitOnP isSpace).filter (· ≠ [])

def integer? (t : List Char) : Option ℤ :=
  let (s, digits) := splitSign t
  if digits ≠ [] ∧ digits.all isDigit then some (signed s (decimal digits)) else none

def integers (w : List Char) : List ℤ := (words w).filterMap integer?

def Readable (c : Char) : Prop := isSpace c ∨ isSign c ∨ isDigit c

instance (c : Char) : Decidable (Readable c) := inferInstanceAs (Decidable (_ ∨ _ ∨ _))

variable {c : Char} {t u v w : List Char}

theorem remainder_succ (n : ℕ) (w : List Char) : remainder (n + 1) w = remainder n (readInt w).2 :=
  Function.iterate_succ_apply _ _ _

theorem readInt_space (h : isSpace c) (w : List Char) : readInt (c :: w) = readInt w := by
  rw [readInt, List.dropWhile_cons_of_pos h, readInt]

theorem space_not_digit (h : isSpace c) : isDigit c = false := by
  by_contra hd
  simp only [isDigit, Bool.not_eq_false, Bool.and_eq_true, decide_eq_true_eq] at hd
  have hcr : '\r' < c := lt_of_lt_of_le (by decide) hd.1
  have hblank : c ≠ ' ' := (lt_of_lt_of_le (by decide) hd.1).ne'
  simp only [isSpace, hblank, decide_false, Bool.false_or, Bool.and_eq_true, decide_eq_true_eq] at h
  exact absurd hcr h.2.not_gt

theorem digits_append (hv : ∀ c ∈ v.head?, isDigit c = false) (ds : List Char) :
    (ds ++ v).takeWhile isDigit = ds.takeWhile isDigit ∧
      (ds ++ v).dropWhile isDigit = ds.dropWhile isDigit ++ v := by
  induction ds with
  | nil =>
    cases v with
    | nil => exact ⟨rfl, rfl⟩
    | cons c v =>
      have hc : isDigit c = false := hv c rfl
      simp [hc]
  | cons d ds ih => by_cases hd : isDigit d <;> simp [hd, ih]

theorem splitSign_append (ht : t ≠ []) (v : List Char) :
    splitSign (t ++ v) = ((splitSign t).1, (splitSign t).2 ++ v) := by
  cases t with
  | nil => contradiction
  | cons c t =>
    simp only [List.cons_append, splitSign]
    split <;> rfl

theorem readInt_append (hs : isSpace c = false) (hv : ∀ c ∈ v.head?, isDigit c = false) (t : List Char) :
    readInt (c :: t ++ v) = ((readInt (c :: t)).1, (readInt (c :: t)).2 ++ v) := by
  have hdrop : ∀ w, (c :: w).dropWhile isSpace = c :: w := fun w => List.dropWhile_cons_of_neg (by simp [hs])
  obtain ⟨htake, hrest⟩ := digits_append hv (splitSign (c :: t)).2
  have hsplit := splitSign_append (List.cons_ne_nil c t) v
  simp only [List.cons_append] at hsplit ⊢
  simp only [readInt, hdrop, hsplit, htake, hrest]

theorem splitSign_suffix (w : List Char) : (splitSign w).2 <:+ w := by
  cases w with
  | nil => exact List.suffix_rfl
  | cons c w =>
    rw [splitSign]
    split
    · exact List.suffix_cons c w
    · exact List.suffix_rfl

theorem readInt_suffix (w : List Char) : (readInt w).2 <:+ w :=
  ((List.dropWhile_suffix _).trans (splitSign_suffix _)).trans (List.dropWhile_suffix _)

theorem remainder_last (n : ℕ) (w : List Char) : remainder (n + 1) w = (readInt (remainder n w)).2 :=
  Function.iterate_succ_apply' _ _ _

theorem remainder_suffix (n : ℕ) (w : List Char) : remainder n w <:+ w := by
  induction n with
  | zero => exact List.suffix_rfl
  | succ n ih => exact remainder_last n w ▸ (readInt_suffix _).trans ih

theorem readInt_progress (h : Readable c) (w : List Char) : (readInt (c :: w)).2 <:+ w := by
  by_cases hs : isSpace c
  · rw [readInt_space hs]
    exact readInt_suffix w
  · have hdrop : (c :: w).dropWhile isSpace = c :: w := List.dropWhile_cons_of_neg hs
    simp only [readInt, hdrop, splitSign]
    by_cases hsign : isSign c
    · simpa only [if_pos hsign] using List.dropWhile_suffix _
    · have hdigit : isDigit c := (h.resolve_left hs).resolve_left hsign
      simpa only [if_neg hsign, List.dropWhile_cons_of_pos hdigit] using List.dropWhile_suffix _

theorem readInt_keeps (h : ¬ Readable c) (hw : c ∈ w) : c ∈ (readInt w).2 := by
  simp only [Readable, not_or] at h
  obtain ⟨hs, hsign, hdigit⟩ := h
  have hdrop : ∀ {p : Char → Bool} {l : List Char}, ¬ p c → c ∈ l → c ∈ l.dropWhile p := by
    intro p l hp hl
    rw [← List.takeWhile_append_dropWhile (p := p) (l := l), List.mem_append] at hl
    exact hl.resolve_left fun ht => hp (List.mem_takeWhile_imp ht)
  have hbody : ∀ {l : List Char}, c ∈ l → c ∈ (splitSign l).2 := by
    intro l hl
    cases l with
    | nil => exact hl
    | cons a l =>
      rw [splitSign]
      split
      · next ha =>
        rcases List.mem_cons.mp hl with rfl | hl
        · exact absurd ha hsign
        · exact hl
      · exact hl
  exact hdrop hdigit (hbody (hdrop hs hw))

theorem remainder_keeps (h : ¬ Readable c) (hw : c ∈ w) (n : ℕ) : c ∈ remainder n w := by
  induction n with
  | zero => exact hw
  | succ n ih => exact remainder_last n w ▸ readInt_keeps h ih

theorem words_space (h : isSpace c) (w : List Char) : words (c :: w) = words w := by
  rw [words, List.splitOnP_cons_eq_if_modifyHead, if_pos h, words]
  simp

theorem words_append (hne : t ≠ []) (ht : ∀ c ∈ t, isSpace c = false) (hv : ∀ c ∈ v.head?, isSpace c) :
    words (t ++ v) = t :: words v := by
  cases v with
  | nil => simp [words, List.splitOnP_eq_singleton ht, hne]
  | cons c v =>
    have hc : isSpace c := hv c rfl
    rw [words_space hc, words, List.splitOnP_append_cons_of_forall_mem ht c hc, words]
    simp [hne]

theorem integers_append (ht : ∀ c ∈ t, isSpace c = false) (hv : ∀ c ∈ v.head?, isSpace c) :
    (integers v).Sublist (integers (t ++ v)) := by
  by_cases hne : t = []
  · rw [hne, List.nil_append]
  · rw [integers, integers, words_append hne ht hv]
    exact (List.sublist_cons_self _ _).filterMap _

theorem readInt_integer (hs : isSpace c = false) {z : ℤ} (h : integer? (c :: t) = some z) :
    readInt (c :: t) = (some z, []) := by
  have hdrop : (c :: t).dropWhile isSpace = c :: t := List.dropWhile_cons_of_neg (by simp [hs])
  simp only [integer?] at h
  split at h
  · next hd =>
    obtain ⟨hne, hall⟩ := hd
    rw [List.all_eq_true] at hall
    simp only [readInt, hdrop, List.takeWhile_eq_self_iff.mpr hall, List.dropWhile_eq_nil_iff.mpr hall, if_neg hne, h]
  · contradiction

theorem word_split (w : List Char) :
    ∃ t v, w = t ++ v ∧ (∀ c ∈ t, isSpace c = false) ∧ ∀ c ∈ v.head?, isSpace c := by
  induction w with
  | nil => exact ⟨[], [], by simp⟩
  | cons a w ih =>
    by_cases ha : isSpace a
    · exact ⟨[], a :: w, by simp [ha]⟩
    · obtain ⟨t, v, rfl, ht, hv⟩ := ih
      exact ⟨a :: t, v, rfl, by simpa [ha] using ht, hv⟩

theorem integers_step (w : List Char) : (integers w).Sublist ((readInt w).1.toList ++ integers (readInt w).2) := by
  induction w with
  | nil => exact List.nil_sublist _
  | cons c w ih =>
    by_cases hc : isSpace c
    · rwa [integers, words_space hc, readInt_space hc]
    · have hs : isSpace c = false := by simpa using hc
      obtain ⟨t, v, rfl, ht, hv⟩ := word_split w
      have hword : ∀ b ∈ c :: t, isSpace b = false := by simpa [hs] using ht
      have hwords : words (c :: t ++ v) = (c :: t) :: words v := words_append (by simp) hword hv
      have hread := readInt_append hs (fun b hb => space_not_digit (hv b hb)) t
      rw [← List.cons_append, integers, hwords, hread]
      cases hz : integer? (c :: t) with
      | some z =>
        rw [List.filterMap_cons_some hz, readInt_integer hs hz]
        exact List.Sublist.refl _
      | none =>
        -- a word that is not an integer may still be converted, in pieces
        have hrest := integers_append (fun b hb => hword b ((readInt_suffix (c :: t)).subset hb)) hv
        rw [List.filterMap_cons_none hz]
        exact hrest.trans (List.sublist_append_right _ _)

theorem integers_run (n : ℕ) (w : List Char) :
    (integers w).Sublist (conversions n w ++ integers (remainder n w)) := by
  induction n generalizing w with
  | zero => exact List.Sublist.refl _
  | succ n ih =>
    rw [conversions, remainder_succ, List.append_assoc]
    exact (integers_step w).trans ((ih _).append_left _)

end NutrinoStack.Scanf

import Mathlib.Data.Nat.ModEq
import Mathlib.Tactic.Ring

namespace NutrinoStack.MachineWords

abbrev Bytes := List UInt8

inductive ByteOrder
  | littleEndian
  | bigEndian
  deriving DecidableEq

inductive LongWidth
  | four
  | eight
  deriving DecidableEq

structure Platform where
  order : ByteOrder
  width : LongWidth

abbrev amd64 : Platform := ⟨.littleEndian, .eight⟩

def Platform.long (P : Platform) : ℕ :=
  match P.width with
  | .four => 4
  | .eight => 8

theorem long_cases (P : Platform) : P.long = 4 ∨ P.long = 8 := by
  obtain ⟨o, width⟩ := P
  cases width
  · exact .inl rfl
  · exact .inr rfl

def leBytes : ℕ → ℕ → List UInt8
  | 0, _ => []
  | n + 1, x => UInt8.ofNat x :: leBytes n (x / 256)

def leValue : List UInt8 → ℕ
  | [] => 0
  | b :: bs => b.toNat + 256 * leValue bs

@[simp] theorem leBytes_length (n x : ℕ) : (leBytes n x).length = n := by
  induction n generalizing x with
  | zero => rfl
  | succ n ih => simp [leBytes, ih]

theorem leValue_lt (bs : List UInt8) : leValue bs < 256 ^ bs.length := by
  induction bs with
  | nil => simp [leValue]
  | cons b bs ih =>
    have hb : b.toNat < 256 := b.toNat_lt
    simp only [leValue, List.length_cons, pow_succ]
    omega

theorem leValue_leBytes (n x : ℕ) (hx : x < 256 ^ n) : leValue (leBytes n x) = x := by
  induction n generalizing x with
  | zero => simp only [pow_zero, Nat.lt_one_iff] at hx; simp [leBytes, leValue, hx]
  | succ n ih =>
    have hq : x / 256 < 256 ^ n := by
      rw [pow_succ] at hx
      exact Nat.div_lt_of_lt_mul (by rwa [mul_comm] at hx)
    simp only [leBytes, leValue, ih _ hq, UInt8.toNat_ofNat']
    omega

theorem leBytes_leValue (bs : List UInt8) : leBytes bs.length (leValue bs) = bs := by
  induction bs with
  | nil => rfl
  | cons b bs ih =>
    have hb : b.toNat < 256 := b.toNat_lt
    have hd : (b.toNat + 256 * leValue bs) / 256 = leValue bs := by omega
    have hm : UInt8.ofNat (b.toNat + 256 * leValue bs) = b := by
      apply UInt8.toNat.inj
      rw [UInt8.toNat_ofNat']
      omega
    rw [List.length_cons, leValue, leBytes, hd, hm, ih]

def Fits (n : ℕ) (z : ℤ) : Prop := -(256 ^ n : ℕ) ≤ 2 * z ∧ 2 * z < (256 ^ n : ℕ)

instance (n : ℕ) (z : ℤ) : Decidable (Fits n z) := inferInstanceAs (Decidable (_ ∧ _))

theorem fits_long (P : Platform) {z : ℤ} (h : Fits 4 z) : Fits P.long z := by
  obtain ⟨o, width⟩ := P
  cases width with
  | four => exact h
  | eight =>
    simp only [Fits, Platform.long] at h ⊢
    omega

def ByteOrder.arrange : ByteOrder → List UInt8 → List UInt8
  | .littleEndian, bs => bs
  | .bigEndian, bs => bs.reverse

@[simp] theorem arrange_length (o : ByteOrder) (bs : List UInt8) : (o.arrange bs).length = bs.length := by
  cases o <;> simp [ByteOrder.arrange]

@[simp] theorem arrange_arrange (o : ByteOrder) (bs : List UInt8) : o.arrange (o.arrange bs) = bs := by
  cases o <;> simp [ByteOrder.arrange]

def encode (o : ByteOrder) (n : ℕ) (z : ℤ) : List UInt8 :=
  o.arrange (leBytes n (z % (256 ^ n : ℕ)).toNat)

def decode (o : ByteOrder) (bs : List UInt8) : ℤ :=
  Int.bmod (leValue (o.arrange bs)) (256 ^ bs.length)

@[simp] theorem encode_length (o : ByteOrder) (n : ℕ) (z : ℤ) : (encode o n z).length = n := by
  simp [encode]

theorem decode_encode (o : ByteOrder) (n : ℕ) (z : ℤ) (h : Fits n z) : decode o (encode o n z) = z := by
  have hpos : (0 : ℤ) < (256 ^ n : ℕ) := by exact_mod_cast Nat.pow_pos (by decide)
  have hmod := Int.emod_nonneg z hpos.ne'
  have hlt : (z % (256 ^ n : ℕ)).toNat < 256 ^ n := by
    have := Int.emod_lt_of_pos z hpos
    omega
  simp only [decode, encode, arrange_arrange, arrange_length, leBytes_length,
    leValue_leBytes n _ hlt, Int.toNat_of_nonneg hmod, Int.emod_bmod]
  rw [Int.bmod_eq_iff (Nat.pow_pos (by decide))]
  obtain ⟨h1, h2⟩ := h
  refine ⟨by omega, by omega, by simp⟩

theorem decode_injective (o : ByteOrder) {bs cs : List UInt8} (hl : bs.length = cs.length)
    (h : decode o bs = decode o cs) : bs = cs := by
  have hb := leValue_lt (o.arrange bs)
  have hc := leValue_lt (o.arrange cs)
  rw [arrange_length] at hb hc
  have he : leValue (o.arrange bs) = leValue (o.arrange cs) := by
    have hm := congrArg (· % ((256 ^ bs.length : ℕ) : ℤ)) h
    simp only [decode, ← hl, Int.bmod_emod] at hm
    have := (Int.natCast_mod _ _).trans (hm.trans (Int.natCast_mod _ _).symm)
    rw [← hl] at hc
    rwa [Int.natCast_inj, Nat.mod_eq_of_lt hb, Nat.mod_eq_of_lt hc] at this
  have hbs := leBytes_leValue (o.arrange bs)
  rw [arrange_length, he, hl, ← arrange_length o cs, leBytes_leValue] at hbs
  rw [← arrange_arrange o bs, ← hbs, arrange_arrange]

theorem decode_fits (o : ByteOrder) (bs : List UInt8) : Fits bs.length (decode o bs) := by
  have hpos : 0 < 256 ^ bs.length := Nat.pow_pos (by decide)
  have hle := Int.le_bmod (x := leValue (o.arrange bs)) hpos
  have hlt := Int.bmod_lt (x := leValue (o.arrange bs)) hpos
  simp only [Fits, decode]
  omega

theorem overwritten_length {bs cs : Bytes} (h : bs.length = cs.length) (n : ℕ) :
    (bs.take n ++ cs.drop (bs.take n).length).length = cs.length := by
  rw [List.length_append, List.length_drop, List.length_take]
  omega

theorem overwritten_getElem {bs cs : Bytes} (h : bs.length = cs.length) (n j : ℕ) :
    (bs.take n ++ cs.drop (bs.take n).length)[j]? = if j < n then bs[j]? else cs[j]? := by
  have hl : (bs.take n).length = min n bs.length := List.length_take
  by_cases hj : j < (bs.take n).length
  · have hn : j < n := by omega
    rw [if_pos hn, List.getElem?_append_left hj, List.getElem?_take_of_lt hn]
  · rw [List.getElem?_append_right (by omega), List.getElem?_drop, Nat.add_sub_cancel' (by omega)]
    split
    · rw [List.getElem?_eq_none (by omega), List.getElem?_eq_none (by omega)]
    · rfl

end NutrinoStack.MachineWords

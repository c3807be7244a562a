import NutrinoStack.MachineWords
import NutrinoStack.Messages

namespace NutrinoStack.StructLayout

open CStrings MachineWords

def longAt (P : Platform) (a : ℕ) (bs : Bytes) : ℤ := decode P.order ((bs.drop a).take P.long)

def Header.Fits (P : Platform) (h : Header) : Prop :=
  MachineWords.Fits P.long h.msgSessionId ∧ MachineWords.Fits P.long h.msgType ∧
    MachineWords.Fits P.long h.msgState ∧ MachineWords.Fits P.long h.msgEvent

structure Offsets where
  state : ℕ
  event : ℕ
  text : ℕ

def Offsets.load (o : Offsets) (P : Platform) (bs : Bytes) : Msgbuff where
  msgSessionId := longAt P 0 bs
  msgType := longAt P P.long bs
  msgState := longAt P o.state bs
  msgEvent := longAt P o.event bs
  msgText := .ofFn fun i => bs.getD (o.text + i) 0

structure Offsets.Holds (o : Offsets) (P : Platform) (bs : Bytes) (m : Msgbuff) : Prop where
  length : bs.length = 4 * P.long + maxSize
  session : (bs.drop 0).take P.long = encode P.order P.long m.msgSessionId
  type : (bs.drop P.long).take P.long = encode P.order P.long m.msgType
  state : (bs.drop o.state).take P.long = encode P.order P.long m.msgState
  event : (bs.drop o.event).take P.long = encode P.order P.long m.msgEvent
  text : (bs.drop o.text).take maxSize = m.msgText.toList

def Offsets.Field (o : Offsets) (P : Platform) (j : ℕ) : Prop :=
  j < 2 * P.long ∨ (o.state ≤ j ∧ j < o.state + P.long) ∨ (o.event ≤ j ∧ j < o.event + P.long)

def Offsets.Shown (o : Offsets) (P : Platform) (m : Msgbuff) (j : ℕ) : Prop :=
  o.Field P j ∨ (o.text ≤ j ∧ j < o.text + strlen m.msgText + 1)

variable {P : Platform} {o : Offsets} {bs cs : Bytes} {m : Msgbuff}

theorem slice_at {a n : ℕ} (xs ys zs : Bytes) (h : bs = xs ++ ys ++ zs) (hx : xs.length = a) (hy : ys.length = n) :
    (bs.drop a).take n = ys := by
  rw [h, List.append_assoc, List.drop_left' hx, List.take_left' hy]

theorem slice_eq_iff (a n : ℕ) :
    (bs.drop a).take n = (cs.drop a).take n ↔ ∀ i, a ≤ i → i < a + n → bs[i]? = cs[i]? := by
  constructor
  · intro h i ha hn
    have := congrArg (·[i - a]?) h
    simpa [List.getElem?_take, List.getElem?_drop, show i - a < n by omega, Nat.add_sub_cancel' ha] using this
  · intro h
    apply List.ext_getElem?
    intro i
    simp only [List.getElem?_take, List.getElem?_drop]
    split
    · exact h _ (by omega) (by omega)
    · rfl

theorem longAt_eq_iff (hl : bs.length = cs.length) (a : ℕ) :
    longAt P a bs = longAt P a cs ↔ ∀ j, a ≤ j → j < a + P.long → bs[j]? = cs[j]? := by
  rw [← slice_eq_iff]
  constructor
  · apply decode_injective
    simp [hl]
  · exact congrArg _

theorem loaded_getElem (bs : Bytes) {i : ℕ} (hi : i < maxSize) :
    (o.load P bs).msgText[i] = bs.getD (o.text + i) 0 := by
  simp [Offsets.load]

theorem Offsets.Holds.text_getElem (h : o.Holds P bs m) {i : ℕ} (hi : i < maxSize) :
    bs[o.text + i]? = some m.msgText[i] := by
  have := congrArg (·[i]?) h.text
  simpa [List.getElem?_take, List.getElem?_drop, hi] using this

theorem Offsets.Holds.load (h : o.Holds P bs m) (hfit : Header.Fits P m.toHeader) : o.load P bs = m := by
  have htext : (o.load P bs).msgText = m.msgText := by
    apply Vector.ext
    intro i hi
    rw [loaded_getElem _ hi, List.getD_eq_getElem?_getD, h.text_getElem hi, Option.getD_some]
  have hheader : (o.load P bs).toHeader = m.toHeader := by
    obtain ⟨h₀, h₁, h₂, h₃⟩ := hfit
    simp only [Offsets.load, longAt, h.session, h.type, h.state, h.event, decode_encode _ _ _ h₀,
      decode_encode _ _ _ h₁, decode_encode _ _ _ h₂, decode_encode _ _ _ h₃]
  obtain ⟨header, text⟩ := m
  exact congrArg₂ Msgbuff.mk hheader htext

theorem Offsets.Holds.session_first (h : o.Holds P bs m) (hfit : MachineWords.Fits P.long m.msgSessionId) :
    decode P.order (bs.take P.long) = m.msgSessionId := by
  have hsession := h.session
  rw [List.drop_zero] at hsession
  rw [hsession, decode_encode _ _ _ hfit]

theorem longAt_fits {a : ℕ} (ha : a + P.long ≤ bs.length) : MachineWords.Fits P.long (longAt P a bs) := by
  have hlength : ((bs.drop a).take P.long).length = P.long := by
    rw [List.length_take, List.length_drop]
    omega
  have hfits := decode_fits P.order ((bs.drop a).take P.long)
  rwa [hlength] at hfits

theorem header_eq_iff (hl : bs.length = cs.length) :
    (o.load P bs).toHeader = (o.load P cs).toHeader ↔ ∀ j, o.Field P j → bs[j]? = cs[j]? := by
  have h₀ := longAt_eq_iff (P := P) hl 0
  have h₁ := longAt_eq_iff (P := P) hl P.long
  have h₂ := longAt_eq_iff (P := P) hl o.state
  have h₃ := longAt_eq_iff (P := P) hl o.event
  simp only [Offsets.load, Header.mk.injEq, h₀, h₁, h₂, h₃]
  constructor
  · rintro ⟨h₀, h₁, h₂, h₃⟩ j (hj | hj | hj)
    · by_cases hj₁ : j < P.long
      · exact h₀ j (by omega) (by omega)
      · exact h₁ j (by omega) (by omega)
    · exact h₂ j hj.1 hj.2
    · exact h₃ j hj.1 hj.2
  · intro h
    refine ⟨fun j _ hj => h j (.inl (by omega)), fun j _ hj => h j (.inl (by omega)), fun j ha hj => ?_,
      fun j ha hj => ?_⟩
    · exact h j (.inr (.inl ⟨ha, hj⟩))
    · exact h j (.inr (.inr ⟨ha, hj⟩))

theorem loaded_text_eq_iff (hl : bs.length = cs.length) {i : ℕ} (hi : i < maxSize)
    (hb : o.text + i < bs.length) :
    (o.load P bs).msgText[i] = (o.load P cs).msgText[i] ↔ bs[o.text + i]? = cs[o.text + i]? := by
  rw [loaded_getElem bs hi, loaded_getElem cs hi]
  have hc : o.text + i < cs.length := by omega
  simp [List.getD, hb, hc]

theorem same_iff (hl : bs.length = cs.length) (hroom : o.text + maxSize ≤ bs.length)
    (ht : strlen (o.load P cs).msgText < maxSize) :
    ((o.load P bs).toHeader = (o.load P cs).toHeader ∧ text (o.load P bs).msgText = text (o.load P cs).msgText) ↔
      ∀ j, o.Shown P (o.load P cs) j → bs[j]? = cs[j]? := by
  rw [header_eq_iff hl, text_eq_iff _ _ ht]
  constructor
  · rintro ⟨hh, hx⟩ j (hj | ⟨hj, hj'⟩)
    · exact hh j hj
    · have hi : j - o.text < maxSize := by omega
      have := (loaded_text_eq_iff (P := P) hl hi (by omega)).mp (hx _ hi (by omega))
      rwa [Nat.add_sub_cancel' hj] at this
  · intro h
    refine ⟨fun j hj => h j (.inl hj), fun i hi hle => ?_⟩
    exact (loaded_text_eq_iff hl hi (by omega)).mpr (h _ (.inr ⟨by omega, by omega⟩))

/-! `core/include/queue_manager.h` -/

def store (P : Platform) (m : Msgbuff) : Bytes :=
  encode P.order P.long m.msgSessionId ++ encode P.order P.long m.msgType ++ encode P.order P.long m.msgState ++
    encode P.order P.long m.msgEvent ++ m.msgText.toList

def offsets (P : Platform) : Offsets := ⟨2 * P.long, 3 * P.long, 4 * P.long⟩

def load (P : Platform) (bs : Bytes) : Msgbuff := (offsets P).load P bs

@[simp] theorem store_length (m : Msgbuff) : (store P m).length = 4 * P.long + maxSize := by
  simp only [store, List.length_append, encode_length, Vector.length_toList]
  omega

theorem store_holds (P : Platform) (m : Msgbuff) : (offsets P).Holds P (store P m) m := by
  let session := encode P.order P.long m.msgSessionId
  let type := encode P.order P.long m.msgType
  let state := encode P.order P.long m.msgState
  let event := encode P.order P.long m.msgEvent
  have htwo : (session ++ type).length = 2 * P.long := by
    simp only [session, type, List.length_append, encode_length, two_mul]
  have hthree : (session ++ type ++ state).length = 3 * P.long := by
    rw [List.length_append, htwo, encode_length, Nat.succ_mul 2]
  have hfour : (session ++ type ++ state ++ event).length = 4 * P.long := by
    rw [List.length_append, hthree, encode_length, Nat.succ_mul 3]
  refine ⟨store_length m, ?_, ?_, ?_, ?_, ?_⟩
  · exact slice_at [] session (type ++ state ++ event ++ m.msgText.toList) (by simp [store, session, type, state, event])
      rfl (encode_length _ _ _)
  · exact slice_at session type (state ++ event ++ m.msgText.toList) (by simp [store, session, type, state, event])
      (encode_length _ _ _) (encode_length _ _ _)
  · exact slice_at (session ++ type) state (event ++ m.msgText.toList) (by simp [store, session, type, state, event])
      htwo (encode_length _ _ _)
  · exact slice_at (session ++ type ++ state) event m.msgText.toList rfl hthree (encode_length _ _ _)
  · exact slice_at (session ++ type ++ state ++ event) m.msgText.toList [] (List.append_nil _).symm hfour (by simp)

theorem load_store (h : Header.Fits P m.toHeader) : load P (store P m) = m := (store_holds P m).load h

theorem load_text (bs : Bytes) {i : ℕ} (hi : i < maxSize) :
    (load P bs).msgText[i] = bs.getD (4 * P.long + i) 0 := by
  rw [load, loaded_getElem bs hi, offsets]

theorem shown_iff {j : ℕ} : (offsets P).Shown P m j ↔ j < 4 * P.long + strlen m.msgText + 1 := by
  simp only [Offsets.Shown, Offsets.Field, offsets]
  omega

end NutrinoStack.StructLayout

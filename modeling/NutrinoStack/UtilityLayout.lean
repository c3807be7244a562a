import NutrinoStack.StructLayout

namespace NutrinoStack.UtilityLayout

open CStrings MachineWords
open StructLayout (Header.Fits Offsets header_eq_iff loaded_text_eq_iff longAt_fits slice_at)

/-- The struct of `utility_handler/include/queue_manager.h`, which has the text before the last two fields. -/
def store (P : Platform) (m : Msgbuff) : Bytes :=
  encode P.order P.long m.msgSessionId ++ encode P.order P.long m.msgType ++ m.msgText.toList ++
    encode P.order P.long m.msgState ++ encode P.order P.long m.msgEvent

def offsets (P : Platform) : Offsets := ⟨2 * P.long + maxSize, 3 * P.long + maxSize, 2 * P.long⟩

def load (P : Platform) (bs : Bytes) : Msgbuff := (offsets P).load P bs

variable {P : Platform} {m : Msgbuff}

@[simp] theorem store_length (m : Msgbuff) : (store P m).length = 4 * P.long + maxSize := by
  simp only [store, List.length_append, encode_length, Vector.length_toList]
  omega

theorem store_holds (P : Platform) (m : Msgbuff) : (offsets P).Holds P (store P m) m := by
  let session := encode P.order P.long m.msgSessionId
  let type := encode P.order P.long m.msgType
  let state := encode P.order P.long m.msgState
  let event := encode P.order P.long m.msgEvent
  have htwo : (session ++ type).length = 2 * P.long := by
    simp only [session, type, List.length_append, encode_length, two_mul]
  have htext : (session ++ type ++ m.msgText.toList).length = 2 * P.long + maxSize := by
    rw [List.length_append, htwo, Vector.length_toList]
  have hstate : (session ++ type ++ m.msgText.toList ++ state).length = 3 * P.long + maxSize := by
    rw [List.length_append, htext, encode_length]
    omega
  refine ⟨store_length m, ?_, ?_, ?_, ?_, ?_⟩
  · exact slice_at [] session (type ++ m.msgText.toList ++ state ++ event) (by simp [store, session, type, state, event])
      rfl (encode_length _ _ _)
  · exact slice_at session type (m.msgText.toList ++ state ++ event) (by simp [store, session, type, state, event])
      (encode_length _ _ _) (encode_length _ _ _)
  · exact slice_at (session ++ type ++ m.msgText.toList) state event rfl htext (encode_length _ _ _)
  · exact slice_at (session ++ type ++ m.msgText.toList ++ state) event [] (List.append_nil _).symm hstate
      (encode_length _ _ _)
  · exact slice_at (session ++ type) m.msgText.toList (state ++ event) (by simp [store, session, type, state, event])
      htwo (by simp)

theorem load_store (h : Header.Fits P m.toHeader) : load P (store P m) = m := (store_holds P m).load h

theorem store_load {bs : Bytes} (hl : bs.length = 4 * P.long + maxSize) : store P (load P bs) = bs := by
  have hfit : Header.Fits P (load P bs).toHeader := by
    refine ⟨longAt_fits ?_, longAt_fits ?_, longAt_fits ?_, longAt_fits ?_⟩
    · omega
    · omega
    · change 2 * P.long + maxSize + P.long ≤ bs.length
      omega
    · change 3 * P.long + maxSize + P.long ≤ bs.length
      omega
  have hsame : load P (store P (load P bs)) = load P bs := load_store hfit
  have hlength : (store P (load P bs)).length = bs.length := (store_length _).trans hl.symm
  apply List.ext_getElem?
  intro j
  by_cases hfield : (offsets P).Field P j
  · exact (header_eq_iff (P := P) hlength).mp (congrArg Msgbuff.toHeader hsame) j hfield
  · by_cases hj : j < bs.length
    · obtain ⟨i, rfl⟩ : ∃ i, j = 2 * P.long + i := ⟨j - 2 * P.long, by simp only [Offsets.Field, offsets] at hfield; omega⟩
      have hi : i < maxSize := by
        simp only [Offsets.Field, offsets] at hfield
        omega
      have htext := congrArg (fun m : Msgbuff => m.msgText[i]) hsame
      exact (loaded_text_eq_iff (o := offsets P) (P := P) hlength hi (by rw [hlength]; exact hj)).mp htext
    · rw [List.getElem?_eq_none (by omega), List.getElem?_eq_none (by omega)]

def Shown (P : Platform) (m : Msgbuff) (j : ℕ) : Prop :=
  j < 2 * P.long + strlen m.msgText + 1 ∨ 2 * P.long + maxSize ≤ j ∧ j < 4 * P.long + maxSize

theorem shown_iff {j : ℕ} : (offsets P).Shown P m j ↔ Shown P m j := by
  simp only [Offsets.Shown, Offsets.Field, offsets, Shown]
  omega

end NutrinoStack.UtilityLayout

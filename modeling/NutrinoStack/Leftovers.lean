import NutrinoStack.Exchange

namespace NutrinoStack.QueueManager

open CStrings MachineWords MessageQueues StructLayout StructTransfers

variable {P : Platform} {old m m' : Msgbuff}

def headerBytes (P : Platform) (h : Header) : Bytes :=
  encode P.order P.long h.msgSessionId ++ encode P.order P.long h.msgType ++ encode P.order P.long h.msgState ++
    encode P.order P.long h.msgEvent

theorem headerBytes_length (P : Platform) (h : Header) : (headerBytes P h).length = 4 * P.long := by
  simp only [headerBytes, List.length_append, encode_length]
  omega

theorem store_split (P : Platform) (m : Msgbuff) : store P m = headerBytes P m.toHeader ++ m.msgText.toList := rfl

theorem store_drop (P : Platform) (m : Msgbuff) : (store P m).drop (4 * P.long) = m.msgText.toList := by
  rw [store_split, List.drop_left' (headerBytes_length P _)]

theorem send_split (P : Platform) (m : Msgbuff) :
    send P m = (headerBytes P m.toHeader).take (P.long + (strlen m.msgText + 1 + 12)) ++
      m.msgText.toList.take (P.long + (strlen m.msgText + 1 + 12) - 4 * P.long) := by
  rw [send, store_split, List.take_append, headerBytes_length]

theorem loaded_text {bs : Bytes} (hl : bs.length = 4 * P.long + maxSize) :
    (load P bs).msgText.toList = bs.drop (4 * P.long) := by
  apply List.ext_getElem
  · rw [Vector.length_toList, List.length_drop]
    omega
  · intro i hi hi'
    have hb : 4 * P.long + i < bs.length := by
      rw [List.length_drop] at hi'
      omega
    rw [Vector.getElem_toList, load_text, List.getElem_drop, List.getD_eq_getElem?_getD, List.getElem?_eq_getElem hb,
      Option.getD_some]

theorem recv_address (hfit : Header.Fits P m.toHeader) :
    (recv P old (send P m)).msgSessionId = m.msgSessionId ∧ (recv P old (send P m)).msgType = m.msgType := by
  have hlong := long_cases P
  have hload := congrArg Msgbuff.toHeader (load_store hfit)
  have hsize : (layout P).size m = strlen m.msgText + 1 + 12 := rfl
  constructor
  · exact (long_sent (L := layout P) m old (by omega)).trans (congrArg Header.msgSessionId hload)
  · exact (long_sent (L := layout P) m old (by omega)).trans (congrArg Header.msgType hload)

theorem recv_toHeader (hfit : Header.Fits P m.toHeader) (hs : 3 * P.long ≤ strlen m.msgText + 1 + 12) :
    (recv P old (send P m)).toHeader = m.toHeader := by
  have hload := congrArg Msgbuff.toHeader (load_store hfit)
  rw [← hload, recv]
  apply (header_eq_iff (o := offsets P) ((recv_length m old).trans (store_length m).symm)).mpr
  intro j hj
  simp only [Offsets.Field, offsets] at hj
  rw [recv_bytes, if_pos (by omega)]

theorem recv_getElem {i : ℕ} (hi : i < maxSize) :
    (recv P old (send P m)).msgText[i] =
      if 4 * P.long + i < P.long + (strlen m.msgText + 1 + 12) then m.msgText[i] else old.msgText[i] := by
  have hget := recv_bytes (P := P) m old (4 * P.long + i)
  have hm : (store P m)[4 * P.long + i]? = some m.msgText[i] := (store_holds P m).text_getElem hi
  have ho : (store P old)[4 * P.long + i]? = some old.msgText[i] := (store_holds P old).text_getElem hi
  rw [hm, ho] at hget
  rw [recv, load_text _ hi, List.getD_eq_getElem?_getD, hget]
  split <;> rfl

def Closed (t : Buffer maxSize) : Prop := t[127] = 0

theorem Closed.terminated {t : Buffer maxSize} (h : Closed t) : Terminated t :=
  (terminated_iff t).mpr ((strlen_le_of_zero t (by decide) h).trans_lt (by decide))

theorem recv_closed (ht : Terminated m.msgText) (ho : Closed old.msgText) :
    Closed (recv P old (send P m)).msgText := by
  have hlt : strlen m.msgText < 128 := (terminated_iff _).mp ht
  have hlong := long_cases P
  rw [Closed, recv_getElem (by decide)]
  split
  · have hlen : strlen m.msgText = 127 := by omega
    have hnul := zero_at_strlen m.msgText hlt
    simpa only [hlen] using hnul
  · exact ho

/-- The string that a message leaves standing in the receiver's struct, behind the bytes it overwrites. -/
def leftover (P : Platform) (old m : Msgbuff) : List UInt8 :=
  ((store P old).drop (max (P.long + (strlen m.msgText + 1 + 12)) (4 * P.long))).takeWhile (· ≠ 0)

theorem text_eq_take (t : Buffer maxSize) : text t = t.toList.take (strlen t) :=
  List.prefix_iff_eq_take.mp (List.takeWhile_prefix _)

theorem text_take {t : Buffer maxSize} {n : ℕ} (hn : n ≤ strlen t) : t.toList.take n = (text t).take n := by
  rw [text_eq_take, List.take_take, min_eq_left hn]

theorem text_take_succ {t : Buffer maxSize} (ht : Terminated t) : t.toList.take (strlen t + 1) = text t ++ [0] := by
  have hlt := (terminated_iff t).mp ht
  have hnul : t.toList[strlen t]? = some 0 := by
    rw [List.getElem?_eq_getElem (by simpa using hlt), Vector.getElem_toList, zero_at_strlen t hlt]
  rw [List.take_add_one, hnul, ← text_eq_take, Option.toList_some]

theorem recv_text_four (h4 : P.long = 4) (ht : Terminated m.msgText) (old : Msgbuff) :
    text (recv P old (send P m)).msgText = text m.msgText := by
  apply (text_eq_iff _ _ ((terminated_iff _).mp ht)).mpr
  intro i hi hle
  rw [recv_getElem hi, if_pos (by omega)]

theorem recv_text_eight (h8 : P.long = 8) (ht : Terminated m.msgText) (old : Msgbuff) :
    text (recv P old (send P m)).msgText = (text m.msgText).take (strlen m.msgText - 11) ++ leftover P old m := by
  have hcut : (send P m).drop (4 * P.long) = (text m.msgText).take (strlen m.msgText - 11) := by
    rw [send, List.drop_take, store_drop, ← text_take (by omega)]
    congr 1
    omega
  have hrest : ((store P old).drop (send P m).length).drop (4 * P.long - (send P m).length) =
      (store P old).drop (max (P.long + (strlen m.msgText + 1 + 12)) (4 * P.long)) := by
    rw [List.drop_drop, send_length ht]
    congr 1
    omega
  have hplain : ∀ c ∈ (text m.msgText).take (strlen m.msgText - 11), (fun c : UInt8 => decide (c ≠ 0)) c := by
    intro c hc
    exact List.mem_takeWhile_imp (p := fun c : UInt8 => decide (c ≠ 0)) (List.mem_of_mem_take hc)
  rw [text, recv, loaded_text (recv_length m old), List.drop_append, hcut, hrest, List.takeWhile_append_of_pos hplain,
    leftover]

structure SameText (P : Platform) (t t' : Buffer maxSize) : Prop where
  strlen : strlen t = strlen t'
  text : (text t).take (CStrings.strlen t + 13 - 3 * P.long) =
    (CStrings.text t').take (CStrings.strlen t + 13 - 3 * P.long)

theorem send_eq_iff (hh : m.toHeader = m'.toHeader) (ht : Terminated m.msgText) (ht' : Terminated m'.msgText) :
    send P m = send P m' ↔ SameText P m.msgText m'.msgText := by
  have hsent : P.long + (strlen m.msgText + 1 + 12) - 4 * P.long = strlen m.msgText + 13 - 3 * P.long := by omega
  constructor
  · intro h
    have hlen : strlen m.msgText = strlen m'.msgText := by
      have := congrArg List.length h
      rw [send_length ht, send_length ht'] at this
      omega
    rw [send_split, send_split, ← hh, ← hlen, hsent] at h
    have htake := congrArg (List.take (strlen m.msgText)) (List.append_cancel_left h)
    refine ⟨hlen, ?_⟩
    rwa [text_eq_take, text_eq_take, ← hlen, List.take_take, List.take_take, min_comm, ← List.take_take,
      ← List.take_take]
  · rintro ⟨hlen, htext⟩
    rw [send_split, send_split, ← hh, ← hlen, hsent]
    congr 1
    rcases long_cases P with h4 | h8
    · have hall : strlen m.msgText + 13 - 3 * P.long = strlen m.msgText + 1 := by omega
      have hle : (text m.msgText).length ≤ strlen m.msgText + 1 := Nat.le_succ _
      have hle' : (text m'.msgText).length ≤ strlen m.msgText + 1 := hlen ▸ Nat.le_succ _
      rw [hall, List.take_of_length_le hle, List.take_of_length_le hle'] at htext
      rw [hall, text_take_succ ht, hlen, text_take_succ ht', htext]
    · rw [text_take (by omega), text_take (by omega), htext]

structure SameLeft (l l' : List UInt8) : Prop where
  length : l.length = l'.length
  take : l.take (l.length - 11) = l'.take (l.length - 11)

theorem left_append (A B B' : List UInt8) :
    (A ++ B).length = (A ++ B').length ∧ (A ++ B).take ((A ++ B).length - 11) = (A ++ B').take ((A ++ B).length - 11) ↔
      SameLeft B B' := by
  have hrest : A.length + B.length - 11 - A.length = B.length - 11 := by omega
  simp only [List.length_append, List.take_append, hrest, List.append_cancel_left_eq, Nat.add_left_cancel_iff]
  exact ⟨fun h => ⟨h.1, h.2⟩, fun h => ⟨h.length, h.take⟩⟩

theorem sameText_eight (o : ByteOrder) {t t' : Buffer maxSize} :
    SameText ⟨o, .eight⟩ t t' ↔
      (text t).length = (text t').length ∧
        (text t).take ((text t).length - 11) = (text t').take ((text t).length - 11) := by
  have hcut : (text t).length + 13 - 3 * Platform.long ⟨o, .eight⟩ = (text t).length - 11 := by
    have h8 : Platform.long ⟨o, .eight⟩ = 8 := rfl
    omega
  rw [← hcut]
  exact ⟨fun h => ⟨h.strlen, h.text⟩, fun h => ⟨h.1, h.2⟩⟩

theorem recv_sameText {old' : Msgbuff} (ht : Terminated m.msgText) :
    SameText P (recv P old (send P m)).msgText (recv P old' (send P m)).msgText ↔
      (P.width = .eight → SameLeft (leftover P old m) (leftover P old' m)) := by
  obtain ⟨o, width⟩ := P
  cases width with
  | four =>
    have htext := recv_text_four (P := ⟨o, .four⟩) rfl ht old
    have htext' := recv_text_four (P := ⟨o, .four⟩) rfl ht old'
    simp only [reduceCtorEq, false_implies, iff_true]
    exact ⟨by rw [strlen, htext, strlen, htext'], by rw [htext, htext', strlen, htext]⟩
  | eight =>
    have htext := recv_text_eight (P := ⟨o, .eight⟩) rfl ht old
    have htext' := recv_text_eight (P := ⟨o, .eight⟩) rfl ht old'
    rw [← left_append, ← htext, ← htext', ← sameText_eight o]
    simp

end NutrinoStack.QueueManager

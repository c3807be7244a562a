import NutrinoStack.KernelStores
import NutrinoStack.UtilityQueueManager

namespace NutrinoStack.UtilityQueueManager

open CStrings Interactions MachineWords MessageQueues Reductions Stores StructTransfers UtilityLayout
open StructLayout (Header.Fits loaded_getElem)

abbrev manager (P : Platform) : Implementation (commands Key Msgbuff) interface := (layout P).manager

abbrev transferred (P : Platform) : Entry → Option (Transfer Msgbuff) := (layout P).transferred P

abbrev exchanged (P : Platform) : Done Key Msgbuff → Option (Transfer Msgbuff) := (layout P).exchanged P

abbrev discipline (P : Platform) : Discipline Msgbuff := (layout P).discipline P

variable {P : Platform} {m old : Msgbuff}

theorem layout_size (P : Platform) (m : Msgbuff) : (layout P).size m = strlen m.msgText + 1 := rfl

theorem picks_iff (hm : Header.Fits P m.toHeader) : (discipline P).picks m ↔ m.msgSessionId = 1 := by
  have hsession := store_session hm.1
  have hlong : min P.long (P.long + (strlen m.msgText + 1)) = P.long := by omega
  change decide (1 = 0 ∨ decode P.order ((send P m).take P.long) = (1 : ℕ)) = true ↔ _
  simp only [send, Layout.wire, layout_size, List.take_take, hlong]
  change decide (1 = 0 ∨ decode P.order ((store P m).take P.long) = (1 : ℕ)) = true ↔ _
  simp [hsession]

theorem size_eq (P : Platform) (m : Msgbuff) : messageSize P (send P m) = strlen m.msgText + 1 := by
  have := strlen_le m.msgText
  have := long_cases P
  have hwire : (send P m).length = min (P.long + (strlen m.msgText + 1)) (4 * P.long + maxSize) :=
    wire_length (layout P) P m
  rw [messageSize, hwire]
  omega

/-- What is in a reader's struct after a read: the bytes that were sent of the message, over its own. The last two fields
are not sent. -/
structure Heard (P : Platform) (r : Msgbuff × Msgbuff) (m : Msgbuff) : Prop where
  bytes : ∀ j, (store P r.2)[j]? = if j < P.long + (strlen m.msgText + 1) then (store P m)[j]? else (store P r.1)[j]?
  session : r.2.msgSessionId = m.msgSessionId
  type : P.long ≤ strlen m.msgText + 1 → r.2.msgType = m.msgType
  text : ∀ i (hi : i < maxSize),
    r.2.msgText[i] = if P.long + i < strlen m.msgText + 1 then m.msgText[i] else r.1.msgText[i]
  state : r.2.msgState = r.1.msgState
  event : r.2.msgEvent = r.1.msgEvent

theorem overlay_heard (hm : Header.Fits P m.toHeader) (ho : Header.Fits P old.toHeader) :
    Heard P (old, (discipline P).overlay old m) m := by
  have hsent := load_store hm
  have hown := load_store ho
  have hstrlen := strlen_le m.msgText
  have hlong := long_cases P
  have hsize := layout_size P m
  have hlength : ((layout P).overlay old (send P m)).length = 4 * P.long + maxSize :=
    overlay_length (L := layout P) m old
  have hbytes : ∀ j, ((layout P).overlay old (send P m))[j]? =
      if j < P.long + (strlen m.msgText + 1) then (store P m)[j]? else (store P old)[j]? :=
    overlay_bytes (L := layout P) m old
  have hbehind : P.long + (strlen m.msgText + 1) ≤ 2 * P.long + maxSize := by
    rcases hlong with hlong | hlong <;> rw [hlong] <;> simp only [maxSize] at * <;> omega
  refine ⟨fun j => ?_, ?_, fun htype => ?_, fun i hi => ?_, ?_, ?_⟩
  · have hstored : store P ((discipline P).overlay old m) = (layout P).overlay old (send P m) := store_load hlength
    rw [hstored, hbytes]
  · exact (long_sent (L := layout P) m old (by omega)).trans (congrArg (fun x : Msgbuff => x.msgSessionId) hsent)
  · exact (long_sent (L := layout P) m old (by omega)).trans (congrArg (fun x : Msgbuff => x.msgType) hsent)
  · have hget : ((discipline P).overlay old m).msgText[i] =
        ((layout P).overlay old (send P m)).getD (2 * P.long + i) 0 := loaded_getElem _ hi
    have hnew : (store P m)[2 * P.long + i]? = some m.msgText[i] := (store_holds P m).text_getElem hi
    have hold : (store P old)[2 * P.long + i]? = some old.msgText[i] := (store_holds P old).text_getElem hi
    rw [hget, List.getD_eq_getElem?_getD, hbytes, hnew, hold]
    split
    · rw [Option.getD_some, if_pos (by omega)]
    · rw [Option.getD_some, if_neg (by omega)]
  · exact (long_own (L := layout P) m old hbehind).trans (congrArg (fun x : Msgbuff => x.msgState) hown)
  · have hafter : P.long + (layout P).size m ≤ 3 * P.long + maxSize := by omega
    exact (long_own (L := layout P) m old hafter).trans (congrArg (fun x : Msgbuff => x.msgEvent) hown)

end NutrinoStack.UtilityQueueManager

import NutrinoStack.StructTransfers

namespace NutrinoStack

def Queue.name (q : Queue) : MessageQueues.Key := ⟨q.key, by cases q <;> decide⟩

namespace QueueManager

open CStrings Interactions MachineWords MessageQueues StructLayout StructTransfers

/-! `core/src/queue_manager.c` -/

def layout (P : Platform) : Layout Msgbuff where
  store := store P
  load := load P
  size sbuf := strlen sbuf.msgText + 1 + 12
  limit := maxSize + 1 + 12
  msgtyp := 0
  width := 4 * P.long + maxSize
  store_length := store_length

def messageQueueWrite (P : Platform) (key : ℤ) (sbuf : Msgbuff) : Prog interface ℤ :=
  (layout P).messageQueueWrite key sbuf

def messageQueueRead (P : Platform) (key : ℤ) (sbuf : Msgbuff) : Prog interface (ℤ × Msgbuff) :=
  (layout P).messageQueueRead key sbuf

def send (P : Platform) (sbuf : Msgbuff) : Bytes :=
  (store P sbuf).take (P.long + (strlen sbuf.msgText + 1 + 12))

def recv (P : Platform) (sbuf : Msgbuff) (bytes : Bytes) : Msgbuff :=
  load P (bytes ++ (store P sbuf).drop bytes.length)

variable {P : Platform} {sbuf : Msgbuff}

theorem layout_describes (P : Platform) : Describes (offsets P) P (layout P) :=
  ⟨store_holds P, fun _ => rfl, Nat.le_refl (4 * P.long + maxSize)⟩

theorem store_session (hfit : Fits P.long sbuf.msgSessionId) :
    decode P.order ((store P sbuf).take P.long) = sbuf.msgSessionId := (store_holds P sbuf).session_first hfit

theorem recv_bytes (sbuf old : Msgbuff) (j : ℕ) :
    (send P sbuf ++ (store P old).drop (send P sbuf).length)[j]? =
      if j < P.long + (strlen sbuf.msgText + 1 + 12) then (store P sbuf)[j]? else (store P old)[j]? :=
  overlay_bytes (L := layout P) sbuf old j

theorem recv_length (sbuf old : Msgbuff) :
    (send P sbuf ++ (store P old).drop (send P sbuf).length).length = 4 * P.long + maxSize :=
  overlay_length (L := layout P) sbuf old

theorem send_any (P : Platform) (bytes : Bytes) : ofType P 0 bytes := by simp [ofType]

end QueueManager

end NutrinoStack

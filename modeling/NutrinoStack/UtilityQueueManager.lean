import NutrinoStack.StructTransfers
import NutrinoStack.UtilityLayout

namespace NutrinoStack.UtilityQueueManager

open CStrings Interactions MachineWords MessageQueues UtilityLayout
open StructLayout (Header.Fits)
open StructTransfers (Describes)

/-! `utility_handler/src/queue_manager.c` -/

/-- The source also takes the length of the text in the receiver's struct, and only prints it. -/
def layout (P : Platform) : Layout Msgbuff where
  store := store P
  load := load P
  size sbuf := strlen sbuf.msgText + 1
  limit := maxSize
  msgtyp := 1
  width := 4 * P.long + maxSize
  store_length := store_length

def messageQueueWrite (P : Platform) (key : ℤ) (sbuf : Msgbuff) : Prog interface ℤ :=
  (layout P).messageQueueWrite key sbuf

def messageQueueRead (P : Platform) (key : ℤ) (sbuf : Msgbuff) : Prog interface (ℤ × Msgbuff) :=
  (layout P).messageQueueRead key sbuf

def send (P : Platform) (sbuf : Msgbuff) : Bytes := (layout P).wire P sbuf

abbrev Delivers (P : Platform) : Kernel → ℤ → Msgbuff → Msgbuff → Prop := StructTransfers.Delivers (layout P) P

variable {P : Platform} {k : Kernel} {key : ℤ} {id : ℕ} {sbuf old : Msgbuff}

theorem layout_describes (P : Platform) : Describes (offsets P) P (layout P) :=
  ⟨store_holds P, fun _ => rfl, by simp only [offsets, layout]; omega⟩

theorem store_session (hfit : Fits P.long sbuf.msgSessionId) :
    decode P.order ((store P sbuf).take P.long) = sbuf.msgSessionId := (store_holds P sbuf).session_first hfit

/-- Only the session id and `strlen(msg_text) + 1` bytes after it are sent: the end of the text and the two fields behind
it are what the receiver's struct held before. -/
theorem delivered_iff (hfit : Header.Fits P sbuf.toHeader) (hs : sbuf.msgSessionId = 1) (ht : Terminated sbuf.msgText)
    (hk : k.ident key = some id) (hq : k.queue id = some []) (hroom : strlen sbuf.msgText + 1 ≤ k.capacity id) :
    Delivers P k key sbuf old ↔ ∀ j, P.long + (strlen sbuf.msgText + 1) ≤ j → Shown P sbuf j →
      (store P old)[j]? = (store P sbuf)[j]? := by
  have htype : ofType P 1 (send P sbuf) := wire_type (L := layout P) ((store_session hfit.1).trans hs)
  have hlimit : (layout P).size sbuf ≤ (layout P).limit := (terminated_iff _).mp ht
  rw [Delivers, StructTransfers.exchange_delivers (layout_describes P) hfit (by omega) ht htype hlimit hk hq hroom]
  simp only [shown_iff]
  rfl

def authRequest : Msgbuff := ⟨⟨1, 1, 3, 5000⟩, zeroed maxSize⟩

theorem authRequest_fits (P : Platform) : Header.Fits P authRequest.toHeader := by
  have hsession : Fits 4 authRequest.msgSessionId := by decide
  have htype : Fits 4 authRequest.msgType := by decide
  have hstate : Fits 4 authRequest.msgState := by decide
  have hevent : Fits 4 authRequest.msgEvent := by decide
  exact ⟨fits_long P hsession, fits_long P htype, fits_long P hstate, fits_long P hevent⟩

theorem authRequest_strlen : strlen authRequest.msgText = 0 :=
  Nat.le_zero.mp (strlen_le_of_zero _ (by decide) (zeroed_getElem _))

theorem authRequest_terminated : Terminated authRequest.msgText := by
  rw [terminated_iff, authRequest_strlen]
  decide

abbrev deviceQueue : Key := ⟨10201, by decide⟩

abbrev opened : Kernel := equipped [deviceQueue] 16384 0

theorem authRequest_room : strlen authRequest.msgText + 1 ≤ opened.capacity (0 : ℕ) := by
  rw [authRequest_strlen]
  decide

theorem authRequest_repeated : Delivers amd64 opened 10201 authRequest authRequest :=
  (delivered_iff (authRequest_fits _) rfl authRequest_terminated rfl rfl authRequest_room).mpr fun _ _ _ => rfl

theorem authRequest_stripped : ¬ ∀ (P : Platform) (k : Kernel) (key : ℤ) (id : ℕ) (sbuf old : Msgbuff),
    Header.Fits P sbuf.toHeader → sbuf.msgSessionId = 1 → Terminated sbuf.msgText → k.ident key = some id →
      k.queue id = some [] → strlen sbuf.msgText + 1 ≤ k.capacity id → Delivers P k key sbuf old := by
  intro hall
  have h := hall amd64 opened 10201 0 authRequest .zeroed (authRequest_fits _) rfl
    authRequest_terminated rfl rfl authRequest_room
  rw [delivered_iff (authRequest_fits _) rfl authRequest_terminated rfl rfl authRequest_room] at h
  have hstate := h (2 * 8 + maxSize) (by rw [authRequest_strlen]; decide) (.inr (by decide))
  exact absurd hstate (by decide +kernel)

end NutrinoStack.UtilityQueueManager

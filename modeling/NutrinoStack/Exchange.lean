import NutrinoStack.Application
import NutrinoStack.QueueManager

namespace NutrinoStack.QueueManager

open Application CStrings Interactions MachineWords MessageQueues StructLayout StructTransfers

variable {P : Platform} {k : Kernel} {key : ℤ} {id : ℕ} {sbuf old : Msgbuff}

theorem send_length (ht : Terminated sbuf.msgText) :
    (send P sbuf).length = P.long + (strlen sbuf.msgText + 1 + 12) := by
  have hlt := (terminated_iff _).mp ht
  have hlong := long_cases P
  rw [send, List.length_take, store_length]
  omega

abbrev Delivers (P : Platform) : Kernel → ℤ → Msgbuff → Msgbuff → Prop := StructTransfers.Delivers (layout P) P

/-- A struct arrives as it was sent just when the bytes that `strlen(msg_text) + 1 + 12` falls short of are already
in the receiver's struct. With a `long` of four bytes there are none. -/
theorem delivers_iff (hfit : Header.Fits P sbuf.toHeader) (hpos : 0 < sbuf.msgSessionId)
    (ht : Terminated sbuf.msgText) (hk : k.ident key = some id) (hq : k.queue id = some [])
    (hroom : strlen sbuf.msgText + 1 + 12 ≤ k.capacity id) :
    Delivers P k key sbuf old ↔ ∀ j, P.long + (strlen sbuf.msgText + 1 + 12) ≤ j →
      j < 4 * P.long + strlen sbuf.msgText + 1 → (store P old)[j]? = (store P sbuf)[j]? := by
  have hlimit : (layout P).size sbuf ≤ (layout P).limit :=
    Nat.add_le_add_right (Nat.add_le_add_right (strlen_le _) 1) 12
  rw [Delivers, StructTransfers.exchange_delivers (layout_describes P) hfit hpos ht (send_any P _) hlimit hk hq hroom]
  simp only [shown_iff]
  rfl

theorem message_terminated (c : Call) (session : ℤ) (old : Msgbuff) :
    Terminated (c.message session old).msgText := by
  rw [terminated_iff, message_strlen]
  exact (call_text_plain c).2.1.trans_lt (by decide)

theorem session_fits (P : Platform) {session state event : ℤ} (hz : Fits 4 session) (hs : Fits 4 state)
    (he : Fits 4 event) : Header.Fits P ⟨session, msgTypeGlowLed, state, event⟩ := by
  have htype : Fits 4 msgTypeGlowLed := by decide
  exact ⟨fits_long P hz, fits_long P htype, fits_long P hs, fits_long P he⟩

theorem message_fits (P : Platform) (c : Call) (old : Msgbuff) :
    Header.Fits P (c.message sessionId old).toHeader := by
  apply session_fits P (by decide) (by decide)
  cases c <;> decide

abbrev booted : Kernel := equipped [Queue.core.name, Queue.application.name, Queue.device.name] 16384 0

theorem glowLed_delivers :
    Delivers ⟨.littleEndian, .four⟩ booted Queue.core.key (Call.glowLed.message sessionId .zeroed) .zeroed := by
  refine (delivers_iff (message_fits _ _ _) (by decide) (message_terminated _ _ _) rfl rfl ?_).mpr fun j hj hj' => ?_
  · rw [message_strlen]
    decide +kernel
  · simp only [Platform.long] at hj hj'
    omega

theorem glowLed_truncated : ¬ ∀ (P : Platform) (k : Kernel) (key : ℤ) (id : ℕ) (sbuf old : Msgbuff),
    Header.Fits P sbuf.toHeader → 0 < sbuf.msgSessionId → Terminated sbuf.msgText → k.ident key = some id →
      k.queue id = some [] → strlen sbuf.msgText + 1 + 12 ≤ k.capacity id → Delivers P k key sbuf old := by
  intro hall
  have hlen : strlen (Call.glowLed.message sessionId .zeroed).msgText = 51 := by
    rw [message_strlen]
    decide +kernel
  have h := hall amd64 booted Queue.core.key 0 (Call.glowLed.message sessionId .zeroed) .zeroed
    (message_fits _ _ _) (by decide) (message_terminated _ _ _) rfl rfl (by rw [hlen]; decide)
  rw [delivers_iff (message_fits _ _ _) (by decide) (message_terminated _ _ _) rfl rfl (by rw [hlen]; decide)] at h
  have h40 := h (4 * Platform.long amd64 + 40) (by rw [hlen]; decide) (by rw [hlen]; decide)
  have hsent : (Call.glowLed.message sessionId .zeroed).msgText[40] = Call.glowLed.text[40] :=
    strcpy_getElem _ _ _ _
  have hold : Msgbuff.zeroed.msgText[40] = 0 := zeroed_getElem _
  have hleft := (store_holds amd64 Msgbuff.zeroed).text_getElem (i := 40) (by decide)
  have hright := (store_holds amd64 (Call.glowLed.message sessionId .zeroed)).text_getElem (i := 40)
    (by decide)
  rw [hold] at hleft
  rw [hsent] at hright
  have hbytes := hleft.symm.trans (h40.trans hright)
  exact absurd hbytes (by decide +kernel)

end NutrinoStack.QueueManager

import NutrinoStack.Ledgers
import NutrinoStack.Leftovers

namespace NutrinoStack.LedSystem

open Application CoreFsm CStrings MachineWords QueueManager Runs StructLayout

def bytes (P : Platform) : Channel := ⟨Bytes, send P, recv P⟩

variable {P : Platform} {old m : Msgbuff}

def Within (least : ℕ) (t : Buffer maxSize) : Prop := least ≤ strlen t ∧ strlen t ≤ 55

def Blank (t : Buffer maxSize) : Prop := ∀ i (_ : i < maxSize), 55 ≤ i → t[i] = 0

theorem within_strcpy {least : ℕ} {s : List UInt8} (h : Plain least s) (b : Buffer maxSize) :
    Within least (strcpy b s) := by
  rw [Within, h.strlen b]
  exact ⟨h.1, h.2.1⟩

theorem recv_blank (hm : Within 11 m.msgText) (ho : Blank old.msgText) :
    Blank (recv P old (send P m)).msgText := by
  intro i hi hle
  rw [recv_getElem hi]
  split
  · next hlt =>
    -- only the NUL of a text of 55 characters gets this far
    have := long_cases P
    have hlen := hm.2
    have he : i = strlen m.msgText := by omega
    subst he
    exact zero_at_strlen _ _
  · exact ho i hi hle

theorem recv_within (hm : Within 22 m.msgText) (ho : Blank old.msgText) :
    Within 11 (recv P old (send P m)).msgText := by
  have hlong := long_cases P
  constructor
  · apply le_strlen _ (by decide)
    intro i hi hlt
    rw [recv_getElem hi, if_pos (by have := hm.1; omega)]
    exact ne_zero_of_lt_strlen _ (by have := hm.1; omega) hi
  · apply strlen_le_of_zero _ (by decide)
    exact recv_blank ⟨by have := hm.1; omega, hm.2⟩ ho 55 (by decide) le_rfl

instance : Carrier (bytes P) where
  Fits := Header.Fits P
  Held := Blank
  Sendable := Within 11
  Ample := Within 22
  held_zeroed _ hi _ := zeroed_getElem hi
  sendable_strcpy b _ h := within_strcpy h b
  ample_strcpy b _ h := within_strcpy h b
  recv_header _ _ hf hs := recv_toHeader hf (by have := hs.1; have := long_cases P; omega)
  recv_held _ _ hs ho := recv_blank hs ho
  recv_sendable _ _ ha ho := recv_within ha ho

theorem sid_fits {sid : ℕ → ℤ} (hs : ∀ n, MachineWords.Fits 4 (sid n)) (p : Parcel) :
    Carrier.Fits (bytes P) (p.header sid) := by
  have hevent : ∀ c : Call, MachineWords.Fits 4 c.event := by
    intro c
    cases c <;> decide
  obtain ⟨r, hop⟩ := p
  cases hop with
  | request => exact session_fits P (hs r.number) (by decide) (hevent r.call)
  | requeue | command | answer | initAck | finalAck => exact session_fits P (hs r.number) (by decide) (by decide)

theorem header_fits (p : Parcel) : Carrier.Fits (bytes P) (p.header fun _ => sessionId) :=
  sid_fits (fun _ => by decide) p

def Event.Admissible : Event → Prop
  | .coreRead _ m fn => m.msgType = msgTypeGlowLed ∧ m.msgState ≠ stTerm ∧
    ∃ row, rowFor m.msgState m.msgEvent = some row ∧ fn = some row.fn
  | .deviceRead _ m => (m.msgState, m.msgEvent) = (stSendToDevice, evSendToDevice)
  | .clientRead _ _ m => (m.msgState, m.msgEvent) = (stSendAck, evSendToApp)
  | _ => True

variable {sid : ℕ → ℤ} {d : Msgbuff} {tr : List Event} {s : State (bytes P)}

theorem sound_admissible {e : Event} (h : e.Sound sid) : e.Admissible := by
  cases e with
  | coreRead p m fn =>
    obtain ⟨ht, hm, hfn⟩ := h
    obtain ⟨row, hrow⟩ := rowFor_header sid ht
    rw [← hm] at hrow
    have htype : m.msgType = msgTypeGlowLed := by
      rw [hm, header_msgType]
    refine ⟨htype, fun hst => ?_, row, hrow, ?_⟩
    · rw [hst, rowFor_stTerm] at hrow
      simp at hrow
    · simp only [hfn, respond, htype, hrow, if_true]
  | deviceRead p m =>
    obtain ⟨ht, hm⟩ := h
    simp only [Event.Admissible, hm, Parcel.header, target_device ht]
  | clientRead r p m =>
    obtain ⟨ht, hm⟩ := h
    rcases target_application ht with hp | hp <;> simp only [Event.Admissible, hm, Parcel.header, hp]
  | _ => trivial

theorem bytes_routed (h : Reaches (bytes P) lossy (fun _ => sessionId) d tr s) :
    s.core.state ≠ stTerm ∧ ∀ e ∈ tr, e.Admissible :=
  ⟨(reaches_routed header_fits h).idle.running, fun e he => sound_admissible (reaches_sound header_fits h e he)⟩

def Event.takenFrom? : Event → Option Queue
  | .clientRead .. => some .application
  | .coreRead .. => some .core
  | .deviceRead .. => some .device
  | _ => none

theorem glowLed_routed : ∃ tr s,
    Reaches (bytes amd64) lossy (fun _ => sessionId) .zeroed tr s ∧
      (∀ q, ∃ e ∈ tr, e.takenFrom? = some q) ∧ s.core.state ≠ stTerm ∧ ∀ e ∈ tr, e.Admissible := by
  obtain ⟨tr, s, hrun, htaken⟩ := run_any (step (bytes amd64) lossy fun _ => sessionId) (State.initial _ .zeroed)
    [.call 0 .glowLedWithFsmAck .zeroed true, .coreRead, .coreSend true, .coreSend true, .deviceRead, .clientRead 0]
    (p := fun r => decide (∀ q, ∃ e ∈ r.1, e.takenFrom? = some q)) (by decide +kernel)
  exact ⟨tr, s, hrun, of_decide_eq_true htaken, bytes_routed hrun⟩

end NutrinoStack.LedSystem

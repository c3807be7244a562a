import Mathlib.Data.Fintype.Basic
import NutrinoStack.CStrings

namespace NutrinoStack

open CStrings

/-! `core/include/queue_manager.h` -/

abbrev maxSize : ℕ := 128

inductive Queue
  | device
  | application
  | core
  deriving DecidableEq

instance : Fintype Queue := ⟨{.device, .application, .core}, fun q => by cases q <;> decide⟩

def Queue.key : Queue → ℤ
  | .device => 10201
  | .application => 10202
  | .core => 10204

structure Header where
  msgSessionId : ℤ
  msgType : ℤ
  msgState : ℤ
  msgEvent : ℤ
  deriving DecidableEq

structure Msgbuff extends Header where
  msgText : Buffer maxSize
  deriving DecidableEq

def Msgbuff.zeroed : Msgbuff := ⟨⟨0, 0, 0, 0⟩, CStrings.zeroed maxSize⟩

def Msgbuff.withText (m : Msgbuff) (s : List UInt8) : Msgbuff := { m with msgText := strcpy m.msgText s }

@[simp] theorem withText_header (m : Msgbuff) (s : List UInt8) : (m.withText s).toHeader = m.toHeader := by
  rw [Msgbuff.withText]

def Plain (least : ℕ) (s : List UInt8) : Prop := least ≤ s.length ∧ s.length ≤ 55 ∧ 0 ∉ s

instance (least : ℕ) (s : List UInt8) : Decidable (Plain least s) := inferInstanceAs (Decidable (_ ∧ _ ∧ _))

theorem Plain.mono {least least' : ℕ} {s : List UInt8} (h : Plain least s) (hl : least' ≤ least) :
    Plain least' s := ⟨hl.trans h.1, h.2⟩

theorem Plain.strlen {least : ℕ} {s : List UInt8} (h : Plain least s) (b : Buffer maxSize) :
    strlen (strcpy b s) = s.length := by
  obtain ⟨-, hs, h0⟩ := h
  exact strlen_strcpy b s (hs.trans_lt (by decide)) h0

abbrev msgTypeGlowLed : ℤ := 0

/-! `core/include/core_fsm.h` -/

abbrev stTerm : ℤ := 2
abbrev stInit : ℤ := 12301
abbrev stSendToDevice : ℤ := 12302
abbrev stSendAck : ℤ := 12303

abbrev evSendToCoreNoAck : ℤ := 12351
abbrev evSendToDevice : ℤ := 12352
abbrev evSendToCore : ℤ := 12353
abbrev evSendToApp : ℤ := 12354
abbrev evSendToCoreDevAck : ℤ := 12355
abbrev evSendToDeviceNoAck : ℤ := 12352

end NutrinoStack

import NutrinoStack.Messages

namespace NutrinoStack.Application

open CStrings

inductive Call
  | glowLed
  | glowLedWithFsmAck
  | glowLedWithBoardAck
  deriving DecidableEq

def Call.event : Call → ℤ
  | .glowLed => evSendToCoreNoAck
  | .glowLedWithFsmAck => evSendToCore
  | .glowLedWithBoardAck => evSendToCoreDevAck

def Call.text : Call → List UInt8
  | .glowLed => literal "Sending Data to core I am NOT going to get an Ack \n"
  | .glowLedWithFsmAck => literal "Sending Data to Core I am going to get an Ack from FSM\n"
  | .glowLedWithBoardAck => literal "Sending Data to Core I am going to get an Ack from FSM\n"

theorem call_text_plain (c : Call) : Plain 22 c.text := by cases c <;> decide +kernel

def Call.waits : Call → Bool
  | .glowLed => false
  | .glowLedWithFsmAck => true
  | .glowLedWithBoardAck => true

def sessionId : ℤ := 34567

/-- The struct a call writes to `QUEUE_CORE`; `old` is what the local variable held before. -/
def Call.message (c : Call) (session : ℤ) (old : Msgbuff) : Msgbuff where
  msgSessionId := session
  msgType := msgTypeGlowLed
  msgState := stInit
  msgEvent := c.event
  msgText := strcpy old.msgText c.text

theorem message_strlen (c : Call) (session : ℤ) (old : Msgbuff) :
    strlen (c.message session old).msgText = c.text.length :=
  (call_text_plain c).strlen _

def fromDevice : List UInt8 := literal "Sending Data to Core I am sending an ack from device \n"

theorem fromDevice_plain : Plain 11 fromDevice := by decide +kernel

def deviceAnswer (m : Msgbuff) : Msgbuff := { m with msgType := msgTypeGlowLed }.withText fromDevice

theorem deviceAnswer_header {m : Msgbuff} (h : m.msgType = msgTypeGlowLed) :
    (deviceAnswer m).toHeader = m.toHeader := by
  rw [deviceAnswer, withText_header, ← h]

end NutrinoStack.Application

import NutrinoStack.LedSystem

namespace NutrinoStack.LedSystem

open Application CoreFsm

variable {C : Channel}

inductive Move (C : Channel) (rule : SendRule) (sid : ℕ → ℤ) (s : State C) : Event → State C → Prop
  | call (client : ℕ) (c : Call) (old : Msgbuff) (placed : Bool)
      (hw : s.waiting client = none) (hr : rule .core (s.queue .core).length placed) :
      Move C rule sid s (.request ⟨s.issued, client, c⟩ (c.message (sid s.issued) old) placed)
        (s.afterCall ⟨s.issued, client, c⟩ (c.message (sid s.issued) old) placed)
  | clientRead (client : ℕ) (r : Request) (m : Msgbuff) (p : Packet C) (rest : List (Packet C))
      (hw : s.waiting client = some (r, m)) (hq : s.queue .application = p :: rest) :
      Move C rule sid s (.clientRead r p.parcel (C.recv m p.wire)) (s.afterClientRead client rest)
  | coreRead (p : Packet C) (rest : List (Packet C)) (hs : s.core.state ≠ stTerm) (hh : s.hand = [])
      (hq : s.queue .core = p :: rest) :
      Move C rule sid s
        (.coreRead p.parcel (C.recv s.core.msg p.wire) (iteration s.core (C.recv s.core.msg p.wire)).1.fn)
        (s.afterCoreRead p rest)
  | coreSend (x : Pending) (rest : List Pending) (placed : Bool) (hh : s.hand = x :: rest)
      (hr : rule x.queue (s.queue x.queue).length placed) :
      Move C rule sid s (.coreSend x placed) (s.afterCoreSend x rest placed)
  | deviceRead (p : Packet C) (rest : List (Packet C)) (hp : s.reply = none) (hq : s.queue .device = p :: rest) :
      Move C rule sid s (.deviceRead p.parcel (C.recv s.device p.wire)) (s.afterDeviceRead p rest)
  | deviceSend (p : Parcel) (placed : Bool) (hp : s.reply = some p)
      (hr : rule .core (s.queue .core).length placed) :
      Move C rule sid s (.deviceSend p (deviceAnswer s.device) placed) (s.afterDeviceSend p placed)

theorem step_move {rule : SendRule} {sid : ℕ → ℤ} {s t : State C} {a : Action} {e : Event}
    (h : step C rule sid s a = some (e, t)) : Move C rule sid s e t := by
  cases a with
  | call client c old placed =>
    simp only [step] at h
    split at h
    · next hc =>
      obtain ⟨rfl, rfl⟩ := by simpa using h
      exact .call client c old placed (by simpa using hc.1) hc.2
    · simp at h
  | clientRead client =>
    simp only [step] at h
    split at h
    · next r m p rest hw hq =>
      obtain ⟨rfl, rfl⟩ := by simpa using h
      exact .clientRead client r m p rest hw hq
    · simp at h
  | coreRead =>
    simp only [step] at h
    split at h
    · simp at h
    · next hs =>
      split at h
      · next p rest hh hq =>
        obtain ⟨rfl, rfl⟩ := by simpa using h
        exact .coreRead p rest hs hh hq
      · simp at h
  | coreSend placed =>
    simp only [step] at h
    split at h
    · next x rest hh =>
      split at h
      · next hr =>
        obtain ⟨rfl, rfl⟩ := by simpa using h
        exact .coreSend x rest placed hh hr
      · simp at h
    · simp at h
  | deviceRead =>
    simp only [step] at h
    split at h
    · next p rest hp hq =>
      obtain ⟨rfl, rfl⟩ := by simpa using h
      exact .deviceRead p rest hp hq
    · simp at h
  | deviceSend placed =>
    simp only [step] at h
    split at h
    · next p hp =>
      split at h
      · next hr =>
        obtain ⟨rfl, rfl⟩ := by simpa using h
        exact .deviceSend p placed hp hr
      · simp at h
    · simp at h

theorem move_step {rule : SendRule} {sid : ℕ → ℤ} {s t : State C} {e : Event} (h : Move C rule sid s e t) :
    ∃ a, step C rule sid s a = some (e, t) := by
  cases h with
  | call client c old placed hw hr => exact ⟨.call client c old placed, by simp [step, hw, hr]⟩
  | clientRead client r m p rest hw hq => exact ⟨.clientRead client, by simp [step, hw, hq]⟩
  | coreRead p rest hs hh hq => exact ⟨.coreRead, by simp [step, hs, hh, hq]⟩
  | coreSend x rest placed hh hr => exact ⟨.coreSend placed, by simp [step, hh, hr]⟩
  | deviceRead p rest hp hq => exact ⟨.deviceRead, by simp [step, hp, hq]⟩
  | deviceSend p placed hp hr => exact ⟨.deviceSend placed, by simp [step, hp, hr]⟩

end NutrinoStack.LedSystem

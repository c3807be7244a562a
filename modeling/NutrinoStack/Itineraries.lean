import NutrinoStack.CoreLoop
import NutrinoStack.Moves
import NutrinoStack.RelayAccounts

namespace NutrinoStack.LedSystem

open Application CoreFsm CStrings Relays

def Parcel.target (p : Parcel) : Queue :=
  match p.hop with
  | .request | .requeue | .answer => .core
  | .command => .device
  | .initAck | .finalAck => .application

theorem target_device {p : Parcel} (h : p.target = .device) : p.hop = .command := by
  rw [Parcel.target] at h
  split at h <;> simp_all

theorem target_application {p : Parcel} (h : p.target = .application) : p.hop = .initAck ∨ p.hop = .finalAck := by
  rw [Parcel.target] at h
  split at h <;> simp_all

theorem target_core {p : Parcel} (h : p.target = .core) : p.hop = .request ∨ p.hop = .requeue ∨ p.hop = .answer := by
  rw [Parcel.target] at h
  split at h <;> simp_all

def Parcel.onward (p : Parcel) : List Parcel :=
  match p.hop with
  | .request =>
    match p.origin.call with
    | .glowLed => [⟨p.origin, .requeue⟩]
    | .glowLedWithFsmAck => [⟨p.origin, .initAck⟩, ⟨p.origin, .command⟩]
    | .glowLedWithBoardAck => [⟨p.origin, .command⟩]
  | .requeue | .answer => [⟨p.origin, .finalAck⟩]
  | .command => [⟨p.origin, .answer⟩]
  | .initAck | .finalAck => []

def network : Network Queue Parcel := ⟨Parcel.target, Parcel.onward⟩

def Parcel.header (sid : ℕ → ℤ) (p : Parcel) : Header :=
  match p.hop with
  | .request => ⟨sid p.origin.number, msgTypeGlowLed, stInit, p.origin.call.event⟩
  | .requeue | .command | .answer => ⟨sid p.origin.number, msgTypeGlowLed, stSendToDevice, evSendToDevice⟩
  | .initAck | .finalAck => ⟨sid p.origin.number, msgTypeGlowLed, stSendAck, evSendToApp⟩

structure Pending.Sound (sid : ℕ → ℤ) (p : Parcel) (m : Msgbuff) (x : Pending) : Prop where
  queue : x.queue = x.parcel.target
  header : x.msg.toHeader = x.parcel.header sid
  hop : x.parcel.hop = hopOf x.fn x.queue
  text : p.hop = .request ∧ x.msg.msgText = m.msgText ∨ x.msg.msgText = strcpy m.msgText heyDevice ∨
    x.msg.msgText = strcpy m.msgText ackForApplication

variable {sid : ℕ → ℤ}

@[simp] theorem header_msgSessionId (p : Parcel) : (p.header sid).msgSessionId = sid p.origin.number := by
  rw [Parcel.header]
  split <;> rfl

@[simp] theorem header_msgType (p : Parcel) : (p.header sid).msgType = msgTypeGlowLed := by
  rw [Parcel.header]
  split <;> rfl

theorem rowFor_request (c : Call) : rowFor stInit c.event = some ⟨stInit, c.event, .initLed⟩ := by
  cases c <;> decide

theorem rowFor_header (sid : ℕ → ℤ) {p : Parcel} (h : p.target = .core) :
    ∃ row, rowFor (p.header sid).msgState (p.header sid).msgEvent = some row := by
  rcases target_core h with hp | hp | hp <;> simp only [Parcel.header, hp]
  · exact ⟨_, rowFor_request _⟩
  · exact ⟨_, rowFor_command⟩
  · exact ⟨_, rowFor_command⟩

theorem respond_initLed {m : Msgbuff} {r : Request} (h : m.toHeader = Parcel.header sid ⟨r, .request⟩) :
    respond m = ⟨some .initLed, (initLed m).sends⟩ := by
  have ht : m.msgType = msgTypeGlowLed := congrArg Header.msgType h
  have hs : m.msgState = stInit := congrArg Header.msgState h
  have he : m.msgEvent = r.call.event := congrArg Header.msgEvent h
  simp only [respond, ht, hs, he, rowFor_request, if_true, Handler.run]

theorem respond_sendAck {m : Msgbuff} {p : Parcel} (h : m.toHeader = p.header sid)
    (hp : p.hop = .requeue ∨ p.hop = .answer) : respond m = ⟨some .sendAck, (sendAck m).sends⟩ := by
  have hh : p.header sid = ⟨sid p.origin.number, msgTypeGlowLed, stSendToDevice, evSendToDevice⟩ := by
    rcases hp with hp | hp <;> simp [Parcel.header, hp]
  rw [hh] at h
  exact respond_command (congrArg Header.msgType h) (congrArg Header.msgState h) (congrArg Header.msgEvent h)

theorem pending_sound {m : Msgbuff} {p : Parcel} (h : m.toHeader = p.header sid) (hp : p.target = .core) :
    (pending p m (respond m)).map Pending.parcel = p.onward ∧
      ∀ x ∈ pending p m (respond m), x.Sound sid p m := by
  obtain ⟨r, hop⟩ := p
  obtain ⟨header, text⟩ := m
  obtain rfl : header = Parcel.header sid ⟨r, hop⟩ := h
  cases hop with
  | request =>
    rw [respond_initLed rfl]
    obtain ⟨n, client, c⟩ := r
    cases c with
    | glowLed =>
      refine ⟨rfl, fun x hx => ?_⟩
      obtain rfl := List.mem_singleton.mp hx
      exact ⟨rfl, rfl, rfl, .inl ⟨rfl, rfl⟩⟩
    | glowLedWithFsmAck =>
      refine ⟨rfl, fun x hx => ?_⟩
      rcases List.mem_pair.mp hx with rfl | rfl
      · exact ⟨rfl, rfl, rfl, .inl ⟨rfl, rfl⟩⟩
      · exact ⟨rfl, rfl, rfl, .inl ⟨rfl, rfl⟩⟩
    | glowLedWithBoardAck =>
      refine ⟨rfl, fun x hx => ?_⟩
      obtain rfl := List.mem_singleton.mp hx
      exact ⟨rfl, rfl, rfl, .inr (.inl rfl)⟩
  | requeue =>
    rw [respond_sendAck (p := ⟨r, .requeue⟩) rfl (.inl rfl)]
    refine ⟨rfl, fun x hx => ?_⟩
    obtain rfl := List.mem_singleton.mp hx
    exact ⟨rfl, rfl, rfl, .inr (.inr rfl)⟩
  | answer =>
    rw [respond_sendAck (p := ⟨r, .answer⟩) rfl (.inr rfl)]
    refine ⟨rfl, fun x hx => ?_⟩
    obtain rfl := List.mem_singleton.mp hx
    exact ⟨rfl, rfl, rfl, .inr (.inr rfl)⟩
  | command => simp [Parcel.target] at hp
  | initAck => simp [Parcel.target] at hp
  | finalAck => simp [Parcel.target] at hp

end NutrinoStack.LedSystem

import NutrinoStack.Itineraries

namespace NutrinoStack.LedSystem

open Application Relays

def Parcel.toDevice (p : Parcel) : List Request :=
  if p.origin.call ≠ .glowLed ∧ (p.hop = .request ∨ p.hop = .command) then [p.origin] else []

def Parcel.toConfirm (p : Parcel) : List Request :=
  if p.origin.call ≠ .glowLed ∧ (p.hop = .answer ∨ p.hop = .finalAck) then [p.origin] else []

def commandLane (l : Load Queue Parcel) : List Request :=
  (l.queue .device).flatMap Parcel.toDevice ++ (l.hand .core).flatMap Parcel.toDevice ++
    (l.queue .core).flatMap Parcel.toDevice

def confirmLane (l : Load Queue Parcel) : List Request :=
  (l.hand .core).flatMap Parcel.toConfirm ++ (l.queue .core).flatMap Parcel.toConfirm ++
    (l.hand .device).flatMap Parcel.toConfirm

def Parcel.Bred (p : Parcel) : Prop :=
  (p.hop = .requeue → p.origin.call = .glowLed) ∧ (p.hop = .command → p.origin.call ≠ .glowLed)

theorem onward_bred (p : Parcel) : ∀ x ∈ network.onward p, x.Bred := by
  obtain ⟨⟨n, client, c⟩, hop⟩ := p
  cases hop <;> cases c <;> simp [network, Parcel.onward, Parcel.Bred]

theorem toDevice_onward {p : Parcel} (hp : p.target = .core) : p.onward.flatMap Parcel.toDevice = p.toDevice := by
  obtain ⟨⟨n, client, c⟩, hop⟩ := p
  cases hop <;> cases c <;> simp_all [Parcel.target, Parcel.onward, Parcel.toDevice]

theorem toConfirm_onward {p : Parcel} (hp : p.target = .core) (hb : p.Bred) :
    p.onward.flatMap Parcel.toConfirm = p.toConfirm := by
  obtain ⟨⟨n, client, c⟩, hop⟩ := p
  cases hop <;> cases c <;> simp_all [Parcel.target, Parcel.onward, Parcel.toConfirm, Parcel.Bred]

theorem toDevice_command {p : Parcel} (hp : p.target = .device) (hb : p.Bred) : p.toDevice = [p.origin] := by
  obtain ⟨⟨n, client, c⟩, hop⟩ := p
  cases hop <;> simp_all [Parcel.target, Parcel.toDevice, Parcel.Bred]

theorem toConfirm_command {p : Parcel} (hp : p.target = .device) (hb : p.Bred) :
    p.onward.flatMap Parcel.toConfirm = [p.origin] := by
  obtain ⟨⟨n, client, c⟩, hop⟩ := p
  cases hop <;> simp_all [Parcel.target, Parcel.onward, Parcel.toConfirm, Parcel.Bred]

theorem toDevice_eq_nil {p : Parcel} (hr : p.hop ≠ .request) (hp : p.target ≠ .device) : p.toDevice = [] := by
  obtain ⟨r, hop⟩ := p
  cases hop <;> simp_all [Parcel.target, Parcel.toDevice]

theorem toConfirm_eq_nil {p : Parcel} (hp : p.hop ≠ .answer) (hf : p.hop ≠ .finalAck) : p.toConfirm = [] := by
  simp [Parcel.toConfirm, hp, hf]

section

variable {l : Load Queue Parcel} {p : Parcel} {rest : List Parcel}

theorem commandLane_inject (l : Load Queue Parcel) (r : Request) (placed : Bool) :
    (commandLane (l.place network ⟨r, .request⟩ placed)).Sublist (commandLane l ++ if placed then [r] else []) := by
  cases placed with
  | false => simp [Load.place]
  | true =>
    have hnew : (Parcel.toDevice ⟨r, .request⟩).Sublist [r] := by
      by_cases hc : r.call = .glowLed <;> simp [Parcel.toDevice, hc]
    simpa [commandLane, Load.place, network, Parcel.target] using hnew

theorem confirmLane_inject (l : Load Queue Parcel) (r : Request) (placed : Bool) :
    confirmLane (l.place network ⟨r, .request⟩ placed) = confirmLane l := by
  cases placed with
  | false => rfl
  | true => simp [confirmLane, Load.place, network, Parcel.target, Parcel.toConfirm]

theorem commandLane_coreRead (hq : l.queue .core = p :: rest) (hh : l.hand .core = []) (hp : p.target = .core) :
    commandLane ⟨Function.update l.queue .core rest, Function.update l.hand .core p.onward⟩ = commandLane l := by
  simp [commandLane, hq, hh, toDevice_onward hp]

theorem confirmLane_coreRead (hq : l.queue .core = p :: rest) (hh : l.hand .core = []) (hp : p.target = .core)
    (hb : p.Bred) :
    confirmLane ⟨Function.update l.queue .core rest, Function.update l.hand .core p.onward⟩ = confirmLane l := by
  simp [confirmLane, hq, hh, toConfirm_onward hp hb]

theorem commandLane_deviceRead (hq : l.queue .device = p :: rest) (hp : p.target = .device) (hb : p.Bred) :
    p.origin :: commandLane ⟨Function.update l.queue .device rest, Function.update l.hand .device p.onward⟩ =
      commandLane l := by
  simp [commandLane, hq, toDevice_command hp hb]

theorem confirmLane_deviceRead (hh : l.hand .device = []) (hp : p.target = .device) (hb : p.Bred) :
    confirmLane ⟨Function.update l.queue .device rest, Function.update l.hand .device p.onward⟩ =
      confirmLane l ++ [p.origin] := by
  simp [confirmLane, hh, toConfirm_command hp hb]

theorem commandLane_coreSend (hh : l.hand .core = p :: rest) (hp : p.hop ≠ .request) (placed : Bool) :
    (commandLane (Load.place network { l with hand := Function.update l.hand .core rest } p placed)).Sublist
      (commandLane l) := by
  by_cases ht : p.target = .device
  · cases placed with
    | false => simp [commandLane, Load.place, hh]
    | true => simp [commandLane, Load.place, network, ht, hh]
  · have hnil := toDevice_eq_nil hp ht
    cases placed with
    | false => simp [commandLane, Load.place, hh, hnil]
    | true => cases hq : p.target <;> simp_all [commandLane, Load.place, network]

theorem confirmLane_coreSend (hh : l.hand .core = p :: rest) (hp : p.hop ≠ .answer) (placed : Bool) :
    ((if placed then p.toConfirm else []) ++
      confirmLane (Load.place network { l with hand := Function.update l.hand .core rest } p placed)).Sublist
      (confirmLane l) := by
  cases placed with
  | false => simp [confirmLane, Load.place, hh]
  | true =>
    by_cases hf : p.hop = .finalAck
    · have ht : p.target = .application := by simp only [Parcel.target, hf]
      simp [confirmLane, Load.place, network, ht, hh]
    · have hnil := toConfirm_eq_nil hp hf
      cases hq : p.target <;> simp_all [confirmLane, Load.place, network]

theorem commandLane_deviceSend (hp : p.hop = .answer) (placed : Bool) :
    commandLane (Load.place network { l with hand := Function.update l.hand .device rest } p placed) =
      commandLane l := by
  have ht : p.target = .core := by simp only [Parcel.target, hp]
  have hnil : p.toDevice = [] := by simp [Parcel.toDevice, hp]
  cases placed <;> simp [commandLane, Load.place, network, ht, hnil]

theorem confirmLane_deviceSend (hh : l.hand .device = [p]) (hp : p.hop = .answer) (placed : Bool) :
    (confirmLane (Load.place network { l with hand := Function.update l.hand .device [] } p placed)).Sublist
      (confirmLane l) := by
  have ht : p.target = .core := by simp only [Parcel.target, hp]
  cases placed <;> simp [confirmLane, Load.place, network, ht, hh]

end

end NutrinoStack.LedSystem

import NutrinoStack.Routing

namespace NutrinoStack.LedSystem

open Application CoreFsm Relays Runs

variable {C : Channel}

def State.load (s : State C) : Load Queue Parcel where
  queue := List.map Packet.parcel ∘ s.queue
  hand q :=
    match q with
    | .core => s.hand.map Pending.parcel
    | .device => s.reply.toList
    | .application => []

def Event.relay : Event → Relays.Event Parcel
  | .request r _ placed => .injected ⟨r, .request⟩ placed
  | .clientRead _ p _ => .taken p
  | .coreRead p _ _ => .read p
  | .coreSend x placed => .sent x.parcel placed
  | .deviceRead p _ => .read p
  | .deviceSend p _ placed => .sent p placed

theorem load_queue {s : State C} {q : Queue} {p : Packet C} {rest : List (Packet C)} (hq : s.queue q = p :: rest) :
    s.load.queue q = p.parcel :: rest.map Packet.parcel := by
  simp [State.load, hq]

theorem load_hand_core {s : State C} {x : Pending} {rest : List Pending} (hh : s.hand = x :: rest) :
    s.load.hand .core = x.parcel :: rest.map Pending.parcel := by
  simp [State.load, hh]

@[simp] theorem initial_load (d : Msgbuff) : (State.initial C d).load = Load.empty := by
  simp only [State.load, State.initial, Load.empty, Load.mk.injEq]
  exact ⟨rfl, funext fun q => by cases q <;> rfl⟩

theorem load_put (s : State C) {q : Queue} {p : Packet C} (hp : p.parcel.target = q) (placed : Bool) :
    (s.put q p placed).load = s.load.place network p.parcel placed := by
  cases placed with
  | false => rfl
  | true =>
    subst hp
    simp [State.put, State.load, Load.place, network, Function.comp_update]

theorem load_hand (s : State C) (xs : List Pending) :
    State.load { s with hand := xs } =
      { s.load with hand := Function.update s.load.hand .core (xs.map Pending.parcel) } := by
  simp only [State.load, Load.mk.injEq, true_and]
  funext q
  cases q <;> rfl

theorem load_reply (s : State C) (m : Msgbuff) (p : Option Parcel) :
    State.load { s with device := m, reply := p } =
      { s.load with hand := Function.update s.load.hand .device p.toList } := by
  simp only [State.load, Load.mk.injEq, true_and]
  funext q
  cases q <;> rfl

theorem load_afterCall (s : State C) (r : Request) (m : Msgbuff) (placed : Bool) :
    (s.afterCall r m placed).load = s.load.place network ⟨r, .request⟩ placed := by
  have hput := load_put s (p := ⟨C.send m, ⟨r, .request⟩⟩) rfl placed
  rw [← hput]
  rfl

theorem load_afterClientRead (s : State C) (client : ℕ) (rest : List (Packet C)) :
    (s.afterClientRead client rest).load =
      { s.load with queue := Function.update s.load.queue .application (rest.map Packet.parcel) } := by
  simp [State.load, State.afterClientRead, Function.comp_update]

theorem load_afterCoreSend (s : State C) {x : Pending} (hx : x.queue = x.parcel.target) (rest : List Pending)
    (placed : Bool) :
    (s.afterCoreSend x rest placed).load =
      Load.place network { s.load with hand := Function.update s.load.hand .core (rest.map Pending.parcel) }
        x.parcel placed := by
  have hput := load_put { s with hand := rest } (p := ⟨C.send x.msg, x.parcel⟩) hx.symm placed
  rw [State.afterCoreSend, hput, load_hand]

theorem load_afterDeviceSend (s : State C) {p : Parcel} (hp : p.hop = .answer) (placed : Bool) :
    (s.afterDeviceSend p placed).load =
      Load.place network { s.load with hand := Function.update s.load.hand .device [] } p placed := by
  have hcore : p.target = .core := by simp [Parcel.target, hp]
  have hput := load_put { s with device := deviceAnswer s.device, reply := none }
    (p := ⟨C.send (deviceAnswer s.device), p⟩) hcore placed
  rw [State.afterDeviceSend, hput, load_reply, Option.toList_none]

variable [Carrier C] {rule : SendRule} {sid : ℕ → ℤ}

theorem load_afterDeviceRead {s : State C} (h : Routed sid s) {p : Packet C} {rest : List (Packet C)}
    (hq : s.queue .device = p :: rest) :
    (s.afterDeviceRead p rest).load =
      ⟨Function.update s.load.queue .device (rest.map Packet.parcel),
        Function.update s.load.hand .device p.parcel.onward⟩ := by
  have hdev := (h.packets .device p (by simp [hq])).1
  have hon : p.parcel.onward = [⟨p.parcel.origin, .answer⟩] := by
    simp only [Parcel.onward, target_device hdev]
  simp only [State.load, State.afterDeviceRead, Function.comp_update, Load.mk.injEq, true_and, hon]
  funext q
  cases q <;> simp [Function.update]

variable (hfit : ∀ p : Parcel, Carrier.Fits C (p.header sid))
include hfit

theorem load_afterCoreRead {s : State C} (h : Routed sid s) {p : Packet C} {rest : List (Packet C)}
    (hq : s.queue .core = p :: rest) :
    (s.afterCoreRead p rest).load =
      ⟨Function.update s.load.queue .core (rest.map Packet.parcel),
        Function.update s.load.hand .core p.parcel.onward⟩ := by
  obtain ⟨-, hturn, -, hpar, -⟩ := core_read hfit h hq
  simp only [State.load, State.afterCoreRead, Function.comp_update, Load.mk.injEq, true_and]
  funext q
  cases q <;> simp [Function.update, hturn, hpar]

theorem move_relay {s t : State C} {e : Event} (h : Routed sid s) (hm : Move C rule sid s e t) :
    ∃ b, network.step s.load b = some (e.relay, t.load) := by
  cases hm with
  | call client c old placed hw hr =>
    exact ⟨.inject ⟨⟨s.issued, client, c⟩, .request⟩ placed, by simp [Network.step, Event.relay, load_afterCall]⟩
  | clientRead client r m p rest hw hq =>
    exact ⟨.take .application, by simp only [Network.step, load_queue hq, Event.relay, load_afterClientRead]⟩
  | coreRead p rest hs hh hq =>
    have hhand : s.load.hand .core = [] := by simp [State.load, hh]
    exact ⟨.read .core, by
      simp only [Network.step, load_queue hq, hhand, Event.relay, load_afterCoreRead hfit h hq, network]⟩
  | coreSend x rest placed hh hr =>
    have hx := (h.hand x (by simp [hh])).1
    exact ⟨.send .core placed, by simp only [Network.step, load_hand_core hh, Event.relay, load_afterCoreSend s hx]⟩
  | deviceRead p rest hp hq =>
    have hhand : s.load.hand .device = [] := by simp [State.load, hp]
    exact ⟨.read .device, by
      simp only [Network.step, load_queue hq, hhand, Event.relay, load_afterDeviceRead h hq, network]⟩
  | deviceSend p placed hp hr =>
    have hhand : s.load.hand .device = [p] := by simp [State.load, hp]
    exact ⟨.send .device placed, by
      simp only [Network.step, hhand, Event.relay, load_afterDeviceSend s (h.reply p hp).1]⟩

theorem reaches_relay {d : Msgbuff} {tr : List Event} {s : State C} (h : Reaches C rule sid d tr s) :
    Run network.step Load.empty (tr.map Event.relay) s.load := by
  rw [← initial_load (C := C) d]
  apply h.simulation
  intro tr t a e u hr hs
  exact move_relay hfit (reaches_routed hfit hr) (step_move hs)

end NutrinoStack.LedSystem

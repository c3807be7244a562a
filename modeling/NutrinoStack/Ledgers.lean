import NutrinoStack.Attribution

namespace NutrinoStack.LedSystem

open Application CoreFsm Relays Runs

def Event.Sound (sid : ℕ → ℤ) : Event → Prop
  | .request r m _ => m.toHeader = Parcel.header sid ⟨r, .request⟩
  | .clientRead _ p m => p.target = .application ∧ m.toHeader = p.header sid
  | .coreRead p m fn => p.target = .core ∧ m.toHeader = p.header sid ∧ fn = (respond m).fn
  | .coreSend x _ => x.queue = x.parcel.target ∧ x.msg.toHeader = x.parcel.header sid ∧
    x.parcel.hop = hopOf x.fn x.queue
  | .deviceRead p m => p.target = .device ∧ m.toHeader = p.header sid
  | .deviceSend p m _ => p.hop = .answer ∧ m.toHeader = p.header sid

def Event.request? : Event → Option Request
  | .request r _ _ => some r
  | _ => none

def requests (tr : List Event) : List Request := tr.filterMap Event.request?

@[simp] theorem requests_append (tr tr' : List Event) : requests (tr ++ tr') = requests tr ++ requests tr' := by
  simp [requests]

def Event.refused : Event → Bool
  | .request _ _ placed | .coreSend _ placed | .deviceSend _ _ placed => !placed
  | _ => false

variable {C : Channel} {rule : SendRule} {sid : ℕ → ℤ} {d : Msgbuff} {tr : List Event} {s : State C}

theorem reliable_refused {s t : State C} {e : Event} (h : Move C reliable sid s e t) : e.refused = false := by
  cases h <;> simp_all [Event.refused, reliable]

theorem reaches_refused (h : Reaches C reliable sid d tr s) : ∀ e ∈ tr, e.refused = false :=
  h.events fun _ _ _ _ _ _ hs => reliable_refused (step_move hs)

theorem move_requests {s t : State C} {e : Event} (h : Move C rule sid s e t) :
    (e.request? = none ∧ t.issued = s.issued) ∨
      ∃ r, e.request? = some r ∧ r.number = s.issued ∧ t.issued = s.issued + 1 := by
  cases h with
  | call client c old placed hw hr => exact .inr ⟨_, rfl, rfl, rfl⟩
  | clientRead | coreRead | deviceRead => exact .inl ⟨rfl, rfl⟩
  | coreSend x rest placed => cases placed <;> exact .inl ⟨rfl, rfl⟩
  | deviceSend p placed => cases placed <;> exact .inl ⟨rfl, rfl⟩

theorem requests_number (h : Reaches C rule sid d tr s) :
    (requests tr).map Request.number = List.range s.issued := by
  apply h.invariant (I := fun tr s => (requests tr).map Request.number = List.range s.issued) rfl
  intro tr t a e u _ ih hs
  rcases move_requests (step_move hs) with ⟨he, hu⟩ | ⟨r, he, hr, hu⟩
  · simp [requests, he, hu] at ih ⊢
    exact ih
  · simp [requests, he, hu, hr, List.range_succ] at ih ⊢
    exact ih

theorem requests_nodup (h : Reaches C rule sid d tr s) : (requests tr).Nodup := by
  have := List.nodup_range (n := s.issued)
  rw [← requests_number h] at this
  exact this.of_map _

variable [Carrier C]

section

variable (hfit : ∀ p : Parcel, Carrier.Fits C (p.header sid))
include hfit

theorem reaches_all {S : Parcel → Prop} (hS : ∀ p, S p → ∀ x ∈ network.onward p, S x)
    (h : Reaches C rule sid d tr s) (hr : ∀ r ∈ requests tr, S ⟨r, .request⟩) :
    s.load.All S ∧ ∀ e ∈ tr, S e.relay.parcel := by
  have hall := run_all hS (reaches_relay hfit h) Load.All.empty ?_
  · exact ⟨hall.1, fun e he => hall.2 _ (List.mem_map_of_mem he)⟩
  · intro p placed hp
    obtain ⟨e, he, hep⟩ := List.mem_map.mp hp
    cases e with
    | request r m b =>
      obtain ⟨rfl, -⟩ := by simpa [Event.relay] using hep
      apply hr
      exact List.mem_filterMap.mpr ⟨_, he, rfl⟩
    | _ => simp [Event.relay] at hep

theorem move_sound {s t : State C} {e : Event} (h : Routed sid s) (hm : Move C rule sid s e t) :
    e.Sound sid := by
  cases hm with
  | call client c old placed hw hr => rfl
  | clientRead client r m p rest hw hq =>
    have hp := h.packets .application p (by simp [hq])
    exact ⟨hp.1, hp.recv_header hfit m⟩
  | coreRead p rest hs hh hq =>
    obtain ⟨hm, hturn, -⟩ := core_read hfit h hq
    exact ⟨(h.packets .core p (by simp [hq])).1, hm, by rw [hturn]⟩
  | coreSend x rest placed hh hr =>
    obtain ⟨hq, hx, hhop, -⟩ := h.hand x (by simp [hh])
    exact ⟨hq, hx, hhop⟩
  | deviceRead p rest hp hq =>
    have hp := h.packets .device p (by simp [hq])
    exact ⟨hp.1, hp.recv_header hfit s.device⟩
  | deviceSend p placed hp hr =>
    obtain ⟨hhop, hd⟩ := h.reply p hp
    have htype : s.device.msgType = msgTypeGlowLed := by
      rw [hd, header_msgType]
    exact ⟨hhop, (deviceAnswer_header htype).trans hd⟩

theorem reaches_sound (h : Reaches C rule sid d tr s) : ∀ e ∈ tr, e.Sound sid :=
  h.events fun _ _ _ _ _ hr hs => move_sound hfit (reaches_routed hfit hr) (step_move hs)

end

end NutrinoStack.LedSystem

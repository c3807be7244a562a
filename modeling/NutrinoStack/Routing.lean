import NutrinoStack.Itineraries

namespace NutrinoStack.LedSystem

open Application CoreFsm CStrings Relays Runs

/-- A channel that delivers the header of every struct the program sends. The core's buffer only holds texts
that are `Held`; a `Sendable` text is long enough for its header to arrive, and an `Ample` one is still
sendable after it has been received. -/
class Carrier (C : Channel) where
  Fits : Header → Prop
  Held : Buffer maxSize → Prop
  Sendable : Buffer maxSize → Prop
  Ample : Buffer maxSize → Prop
  held_zeroed : Held (zeroed maxSize)
  sendable_strcpy : ∀ b s, Plain 11 s → Sendable (strcpy b s)
  ample_strcpy : ∀ b s, Plain 22 s → Ample (strcpy b s)
  recv_header : ∀ old m, Fits m.toHeader → Sendable m.msgText → (C.recv old (C.send m)).toHeader = m.toHeader
  recv_held : ∀ old m, Sendable m.msgText → Held old.msgText → Held (C.recv old (C.send m)).msgText
  recv_sendable : ∀ old m, Ample m.msgText → Held old.msgText → Sendable (C.recv old (C.send m)).msgText

instance : Carrier records where
  Fits _ := True
  Held _ := True
  Sendable _ := True
  Ample _ := True
  held_zeroed := trivial
  sendable_strcpy _ _ _ := trivial
  ample_strcpy _ _ _ := trivial
  recv_header _ _ _ _ := rfl
  recv_held _ _ _ _ := trivial
  recv_sendable _ _ _ _ := trivial

variable {C : Channel} [Carrier C] {rule : SendRule} {sid : ℕ → ℤ}

def Packet.Sound (sid : ℕ → ℤ) (q : Queue) (p : Packet C) : Prop :=
  p.parcel.target = q ∧ ∃ m : Msgbuff, p.wire = C.send m ∧ m.toHeader = p.parcel.header sid ∧
    Carrier.Sendable C m.msgText ∧ (p.parcel.hop = .request → Carrier.Ample C m.msgText)

theorem hopOf_ne_request (f : Handler) (q : Queue) : hopOf f q ≠ .request := by
  cases f <;> cases q <;> simp [hopOf]

theorem hopOf_ne_answer (f : Handler) (q : Queue) : hopOf f q ≠ .answer := by
  cases f <;> cases q <;> simp [hopOf]

structure Routed (sid : ℕ → ℤ) (s : State C) : Prop where
  idle : Idle s.core
  held : Carrier.Held C s.core.msg.msgText
  packets : ∀ q, ∀ p ∈ s.queue q, p.Sound sid q
  hand : ∀ x ∈ s.hand, x.queue = x.parcel.target ∧ x.msg.toHeader = x.parcel.header sid ∧
    x.parcel.hop = hopOf x.fn x.queue ∧ Carrier.Sendable C x.msg.msgText
  reply : ∀ p, s.reply = some p → p.hop = .answer ∧ s.device.toHeader = p.header sid

theorem initial_routed (d : Msgbuff) : Routed sid (State.initial C d) where
  idle := initial_idle
  held := Carrier.held_zeroed
  packets := by simp [State.initial]
  hand := by simp [State.initial]
  reply := by simp [State.initial]

theorem routed_put {s : State C} (h : Routed sid s) {q : Queue} {p : Packet C} (hp : p.Sound sid q)
    (placed : Bool) : Routed sid (s.put q p placed) := by
  cases placed with
  | false => exact h
  | true =>
    refine ⟨h.idle, h.held, fun q' x hx => ?_, h.hand, h.reply⟩
    by_cases hq : q' = q
    · subst hq
      simp only [State.put, Function.update_self, List.mem_append, List.mem_singleton] at hx
      rcases hx with hx | rfl
      · exact h.packets _ x hx
      · exact hp
    · simp only [State.put, Function.update_of_ne hq] at hx
      exact h.packets q' x hx

theorem packets_update {s : State C} (h : Routed sid s) {q : Queue} {p : Packet C} {rest : List (Packet C)}
    (hq : s.queue q = p :: rest) : ∀ q', ∀ x ∈ Function.update s.queue q rest q', x.Sound sid q' := by
  intro q' x hx
  by_cases he : q' = q
  · subst he
    exact h.packets _ x (by rw [hq]; exact List.mem_cons_of_mem _ (by simpa using hx))
  · exact h.packets q' x (by simpa [Function.update_of_ne he] using hx)

variable (hfit : ∀ p : Parcel, Carrier.Fits C (p.header sid))
include hfit

theorem Packet.Sound.recv_header {q : Queue} {p : Packet C} (h : p.Sound sid q) (old : Msgbuff) :
    (C.recv old p.wire).toHeader = p.parcel.header sid := by
  obtain ⟨_, m, hw, hh, hs, _⟩ := h
  rw [hw, Carrier.recv_header old m (hh ▸ hfit _) hs, hh]

theorem core_read {s : State C} (h : Routed sid s) {p : Packet C} {rest : List (Packet C)}
    (hq : s.queue .core = p :: rest) :
    let m := C.recv s.core.msg p.wire
    m.toHeader = p.parcel.header sid ∧ (iteration s.core m).1 = respond m ∧ ¬ Ends m ∧
      (pending p.parcel m (respond m)).map Pending.parcel = p.parcel.onward ∧
      ∀ x ∈ pending p.parcel m (respond m), x.Sound sid p.parcel m := by
  have hp := h.packets .core p (by simp [hq])
  have hm := hp.recv_header hfit s.core.msg
  obtain ⟨hpar, hx⟩ := pending_sound hm hp.1
  refine ⟨hm, (iteration_respond h.idle _).1, fun he => ?_, hpar, hx⟩
  obtain ⟨row, hrow⟩ := rowFor_header sid hp.1
  rw [← hm, he.2, rowFor_stTerm] at hrow
  simp at hrow

theorem move_routed {s t : State C} {e : Event} (h : Routed sid s) (hm : Move C rule sid s e t) :
    Routed sid t := by
  cases hm with
  | call client c old placed hw hr =>
    have hample : Carrier.Ample C (c.message (sid s.issued) old).msgText :=
      Carrier.ample_strcpy _ _ (call_text_plain c)
    have hsend : Carrier.Sendable C (c.message (sid s.issued) old).msgText :=
      Carrier.sendable_strcpy _ _ ((call_text_plain c).mono (by decide))
    have hput := routed_put h (q := .core)
      (p := ⟨C.send (c.message (sid s.issued) old), ⟨⟨s.issued, client, c⟩, .request⟩⟩)
      ⟨rfl, _, rfl, rfl, hsend, fun _ => hample⟩ placed
    exact ⟨hput.idle, hput.held, hput.packets, hput.hand, hput.reply⟩
  | clientRead client r m p rest hw hq =>
    exact ⟨h.idle, h.held, packets_update h hq, h.hand, h.reply⟩
  | coreRead p rest hs hh hq =>
    obtain ⟨hm, hturn, hend, -, hsound⟩ := core_read hfit h hq
    obtain ⟨-, w, hw, -, hsend, hample⟩ := h.packets .core p (by simp [hq])
    have hheld : Carrier.Held C (C.recv s.core.msg p.wire).msgText := hw ▸ Carrier.recv_held _ _ hsend h.held
    refine ⟨(iteration_respond h.idle _).2.2 hend, ?_, packets_update h hq, fun x hx => ?_, h.reply⟩
    · simpa only [State.afterCoreRead, iteration_msg] using hheld
    · simp only [State.afterCoreRead, hturn] at hx
      have hxs := hsound x hx
      refine ⟨hxs.queue, hxs.header, hxs.hop, ?_⟩
      rcases hxs.text with ⟨hreq, ht⟩ | ht | ht
      · rw [ht, hw]
        exact Carrier.recv_sendable _ _ (hample hreq) h.held
      · rw [ht]
        exact Carrier.sendable_strcpy _ _ core_text_plain.1
      · rw [ht]
        exact Carrier.sendable_strcpy _ _ core_text_plain.2
  | coreSend x rest placed hh hr =>
    obtain ⟨hq, hx, hhop, hs⟩ := h.hand x (by simp [hh])
    have hrest : Routed sid { s with hand := rest } :=
      ⟨h.idle, h.held, h.packets, fun y hy => h.hand y (by simp [hh, hy]), h.reply⟩
    have hne : x.parcel.hop ≠ .request := hhop ▸ hopOf_ne_request x.fn x.queue
    exact routed_put hrest ⟨hq.symm, x.msg, rfl, hx, hs, fun hr => (hne hr).elim⟩ placed
  | deviceRead p rest hp hq =>
    have hp := h.packets .device p (by simp [hq])
    have hm := hp.recv_header hfit s.device
    refine ⟨h.idle, h.held, packets_update h hq, h.hand, ?_⟩
    rintro _ ⟨⟩
    refine ⟨rfl, hm.trans ?_⟩
    simp only [Parcel.header, target_device hp.1]
  | deviceSend p placed hp hr =>
    obtain ⟨hhop, hd⟩ := h.reply p hp
    have htype : s.device.msgType = msgTypeGlowLed := by
      rw [hd, header_msgType]
    have hrest : Routed sid { s with device := deviceAnswer s.device, reply := none } :=
      ⟨h.idle, h.held, h.packets, h.hand, by simp⟩
    refine routed_put hrest ⟨by simp [Parcel.target, hhop], _, rfl, (deviceAnswer_header htype).trans hd, ?_,
      by simp [hhop]⟩ placed
    exact Carrier.sendable_strcpy _ _ fromDevice_plain

theorem reaches_routed {d : Msgbuff} {tr : List Event} {s : State C} (h : Reaches C rule sid d tr s) :
    Routed sid s :=
  h.invariant (I := fun _ s => Routed sid s) (initial_routed d)
    fun _ _ _ _ _ _ hr hs => move_routed hfit hr (step_move hs)

end NutrinoStack.LedSystem

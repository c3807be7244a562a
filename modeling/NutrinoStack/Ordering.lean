import NutrinoStack.ByteChannel
import NutrinoStack.Lanes

namespace NutrinoStack.LedSystem

open Application CoreFsm MachineWords Relays Runs

def Event.placed? : Event → Option Request
  | .request r _ true => some r
  | _ => none

def Event.delivered? : Event → Option Request
  | .deviceRead p _ => some p.origin
  | _ => none

def Event.confirmed? : Event → Option Request
  | .coreSend x true =>
    if x.fn = .sendAck ∧ x.queue = .application ∧ x.parcel.origin.call ≠ .glowLed then some x.parcel.origin else none
  | _ => none

def Event.requestSession? : Event → Option ℤ
  | .request _ m true => some m.msgSessionId
  | _ => none

def Event.commandSession? : Event → Option ℤ
  | .deviceRead _ m => some m.msgSessionId
  | _ => none

def Event.confirmSession? : Event → Option ℤ
  | .coreSend x true =>
    if x.fn = .sendAck ∧ x.queue = .application ∧ x.parcel.origin.call ≠ .glowLed then some x.msg.msgSessionId
    else none
  | _ => none

def requestSessions (tr : List Event) : List ℤ := tr.filterMap Event.requestSession?

def commandSessions (tr : List Event) : List ℤ := tr.filterMap Event.commandSession?

def confirmSessions (tr : List Event) : List ℤ := tr.filterMap Event.confirmSession?

structure InOrder (tr : List Event) (l : Load Queue Parcel) : Prop where
  commands : (tr.filterMap Event.delivered? ++ commandLane l).Sublist (tr.filterMap Event.placed?)
  confirms : (tr.filterMap Event.confirmed? ++ confirmLane l).Sublist (tr.filterMap Event.delivered?)

variable {C : Channel} [Carrier C] {rule : SendRule} {sid : ℕ → ℤ} {d : Msgbuff} {tr : List Event} {s : State C}

theorem confirmed_eq {x : Pending} (hx : x.queue = x.parcel.target) (hhop : x.parcel.hop = hopOf x.fn x.queue)
    (placed : Bool) :
    (Event.confirmed? (.coreSend x placed)).toList = if placed then x.parcel.toConfirm else [] := by
  obtain ⟨fn, cause, q, m, ⟨r, hop⟩⟩ := x
  obtain rfl : hop = hopOf fn q := hhop
  cases placed with
  | false => rfl
  | true =>
    by_cases hc : r.call = .glowLed
    · simp [Event.confirmed?, Parcel.toConfirm, hc]
    · cases fn <;> cases q <;> simp_all [Event.confirmed?, Parcel.toConfirm, hopOf, Parcel.target]

theorem filterMap_snoc (f : Event → Option Request) (tr : List Event) (e : Event) :
    (tr ++ [e]).filterMap f = tr.filterMap f ++ (f e).toList := by
  cases h : f e <;> simp [h]

theorem InOrder.snoc {tr : List Event} {l l' : Load Queue Parcel} {e : Event} (h : InOrder tr l)
    (hcmd : (e.delivered?.toList ++ commandLane l').Sublist (commandLane l ++ e.placed?.toList))
    (hack : (e.confirmed?.toList ++ confirmLane l').Sublist (confirmLane l ++ e.delivered?.toList)) :
    InOrder (tr ++ [e]) l' := by
  constructor
  · have hold := h.commands.append_right e.placed?.toList
    have hnew := hcmd.append_left (tr.filterMap Event.delivered?)
    rw [filterMap_snoc, filterMap_snoc, List.append_assoc]
    rw [List.append_assoc] at hold
    exact hnew.trans hold
  · have hold := h.confirms.append_right e.delivered?.toList
    have hnew := hack.append_left (tr.filterMap Event.confirmed?)
    rw [filterMap_snoc, filterMap_snoc, List.append_assoc]
    rw [List.append_assoc] at hold
    exact hnew.trans hold

theorem placed_sublist (tr : List Event) : (tr.filterMap Event.placed?).Sublist (requests tr) := by
  induction tr with
  | nil => exact .slnil
  | cons e tr ih =>
    cases e with
    | request r m placed =>
      cases placed with
      | false => exact ih.cons r
      | true => exact ih.cons_cons r
    | _ => exact ih

omit [Carrier C] in
theorem requests_sessions_nodup (h : Reaches C rule sid d tr s) (hsid : Set.InjOn sid (Set.Iio s.issued)) :
    ((requests tr).map fun r => sid r.number).Nodup := by
  have hmap : (requests tr).map (fun r => sid r.number) = (List.range s.issued).map sid := by
    rw [← requests_number h, List.map_map, Function.comp_def]
  rw [hmap]
  apply List.Nodup.map_on _ List.nodup_range
  intro i hi j hj hij
  apply hsid _ _ hij
  · simpa using hi
  · simpa using hj

section

variable (hfit : ∀ p : Parcel, Carrier.Fits C (p.header sid))
include hfit

theorem reaches_bred (h : Reaches C rule sid d tr s) : s.load.All Parcel.Bred := by
  apply (reaches_all hfit (fun p _ x hx => onward_bred p x hx) h _).1
  simp [Parcel.Bred]

theorem move_commands {s t : State C} {e : Event} (h : Routed sid s) (hb : s.load.All Parcel.Bred)
    (hm : Move C rule sid s e t) :
    (e.delivered?.toList ++ commandLane t.load).Sublist (commandLane s.load ++ e.placed?.toList) := by
  cases hm with
  | call client c old placed hw hr =>
    have hlane := commandLane_inject s.load ⟨s.issued, client, c⟩ placed
    rw [load_afterCall]
    cases placed <;> exact hlane
  | clientRead client r m p rest hw hq =>
    rw [load_afterClientRead]
    simp [Event.delivered?, Event.placed?, commandLane]
  | coreRead p rest hs hh hq =>
    have htarget := (h.packets .core p (by simp [hq])).1
    rw [load_afterCoreRead hfit h hq, commandLane_coreRead (load_queue hq) (by simp [State.load, hh]) htarget]
    simp [Event.delivered?, Event.placed?]
  | coreSend x rest placed hh hr =>
    obtain ⟨hx, -, hhop, -⟩ := h.hand x (by simp [hh])
    have hlane := commandLane_coreSend (load_hand_core hh) (hhop ▸ hopOf_ne_request _ _) placed
    rw [load_afterCoreSend s hx]
    simpa [Event.delivered?, Event.placed?] using hlane
  | deviceRead p rest hp hq =>
    have htarget := (h.packets .device p (by simp [hq])).1
    have hbred := hb.1 .device p.parcel (by simp [load_queue hq])
    rw [load_afterDeviceRead h hq, ← commandLane_deviceRead (load_queue hq) htarget hbred]
    simp [Event.delivered?, Event.placed?]
  | deviceSend p placed hp hr =>
    have hhop := (h.reply p hp).1
    rw [load_afterDeviceSend s hhop, commandLane_deviceSend hhop]
    simp [Event.delivered?, Event.placed?]

theorem move_confirms {s t : State C} {e : Event} (h : Routed sid s) (hb : s.load.All Parcel.Bred)
    (hm : Move C rule sid s e t) :
    (e.confirmed?.toList ++ confirmLane t.load).Sublist (confirmLane s.load ++ e.delivered?.toList) := by
  cases hm with
  | call client c old placed hw hr =>
    rw [load_afterCall, confirmLane_inject]
    simp [Event.confirmed?, Event.delivered?]
  | clientRead client r m p rest hw hq =>
    rw [load_afterClientRead]
    simp [Event.confirmed?, Event.delivered?, confirmLane]
  | coreRead p rest hs hh hq =>
    have htarget := (h.packets .core p (by simp [hq])).1
    have hbred := hb.1 .core p.parcel (by simp [load_queue hq])
    rw [load_afterCoreRead hfit h hq, confirmLane_coreRead (load_queue hq) (by simp [State.load, hh]) htarget hbred]
    simp [Event.confirmed?, Event.delivered?]
  | coreSend x rest placed hh hr =>
    obtain ⟨hx, -, hhop, -⟩ := h.hand x (by simp [hh])
    have hlane := confirmLane_coreSend (load_hand_core hh) (hhop ▸ hopOf_ne_answer _ _) placed
    rw [load_afterCoreSend s hx, confirmed_eq hx hhop]
    simpa [Event.delivered?] using hlane
  | deviceRead p rest hp hq =>
    have htarget := (h.packets .device p (by simp [hq])).1
    have hbred := hb.1 .device p.parcel (by simp [load_queue hq])
    rw [load_afterDeviceRead h hq, confirmLane_deviceRead (by simp [State.load, hp]) htarget hbred]
    simp [Event.confirmed?, Event.delivered?]
  | deviceSend p placed hp hr =>
    have hhop := (h.reply p hp).1
    have hhand : s.load.hand .device = [p] := by simp [State.load, hp]
    have hlane := confirmLane_deviceSend hhand hhop placed
    rw [load_afterDeviceSend s hhop]
    simpa [Event.confirmed?, Event.delivered?] using hlane

theorem reaches_inOrder (h : Reaches C rule sid d tr s) : InOrder tr s.load := by
  apply h.invariant (I := fun tr s => InOrder tr s.load)
  · constructor <;> simp [commandLane, confirmLane, Load.empty]
  · intro tr t _ e u hr ho hs
    have hrouted := reaches_routed hfit hr
    have hbred := reaches_bred hfit hr
    apply ho.snoc
    · exact move_commands hfit hrouted hbred (step_move hs)
    · exact move_confirms hfit hrouted hbred (step_move hs)

theorem sessions_eq (h : Reaches C rule sid d tr s) :
    requestSessions tr = (tr.filterMap Event.placed?).map (fun r => sid r.number) ∧
      commandSessions tr = (tr.filterMap Event.delivered?).map (fun r => sid r.number) ∧
      confirmSessions tr = (tr.filterMap Event.confirmed?).map (fun r => sid r.number) := by
  simp only [requestSessions, commandSessions, confirmSessions, List.map_filterMap]
  refine ⟨?_, ?_, ?_⟩ <;> apply List.filterMap_congr <;> intro e he
  · have hsound := reaches_sound hfit h e he
    cases e with
    | request r m placed =>
      have hm : m.msgSessionId = sid r.number := congrArg Header.msgSessionId hsound
      cases placed <;> simp [Event.requestSession?, Event.placed?, hm]
    | _ => rfl
  · have hsound := reaches_sound hfit h e he
    cases e with
    | deviceRead p m =>
      have hm : m.msgSessionId = (p.header sid).msgSessionId := congrArg Header.msgSessionId hsound.2
      simp [Event.commandSession?, Event.delivered?, hm]
    | _ => rfl
  · have hsound := reaches_sound hfit h e he
    cases e with
    | coreSend x placed =>
      have hm : x.msg.msgSessionId = (x.parcel.header sid).msgSessionId := congrArg Header.msgSessionId hsound.2.1
      cases placed <;> simp [Event.confirmSession?, Event.confirmed?, hm]
    | _ => rfl

theorem sessions_ordered (h : Reaches C rule sid d tr s) (hsid : Set.InjOn sid (Set.Iio s.issued)) :
    ((commandSessions tr).Sublist (requestSessions tr) ∧ (commandSessions tr).Nodup) ∧
      (confirmSessions tr).Sublist (commandSessions tr) ∧ (confirmSessions tr).Nodup := by
  obtain ⟨hr, hc, ha⟩ := sessions_eq hfit h
  obtain ⟨hcmd, hack⟩ := reaches_inOrder hfit h
  have hcr : (commandSessions tr).Sublist (requestSessions tr) := by
    rw [hr, hc]
    exact ((List.sublist_append_left _ _).trans hcmd).map _
  have hac : (confirmSessions tr).Sublist (commandSessions tr) := by
    rw [hc, ha]
    exact ((List.sublist_append_left _ _).trans hack).map _
  have hnodup : (requestSessions tr).Nodup := by
    rw [hr]
    exact (requests_sessions_nodup h hsid).sublist ((placed_sublist tr).map _)
  exact ⟨⟨hcr, hnodup.sublist hcr⟩, hac, hnodup.sublist (hac.trans hcr)⟩

end

theorem second_ordered : ∃ tr s, Reaches (bytes amd64) lossy (fun n => (n % 2 : ℕ) + 1) .zeroed tr s ∧
    requestSessions tr = [1, 2] ∧ commandSessions tr = [2] ∧ confirmSessions tr = [2] ∧
    ((commandSessions tr).Sublist (requestSessions tr) ∧ (commandSessions tr).Nodup) ∧
      (confirmSessions tr).Sublist (commandSessions tr) ∧ (confirmSessions tr).Nodup := by
  obtain ⟨tr, s, hrun, hs⟩ := run_any (step (bytes amd64) lossy fun n => (n % 2 : ℕ) + 1) (State.initial _ .zeroed)
    [.call 0 .glowLedWithFsmAck .zeroed true, .call 1 .glowLedWithBoardAck .zeroed true, .coreRead, .coreSend true,
      .coreSend false, .coreRead, .coreSend true, .deviceRead, .deviceSend true, .coreRead, .coreSend true]
    (p := fun r => decide (requestSessions r.1 = [1, 2] ∧ commandSessions r.1 = [2] ∧ confirmSessions r.1 = [2] ∧
      r.2.issued = 2))
    (by decide +kernel)
  obtain ⟨hr, hc, ha, hissued⟩ := of_decide_eq_true hs
  refine ⟨tr, s, hrun, hr, hc, ha, sessions_ordered (sid_fits fun n => ?_) hrun ?_⟩
  · rcases Nat.mod_two_eq_zero_or_one n with hn | hn <;> rw [hn] <;> decide
  · rw [hissued]
    intro i hi j hj hij
    simp only [Set.mem_Iio, add_left_inj, Nat.cast_inj] at hi hj hij
    omega

end NutrinoStack.LedSystem

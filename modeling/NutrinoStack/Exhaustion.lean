import NutrinoStack.ByteChannel
import NutrinoStack.RelayAccounts

namespace NutrinoStack.LedSystem

open Application CoreFsm CStrings MachineWords QueueManager Runs StructLayout

def Event.reads : Event → Bool
  | .coreRead .. | .deviceRead .. => true
  | _ => false

def Event.answers : Event → Bool
  | .coreSend x placed => placed && decide (x.queue = .application)
  | _ => false

structure Unmatched (g : Globals) : Prop where
  messageType : g.messageType = msgTypeGlowLed
  row : rowFor g.state g.event = none

def Exhausts (C : Channel) : Prop :=
  ∀ (sid : ℕ → ℤ) (s₀ : State C), Unmatched s₀.core → s₀.hand = [] → s₀.reply = none →
    (∀ (tr : List Event) (s : State C), Run (step C lossy sid) s₀ tr s → requests tr = [] →
      tr.countP Event.reads ≤ 4 * ((s₀.queue .core).length + (s₀.queue .device).length) ∧
        tr.countP Event.answers ≤ 2 * ((s₀.queue .core).length + (s₀.queue .device).length)) ∧
    ¬ ∃ (f : ℕ → State C) (a : ℕ → Action) (e : ℕ → Event), f 0 = s₀ ∧
      ∀ i, step C lossy sid (f i) (a i) = some (e i, f (i + 1)) ∧ (e i).request? = none

def Tame (C : Channel) (w : C.Wire) : Prop := ∀ old, (C.recv old w).msgState ≠ stInit

structure Settles (C : Channel) : Prop where
  command : ∀ m, m.msgState = stSendToDevice → Tame C (C.send m)
  answer : ∀ d w, (C.recv d w).msgState ≠ stInit → Tame C (C.send (deviceAnswer (C.recv d w)))

variable {C : Channel} {sid : ℕ → ℤ} {s t s₀ : State C} {tr : List Event} {e : Event}

theorem iteration_unmatched {g : Globals} (hg : Unmatched g) (hs : g.state ≠ stTerm) (m : Msgbuff) :
    (iteration g m).1 = respond m ∧ Unmatched (iteration g m).2 := by
  obtain ⟨hturn, hend, hidle⟩ := iteration_respond ⟨hg.messageType, hs, hg.row⟩ m
  refine ⟨hturn, (iteration_messageType g m).trans hg.messageType, ?_⟩
  by_cases he : Ends m
  · rw [hend he, rowFor_stTerm]
  · exact (hidle he).unmatched

theorem move_unmatched {rule : SendRule} (h : Unmatched s.core) (hm : Move C rule sid s e t) : Unmatched t.core := by
  cases hm with
  | call client c old placed => cases placed <;> exact h
  | clientRead | deviceRead => exact h
  | coreRead p rest hs hh hq => exact (iteration_unmatched h hs _).2
  | coreSend x rest placed => cases placed <;> exact h
  | deviceSend p placed => cases placed <;> exact h

/-! What a message costs until nothing of it is left, when a read of `q` costs `read q` and a send to `q` costs `send q` -/

structure Prices where
  read : Queue → ℕ
  send : Queue → ℕ

variable (π : Prices)

def Prices.ack : ℕ := π.send .application + π.read .application

def Prices.tame : Queue → ℕ
  | .core => π.read .core + π.ack
  | .device => π.read .device + (π.send .core + (π.read .core + π.ack))
  | .application => π.read .application

def Prices.request : ℕ := π.read .core + max (π.send .core + π.tame .core) (π.ack + (π.send .device + π.tame .device))

def Prices.wild : Queue → ℕ
  | .core => π.request
  | .device => π.read .device + (π.send .core + π.request)
  | .application => π.read .application

theorem tame_le (q : Queue) : π.tame q ≤ π.wild q := by
  cases q <;> simp only [Prices.wild, Prices.request, Prices.tame] <;> omega

open Classical in
noncomputable def Prices.weight (C : Channel) (q : Queue) (w : C.Wire) : ℕ :=
  if Tame C w then π.tame q else π.wild q

variable {π}

theorem weight_tame {w : C.Wire} (h : Tame C w) (q : Queue) : π.weight C q w = π.tame q := if_pos h

theorem weight_wild {w : C.Wire} (h : ¬ Tame C w) (q : Queue) : π.weight C q w = π.wild q := if_neg h

theorem weight_le (q : Queue) (w : C.Wire) : π.weight C q w ≤ π.wild q := by
  by_cases h : Tame C w
  · exact (weight_tame h q).trans_le (tame_le π q)
  · exact (weight_wild h q).le

theorem le_weight (q : Queue) (w : C.Wire) : π.tame q ≤ π.weight C q w := by
  by_cases h : Tame C w
  · exact (weight_tame h q).ge
  · exact (tame_le π q).trans_eq (weight_wild h q).symm

theorem weight_application (w : C.Wire) : π.weight C .application w = π.read .application :=
  le_antisymm (weight_le .application w) (le_weight (π := π) .application w)

noncomputable def Prices.sending (π : Prices) (C : Channel) (q : Queue) (m : Msgbuff) : ℕ :=
  π.send q + π.weight C q (C.send m)

theorem respond_request {m : Msgbuff} (h : respond m = ⟨some .initLed, (initLed m).sends⟩) : m.msgState = stInit := by
  unfold respond at h
  split_ifs at h with ht
  · cases hrow : rowFor m.msgState m.msgEvent with
    | none => simp [hrow] at h
    | some t =>
      obtain ⟨hm, hst, -⟩ := rowFor_mem hrow
      rcases mem_trans hm with rfl | rfl | rfl | rfl | rfl
      · exact hst
      · exact hst
      · exact hst
      · simp [hrow] at h
      · simp [hrow] at h
  · simp at h

theorem request_pays (S : Settles C) {m : Msgbuff}
    (he : m.msgEvent = evSendToCoreNoAck ∨ m.msgEvent = evSendToCore ∨ m.msgEvent = evSendToCoreDevAck) :
    π.read .core + ((initLed m).sends.map fun x => π.sending C x.queue x.msg).sum ≤ π.request := by
  have hcommand : ∀ m : Msgbuff, m.msgState = stSendToDevice → ∀ q, π.sending C q m = π.send q + π.tame q :=
    fun m hm q => congrArg (π.send q + ·) (weight_tame (S.command m hm) q)
  have hack : ∀ m : Msgbuff, π.sending C .application m = π.ack :=
    fun m => congrArg (π.send .application + ·) (weight_application _)
  rcases he with he | he | he
  · have hsends : (initLed m).sends =
        [⟨.core, { m with msgState := stSendToDevice, msgEvent := evSendToDeviceNoAck }⟩] := by simp [initLed, he]
    simp only [hsends, List.map_cons, List.map_nil, List.sum_cons, List.sum_nil]
    rw [hcommand _ rfl, Prices.request]
    omega
  · have hsends : (initLed m).sends = [⟨.application, { m with msgState := stSendAck, msgEvent := evSendToApp }⟩,
        ⟨.device, { m with msgState := stSendToDevice, msgEvent := evSendToDeviceNoAck }⟩] := by simp [initLed, he]
    simp only [hsends, List.map_cons, List.map_nil, List.sum_cons, List.sum_nil]
    rw [hack, hcommand _ rfl, Prices.request]
    omega
  · have hsends : (initLed m).sends = [⟨.device,
        Msgbuff.withText { m with msgState := stSendToDevice, msgEvent := evSendToDevice } heyDevice⟩] := by
      simp [initLed, he]
    simp only [hsends, List.map_cons, List.map_nil, List.sum_cons, List.sum_nil]
    rw [hcommand _ (congrArg Header.msgState (withText_header _ _)), Prices.request]
    omega

theorem core_pays (S : Settles C) (old : Msgbuff) (w : C.Wire) :
    π.read .core + ((respond (C.recv old w)).sends.map fun x => π.sending C x.queue x.msg).sum ≤
      π.weight C .core w := by
  have hless : π.read .core + π.ack ≤ π.weight C .core w := le_weight .core w
  rcases respond_cases (C.recv old w) with h | ⟨-, he, h⟩ | ⟨-, h⟩
  · simp only [h, List.map_nil, List.sum_nil]
    omega
  · have hwild : ¬ Tame C w := fun ht => ht old (respond_request h)
    rw [weight_wild hwild, h]
    exact request_pays S he
  · have hack : ∀ m, π.sending C .application m = π.ack :=
      fun m => congrArg (π.send .application + ·) (weight_application _)
    have hsends : (sendAck (C.recv old w)).sends = [⟨.application, Msgbuff.withText
        { C.recv old w with msgState := stSendAck, msgEvent := evSendToApp } ackForApplication⟩] := by simp [sendAck]
    simp only [h, hsends, List.map_cons, List.map_nil, List.sum_cons, List.sum_nil, hack]
    omega

theorem device_pays (S : Settles C) (d : Msgbuff) (w : C.Wire) :
    π.read .device + π.sending C .core (deviceAnswer (C.recv d w)) ≤ π.weight C .device w := by
  by_cases h : Tame C w
  · rw [weight_tame h, Prices.sending, weight_tame (S.answer d w (h d))]
    exact le_rfl
  · have hle := weight_le (π := π) .core (C.send (deviceAnswer (C.recv d w)))
    rw [weight_wild h, Prices.sending]
    simp only [Prices.wild] at hle ⊢
    omega

noncomputable def stock (π : Prices) (F : Queue → List (Packet C)) (q : Queue) : ℕ :=
  ((F q).map fun p => π.weight C q p.wire).sum

noncomputable def stocks (π : Prices) (F : Queue → List (Packet C)) : ℕ :=
  stock π F .core + stock π F .device + stock π F .application

noncomputable def potential (π : Prices) (s : State C) : ℕ :=
  stocks π s.queue + (s.hand.map fun x => π.sending C x.queue x.msg).sum +
    (s.reply.toList.map fun _ => π.sending C .core (deviceAnswer s.device)).sum

theorem stocks_update (F : Queue → List (Packet C)) (q : Queue) (l : List (Packet C)) :
    stocks π (Function.update F q l) + stock π F q =
      stocks π F + (l.map fun p => π.weight C q p.wire).sum := by
  cases q <;> simp only [stocks, stock, Function.update_apply, reduceCtorEq, if_true, if_false] <;> omega

theorem stocks_put (s : State C) (q : Queue) (m : Msgbuff) (p : Parcel) (placed : Bool) :
    stocks π (s.put q ⟨C.send m, p⟩ placed).queue + π.send q ≤ stocks π s.queue + π.sending C q m := by
  cases placed with
  | false =>
    simp only [State.put, Prices.sending]
    omega
  | true =>
    have hup := stocks_update (π := π) s.queue q (s.queue q ++ [⟨C.send m, p⟩])
    simp only [List.map_append, List.map_cons, List.map_nil, List.sum_append, List.sum_cons, List.sum_nil] at hup
    simp only [State.put, Prices.sending, stock] at hup ⊢
    omega

theorem pending_sending (p : Parcel) (m : Msgbuff) :
    (pending p m (respond m)).map (fun x => π.sending C x.queue x.msg) =
      (respond m).sends.map fun x => π.sending C x.queue x.msg := by
  rcases respond_cases m with h | ⟨-, -, h⟩ | ⟨-, h⟩ <;> simp [pending, h, Function.comp_def]

def Prices.gain (π : Prices) : Event → ℕ
  | .request .. => 0
  | .clientRead .. => π.read .application
  | .coreRead .. => π.read .core
  | .coreSend x _ => π.send x.queue
  | .deviceRead .. => π.read .device
  | .deviceSend .. => π.send .core

theorem stocks_read {q : Queue} {p : Packet C} {rest : List (Packet C)} (hq : s.queue q = p :: rest) :
    stocks π (Function.update s.queue q rest) + π.weight C q p.wire = stocks π s.queue := by
  have hup := stocks_update (π := π) s.queue q rest
  simp only [stock, hq, List.map_cons, List.sum_cons] at hup
  omega

theorem move_pays (S : Settles C) (h : Unmatched s.core) {rule : SendRule} (hm : Move C rule sid s e t)
    (hnone : e.request? = none) : potential π t + π.gain e ≤ potential π s := by
  cases hm with
  | call => cases hnone
  | clientRead client r m p rest hw hq =>
    have hread := stocks_read (π := π) hq
    rw [weight_application] at hread
    simp only [potential, State.afterClientRead, Prices.gain]
    omega
  | coreRead p rest hs hh hq =>
    have hread := stocks_read (π := π) hq
    have hpays := core_pays (π := π) S s.core.msg p.wire
    simp only [potential, State.afterCoreRead, Prices.gain, hh, (iteration_unmatched h hs _).1, pending_sending,
      List.map_nil, List.sum_nil]
    omega
  | coreSend x rest placed hh hr =>
    have hput := stocks_put (π := π) { s with hand := rest } x.queue x.msg x.parcel placed
    cases placed <;> simp only [potential, State.afterCoreSend, State.put, Prices.gain, hh, List.map_cons,
      List.sum_cons] at hput ⊢ <;> omega
  | deviceRead p rest hp hq =>
    have hread := stocks_read (π := π) hq
    have hpays := device_pays (π := π) S s.device p.wire
    simp only [potential, State.afterDeviceRead, Prices.gain, hp, Option.toList_none, Option.toList_some, List.map_cons,
      List.map_nil, List.sum_cons, List.sum_nil]
    omega
  | deviceSend p placed hp hr =>
    have hput := stocks_put (π := π) { s with device := deviceAnswer s.device, reply := none } .core
      (deviceAnswer s.device) p placed
    cases placed <;> simp only [potential, State.afterDeviceSend, State.put, Prices.gain, hp, Option.toList_none,
      Option.toList_some, List.map_cons, List.map_nil, List.sum_cons, List.sum_nil] at hput ⊢ <;> omega

theorem run_pays (S : Settles C) {rule : SendRule} (h₀ : Unmatched s₀.core) (h : Run (step C rule sid) s₀ tr s)
    (hq : requests tr = []) : potential π s + (tr.map π.gain).sum ≤ potential π s₀ := by
  have hrun : Unmatched s.core ∧ (requests tr = [] → potential π s + (tr.map π.gain).sum ≤ potential π s₀) := by
    apply h.invariant (I := fun tr s => Unmatched s.core ∧
      (requests tr = [] → potential π s + (tr.map π.gain).sum ≤ potential π s₀)) ⟨h₀, by simp⟩
    rintro tr t a e u - ⟨hun, ih⟩ hs
    have hm := step_move hs
    refine ⟨move_unmatched hun hm, fun hreq => ?_⟩
    rw [requests_append, List.append_eq_nil_iff] at hreq
    have hprev := ih hreq.1
    have hpays := move_pays (π := π) S hun hm (List.filterMap_eq_nil_iff.mp hreq.2 e (by simp))
    simp only [List.map_append, List.sum_append, List.map_cons, List.map_nil, List.sum_cons, List.sum_nil]
    omega
  exact hrun.2 hq

theorem initial_potential (happ : π.read .application = 0) (hh : s.hand = []) (hr : s.reply = none)
    (hcore : π.wild .core ≤ π.wild .device) :
    potential π s ≤ π.wild .device * ((s.queue .core).length + (s.queue .device).length) := by
  have hlist : ∀ q, stock π s.queue q ≤ (s.queue q).length * π.wild q := by
    intro q
    have hall := List.sum_le_card_nsmul ((s.queue q).map fun p => π.weight C q p.wire) (π.wild q) ?_
    · simpa [stock] using hall
    · intro n hn
      obtain ⟨p, -, rfl⟩ := List.mem_map.mp hn
      exact weight_le q p.wire
  have hc := (hlist .core).trans (Nat.mul_le_mul_left _ hcore)
  have hd := hlist .device
  have ha : stock π s.queue .application ≤ (s.queue .application).length * 0 := happ ▸ hlist .application
  rw [mul_zero] at ha
  simp only [potential, stocks, hh, hr, Option.toList_none, List.map_nil, List.sum_nil]
  rw [mul_add, mul_comm _ (s.queue .core).length, mul_comm _ (s.queue .device).length]
  omega

theorem sum_gain {c : Event → Bool} (tr : List Event) (h : ∀ e ∈ tr, (if c e then 1 else 0) ≤ π.gain e) :
    tr.countP c ≤ (tr.map π.gain).sum := by
  induction tr with
  | nil => simp
  | cons e tr ih =>
    have hrest := ih fun x hx => h x (by simp [hx])
    have hone := h e (by simp)
    simp only [List.countP_cons, List.map_cons, List.sum_cons]
    omega

def readPrices : Prices := ⟨fun q => if q = .application then 0 else 1, fun _ => 0⟩

def answerPrices : Prices := ⟨fun _ => 0, fun q => if q = .application then 1 else 0⟩

theorem settles_exhausts (S : Settles C) : Exhausts C := by
  intro sid s₀ h₀ hh hr
  refine ⟨fun tr s hrun hq => ⟨?_, ?_⟩, ?_⟩
  · have hcount := sum_gain (π := readPrices) (c := Event.reads) tr fun e _ => by
      cases e <;> simp [Event.reads, Prices.gain, readPrices]
    have hpays := run_pays (π := readPrices) S h₀ hrun hq
    have hstart := initial_potential (π := readPrices) rfl hh hr (by decide)
    have hfour : readPrices.wild .device = 4 := rfl
    rw [hfour] at hstart
    omega
  · have hcount := sum_gain (π := answerPrices) (c := Event.answers) tr fun e _ => by
      cases e with
      | coreSend x placed =>
        by_cases hx : x.queue = .application <;> cases placed <;> simp [Event.answers, Prices.gain, answerPrices, hx]
      | _ => simp [Event.answers]
    have hpays := run_pays (π := answerPrices) S h₀ hrun hq
    have hstart := initial_potential (π := answerPrices) rfl hh hr (by decide)
    have htwo : answerPrices.wild .device = 2 := rfl
    rw [htwo] at hstart
    omega
  · rintro ⟨f, a, e, rfl, hf⟩
    have hbound : ∀ n, n ≤ potential ⟨1, 1⟩ (f 0) := by
      intro n
      have hnone : ∀ x ∈ (List.range n).map e, x.request? = none := by
        intro x hx
        obtain ⟨i, -, rfl⟩ := List.mem_map.mp hx
        exact (hf i).2
      have hpays := run_pays (π := ⟨1, 1⟩) S h₀ (run_infinite (fun i => (hf i).1) n)
        (List.filterMap_eq_nil_iff.mpr hnone)
      have hcount := sum_gain (π := ⟨1, 1⟩) (c := fun _ => true) ((List.range n).map e) fun x hx => by
        have := hnone x hx
        cases x <;> simp_all [Prices.gain, Event.request?]
      rw [List.countP_true, List.length_map, List.length_range] at hcount
      omega
    exact Nat.not_succ_le_self _ (hbound _)


variable {P : Platform}

theorem recv_state {m : Msgbuff} (old : Msgbuff) (hfit : Fits P.long m.msgState)
    (hs : 2 * P.long ≤ strlen m.msgText + 1 + 12) : (recv P old (send P m)).msgState = m.msgState := by
  have hsize : (layout P).size m = strlen m.msgText + 1 + 12 := rfl
  have hsent := StructTransfers.long_sent (L := layout P) (P := P) m old (a := 2 * P.long) (by omega)
  have hstored : longAt P (2 * P.long) (store P m) = m.msgState :=
    (congrArg (decode P.order) (store_holds P m).state).trans (decode_encode _ _ _ hfit)
  exact hsent.trans hstored

theorem recv_state_fits (old : Msgbuff) (bs : Bytes) : Fits P.long (recv P old bs).msgState := by
  apply longAt_fits
  simp only [offsets, List.length_append, List.length_drop, store_length]
  omega

/-- The first byte of the state is sent with every text, and it tells the two states apart. -/
theorem command_tame (hP : P.order = .littleEndian) {m : Msgbuff} (hm : m.msgState = stSendToDevice) :
    Tame (bytes P) (send P m) := by
  intro old hinit
  replace hinit : longAt P (2 * P.long) (send P m ++ (store P old).drop (send P m).length) = stInit := hinit
  have hlong := long_cases P
  have hfirst : ∀ bs : Bytes, ((bs.drop (2 * P.long)).take P.long)[0]? = bs[2 * P.long]? := by
    intro bs
    rw [List.getElem?_take_of_lt (by omega), List.getElem?_drop, Nat.add_zero]
  have hslice : ((send P m ++ (store P old).drop (send P m).length).drop (2 * P.long)).take P.long =
      encode P.order P.long stInit := decode_injective P.order
    (by rw [List.length_take, List.length_drop, recv_length, encode_length]; omega)
    (hinit.trans (decode_encode _ _ _ (fits_long P (by decide))).symm)
  have hbyte := (hfirst _).symm.trans (congrArg (·[0]?) hslice)
  rw [recv_bytes, if_pos (by omega), ← hfirst] at hbyte
  have hsent := congrArg (·[0]?) (store_holds P m).state
  rw [hm] at hsent
  have hsame := hsent.symm.trans hbyte
  obtain ⟨order, width⟩ := P
  cases hP
  revert hsame
  cases width <;> decide

theorem bytes_settles (h : P.long = 4 ∨ P.order = .littleEndian) : Settles (bytes P) where
  command m hm := by
    rcases h with h | h
    · intro old
      have hfit : Fits P.long m.msgState := hm ▸ fits_long P (z := stSendToDevice) (by decide)
      have hstate := recv_state (P := P) old hfit (by omega)
      exact ne_of_eq_of_ne (hstate.trans hm) (by decide)
    · exact command_tame h hm
  answer d w hw old := by
    have htext : strlen (deviceAnswer (recv P d w)).msgText = 54 := fromDevice_plain.strlen _
    have hlong := long_cases P
    have hstate := recv_state (P := P) (m := deviceAnswer (recv P d w)) old (recv_state_fits d w) (by omega)
    exact ne_of_eq_of_ne hstate hw

/-! On a big-endian machine with longs of 8 bytes the core reads its own command as the request it was made from -/

abbrev ppc64 : Platform := ⟨.bigEndian, .eight⟩

def curtRequest : Msgbuff :=
  ⟨⟨34567, msgTypeGlowLed, stInit, evSendToCoreNoAck⟩, strcpy (zeroed maxSize) (literal "Glow please")⟩

def cutRequest : Msgbuff := ⟨curtRequest.toHeader, zeroed maxSize⟩

def cutCommand : Msgbuff := ⟨⟨34567, msgTypeGlowLed, stSendToDevice, evSendToDeviceNoAck⟩, zeroed maxSize⟩

theorem curtRequest_cut : recv ppc64 .zeroed (send ppc64 curtRequest) = cutRequest := by decide +kernel

theorem cutCommand_lost : recv ppc64 cutRequest (send ppc64 cutCommand) = cutRequest := by decide +kernel

theorem iteration_cutRequest {g : Globals} (hg : g.messageType = msgTypeGlowLed) :
    iteration g cutRequest =
      (⟨some .initLed, [⟨.core, cutCommand⟩]⟩, { g with msg := cutRequest, state := 0, event := evSendToCoreNoAck }) := by
  have hrow : rowFor stInit evSendToCoreNoAck = some ⟨stInit, evSendToCoreNoAck, .initLed⟩ := by decide
  simp [iteration, getMessageStateEvent, dispatch, hg, hrow, cutRequest, cutCommand, curtRequest, Handler.run, initLed]

/-- The core is about to read the request, or to send itself the command that it will read as the request. -/
inductive Stuck (s : State (bytes ppc64)) : Prop
  | reading (p : Packet (bytes ppc64)) (hg : s.core.messageType = msgTypeGlowLed) (hs : s.core.state ≠ stTerm)
      (hh : s.hand = []) (hq : s.queue .core = [p]) (hm : recv ppc64 s.core.msg p.wire = cutRequest)
  | sending (x : Pending) (hg : s.core.messageType = msgTypeGlowLed) (hs : s.core.state ≠ stTerm)
      (hm : s.core.msg = cutRequest) (hq : s.queue .core = []) (hh : s.hand = [x]) (hx : x.queue = .core)
      (hc : x.msg = cutCommand)

theorem stuck_moves (sid : ℕ → ℤ) {s : State (bytes ppc64)} (h : Stuck s) :
    ∃ e t, Move (bytes ppc64) lossy sid s e t ∧ e.request? = none ∧ Stuck t := by
  cases h with
  | reading p hg hs hh hq hm =>
    refine ⟨_, _, .coreRead p [] hs hh hq, rfl, ?_⟩
    have hturn := iteration_cutRequest hg
    apply Stuck.sending ⟨.initLed, cutRequest, .core, cutCommand, ⟨p.parcel.origin, .requeue⟩⟩ <;>
      simp [State.afterCoreRead, bytes, pending, hturn, hm, hg, hopOf]
  | sending x hg hs hm hq hh hx hc =>
    refine ⟨_, _, .coreSend x [] true hh rfl, rfl, ?_⟩
    have hcore : (s.afterCoreSend x [] true).queue .core = [⟨send ppc64 x.msg, x.parcel⟩] := by
      simp only [State.afterCoreSend, State.put, hx, hq, Function.update_self]
      rfl
    refine .reading ⟨send ppc64 x.msg, x.parcel⟩ hg hs rfl hcore ?_
    change recv ppc64 s.core.msg (send ppc64 x.msg) = cutRequest
    rw [hm, hc, cutCommand_lost]

def curtStart : State (bytes ppc64) :=
  { State.initial (bytes ppc64) .zeroed with
    queue := fun q => if q = .core then [⟨send ppc64 curtRequest, ⟨⟨0, 0, .glowLed⟩, .request⟩⟩] else [] }

theorem curt_forever : ∃ (f : ℕ → State (bytes ppc64)) (a : ℕ → Action) (e : ℕ → Event), f 0 = curtStart ∧
    ∀ i, step (bytes ppc64) lossy sid (f i) (a i) = some (e i, f (i + 1)) ∧ (e i).request? = none := by
  have hnext : ∀ s, Acc (fun t s => ∃ a e, step (bytes ppc64) lossy sid s a = some (e, t) ∧ e.request? = none) s →
      ¬ Stuck s := by
    intro s hs
    induction hs with
    | intro s _ ih =>
      intro hstuck
      obtain ⟨e, t, hm, he, ht⟩ := stuck_moves sid hstuck
      obtain ⟨a, ha⟩ := move_step hm
      exact ih t ⟨a, e, ha, he⟩ ht
  have hstart : Stuck curtStart := .reading _ rfl (by decide) rfl rfl curtRequest_cut
  obtain ⟨f, h₀, hf⟩ := not_acc_iff_exists_descending_chain.mp fun hacc => hnext _ hacc hstart
  choose a e hstep using hf
  exact ⟨f, a, e, h₀, hstep⟩

theorem bigEndian_forever : ¬ Exhausts (bytes ppc64) := fun h =>
  (h (fun _ => sessionId) curtStart ⟨rfl, by decide⟩ rfl rfl).2 curt_forever

theorem bytes_exhausts_iff : Exhausts (bytes P) ↔ P.long = 4 ∨ P.order = .littleEndian := by
  constructor
  · intro h
    by_contra hP
    obtain ⟨order, width⟩ := P
    cases order <;> cases width <;> simp [Platform.long] at hP
    exact (h (fun _ => sessionId) curtStart ⟨rfl, by decide⟩ rfl rfl).2 curt_forever
  · exact fun h => settles_exhausts (bytes_settles h)

end NutrinoStack.LedSystem

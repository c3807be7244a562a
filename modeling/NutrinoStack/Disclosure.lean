import NutrinoStack.CoreLoop
import NutrinoStack.Leftovers
import NutrinoStack.Loops

namespace NutrinoStack.CoreFsm

open CStrings Loops MachineWords QueueManager Runs StructLayout

/-- The loop of `main` on the bytes of each message: a read overwrites the first bytes of the global `msg`. -/
def byteLoop (P : Platform) : Loop Globals Msgbuff Turn where
  running g := g.state ≠ stTerm
  body g m := iteration g (recv P g.msg (send P m))

def sentFor (P : Platform) (s : ℤ) (x : Pass Globals Msgbuff Turn) : List (Queue × Bytes) :=
  x.turn.sends.filterMap fun y => if y.msg.msgSessionId = s then some (y.queue, send P y.msg) else none

def shown (P : Platform) (s : ℤ) (ms : List Msgbuff) : List (Queue × Bytes) :=
  ((byteLoop P).passes Globals.initial ms).flatMap (sentFor P s)

def held (P : Platform) (ms : List Msgbuff) : Globals := (byteLoop P).final Globals.initial ms

structure WellFormed (P : Platform) (m : Msgbuff) : Prop where
  session : 0 < m.msgSessionId
  fits : Header.Fits P m.toHeader
  terminated : Terminated m.msgText
  state : m.msgState ≠ stTerm

structure Agree (s : ℤ) (m m' : Msgbuff) : Prop where
  header : m.toHeader = m'.toHeader
  text : m.msgSessionId = s → text m.msgText = text m'.msgText

def rowOf (m : Msgbuff) : Option Transition :=
  if m.msgType = msgTypeGlowLed then rowFor m.msgState m.msgEvent else none

def chosen (P : Platform) (g : Globals) (m : Msgbuff) : Option Transition :=
  if g.state = stTerm then none else rowOf (recv P g.msg (send P m))

/-- Nothing of the buffer that a message does not overwrite makes a difference to what is sent for it. -/
structure Alike (P : Platform) (g g' : Globals) (m : Msgbuff) : Prop where
  row : chosen P g m = chosen P g' m
  left : P.width = .eight → ∀ t ∈ chosen P g m, t.ev = evSendToCoreNoAck ∨ t.ev = evSendToCore →
    SameLeft (leftover P g.msg m) (leftover P g'.msg m)

variable {P : Platform} {s : ℤ} {g g' : Globals} {m m' r r' : Msgbuff}

theorem alike_iff : Alike P g g' m ↔ chosen P g m = chosen P g' m ∧
    (P.width = .eight → ∀ t ∈ chosen P g m, t.ev = evSendToCoreNoAck ∨ t.ev = evSendToCore →
      SameLeft (leftover P g.msg m) (leftover P g'.msg m)) :=
  ⟨fun h => ⟨h.row, h.left⟩, fun h => ⟨h.1, h.2⟩⟩

def outputs (P : Platform) (m : Msgbuff) : List (Queue × Bytes) :=
  (respond m).sends.map fun y => (y.queue, send P y.msg)

def copyOf (m : Msgbuff) (state event : ℤ) : Msgbuff := ⟨⟨m.msgSessionId, msgTypeGlowLed, state, event⟩, m.msgText⟩

theorem outputs_row (P : Platform) (m : Msgbuff) :
    (rowOf m = none ∧ outputs P m = []) ∨
    (rowOf m = some ⟨stInit, evSendToCoreNoAck, .initLed⟩ ∧
      outputs P m = [(.core, send P (copyOf m stSendToDevice evSendToDeviceNoAck))]) ∨
    (rowOf m = some ⟨stInit, evSendToCore, .initLed⟩ ∧
      outputs P m = [(.application, send P (copyOf m stSendAck evSendToApp)),
        (.device, send P (copyOf m stSendToDevice evSendToDeviceNoAck))]) ∨
    (rowOf m = some ⟨stInit, evSendToCoreDevAck, .initLed⟩ ∧
      outputs P m = [(.device, send P ((copyOf m stSendToDevice evSendToDevice).withText heyDevice))]) ∨
    (rowOf m = some ⟨stSendToDevice, evSendToDevice, .sendAck⟩ ∧
      outputs P m = [(.application, send P ((copyOf m stSendAck evSendToApp).withText ackForApplication))]) := by
  by_cases ht : m.msgType = msgTypeGlowLed
  · have hcopy : ∀ st ev, { m with msgState := st, msgEvent := ev } = copyOf m st ev := by
      intro st ev
      rw [copyOf, ← ht]
    simp only [rowOf, outputs, respond, ht, if_true]
    cases hrow : rowFor m.msgState m.msgEvent with
    | none => exact .inl ⟨rfl, rfl⟩
    | some t =>
      right
      obtain ⟨hm, -, hev⟩ := rowFor_mem hrow
      rcases mem_trans hm with rfl | rfl | rfl | rfl | rfl
      · exact .inl ⟨rfl, by simp [Handler.run, initLed, hev, ← hcopy]⟩
      · exact .inr (.inl ⟨rfl, by simp [Handler.run, initLed, hev, ← hcopy]⟩)
      · exact .inr (.inr (.inl ⟨rfl, by simp [Handler.run, initLed, hev, ← hcopy]⟩))
      · exact .inr (.inr (.inr ⟨rfl, by simp [Handler.run, sendAck, ← hcopy]⟩))
      · exact .inr (.inr (.inr ⟨rfl, by simp [Handler.run, sendAck, ← hcopy]⟩))
  · exact .inl ⟨by simp [rowOf, ht], by simp [outputs, respond, ht]⟩

theorem copies_eq_iff (hs : r.msgSessionId = r'.msgSessionId) (ht : Terminated r.msgText) (ht' : Terminated r'.msgText)
    (state event : ℤ) :
    send P (copyOf r state event) = send P (copyOf r' state event) ↔ SameText P r.msgText r'.msgText :=
  send_eq_iff (by rw [copyOf, copyOf, hs]) ht ht'

theorem answers_eq (hs : r.msgSessionId = r'.msgSessionId) (state event : ℤ) {least : ℕ} {l : List UInt8}
    (hl : Plain least l) :
    send P ((copyOf r state event).withText l) = send P ((copyOf r' state event).withText l) := by
  have hlen := hl.strlen
  have hterm : ∀ b : Buffer maxSize, Terminated (strcpy b l) := by
    intro b
    rw [terminated_iff, hlen]
    exact hl.2.1.trans_lt (by decide)
  have htext : text (strcpy r.msgText l) = text (strcpy r'.msgText l) := by
    apply (text_eq_iff _ _ ((terminated_iff _).mp (hterm _))).mpr
    intro i hi hle
    rw [hlen] at hle
    rcases hle.lt_or_eq with hlt | rfl
    · rw [strcpy_getElem _ _ hi hlt, strcpy_getElem _ _ hi hlt]
    · simp [strcpy]
  apply (send_eq_iff ?_ (hterm _) (hterm _)).mpr
  · simp only [Msgbuff.withText, copyOf]
    exact ⟨(hlen _).trans (hlen _).symm, by rw [htext]⟩
  · rw [withText_header, withText_header, copyOf, copyOf, hs]

theorem outputs_eq_iff (hs : r.msgSessionId = r'.msgSessionId) (ht : Terminated r.msgText)
    (ht' : Terminated r'.msgText) :
    outputs P r = outputs P r' ↔ rowOf r = rowOf r' ∧
      ∀ t ∈ rowOf r, t.ev = evSendToCoreNoAck ∨ t.ev = evSendToCore → SameText P r.msgText r'.msgText := by
  have hcopy := copies_eq_iff (P := P) hs ht ht'
  have hhey := answers_eq (P := P) hs stSendToDevice evSendToDevice core_text_plain.1
  have hack := answers_eq (P := P) hs stSendAck evSendToApp core_text_plain.2
  rcases outputs_row P r with ⟨h, ho⟩ | ⟨h, ho⟩ | ⟨h, ho⟩ | ⟨h, ho⟩ | ⟨h, ho⟩ <;>
    rcases outputs_row P r' with ⟨h', ho'⟩ | ⟨h', ho'⟩ | ⟨h', ho'⟩ | ⟨h', ho'⟩ | ⟨h', ho'⟩ <;>
    simp [h, h', ho, ho', hcopy, hhey, hack]

theorem outputs_nil : outputs P m = [] ↔ rowOf m = none := by
  rcases outputs_row P m with ⟨h, ho⟩ | ⟨h, ho⟩ | ⟨h, ho⟩ | ⟨h, ho⟩ | ⟨h, ho⟩ <;> simp [h, ho]

theorem respond_session (m : Msgbuff) : ∀ y ∈ (respond m).sends, y.msg.msgSessionId = m.msgSessionId := by
  intro y hy
  rcases respond_cases m with h | ⟨-, he, h⟩ | ⟨-, h⟩
  · simp [h] at hy
  · rcases he with he | he | he <;> simp [h, initLed, he] at hy
    · rw [hy]
    · rcases hy with rfl | rfl <;> rfl
    · rw [hy, withText_header]
  · have hsent : y = ⟨.application,
        Msgbuff.withText { m with msgState := stSendAck, msgEvent := evSendToApp } ackForApplication⟩ := by
      simpa [h, sendAck] using hy
    rw [hsent, withText_header]

structure Sealed (g : Globals) : Prop where
  idle : g.state ≠ stTerm → Idle g
  closed : Closed g.msg.msgText

theorem body_sealed (hg : Sealed g) (hr : (byteLoop P).running g) (ht : Terminated m.msgText) :
    Sealed ((byteLoop P).body g m).2 := by
  have hidle := hg.idle (by simpa [byteLoop] using hr)
  obtain ⟨-, hend, hnext⟩ := iteration_respond hidle (recv P g.msg (send P m))
  refine ⟨fun hst => hnext fun he => hst (hend he), ?_⟩
  have hmsg : ((byteLoop P).body g m).2.msg = recv P g.msg (send P m) := iteration_msg _ _
  rw [hmsg]
  exact recv_closed ht hg.closed

theorem held_sealed {ms : List Msgbuff} (hw : ∀ m ∈ ms, WellFormed P m) : Sealed (held P ms) := by
  apply final_invariant
  · exact ⟨fun _ => initial_idle, zeroed_getElem _⟩
  · exact fun g m hm hr hg => body_sealed hg hr (hw m hm).terminated

theorem pass_shown (hg : Sealed g) (hm : WellFormed P m) (s : ℤ) :
    ((byteLoop P).passes g [m]).flatMap (sentFor P s) =
      if g.state = stTerm ∨ m.msgSessionId ≠ s then [] else outputs P (recv P g.msg (send P m)) := by
  by_cases hst : g.state = stTerm
  · rw [passes_ended (by simp [byteLoop, hst]), if_pos (.inl hst), List.flatMap_nil]
  · have hturn := (iteration_respond (hg.idle hst) (recv P g.msg (send P m))).1
    have hsession : ∀ y ∈ (respond (recv P g.msg (send P m))).sends, y.msg.msgSessionId = m.msgSessionId := by
      intro y hy
      rw [respond_session _ y hy, (recv_address hm.fits).1]
    rw [passes_running (by simp [byteLoop, hst]), Loop.passes, List.flatMap_singleton, sentFor]
    simp only [Loop.pass, byteLoop, hturn]
    by_cases hs : m.msgSessionId = s
    · rw [if_neg (by simp [hst, hs]), outputs, ← List.filterMap_eq_map]
      apply List.filterMap_congr
      intro y hy
      simp [hsession y hy, hs]
    · rw [if_pos (.inr hs), List.filterMap_eq_nil_iff]
      intro y hy
      simp [hsession y hy, hs]

theorem agree_send (hm : WellFormed P m) (hm' : WellFormed P m') (ha : Agree s m m') (hs : m.msgSessionId = s) :
    send P m = send P m' := by
  have htext := ha.text hs
  apply (send_eq_iff ha.header hm.terminated hm'.terminated).mpr
  exact ⟨congrArg List.length htext, by rw [htext]⟩

theorem pass_alike (hg : Sealed g) (hg' : Sealed g') (hm : WellFormed P m) (hm' : WellFormed P m') (ha : Agree s m m') :
    ((byteLoop P).passes g [m]).flatMap (sentFor P s) = ((byteLoop P).passes g' [m']).flatMap (sentFor P s) ↔
      (m.msgSessionId = s → Alike P g g' m) := by
  have hid : m.msgSessionId = m'.msgSessionId := congrArg Header.msgSessionId ha.header
  rw [pass_shown hg hm, pass_shown hg' hm', ← hid]
  by_cases hs : m.msgSessionId = s
  · have hsend := agree_send hm hm' ha hs
    have hold : ∀ {g}, Sealed g → Terminated (recv P g.msg (send P m)).msgText :=
      fun hg => (recv_closed hm.terminated hg.closed).terminated
    have hsession : (recv P g.msg (send P m)).msgSessionId = (recv P g'.msg (send P m)).msgSessionId := by
      rw [(recv_address hm.fits).1, (recv_address hm.fits).1]
    have hiff := outputs_eq_iff (P := P) hsession (hold hg) (hold hg')
    rw [recv_sameText hm.terminated] at hiff
    simp only [hs, ne_eq, not_true_eq_false, or_false, true_implies, ← hsend, alike_iff, chosen]
    by_cases hst : g.state = stTerm
    · by_cases hst' : g'.state = stTerm
      · simp only [if_pos hst, if_pos hst', true_and, Option.not_mem_none, false_implies, implies_true]
      · simp only [if_pos hst, if_neg hst', Option.not_mem_none, false_implies, implies_true, and_true]
        rw [eq_comm, outputs_nil, eq_comm]
    · by_cases hst' : g'.state = stTerm
      · simp only [if_neg hst, if_pos hst', outputs_nil]
        refine ⟨fun h => ⟨h, fun _ t ht => ?_⟩, And.left⟩
        rw [h] at ht
        exact absurd ht (Option.not_mem_none t)
      · simp only [if_neg hst, if_neg hst', hiff]
        exact and_congr_right fun _ => ⟨fun h h8 t ht he => h t ht he h8, fun h t ht he h8 => h h8 t ht he⟩
  · simp [hs]

theorem rowOf_header (h : r.toHeader = r'.toHeader) : rowOf r = rowOf r' := by
  rw [rowOf, rowOf, h]

theorem four_header (h4 : P.width = .four) (hm : WellFormed P m) (old : Msgbuff) :
    (recv P old (send P m)).toHeader = m.toHeader := by
  apply recv_toHeader hm.fits
  have hlong : P.long = 4 := by
    rw [Platform.long, h4]
  omega

theorem four_idle (h4 : P.width = .four) {ms : List Msgbuff} (hw : ∀ m ∈ ms, WellFormed P m) : Idle (held P ms) := by
  apply final_invariant initial_idle
  intro g m hmem _ hg
  apply (iteration_respond hg _).2.2
  rintro ⟨-, hst⟩
  rw [four_header h4 (hw m hmem)] at hst
  exact (hw m hmem).state hst

variable {ms ms' : List Msgbuff}

theorem shown_private (hw : ∀ m ∈ ms, WellFormed P m) (hw' : ∀ m ∈ ms', WellFormed P m)
    (h : List.Forall₂ (Agree s) ms ms') :
    (∀ n, shown P s (ms.take n) = shown P s (ms'.take n)) ↔
      ∀ n m, ms[n]? = some m → m.msgSessionId = s → Alike P (held P (ms.take n)) (held P (ms'.take n)) m := by
  have htake : ∀ {ms : List Msgbuff} {n}, (∀ m ∈ ms, WellFormed P m) → Sealed (held P (ms.take n)) :=
    fun hw => held_sealed fun m hm => hw m (List.mem_of_mem_take hm)
  have hpass : ∀ {n m m'}, ms[n]? = some m → ms'[n]? = some m' →
      (((byteLoop P).passes (held P (ms.take n)) [m]).flatMap (sentFor P s) =
          ((byteLoop P).passes (held P (ms'.take n)) [m']).flatMap (sentFor P s) ↔
        (m.msgSessionId = s → Alike P (held P (ms.take n)) (held P (ms'.take n)) m)) := by
    intro n m m' hm hm'
    obtain ⟨hn, rfl⟩ := List.getElem?_eq_some_iff.mp hm
    obtain ⟨hn', rfl⟩ := List.getElem?_eq_some_iff.mp hm'
    exact pass_alike (htake hw) (htake hw') (hw _ (List.getElem_mem hn)) (hw' _ (List.getElem_mem hn')) (h.get hn hn')
  apply (shown_iff h.length_eq).trans
  constructor
  · intro hall n m hm
    obtain ⟨hn, -⟩ := List.getElem?_eq_some_iff.mp hm
    have hm' : ms'[n]? = some _ := List.getElem?_eq_getElem (h.length_eq ▸ hn)
    exact (hpass hm hm').mp (hall n m _ hm hm')
  · intro hall n m m' hm hm'
    exact (hpass hm hm').mpr (hall n m hm)

theorem four_alike (h4 : P.width = .four) (hw : ∀ m ∈ ms, WellFormed P m) (hw' : ∀ m ∈ ms', WellFormed P m) {n : ℕ}
    (hm : ms[n]? = some m) : Alike P (held P (ms.take n)) (held P (ms'.take n)) m := by
  refine ⟨?_, fun h8 => ?_⟩
  · have hidle := four_idle h4 fun m hm => hw m (List.mem_of_mem_take (i := n) hm)
    have hidle' := four_idle h4 fun m hm => hw' m (List.mem_of_mem_take (i := n) hm)
    have hwm := hw m (List.mem_of_getElem? hm)
    rw [chosen, chosen, if_neg hidle.running, if_neg hidle'.running]
    apply rowOf_header
    rw [four_header h4 hwm, four_header h4 hwm]
  · rw [h4] at h8
    contradiction

theorem shown_eq (hw : ∀ m ∈ ms, WellFormed P m) (hw' : ∀ m ∈ ms', WellFormed P m) (h : List.Forall₂ (Agree s) ms ms')
    (halike : P.width = .eight → ∀ n m, ms[n]? = some m → m.msgSessionId = s →
      Alike P (held P (ms.take n)) (held P (ms'.take n)) m) : shown P s ms = shown P s ms' := by
  have hall : ∀ n m, ms[n]? = some m → m.msgSessionId = s → Alike P (held P (ms.take n)) (held P (ms'.take n)) m := by
    cases hwidth : P.width with
    | four => exact fun n m hm _ => four_alike hwidth hw hw' hm
    | eight => exact halike hwidth
  have hprefix := (shown_private hw hw' h).mpr hall ms.length
  rwa [List.take_length, h.length_eq, List.take_length] at hprefix

theorem shown_private_iff (hw : ∀ m ∈ ms, WellFormed P m) (hw' : ∀ m ∈ ms', WellFormed P m)
    (h : List.Forall₂ (Agree s) ms ms') :
    ((∀ n, shown P s (ms.take n) = shown P s (ms'.take n)) ↔
      ∀ n m, ms[n]? = some m → m.msgSessionId = s → Alike P (held P (ms.take n)) (held P (ms'.take n)) m) ∧
    (P.width = .four → ∀ n, shown P s (ms.take n) = shown P s (ms'.take n)) := by
  have hiff := shown_private hw hw' h
  exact ⟨hiff, fun h4 => hiff.mpr fun n m hm _ => four_alike h4 hw hw' hm⟩

theorem withText_wellFormed {h : Header} (hsession : 0 < h.msgSessionId) (hfit : Header.Fits P h)
    (hst : h.msgState ≠ stTerm) {l : List UInt8} (hl : Plain 0 l) (b : Buffer maxSize) :
    WellFormed P (Msgbuff.withText ⟨h, b⟩ l) := by
  refine ⟨hsession, hfit, ?_, hst⟩
  rw [Msgbuff.withText, terminated_iff, hl.strlen]
  exact hl.2.1.trans_lt (by decide)

def foreignMessage (c : UInt8) : Msgbuff :=
  Msgbuff.withText ⟨⟨2, 1, stInit, evSendToCore⟩, CStrings.zeroed maxSize⟩ (List.replicate 30 c)

def shortRequest (event : ℤ) : Msgbuff :=
  Msgbuff.withText ⟨⟨1, msgTypeGlowLed, stInit, event⟩, CStrings.zeroed maxSize⟩ (literal "Glow please")

theorem messages_wellFormed {c : UInt8} (hc : c ≠ 0) {event : ℤ} (he : Fits 8 event) :
    ∀ m ∈ [foreignMessage c, shortRequest event], WellFormed amd64 m := by
  simp only [List.mem_cons, List.not_mem_nil, or_false]
  rintro m (rfl | rfl)
  · apply withText_wellFormed (by decide) ⟨by decide, by decide, by decide, by decide⟩ (by decide)
    exact ⟨by simp, by simp, by simpa using hc.symm⟩
  · have hpos : (0 : ℤ) < 1 := by decide
    have hone : Fits 8 1 ∧ Fits 8 msgTypeGlowLed ∧ Fits 8 stInit := by decide
    have hinit : stInit ≠ stTerm := by decide
    refine withText_wellFormed hpos ?_ hinit (by decide +kernel) _
    exact ⟨hone.1, hone.2.1, hone.2.2, he⟩

theorem messages_agree (c c' : UInt8) (event : ℤ) :
    List.Forall₂ (Agree 1) [foreignMessage c, shortRequest event] [foreignMessage c', shortRequest event] :=
  .cons ⟨rfl, nofun⟩ (.cons ⟨rfl, fun _ => rfl⟩ .nil)

theorem devAck_private :
    shown amd64 1 [foreignMessage 65, shortRequest evSendToCoreDevAck] =
      shown amd64 1 [foreignMessage 66, shortRequest evSendToCoreDevAck] := by
  refine (shown_private_iff (messages_wellFormed (by decide) (by decide)) (messages_wellFormed (by decide) (by decide))
    (messages_agree 65 66 evSendToCoreDevAck)).1.mpr ?_ 2
  have hchosen : ∀ c : UInt8, c = 65 ∨ c = 66 →
      chosen amd64 (held amd64 [foreignMessage c])
        (shortRequest evSendToCoreDevAck) = some ⟨stInit, evSendToCoreDevAck, .initLed⟩ := by
    rintro c (rfl | rfl) <;> decide +kernel
  intro n m hm hs
  match n with
  | 0 =>
    obtain rfl : foreignMessage 65 = m := by simpa using hm
    exact absurd hs (by decide)
  | 1 =>
    obtain rfl : shortRequest evSendToCoreDevAck = m := by simpa using hm
    refine ⟨(hchosen 65 (.inl rfl)).trans (hchosen 66 (.inr rfl)).symm, fun _ t ht he => ?_⟩
    obtain rfl : _ = t := Option.some.inj ((hchosen 65 (.inl rfl)).symm.trans ht)
    exact absurd he (by decide)
  | n + 2 => simp at hm

theorem shortRequest_leaks : ¬ ∀ (P : Platform) (s : ℤ) (ms ms' : List Msgbuff), (∀ m ∈ ms, WellFormed P m) →
    (∀ m ∈ ms', WellFormed P m) → List.Forall₂ (Agree s) ms ms' → shown P s ms = shown P s ms' := by
  intro hall
  have h := hall amd64 1 [foreignMessage 65, shortRequest evSendToCoreNoAck]
    [foreignMessage 66, shortRequest evSendToCoreNoAck] (messages_wellFormed (by decide) (by decide))
    (messages_wellFormed (by decide) (by decide)) (messages_agree _ _ _)
  exact absurd h (by decide +kernel)

end NutrinoStack.CoreFsm

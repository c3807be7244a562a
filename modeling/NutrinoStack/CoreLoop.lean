import NutrinoStack.CoreFsm

namespace NutrinoStack.CoreFsm

def respond (m : Msgbuff) : Turn :=
  if m.msgType = msgTypeGlowLed then
    match rowFor m.msgState m.msgEvent with
    | some t => ⟨some t.fn, (t.fn.run m).sends⟩
    | none => ⟨none, []⟩
  else ⟨none, []⟩

def Ends (m : Msgbuff) : Prop := m.msgType = msgTypeGlowLed ∧ m.msgState = stTerm

instance (m : Msgbuff) : Decidable (Ends m) := inferInstanceAs (Decidable (_ ∧ _))

structure Idle (g : Globals) : Prop where
  messageType : g.messageType = msgTypeGlowLed
  running : g.state ≠ stTerm
  unmatched : rowFor g.state g.event = none

theorem run_result (f : Handler) (m : Msgbuff) : (f.run m).result = 0 := by
  cases f
  · simp only [Handler.run, initLed]
    split_ifs <;> rfl
  · rfl

theorem mem_trans {t : Transition} (h : t ∈ trans) :
    t = ⟨stInit, evSendToCoreNoAck, .initLed⟩ ∨ t = ⟨stInit, evSendToCore, .initLed⟩ ∨
      t = ⟨stInit, evSendToCoreDevAck, .initLed⟩ ∨ t = ⟨stSendToDevice, evSendToDeviceNoAck, .sendAck⟩ ∨
      t = ⟨stSendToDevice, evSendToDevice, .sendAck⟩ := by
  simpa only [trans, List.mem_cons, List.not_mem_nil, or_false] using h

theorem rowFor_eq_some {state event : ℤ} {t : Transition} :
    rowFor state event = some t ↔ (state = t.st ∧ event = t.ev) ∧
      ∃ before after, trans = before ++ t :: after ∧ ∀ row ∈ before, ¬ (state = row.st ∧ event = row.ev) := by
  simp only [rowFor, List.find?_eq_some_iff_append, decide_eq_true_eq, Bool.not_eq_true', decide_eq_false_iff_not]

theorem rowFor_eq_none {state event : ℤ} :
    rowFor state event = none ↔ ∀ row ∈ trans, ¬ (state = row.st ∧ event = row.ev) := by
  simp only [rowFor, List.find?_eq_none, decide_eq_true_eq]

theorem rowFor_mem {state event : ℤ} {t : Transition} (h : rowFor state event = some t) :
    t ∈ trans ∧ state = t.st ∧ event = t.ev := by
  obtain ⟨hmatch, before, after, htrans, -⟩ := rowFor_eq_some.mp h
  exact ⟨htrans ▸ List.mem_append_right before List.mem_cons_self, hmatch⟩

theorem rowFor_state {state event : ℤ} {t : Transition} (h : rowFor state event = some t) :
    state = stInit ∨ state = stSendToDevice := by
  obtain ⟨hm, hst, -⟩ := rowFor_mem h
  rcases mem_trans hm with rfl | rfl | rfl | rfl | rfl <;> simp [hst]

theorem rowFor_zero (event : ℤ) : rowFor 0 event = none := by
  cases h : rowFor 0 event with
  | none => rfl
  | some t => rcases rowFor_state h with h | h <;> simp at h

theorem rowFor_stTerm (event : ℤ) : rowFor stTerm event = none := by
  cases h : rowFor stTerm event with
  | none => rfl
  | some t => rcases rowFor_state h with h | h <;> simp at h

theorem respond_first (m : Msgbuff) :
    ((m.msgType = msgTypeGlowLed → ∀ row ∈ trans, ¬ (m.msgState = row.st ∧ m.msgEvent = row.ev)) ∧
      respond m = ⟨none, []⟩) ∨
    ∃ before t after, trans = before ++ t :: after ∧
      (∀ row ∈ before, ¬ (m.msgState = row.st ∧ m.msgEvent = row.ev)) ∧
      m.msgType = msgTypeGlowLed ∧ m.msgState = t.st ∧ m.msgEvent = t.ev ∧
      respond m = ⟨some t.fn, (t.fn.run m).sends⟩ := by
  by_cases ht : m.msgType = msgTypeGlowLed
  · cases hrow : rowFor m.msgState m.msgEvent with
    | none => exact .inl ⟨fun _ => rowFor_eq_none.mp hrow, by simp [respond, hrow]⟩
    | some t =>
      obtain ⟨⟨hst, hev⟩, before, after, htrans, hfirst⟩ := rowFor_eq_some.mp hrow
      exact .inr ⟨before, t, after, htrans, hfirst, ht, hst, hev, by simp [respond, ht, hrow]⟩
  · exact .inl ⟨fun h => absurd h ht, if_neg ht⟩

theorem respond_cases (m : Msgbuff) :
    respond m = ⟨none, []⟩ ∨
    (m.msgType = msgTypeGlowLed ∧
      (m.msgEvent = evSendToCoreNoAck ∨ m.msgEvent = evSendToCore ∨ m.msgEvent = evSendToCoreDevAck) ∧
      respond m = ⟨some .initLed, (initLed m).sends⟩) ∨
    (m.msgType = msgTypeGlowLed ∧ respond m = ⟨some .sendAck, (sendAck m).sends⟩) := by
  rcases respond_first m with ⟨-, h⟩ | ⟨before, t, after, htrans, -, ht, -, hev, h⟩
  · exact .inl h
  · right
    have hmem : t ∈ trans := htrans ▸ List.mem_append_right before List.mem_cons_self
    rcases mem_trans hmem with rfl | rfl | rfl | rfl | rfl
    · exact .inl ⟨ht, .inl hev, h⟩
    · exact .inl ⟨ht, .inr (.inl hev), h⟩
    · exact .inl ⟨ht, .inr (.inr hev), h⟩
    · exact .inr ⟨ht, h⟩
    · exact .inr ⟨ht, h⟩

theorem rowFor_command : rowFor stSendToDevice evSendToDevice = some ⟨stSendToDevice, evSendToDevice, .sendAck⟩ := by
  decide

theorem respond_command {m : Msgbuff} (ht : m.msgType = msgTypeGlowLed) (hs : m.msgState = stSendToDevice)
    (he : m.msgEvent = evSendToDevice) : respond m = ⟨some .sendAck, (sendAck m).sends⟩ := by
  simp only [respond, ht, hs, he, rowFor_command, if_true, Handler.run]

theorem initial_idle : Idle Globals.initial := ⟨rfl, by decide, by decide⟩

theorem receive_msg (g : Globals) (m : Msgbuff) : (getMessageStateEvent g m).msg = m := by
  unfold getMessageStateEvent
  split_ifs <;> rfl

theorem receive_messageType (g : Globals) (m : Msgbuff) :
    (getMessageStateEvent g m).messageType = g.messageType := by
  unfold getMessageStateEvent
  split_ifs <;> rfl

theorem receive_glowLed (g : Globals) {m : Msgbuff} (h : m.msgType = msgTypeGlowLed) :
    (getMessageStateEvent g m).state = m.msgState ∧ (getMessageStateEvent g m).event = m.msgEvent := by
  simp [getMessageStateEvent, h]

theorem receive_foreign (g : Globals) {m : Msgbuff} (h : m.msgType ≠ msgTypeGlowLed) :
    (getMessageStateEvent g m).state = g.state ∧ (getMessageStateEvent g m).event = g.event := by
  simp [getMessageStateEvent, h]

theorem iteration_some {g : Globals} {m : Msgbuff} {t : Transition}
    (h : dispatch (getMessageStateEvent g m) = some t) :
    iteration g m = (⟨some t.fn, (t.fn.run m).sends⟩, { getMessageStateEvent g m with state := 0 }) := by
  simp only [iteration, h, receive_msg, run_result]

theorem iteration_none {g : Globals} {m : Msgbuff} (h : dispatch (getMessageStateEvent g m) = none) :
    iteration g m = (⟨none, []⟩, getMessageStateEvent g m) := by
  simp only [iteration, h]

theorem iteration_msg (g : Globals) (m : Msgbuff) : (iteration g m).2.msg = m := by
  simp only [iteration]
  split <;> exact receive_msg g m

theorem iteration_messageType (g : Globals) (m : Msgbuff) : (iteration g m).2.messageType = g.messageType := by
  simp only [iteration]
  split <;> exact receive_messageType g m

theorem iteration_respond {g : Globals} (hg : Idle g) (m : Msgbuff) :
    (iteration g m).1 = respond m ∧ (Ends m → (iteration g m).2.state = stTerm) ∧
      (¬ Ends m → Idle (iteration g m).2) := by
  have hmt := (receive_messageType g m).trans hg.messageType
  by_cases ht : m.msgType = msgTypeGlowLed
  · obtain ⟨hst, hev⟩ := receive_glowLed g ht
    have hd : dispatch (getMessageStateEvent g m) = rowFor m.msgState m.msgEvent := by
      rw [dispatch, if_pos hmt, hst, hev]
    cases hr : rowFor m.msgState m.msgEvent with
    | some t =>
      have hne : ¬ Ends m := fun he => by
        rw [he.2, rowFor_stTerm] at hr
        simp at hr
      rw [iteration_some (hd.trans hr)]
      -- every transition function returns 0, a state of no row
      exact ⟨by simp [respond, ht, hr], fun he => (hne he).elim, fun _ => ⟨hmt, by simp, rowFor_zero _⟩⟩
    | none =>
      rw [iteration_none (hd.trans hr)]
      exact ⟨by simp [respond, ht, hr], fun he => hst.trans he.2,
        fun he => ⟨hmt, fun h => he ⟨ht, hst ▸ h⟩, by rw [hst, hev, hr]⟩⟩
  · -- a foreign message leaves `state` and `event` as they were, and they match no row
    obtain ⟨hst, hev⟩ := receive_foreign g ht
    have hd : dispatch (getMessageStateEvent g m) = none := by
      rw [dispatch, if_pos hmt, hst, hev, hg.unmatched]
    rw [iteration_none hd]
    exact ⟨by simp [respond, ht], fun he => (ht he.1).elim,
      fun _ => ⟨hmt, hst ▸ hg.running, by rw [hst, hev, hg.unmatched]⟩⟩

def untilEnd (ms : List Msgbuff) : List Msgbuff :=
  ms.takeWhile (¬ Ends ·) ++ (ms.dropWhile (¬ Ends ·)).take 1

def afterEnd (ms : List Msgbuff) : List Msgbuff := (ms.dropWhile (¬ Ends ·)).drop 1

theorem loop_ended {g : Globals} (h : g.state = stTerm) (ms : List Msgbuff) : loop g ms = ⟨[], ms, g⟩ := by
  cases ms <;> simp [loop, h]

theorem loop_respond {g : Globals} (hg : Idle g) (ms : List Msgbuff) :
    (loop g ms).turns = (untilEnd ms).map respond ∧ (loop g ms).unread = afterEnd ms ∧
      ((loop g ms).globals.state = stTerm ↔ ∃ m ∈ ms, Ends m) := by
  induction ms generalizing g with
  | nil => simp [loop, untilEnd, afterEnd, hg.running]
  | cons m ms ih =>
    obtain ⟨hturn, hend, hidle⟩ := iteration_respond hg m
    by_cases he : Ends m
    · simp [loop, hg.running, hturn, loop_ended (hend he), untilEnd, afterEnd, he, hend he]
    · obtain ⟨h1, h2, h3⟩ := ih (hidle he)
      simp only [untilEnd, afterEnd] at h1 h2
      simp [loop, hg.running, hturn, h1, h2, h3, untilEnd, afterEnd, he]

def LoopRun.sends (r : LoopRun) : List Send := r.turns.flatMap Turn.sends

theorem main_memoryless (received : List Msgbuff) :
    (main received).turns = (untilEnd received).map respond ∧
      (main received).sends = (untilEnd received).flatMap (fun m => (respond m).sends) ∧
      (main received).unread = afterEnd received ∧
      ((main received).globals.state = stTerm ↔ ∃ m ∈ received, Ends m) := by
  obtain ⟨h1, h2, h3⟩ := loop_respond initial_idle received
  exact ⟨h1, by rw [LoopRun.sends, main, h1, List.flatMap_map], h2, h3⟩

end NutrinoStack.CoreFsm

import NutrinoStack.UtilityHandler

namespace NutrinoStack.UtilityHandler

open CStrings Loops Runs

structure Inert (p : Iteration) : Prop where
  fn : p.turn.fn = none
  sends : p.turn.sends = []
  state : p.after.state = p.before.state
  event : p.after.event = p.before.event

def selected (m : Msgbuff) : Option Transition := rowFor (toInt m.msgState) (toInt m.msgEvent)

def lastOwn (tr : List Iteration) : Option Msgbuff :=
  ((tr.map (·.input.msg)).filter (·.msgType = 1)).getLast?

def Resting (g : Globals) : Prop := ∃ f : Handler, g = ⟨f.resting, evReadFromDevice⟩

inductive Stale (tr : List Iteration) (g : Globals) : Prop
  | fresh (hl : lastOwn tr = none) (hg : g = Globals.initial)
  | unmatched (m : Msgbuff) (hl : lastOwn tr = some m) (hm : selected m = none)
      (hg : g = ⟨toInt m.msgState, toInt m.msgEvent⟩)
  | matched (m : Msgbuff) (hl : lastOwn tr = some m) (hm : selected m ≠ none) (hg : Resting g)

variable {readings : List Reading} {tr pre post : List Iteration} {p : Iteration} {g : Globals} {x : Reading}

theorem lastOwn_own (tr : List Iteration) (h : p.input.msg.msgType = 1) : lastOwn (tr ++ [p]) = some p.input.msg := by
  simp [lastOwn, h]

theorem lastOwn_foreign (tr : List Iteration) (h : p.input.msg.msgType ≠ 1) : lastOwn (tr ++ [p]) = lastOwn tr := by
  simp [lastOwn, h]

theorem resting_row (hg : Resting g) : ∃ t ∈ trans, g = ⟨t.st, evReadFromDevice⟩ := by
  obtain ⟨f, rfl⟩ := hg
  cases f with
  | endComm => exact ⟨⟨stEnd, evReadFromDevice, .endComm⟩, by decide, rfl⟩
  | _ => exact ⟨⟨stInit, evReadFromDevice, .gotKey⟩, by decide, rfl⟩

theorem foreign_resting (hg : Resting g) (hx : x.msg.msgType ≠ 1) :
    (iteration g x).1.fn ≠ none ∧ Resting (iteration g x).2 := by
  obtain ⟨t, ht, rfl⟩ := resting_row hg
  rw [iteration_some ht (receive_foreign _ hx)]
  exact ⟨by simp, t.fn, rfl⟩

theorem foreign_unmatched (hg : rowFor g.state g.event = none) (hx : x.msg.msgType ≠ 1) :
    iteration g x = (⟨none, []⟩, g) := by
  have hrec := receive_foreign g hx
  rw [iteration_none (by rw [hrec]; exact hg), hrec]

theorem own_stale (tr : List Iteration) (g : Globals) (hx : x.msg.msgType = 1) :
    Stale (tr ++ [mainLoop.pass g x]) (iteration g x).2 := by
  have hown := lastOwn_own (p := mainLoop.pass g x) tr hx
  have hrec := receive_own g hx
  rcases iteration_cases g x with ⟨t, ht, hg, hit⟩ | ⟨hnone, hit⟩
  · apply Stale.matched _ hown
    · rw [hrec, Globals.mk.injEq] at hg
      have hrow : selected x.msg = some t := rowFor_eq_some.mpr ⟨ht, hg.1, hg.2⟩
      simp [Loop.pass, hrow]
    · rw [hit]
      exact ⟨t.fn, rfl⟩
  · rw [hrec] at hnone
    apply Stale.unmatched _ hown hnone
    rw [hit, hrec]
    rfl

theorem foreign_stale (h : Stale tr g) (hx : x.msg.msgType ≠ 1) :
    Stale (tr ++ [mainLoop.pass g x]) (iteration g x).2 := by
  have hown := lastOwn_foreign (p := mainLoop.pass g x) tr hx
  cases h with
  | fresh hl hg =>
    apply Stale.fresh (hown.trans hl)
    rw [foreign_unmatched (by rw [hg]; decide) hx, hg]
  | unmatched m hl hm hg =>
    apply Stale.unmatched m (hown.trans hl) hm
    rw [foreign_unmatched (by rw [hg]; exact hm) hx, hg]
  | matched m hl hm hg => exact .matched m (hown.trans hl) hm (foreign_resting hg hx).2

theorem main_stale (h : Run mainLoop.step Globals.initial tr g) : Stale tr g := by
  apply h.invariant (I := Stale)
  · exact .fresh rfl rfl
  · intro tr g x p u _ ih hs
    obtain ⟨-, rfl, rfl⟩ := step_pass hs
    by_cases hx : x.msg.msgType = 1
    · exact own_stale tr g hx
    · exact foreign_stale ih hx

theorem stale_unmatched (h : Stale tr g) (hs : ∀ m, lastOwn tr = some m → selected m = none) :
    rowFor g.state g.event = none := by
  cases h with
  | fresh hl hg =>
    rw [hg]
    decide
  | unmatched m hl hm hg =>
    rw [hg]
    exact hm
  | matched m hl hm hg => exact (hm (hs m hl)).elim

theorem foreign_inert_iff (h : main readings = pre ++ p :: post) (hp : p.input.msg.msgType ≠ 1) :
    Inert p ↔ ∀ m, lastOwn pre = some m → selected m = none := by
  obtain ⟨hrun, -, hpass⟩ := passes_split h
  have hstale := main_stale hrun
  constructor
  · intro hi
    cases hstale with
    | fresh hl => simp [hl]
    | unmatched m hl hm => simpa [hl] using hm
    | matched m hl hm hg =>
      have hfn := (foreign_resting hg hp).1
      rw [hpass] at hi
      exact (hfn hi.fn).elim
  · intro hl
    have hit := foreign_unmatched (stale_unmatched hstale hl) hp
    rw [hpass]
    constructor <;> simp only [Loop.pass, mainLoop, hit]

def deviceMessage (st : ℤ) : Msgbuff := ⟨⟨1, 1, st, evReadFromDevice⟩, zeroed maxSize⟩

def foreignMessage : Msgbuff := ⟨⟨1, 2, stInit, 0⟩, zeroed maxSize⟩

def faithful (m : Msgbuff) : Reading := ⟨m, m⟩

theorem unmatched_inert : ∃ pre p, main [faithful (deviceMessage 7), faithful foreignMessage] = pre ++ p :: [] ∧
    p.input.msg.msgType ≠ 1 ∧ lastOwn pre = some (deviceMessage 7) ∧ Inert p := by
  have hsplit : main [faithful (deviceMessage 7), faithful foreignMessage] = [_] ++ _ :: [] := rfl
  refine ⟨_, _, hsplit, by decide, rfl, (foreign_inert_iff hsplit (by decide)).mpr fun m hm => ?_⟩
  obtain rfl : deviceMessage 7 = m := Option.some_inj.mp hm
  decide

theorem gotKey_repeats : ¬ ∀ readings pre p post, main readings = pre ++ p :: post → p.input.msg.msgType ≠ 1 →
    Inert p := by
  intro hall
  have h := (hall [faithful (deviceMessage stInit), faithful foreignMessage] [_] _ [] rfl (by decide)).fn
  exact absurd h (by decide)

theorem toInt_row {t : Transition} (ht : t ∈ trans) : toInt t.st = t.st := by
  rcases mem_trans ht with rfl | rfl | rfl | rfl | rfl <;> decide

/-- The row of `trans` that is to answer a message: the one of its state, else the `ST_ANY` row. -/
def answering (st : ℤ) : Handler :=
  match trans.find? fun t => t.st = st with
  | some t => t.fn
  | none => .fsmError

structure Carries (m m' : Msgbuff) : Prop where
  session : m'.msgSessionId = m.msgSessionId
  type : m'.msgType = m.msgType
  text : text m'.msgText = text m.msgText

structure Answered (p : Iteration) : Prop where
  fn : p.turn.fn = some (answering p.input.msg.msgState)
  reply : ∃ sent, p.turn.sends = [⟨queueWriteToApplication, sent⟩] ∧
    sent.msgState = (answering p.input.msg.msgState).announced ∧ sent.msgEvent = evReadFromDevice ∧
    Carries p.input.msg sent

theorem answering_row {t : Transition} (ht : t ∈ trans) : answering t.st = t.fn := by
  rcases mem_trans ht with rfl | rfl | rfl | rfl | rfl <;> decide

theorem answering_unknown {st : ℤ} (h : ∀ t ∈ trans, t.st ≠ st) : answering st = .fsmError := by
  have hf : trans.find? (fun t => t.st = st) = none := by simpa using h
  simp only [answering, hf]

theorem row_fsmError {t : Transition} (ht : t ∈ trans) : t.fn = .fsmError ↔ t.st = stAny := by
  rcases mem_trans ht with rfl | rfl | rfl | rfl | rfl <;> decide

theorem answering_iff {t : Transition} (ht : t ∈ trans) {st : ℤ} (hs : toInt st = t.st) :
    t.fn = answering st ↔ (∃ t' ∈ trans, t'.st = st) ∨ toInt st = stAny := by
  by_cases hrow : ∃ t' ∈ trans, t'.st = st
  · obtain ⟨t', ht', rfl⟩ := hrow
    have he : t'.st = t.st := (toInt_row ht').symm.trans hs
    rw [he, answering_row ht]
    exact ⟨fun _ => .inl ⟨t, ht, rfl⟩, fun _ => rfl⟩
  · have hne : ∀ t ∈ trans, t.st ≠ st := by simpa using hrow
    rw [answering_unknown hne, row_fsmError ht, hs]
    exact ⟨.inr, fun h => h.resolve_left hrow⟩

theorem answered_run {t : Transition} (h : p.turn = ⟨some t.fn, [announce t.fn.announced p.input.result]⟩) :
    Answered p ↔ Carries p.input.msg p.input.result ∧ t.fn = answering p.input.msg.msgState := by
  constructor
  · rintro ⟨hfn, sent, hsent, -, -, hs, hty, htx⟩
    rw [h] at hfn hsent
    simp only [announce, List.cons.injEq, Send.mk.injEq, true_and, and_true] at hsent
    subst hsent
    exact ⟨⟨hs, hty, htx⟩, Option.some_inj.mp hfn⟩
  · rintro ⟨⟨hs, hty, htx⟩, hfn⟩
    refine ⟨by rw [h, hfn], (announce t.fn.announced p.input.result).msg, by rw [h]; rfl, ?_, rfl, ⟨hs, hty, htx⟩⟩
    rw [← hfn]
    rfl

theorem answered_iff (h : main readings = pre ++ p :: post) (ht : p.input.msg.msgType = 1)
    (he : p.input.msg.msgEvent = evReadFromDevice) :
    Answered p ↔ Carries p.input.msg p.input.result ∧
      ((∃ t ∈ trans, t.st = p.input.msg.msgState) ∨ toInt p.input.msg.msgState = stAny) := by
  obtain ⟨-, -, hpass⟩ := passes_split h
  have hturn : p.turn = (iteration p.before p.input).1 := by rw [hpass]; rfl
  have hrec := receive_own p.before ht
  have hev : toInt evReadFromDevice = evReadFromDevice := by decide
  rw [he, hev] at hrec
  rcases iteration_cases p.before p.input with ⟨t, htr, hg, hit⟩ | ⟨hnone, hit⟩
  · rw [hrec, Globals.mk.injEq] at hg
    rw [hit] at hturn
    rw [answered_run hturn, answering_iff htr hg.1]
  · -- neither the state as it is nor the `int` it becomes is in the table
    have hrow : ∀ t ∈ trans, toInt p.input.msg.msgState ≠ t.st := by
      intro t htr hst
      rw [hrec, rowFor_eq_some.mpr ⟨htr, hst, rfl⟩] at hnone
      simp at hnone
    constructor
    · intro ha
      have hfn := ha.fn
      rw [hturn, hit] at hfn
      simp at hfn
    · rintro ⟨-, ⟨t, htr, hst⟩ | hany⟩
      · exact (hrow t htr (by rw [← hst, toInt_row htr])).elim
      · exact (hrow ⟨stAny, evReadFromDevice, .fsmError⟩ (by decide) hany).elim

theorem auth_answered : ∃ p, main [faithful (deviceMessage stAuth)] = [] ++ p :: [] ∧ p.input.msg.msgType = 1 ∧
    p.input.msg.msgEvent = evReadFromDevice ∧ Answered p := by
  have hsplit : main [faithful (deviceMessage stAuth)] = [] ++ _ :: [] := rfl
  exact ⟨_, hsplit, rfl, rfl, (answered_iff hsplit rfl rfl).mpr ⟨⟨rfl, rfl, rfl⟩, .inl (by decide)⟩⟩

theorem unknownState_unanswered : ¬ ∀ readings pre p post, main readings = pre ++ p :: post →
    p.input.msg.msgType = 1 → p.input.msg.msgEvent = evReadFromDevice → p.input.msg.msgState ≠ stTerm →
      Answered p := by
  intro hall
  have h := (hall [faithful (deviceMessage 7)] [] _ [] rfl rfl rfl (by decide)).fn
  exact absurd h (by decide)

end NutrinoStack.UtilityHandler

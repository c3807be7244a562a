import NutrinoStack.CoreLoop
import NutrinoStack.Loops

namespace NutrinoStack.CoreFsm

open Loops Runs

/-- The loop of `main` on the results of `message_queue_read`: a message, or -1 with the buffer untouched. -/
def attempts : Loop Globals (Option Msgbuff) Turn where
  running g := g.state ≠ stTerm
  body g r := iteration g (r.getD g.msg)

abbrev Attempt := Pass Globals (Option Msgbuff) Turn

def mainAttempts (reads : List (Option Msgbuff)) : List Attempt := attempts.passes Globals.initial reads

structure Inert (x : Attempt) : Prop where
  fn : x.turn.fn = none
  sends : x.turn.sends = []
  state : x.after.state = x.before.state
  event : x.after.event = x.before.event

def taken (tr : List Attempt) : ℕ := tr.countP (·.input.isSome)

def handlerRuns (tr : List Attempt) : ℕ := tr.countP (·.turn.fn.isSome)

def handledFrom (k : ℕ) : List Attempt → List ℕ
  | [] => []
  | x :: tr =>
    let k := if x.input.isSome then k + 1 else k
    if x.turn.fn.isSome then k :: handledFrom k tr else handledFrom k tr

structure FailuresHarmless (tr : List Attempt) : Prop where
  inert : ∀ x ∈ tr, x.input = none → Inert x
  bounded : handlerRuns tr ≤ taken tr
  once : (handledFrom 0 tr).Nodup

def Fires (m : Msgbuff) : Prop := m.msgType = msgTypeGlowLed ∧ (rowFor m.msgState m.msgEvent).isSome

instance (m : Msgbuff) : Decidable (Fires m) := inferInstanceAs (Decidable (_ ∧ _))

def lastRead (tr : List Attempt) : Option Msgbuff := (tr.filterMap Pass.input).getLast?

def Settled (tr : List Attempt) : Prop := tr ≠ [] ∧ ∀ m, lastRead tr = some m → ¬ Fires m

theorem attempts_loop (g : Globals) (ms : List Msgbuff) :
    (attempts.passes g (ms.map some)).map Pass.turn = (loop g ms).turns := by
  induction ms generalizing g with
  | nil => rfl
  | cons m ms ih =>
    by_cases hst : g.state = stTerm
    · rw [passes_ended (by simp [attempts, hst]), loop_ended hst]
      rfl
    · rw [List.map_cons, passes_running (by simp [attempts, hst]), List.map_cons, loop, if_neg hst]
      exact congrArg _ (ih _)

theorem respond_fn_none {m : Msgbuff} : (respond m).fn = none ↔ ¬ Fires m := by
  unfold respond Fires
  split_ifs with ht
  · cases rowFor m.msgState m.msgEvent <;> simp [ht]
  · simp [ht]

theorem respond_silent {m : Msgbuff} (h : ¬ Fires m) : respond m = ⟨none, []⟩ := by
  unfold respond Fires at *
  split_ifs with ht
  · cases hr : rowFor m.msgState m.msgEvent <;> simp_all
  · rfl

variable {tr pre post : List Attempt} {x : Attempt} {g : Globals}

theorem lastRead_snoc (tr : List Attempt) (x : Attempt) :
    lastRead (tr ++ [x]) = if x.input.isSome then x.input else lastRead tr := by
  cases h : x.input <;> simp [lastRead, h]

structure Reread (tr : List Attempt) (g : Globals) : Prop where
  idle : g.state ≠ stTerm → Idle g
  buffer : g.msg = (lastRead tr).getD .zeroed
  stale : tr ≠ [] → g.msg.msgType = msgTypeGlowLed → ¬ Fires g.msg → g.state = g.msg.msgState ∧ g.event = g.msg.msgEvent

theorem iteration_glowLed {g : Globals} (hg : Idle g) {m : Msgbuff} (ht : m.msgType = msgTypeGlowLed) (hf : ¬ Fires m) :
    (iteration g m).2.state = m.msgState ∧ (iteration g m).2.event = m.msgEvent := by
  have hrow : rowFor m.msgState m.msgEvent = none := by
    simpa [Fires, ht] using hf
  have hd : dispatch (getMessageStateEvent g m) = none := by
    rw [dispatch, if_pos ((receive_messageType g m).trans hg.messageType), (receive_glowLed g ht).1,
      (receive_glowLed g ht).2, hrow]
  rw [iteration_none hd]
  exact receive_glowLed g ht

theorem iteration_foreign {g : Globals} (hg : Idle g) {m : Msgbuff} (ht : m.msgType ≠ msgTypeGlowLed) :
    (iteration g m).2.state = g.state ∧ (iteration g m).2.event = g.event := by
  obtain ⟨hst, hev⟩ := receive_foreign g ht
  have hd : dispatch (getMessageStateEvent g m) = none := by
    rw [dispatch, hst, hev, hg.unmatched, ite_self]
  rw [iteration_none hd]
  exact receive_foreign g ht

theorem attempts_reread (h : Run attempts.step Globals.initial tr g) : Reread tr g := by
  apply h.invariant (I := Reread)
  · exact ⟨fun _ => initial_idle, rfl, by simp⟩
  · intro tr g r x u _ ih hs
    obtain ⟨hr, rfl, rfl⟩ := step_pass hs
    have hidle := ih.idle (by simpa [attempts] using hr)
    obtain ⟨-, hend, hnext⟩ := iteration_respond hidle (r.getD g.msg)
    have hmsg : (iteration g (r.getD g.msg)).2.msg = r.getD g.msg := iteration_msg g _
    refine ⟨fun hst => hnext fun he => hst (hend he), ?_, fun _ ht hf => ?_⟩
    · rw [lastRead_snoc]
      cases r with
      | none => exact hmsg.trans ih.buffer
      | some m => exact hmsg
    · simp only [Loop.pass, attempts, hmsg] at ht hf ⊢
      exact iteration_glowLed hidle ht hf

theorem zeroed_silent : ¬ Fires .zeroed := by
  rw [Fires, Msgbuff.zeroed, rowFor_zero]
  simp

theorem initial_failure (hx : x = attempts.pass Globals.initial none) : ¬ Inert x := by
  subst hx
  intro h
  have hst := (iteration_glowLed initial_idle rfl zeroed_silent).1
  exact absurd (hst.symm.trans h.state) (by decide)

theorem settled_iff (h : Reread pre g) (hne : pre ≠ []) : Settled pre ↔ ¬ Fires g.msg := by
  rw [h.buffer]
  cases hl : lastRead pre with
  | none => simpa [Settled, hl, hne] using zeroed_silent
  | some m => simp [Settled, hl, hne]

theorem failure_inert_iff (h : Run attempts.step Globals.initial pre x.before) (hr : attempts.running x.before)
    (hx : x = attempts.pass x.before none) : Inert x ↔ Settled pre := by
  by_cases hne : pre = []
  · rw [h.of_nil hne] at hx
    simp [initial_failure hx, Settled, hne]
  · have hre := attempts_reread h
    have hidle := hre.idle (by simpa [attempts] using hr)
    have hturn : x.turn = respond x.before.msg := by
      rw [hx]
      exact (iteration_respond hidle _).1
    rw [settled_iff hre hne, ← respond_fn_none, ← hturn]
    constructor
    · exact Inert.fn
    · intro hfn
      have hf : ¬ Fires x.before.msg := by rwa [← respond_fn_none, ← hturn]
      have hafter : x.after = (iteration x.before x.before.msg).2 := by
        rw [hx]
        rfl
      refine ⟨hfn, by rw [hturn, respond_silent hf], ?_, ?_⟩ <;> rw [hafter] <;>
        by_cases ht : x.before.msg.msgType = msgTypeGlowLed
      · exact (iteration_glowLed hidle ht hf).1.trans (hre.stale hne ht hf).1.symm
      · exact (iteration_foreign hidle ht).1
      · exact (iteration_glowLed hidle ht hf).2.trans (hre.stale hne ht hf).2.symm
      · exact (iteration_foreign hidle ht).2

theorem handledFrom_sorted (k : ℕ) (h : ∀ x ∈ tr, x.input = none → x.turn.fn = none) :
    (handledFrom k tr).Pairwise (· < ·) ∧ ∀ j ∈ handledFrom k tr, k < j := by
  induction tr generalizing k with
  | nil => simp [handledFrom]
  | cons x tr ih =>
    have hx := h x (by simp)
    have htail := fun k => ih k fun y hy => h y (by simp [hy])
    cases hi : x.input with
    | none => simpa [handledFrom, hi, hx hi] using htail k
    | some m =>
      obtain ⟨hp, hlt⟩ := htail (k + 1)
      have hlt' : ∀ j ∈ handledFrom (k + 1) tr, k < j := fun j hj => Nat.lt_of_succ_lt (hlt j hj)
      by_cases hf : x.turn.fn.isSome
      · simp only [handledFrom, hi, hf, Option.isSome_some, if_true, List.pairwise_cons, List.mem_cons]
        refine ⟨⟨hlt, hp⟩, ?_⟩
        rintro j (rfl | hj)
        · exact Nat.lt_succ_self k
        · exact hlt' j hj
      · simpa [handledFrom, hi, hf, hp] using hlt'

theorem harmless_of_inert (h : ∀ x ∈ tr, x.input = none → Inert x) : FailuresHarmless tr := by
  have hfn : ∀ x ∈ tr, x.input = none → x.turn.fn = none := fun x hx hn => (h x hx hn).fn
  refine ⟨h, ?_, ?_⟩
  · apply List.countP_mono_left
    intro x hx hrun
    rw [Option.isSome_iff_ne_none] at hrun ⊢
    exact fun hn => hrun (hfn x hx hn)
  · exact (handledFrom_sorted 0 hfn).1.imp ne_of_lt

theorem failed_reads_iff (reads : List (Option Msgbuff)) :
    FailuresHarmless (mainAttempts reads) ↔
      ∀ pre x post, mainAttempts reads = pre ++ x :: post → x.input = none → Settled pre := by
  have hpass : ∀ pre x post, mainAttempts reads = pre ++ x :: post → x.input = none →
      (Inert x ↔ Settled pre) := by
    intro pre x post hsplit hn
    obtain ⟨hrun, hr, hx⟩ := passes_split hsplit
    rw [hn] at hx
    exact failure_inert_iff hrun hr hx
  constructor
  · intro h pre x post hsplit hn
    exact (hpass pre x post hsplit hn).mp (h.inert x (by simp [hsplit]) hn)
  · intro h
    apply harmless_of_inert
    intro x hx hn
    obtain ⟨pre, post, hsplit⟩ := List.append_of_mem hx
    exact (hpass pre x post hsplit hn).mpr (h pre x post hsplit hn)

def deviceMessage : Msgbuff := ⟨⟨1, msgTypeGlowLed, stSendToDevice, evSendToDevice⟩, CStrings.zeroed maxSize⟩

theorem failed_read_repeats : ¬ ∀ reads, FailuresHarmless (mainAttempts reads) := by
  intro hall
  have h := (hall [some deviceMessage, none]).once
  exact absurd h (by decide)

end NutrinoStack.CoreFsm

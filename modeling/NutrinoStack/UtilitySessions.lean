import NutrinoStack.DirectMachine
import NutrinoStack.UtilityAnswers

namespace NutrinoStack.UtilityHandler

open Loops Runs

def ofSession (z : ℤ) (tr : List Iteration) : List Iteration := tr.filter (·.input.msg.msgSessionId = z)

def ran (z : ℤ) (tr : List Iteration) : List Handler := (ofSession z tr).filterMap (·.turn.fn)

def replies (z : ℤ) (tr : List Iteration) : List Msgbuff :=
  (ofSession z tr).flatMap fun p => p.turn.sends.map Send.msg

structure Due (z : ℤ) (pre : List Iteration) (m : Msgbuff) : Prop where
  first : ofSession z pre = [] → m.msgType = 1 ∧ m.msgState = stInit ∧ m.msgEvent = evReadFromDevice
  later : ∀ r, (replies z pre).getLast? = some r → m.msgState = r.msgState ∧ m.msgEvent = r.msgEvent

def Follows (z : ℤ) (tr : List Iteration) : Prop :=
  ∀ pre p post, tr = pre ++ p :: post → p.input.msg.msgSessionId = z → Due z pre p.input.msg

variable {z : ℤ} {readings : List Reading} {tr pre post : List Iteration} {p : Iteration} {g : Globals}

theorem Follows.of_append {tr' : List Iteration} (h : Follows z (tr ++ tr')) : Follows z tr := by
  intro pre p post htr
  apply h pre p (post ++ tr')
  simp [htr]

theorem Follows.due (h : Follows z (tr ++ [p])) (hz : p.input.msg.msgSessionId = z) : Due z tr p.input.msg :=
  h tr p [] rfl hz

theorem Follows.nil : Follows z [] := by
  intro pre p post htr
  simp at htr

theorem Follows.snoc (h : Follows z tr) (hp : p.input.msg.msgSessionId = z → Due z tr p.input.msg) :
    Follows z (tr ++ [p]) := by
  intro pre q post htr hz
  rcases List.eq_nil_or_concat post with rfl | ⟨post', q', rfl⟩
  · obtain ⟨rfl, hq⟩ := List.append_inj' htr rfl
    obtain rfl := List.singleton_inj.mp hq
    exact hp hz
  · rw [List.concat_eq_append, ← List.cons_append, ← List.append_assoc] at htr
    obtain ⟨rfl, -⟩ := List.append_inj' htr rfl
    exact h pre q post' rfl hz

theorem ofSession_snoc (hz : p.input.msg.msgSessionId = z) (tr : List Iteration) :
    ofSession z (tr ++ [p]) = ofSession z tr ++ [p] := by
  simp [ofSession, hz]

theorem ofSession_other (hz : p.input.msg.msgSessionId ≠ z) (tr : List Iteration) :
    ofSession z (tr ++ [p]) = ofSession z tr := by
  simp [ofSession, hz]

theorem ran_snoc (hz : p.input.msg.msgSessionId = z) (tr : List Iteration) :
    ran z (tr ++ [p]) = ran z tr ++ p.turn.fn.toList := by
  rw [ran, ofSession_snoc hz, List.filterMap_append, ran]
  cases h : p.turn.fn <;> simp [h]

theorem ran_other (hz : p.input.msg.msgSessionId ≠ z) (tr : List Iteration) : ran z (tr ++ [p]) = ran z tr := by
  rw [ran, ofSession_other hz, ran]

def Regular (p : Iteration) : Prop :=
  p.turn = ⟨none, []⟩ ∨ ∃ f : Handler, p.turn = ⟨some f, [announce f.announced p.input.result]⟩

theorem main_regular (h : Run mainLoop.step Globals.initial tr g) : ∀ p ∈ tr, Regular p := by
  apply h.events (P := Regular)
  intro _ _ x p _ _ hs
  obtain ⟨-, rfl, -⟩ := step_pass hs
  rcases iteration_cases _ x with ⟨t, -, -, hit⟩ | ⟨-, hit⟩
  · exact .inr ⟨t.fn, congrArg Prod.fst hit⟩
  · exact .inl (congrArg Prod.fst hit)

theorem flatMap_fn {β : Type*} {ps : List Iteration} {F : Iteration → List β} {G : Handler → β}
    (h : ∀ p ∈ ps, F p = p.turn.fn.toList.map G) : ps.flatMap F = (ps.filterMap (·.turn.fn)).map G := by
  induction ps with
  | nil => rfl
  | cons p ps ih =>
    rw [List.flatMap_cons, h p (by simp), ih fun q hq => h q (by simp [hq])]
    cases hf : p.turn.fn <;> simp [hf]

theorem replies_ran (h : ∀ p ∈ tr, Regular p) (z : ℤ) :
    (replies z tr).map (fun r => (r.msgState, r.msgEvent)) =
      (ran z tr).map fun f => (f.announced, evReadFromDevice) := by
  rw [replies, List.map_flatMap]
  apply flatMap_fn
  intro p hp
  rcases h p (List.mem_of_mem_filter hp) with ht | ⟨f, ht⟩ <;> rw [ht] <;> rfl

theorem Due.announced {m : Msgbuff} (h : Due z pre m) (hreg : ∀ q ∈ pre, Regular q) {f : Handler}
    (hf : (ran z pre).getLast? = some f) : m.msgState = f.announced ∧ m.msgEvent = evReadFromDevice := by
  have hlast := congrArg List.getLast? (replies_ran hreg z)
  rw [List.getLast?_map, List.getLast?_map, hf, Option.map_some, Option.map_eq_some_iff] at hlast
  obtain ⟨r, hr, he⟩ := hlast
  obtain ⟨hst, hev⟩ := Prod.mk.inj he
  have := h.later r hr
  exact ⟨this.1.trans hst, this.2.trans hev⟩

theorem resting_fn {f : Handler} {t : Transition} (ht : t ∈ trans) (h : f.resting = t.st) :
    t.fn = .gotKey ∨ t.fn = .endComm := by
  rcases mem_trans ht with rfl | rfl | rfl | rfl | rfl <;> revert h <;> cases f <;> decide

theorem fires_own {x : Reading} (h : Stale tr g) {t : Transition} (ht : t ∈ trans)
    (hg : getMessageStateEvent g x.msg = ⟨t.st, evReadFromDevice⟩) (h₁ : t.fn ≠ .gotKey) (h₂ : t.fn ≠ .endComm) :
    x.msg.msgType = 1 ∧ toInt x.msg.msgState = t.st ∧ toInt x.msg.msgEvent = evReadFromDevice := by
  by_cases hx : x.msg.msgType = 1
  · rw [receive_own g hx, Globals.mk.injEq] at hg
    exact ⟨hx, hg.1, hg.2⟩
  · exfalso
    rw [receive_foreign g hx] at hg
    have hrow : rowFor g.state g.event ≠ none := by
      rw [hg, rowFor_eq_some.mpr ⟨ht, rfl, rfl⟩]
      simp
    cases h with
    | fresh hl hi =>
      rw [hi] at hrow
      exact hrow (by decide)
    | unmatched m hl hm hi =>
      rw [hi] at hrow
      exact hrow hm
    | matched m hl hm hi =>
      obtain ⟨f, hf⟩ := hi
      rw [hf, Globals.mk.injEq] at hg
      rcases resting_fn ht hg.1 with h | h
      · exact h₁ h
      · exact h₂ h

end NutrinoStack.UtilityHandler

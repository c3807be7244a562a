import NutrinoStack.UtilityOrder

namespace NutrinoStack.UtilityHandler

open Loops Runs

def walked (z : ℤ) (tr : List Iteration) : List (Handler × ℤ) :=
  (ofSession z tr).flatMap fun p => p.turn.fn.toList.zip (p.turn.sends.map (·.msg.msgState))

structure Refines (missing z : ℤ) (tr : List Iteration) : Prop where
  functions : ran z tr <+: [.gotKey, .auth, .readData, .endComm]
  moves : ∃ n, walked z tr <+: DirectMachine.main missing n

variable {missing z : ℤ} {readings : List Reading} {tr pre post : List Iteration} {p : Iteration} {g : Globals}
  {x : Reading}

theorem walked_ran (h : ∀ p ∈ tr, Regular p) (z : ℤ) : walked z tr = (ran z tr).map fun f => (f, f.announced) := by
  apply flatMap_fn
  intro p hp
  rcases h p (List.mem_of_mem_filter hp) with ht | ⟨f, ht⟩ <;> rw [ht] <;> rfl

structure Conforming (tr : List Iteration) (g : Globals) : Prop where
  resting : tr ≠ [] → g = ⟨stInit, evReadFromDevice⟩
  early : ∀ z, ∀ f ∈ ran z tr, f.announced ≠ stTerm

def Handler.successor : Handler → Handler
  | .gotKey => .auth
  | _ => .readData

def nextOf (l : List Handler) : Handler := (l.getLast?.map Handler.successor).getD .gotKey

theorem announced_row {f : Handler} (h : f.announced ≠ stTerm) :
    ∃ t ∈ trans, t.st = f.announced ∧ t.fn = f.successor ∧ t.fn ≠ .endComm := by
  revert h
  cases f <;> decide

theorem iteration_row {t : Transition} (ht : t ∈ trans) (hne : t.fn ≠ .endComm)
    (hg : getMessageStateEvent g x.msg = ⟨t.st, evReadFromDevice⟩) :
    (iteration g x).1.fn = some t.fn ∧ (iteration g x).2 = ⟨stInit, evReadFromDevice⟩ := by
  rw [iteration_some ht hg]
  cases h : t.fn <;> simp_all [Handler.resting]

theorem conforming_fires (hc : Conforming tr g) (hreg : ∀ q ∈ tr, Regular q) (hgr : Grown z tr) (hd : Due z tr x.msg) :
    (iteration g x).1.fn = some (if x.msg.msgType = 1 then nextOf (ran z tr) else .gotKey) ∧
      (iteration g x).2 = ⟨stInit, evReadFromDevice⟩ := by
  have hkey : (⟨stInit, evReadFromDevice, .gotKey⟩ : Transition) ∈ trans := by decide
  by_cases hb : ofSession z tr = []
  · obtain ⟨ht, hs, he⟩ := hd.first hb
    have hran : ran z tr = [] := by rw [ran, hb]; rfl
    have hg : getMessageStateEvent g x.msg = ⟨stInit, evReadFromDevice⟩ := by
      rw [receive_own g ht, hs, he]
      decide
    rw [if_pos ht, hran]
    exact iteration_row hkey (by simp) hg
  · by_cases ht : x.msg.msgType = 1
    · obtain ⟨f, hlast⟩ := Option.isSome_iff_exists.mp (List.getLast?_isSome.mpr (List.ne_nil_of_mem (hgr.begun hb)))
      have hearly := hc.early z f (List.mem_of_getLast? hlast)
      obtain ⟨hs, he⟩ := hd.announced hreg hlast
      have hg : getMessageStateEvent g x.msg = ⟨f.announced, evReadFromDevice⟩ := by
        rw [receive_own g ht, hs, he, toInt_announced]
        rfl
      obtain ⟨t, htr, hst, hfn, hne⟩ := announced_row hearly
      rw [← hst] at hg
      rw [if_pos ht, nextOf, hlast, Option.map_some, Option.getD_some, ← hfn]
      exact iteration_row htr hne hg
    · have hne : tr ≠ [] := by
        rintro rfl
        exact hb rfl
      rw [if_neg ht]
      apply iteration_row hkey (by simp)
      rw [receive_foreign g ht, hc.resting hne]

theorem nextOf_announced (l : List Handler) : (nextOf l).announced ≠ stTerm := by
  rw [nextOf]
  cases l.getLast? with
  | none => decide
  | some f => cases f <;> decide

theorem main_conforming (h : Run mainLoop.step Globals.initial tr g) (hf : ∀ z, Follows z tr) : Conforming tr g := by
  revert hf
  apply h.invariant (I := fun tr g => (∀ z, Follows z tr) → Conforming tr g)
  · exact fun _ => ⟨by simp, by simp [ran, ofSession]⟩
  · intro tr g x p u hrun ih hs hf
    obtain ⟨-, rfl, rfl⟩ := step_pass hs
    have hf' := fun z => (hf z).of_append
    have hd : Due x.msg.msgSessionId tr x.msg := (hf x.msg.msgSessionId).due rfl
    obtain ⟨hfn, hafter⟩ := conforming_fires (ih hf') (main_regular hrun) (main_grown hrun (hf' _)) hd
    refine ⟨fun _ => hafter, fun z f hmem => ?_⟩
    by_cases hz : x.msg.msgSessionId = z
    · have hran : ran z (tr ++ [mainLoop.pass g x]) = ran z tr ++ (iteration g x).1.fn.toList := ran_snoc hz tr
      rw [hran, hfn, List.mem_append, Option.toList_some, List.mem_singleton] at hmem
      rcases hmem with hmem | rfl
      · exact (ih hf').early z f hmem
      · split
        · exact nextOf_announced _
        · decide
    · rw [ran_other (p := mainLoop.pass g x) hz] at hmem
      exact (ih hf').early z f hmem

theorem foreign_repeats (h : main readings = pre ++ p :: post) (hf : ∀ z, Follows z (main readings))
    (ht : p.input.msg.msgType ≠ 1) : ¬ (ran p.input.msg.msgSessionId (main readings)).Nodup := by
  obtain ⟨hrun, -, hpass⟩ := passes_split h
  have hd := hf p.input.msg.msgSessionId pre p post h rfl
  have hf' : ∀ z, Follows z pre := fun z => by
    have := hf z
    rw [h] at this
    exact this.of_append
  have hgr := main_grown hrun (hf' p.input.msg.msgSessionId)
  have hfn := (conforming_fires (main_conforming hrun hf') (main_regular hrun) hgr hd).1
  rw [if_neg ht] at hfn
  have hturn : p.turn.fn = some .gotKey := by
    rw [hpass]
    exact hfn
  have hkey := hgr.begun fun hnil => ht (hd.first hnil).1
  have hran : ran p.input.msg.msgSessionId (main readings) =
      ran p.input.msg.msgSessionId pre ++ .gotKey :: ran p.input.msg.msgSessionId post := by
    simp [h, ran, ofSession, hturn]
  rw [hran, List.nodup_append]
  rintro ⟨-, -, hdisjoint⟩
  exact hdisjoint _ hkey _ (by simp) rfl

def course : ℕ → List Handler
  | 0 => []
  | n + 1 => course n ++ [nextOf (course n)]

theorem ran_course (h : Run mainLoop.step Globals.initial tr g) (hf : ∀ z, Follows z tr)
    (ht : ∀ p ∈ ofSession z tr, p.input.msg.msgType = 1) : ran z tr = course (ofSession z tr).length := by
  revert hf ht
  apply h.invariant (I := fun tr _ => (∀ z, Follows z tr) → (∀ p ∈ ofSession z tr, p.input.msg.msgType = 1) →
    ran z tr = course (ofSession z tr).length)
  · exact fun _ _ => rfl
  · intro tr g x p u hrun ih hs hf ht
    obtain ⟨-, rfl, -⟩ := step_pass hs
    have hf' := fun z => (hf z).of_append
    by_cases hz : x.msg.msgSessionId = z
    · have hmem : ofSession z (tr ++ [mainLoop.pass g x]) = ofSession z tr ++ [mainLoop.pass g x] := ofSession_snoc hz tr
      have hown : x.msg.msgType = 1 := ht (mainLoop.pass g x) (by simp [hmem])
      have hprev := ih hf' fun q hq => ht q (by simp [hmem, hq])
      have hd : Due z tr x.msg := (hf z).due hz
      have hfn := (conforming_fires (main_conforming hrun hf') (main_regular hrun) (main_grown hrun (hf' z)) hd).1
      have hran : ran z (tr ++ [mainLoop.pass g x]) = ran z tr ++ (iteration g x).1.fn.toList := ran_snoc hz tr
      rw [hran, hfn, if_pos hown, hmem, List.length_append, List.length_singleton, course, ← hprev]
      rfl
    · have hother : ofSession z (tr ++ [mainLoop.pass g x]) = ofSession z tr := ofSession_other hz tr
      rw [hother] at ht ⊢
      rw [← ih hf' ht, ran_other (p := mainLoop.pass g x) hz]

theorem readData_course {n : ℕ} (h : 3 ≤ n) : .readData ∈ course n := by
  induction n, h using Nat.le_induction with
  | base => decide
  | succ n _ ih =>
    rw [course]
    exact List.mem_append_left _ ih

theorem course_start {n : ℕ} (h : n ≤ 2) :
    course n <+: [.gotKey, .auth, .readData, .endComm] ∧
      ((course n).map fun f => (f, f.announced)) <+: DirectMachine.walk.take 2 := by
  match n, h with
  | 0, _ => decide
  | 1, _ => decide
  | 2, _ => decide

/-- A session keeps up with the direct machine until it is made to read: `ReadData` announces `ST_READ` again, where the
direct machine moves on to `ST_END`. -/
theorem refines_iff (missing : ℤ) (hf : ∀ z, Follows z (main readings)) (z : ℤ) :
    Refines missing z (main readings) ↔
      (∀ p ∈ ofSession z (main readings), p.input.msg.msgType = 1) ∧ (ofSession z (main readings)).length ≤ 2 := by
  have hrun : Run mainLoop.step Globals.initial (main readings) _ := passes_run _ _ _
  have hwalked := walked_ran (main_regular hrun) z
  constructor
  · rintro ⟨hfun, n, hmoves⟩
    have hown : ∀ p ∈ ofSession z (main readings), p.input.msg.msgType = 1 := by
      intro p hp
      obtain ⟨hmem, hz⟩ := List.mem_filter.mp hp
      obtain rfl := of_decide_eq_true hz
      obtain ⟨pre, post, hsplit⟩ := List.append_of_mem hmem
      by_contra ht
      apply foreign_repeats hsplit hf ht
      exact hfun.sublist.nodup (by decide)
    refine ⟨hown, ?_⟩
    by_contra hlen
    have hread : (Handler.readData, stRead) ∈ walked z (main readings) := by
      rw [hwalked, ran_course hrun hf hown]
      exact List.mem_map_of_mem (readData_course (not_le.mp hlen))
    have hmem := hmoves.subset hread
    rw [DirectMachine.main_walk] at hmem
    exact absurd (List.mem_of_mem_take hmem) (by decide)
  · rintro ⟨hown, hlen⟩
    obtain ⟨hfun, hmoves⟩ := course_start hlen
    rw [← ran_course hrun hf hown] at hfun hmoves
    rw [← hwalked] at hmoves
    refine ⟨hfun, 2, ?_⟩
    rwa [DirectMachine.main_walk]

theorem auth_refines : (ofSession 1 (main (echo [stInit, stAuth]))).length = 2 ∧
    Refines 0 1 (main (echo [stInit, stAuth])) := by
  have hfollows : ∀ z, Follows z (main (echo [stInit, stAuth])) := by
    intro z
    have hsplit : main (echo [stInit, stAuth, stRead]) =
        main (echo [stInit, stAuth]) ++ (main (echo [stInit, stAuth, stRead])).drop 2 := rfl
    exact (hsplit ▸ echo_follows z).of_append
  refine ⟨rfl, (refines_iff 0 hfollows 1).mpr ⟨?_, le_rfl⟩⟩
  decide

theorem stRead_diverges : ¬ ∀ (missing : ℤ) (readings : List Reading), (∀ z, Follows z (main readings)) →
    ∀ z, Refines missing z (main readings) := by
  intro hall
  obtain ⟨n, hn⟩ := (hall 0 (echo [stInit, stAuth, stRead]) echo_follows 1).moves
  rw [DirectMachine.main_walk] at hn
  have hread : (Handler.readData, stRead) ∈ DirectMachine.walk :=
    List.mem_of_mem_take (hn.subset (by decide))
  exact absurd hread (by decide)

end NutrinoStack.UtilityHandler

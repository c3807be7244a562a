import NutrinoStack.UtilitySessions

namespace NutrinoStack.UtilityHandler

open Loops Runs

structure Grown (z : ℤ) (tr : List Iteration) : Prop where
  begun : ofSession z tr ≠ [] → .gotKey ∈ ran z tr
  read : ∀ f, (ran z tr).getLast? = some f → f.announced = stRead → [.gotKey, .auth].Sublist (ran z tr)

variable {z : ℤ} {readings : List Reading} {tr pre post : List Iteration} {p : Iteration} {g : Globals} {x : Reading}

theorem fires_row {f : Handler} (h : (iteration g x).1.fn = some f) :
    ∃ t ∈ trans, t.fn = f ∧ getMessageStateEvent g x.msg = ⟨t.st, evReadFromDevice⟩ := by
  rcases iteration_cases g x with ⟨t, ht, hg, hit⟩ | ⟨-, hit⟩ <;> rw [hit] at h
  · exact ⟨t, ht, Option.some_inj.mp h, hg⟩
  · simp at h

theorem first_gotKey (g : Globals) (ht : x.msg.msgType = 1) (hs : x.msg.msgState = stInit)
    (he : x.msg.msgEvent = evReadFromDevice) : (iteration g x).1.fn = some .gotKey := by
  have hg : getMessageStateEvent g x.msg = ⟨stInit, evReadFromDevice⟩ := by
    rw [receive_own g ht, hs, he]
    decide
  have hrow : (⟨stInit, evReadFromDevice, .gotKey⟩ : Transition) ∈ trans := by decide
  rw [iteration_some hrow hg]

theorem toInt_announced (f : Handler) : toInt f.announced = f.announced := by
  cases f <;> decide

theorem announced_read {f : Handler} : f.announced = stRead ↔ f = .auth ∨ f = .readData := by
  cases f <;> decide

theorem row_auth {t : Transition} (ht : t ∈ trans) (h : t.fn.announced = stRead) :
    t.fn = .auth ∧ t.st = stAuth ∨ t.fn = .readData ∧ t.st = stRead := by
  rcases mem_trans ht with rfl | rfl | rfl | rfl | rfl <;> revert h <;> decide

theorem due_read (hst : Stale pre g) (hreg : ∀ q ∈ pre, Regular q) (hgr : Grown z pre) (hd : Due z pre x.msg)
    {f : Handler} (hfn : (iteration g x).1.fn = some f) (hf : f.announced = stRead) :
    .gotKey ∈ ran z pre ∧ (f = .readData → [.gotKey, .auth].Sublist (ran z pre)) := by
  obtain ⟨t, ht, rfl, hg⟩ := fires_row hfn
  have hrow := row_auth ht hf
  have hown := fires_own hst ht hg (by rintro h; simp [h] at hrow) (by rintro h; simp [h] at hrow)
  have hbegun : ofSession z pre ≠ [] := by
    intro hnil
    have hinit : toInt x.msg.msgState = stInit := by
      rw [(hd.first hnil).2.1]
      decide
    rw [hown.2.1] at hinit
    rcases hrow with ⟨-, h⟩ | ⟨-, h⟩ <;> simp [h] at hinit
  have hkey := hgr.begun hbegun
  refine ⟨hkey, fun hread => ?_⟩
  obtain ⟨f, hlast⟩ := Option.isSome_iff_exists.mp (List.getLast?_isSome.mpr (List.ne_nil_of_mem hkey))
  apply hgr.read f hlast
  have hsaid := (hd.announced hreg hlast).1
  rw [hsaid, toInt_announced] at hown
  rw [hown.2.1]
  rcases hrow with ⟨h, -⟩ | ⟨-, h⟩
  · simp [hread] at h
  · exact h

theorem Grown.silent (h : Grown z tr) (hran : ran z (tr ++ [p]) = ran z tr) (hb : ofSession z tr ≠ []) :
    Grown z (tr ++ [p]) := by
  constructor
  · intro _
    rw [hran]
    exact h.begun hb
  · rw [hran]
    exact h.read

theorem Grown.fires (h : Grown z tr) {f : Handler} (hran : ran z (tr ++ [p]) = ran z tr ++ [f])
    (hkey : ofSession z tr = [] → f = .gotKey)
    (hread : f.announced = stRead → .gotKey ∈ ran z tr ∧ (f = .readData → [.gotKey, .auth].Sublist (ran z tr))) :
    Grown z (tr ++ [p]) := by
  constructor
  · intro _
    rw [hran, List.mem_append, List.mem_singleton]
    by_cases hb : ofSession z tr = []
    · exact .inr (hkey hb).symm
    · exact .inl (h.begun hb)
  · intro f' hlast hsaid
    rw [hran, List.getLast?_concat, Option.some_inj] at hlast
    subst hlast
    obtain ⟨hmem, hboth⟩ := hread hsaid
    rw [hran]
    rcases announced_read.mp hsaid with rfl | rfl
    · exact (List.singleton_sublist.mpr hmem).append (List.Sublist.refl [Handler.auth])
    · exact (hboth rfl).trans (List.sublist_append_left _ _)

theorem main_grown (h : Run mainLoop.step Globals.initial tr g) (hf : Follows z tr) : Grown z tr := by
  revert hf
  apply h.invariant (I := fun tr _ => Follows z tr → Grown z tr)
  · exact fun _ => ⟨by simp [ofSession], by simp [ran, ofSession]⟩
  · intro tr g x p u hrun ih hs hf
    have hgr := ih hf.of_append
    obtain ⟨-, rfl, -⟩ := step_pass hs
    by_cases hz : x.msg.msgSessionId = z
    · have hd : Due z tr x.msg := hf.due hz
      have hfirst : ofSession z tr = [] → (iteration g x).1.fn = some .gotKey := by
        intro hnil
        obtain ⟨ht, hst, he⟩ := hd.first hnil
        exact first_gotKey g ht hst he
      have hran : ran z (tr ++ [mainLoop.pass g x]) = ran z tr ++ (iteration g x).1.fn.toList := ran_snoc hz tr
      cases hfn : (iteration g x).1.fn with
      | none =>
        rw [hfn, Option.toList_none, List.append_nil] at hran
        apply hgr.silent hran
        intro hnil
        simp [hfirst hnil] at hfn
      | some f =>
        rw [hfn, Option.toList_some] at hran
        apply hgr.fires hran
        · intro hnil
          exact Option.some_inj.mp (hfn.symm.trans (hfirst hnil))
        · exact due_read (main_stale hrun) (main_regular hrun) hgr hd hfn
    · have hother : ofSession z (tr ++ [mainLoop.pass g x]) = ofSession z tr := ofSession_other hz tr
      constructor <;> simp only [ran, hother]
      · exact hgr.begun
      · exact hgr.read

theorem readData_ordered (h : main readings = pre ++ p :: post) (hfn : p.turn.fn = some .readData) :
    (p.input.msg.msgType = 1 ∧ toInt p.input.msg.msgState = stRead ∧ toInt p.input.msg.msgEvent = evReadFromDevice) ∧
      (Follows p.input.msg.msgSessionId (main readings) →
        [.gotKey, .auth].Sublist (ran p.input.msg.msgSessionId pre)) := by
  obtain ⟨hrun, -, hpass⟩ := passes_split h
  have hturn : (iteration p.before p.input).1.fn = some .readData := by
    rw [hpass] at hfn
    exact hfn
  constructor
  · obtain ⟨t, ht, htf, hg⟩ := fires_row hturn
    have hown := fires_own (main_stale hrun) ht hg (by simp [htf]) (by simp [htf])
    rcases row_auth ht (by rw [htf]; rfl) with ⟨h, -⟩ | ⟨-, hst⟩
    · simp [htf] at h
    · rwa [hst] at hown
  · intro hf
    have hd := hf pre p post h rfl
    rw [h] at hf
    exact (due_read (main_stale hrun) (main_regular hrun) (main_grown hrun hf.of_append) hd hturn rfl).2 rfl

def echo (sts : List ℤ) : List Reading := sts.map fun st => faithful (deviceMessage st)

theorem echo_follows (z : ℤ) : Follows z (main (echo [stInit, stAuth, stRead])) := by
  have hnext {tr : List Iteration} {g : Globals} {m : Msgbuff} (h : Follows z tr)
      (hd : m.msgSessionId = 1 → Due 1 tr m) (hm : m.msgSessionId = 1) :
      Follows z (tr ++ [mainLoop.pass g (faithful m)]) := by
    apply h.snoc
    intro hz
    obtain rfl : (1 : ℤ) = z := hm.symm.trans hz
    exact hd hm
  have hlater {tr : List Iteration} {r m : Msgbuff} (hr : (replies 1 tr).getLast? = some r)
      (hm : m.msgState = r.msgState ∧ m.msgEvent = r.msgEvent) : Due 1 tr m := by
    refine ⟨fun hnil => ?_, fun r' hr' => ?_⟩
    · simp [replies, hnil] at hr
    · obtain rfl := Option.some_inj.mp (hr.symm.trans hr')
      exact hm
  have hbegin : Due 1 [] (deviceMessage stInit) := ⟨fun _ => ⟨rfl, rfl, rfl⟩, by simp [replies, ofSession]⟩
  have h₁ := hnext (g := Globals.initial) Follows.nil (fun _ => hbegin) rfl
  have h₂ := hnext (g := ⟨stInit, evReadFromDevice⟩) (m := deviceMessage stAuth) h₁ (fun _ => hlater rfl ⟨rfl, rfl⟩) rfl
  exact hnext (g := ⟨stInit, evReadFromDevice⟩) (m := deviceMessage stRead) h₂ (fun _ => hlater rfl ⟨rfl, rfl⟩) rfl

theorem echo_ordered : ∃ pre p, main (echo [stInit, stAuth, stRead]) = pre ++ p :: [] ∧ p.turn.fn = some .readData ∧
    [.gotKey, .auth].Sublist (ran p.input.msg.msgSessionId pre) := by
  have hsplit : main (echo [stInit, stAuth, stRead]) = [_, _] ++ _ :: [] := rfl
  exact ⟨_, _, hsplit, rfl, (readData_ordered hsplit rfl).2 (echo_follows 1)⟩

theorem stRead_unauthenticated : ¬ ∀ readings pre p post, main readings = pre ++ p :: post →
    p.turn.fn = some .readData → [.gotKey, .auth].Sublist (ran p.input.msg.msgSessionId pre) := by
  intro hall
  have h := hall (echo [stRead]) [] _ [] rfl rfl
  exact absurd h (by decide)

end NutrinoStack.UtilityHandler

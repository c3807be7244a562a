import Mathlib.Algebra.Order.BigOperators.Group.List
import NutrinoStack.UtilityStore

namespace NutrinoStack.UtilityQueueManager

open CStrings Interactions MachineWords MessageQueues Processes Reductions Restarts Runs Stores UtilityLayout
open StructLayout (Header.Fits)

variable {P : Platform} {σ₀ : Store Key Msgbuff} {ι : Type} [DecidableEq ι] {F : Family (commands Key Msgbuff) ι}
  {may : Kernel → (i : ι) → F.Memory i → Bool}

/-- The message type that `message_queue_read` asks for is compared with the first `long` of a message. -/
def readable (m : Msgbuff) : Bool := m.msgSessionId = 1

theorem filter_picks {ms : List Msgbuff} (h : ∀ m ∈ ms, Header.Fits P m.toHeader) :
    ms.filter (discipline P).picks = ms.filter readable ∧
      ms.filter (!(discipline P).picks ·) = ms.filter (!readable ·) := by
  have hsame : ∀ m ∈ ms, (discipline P).picks m = readable m := by
    intro m hm
    apply Bool.eq_iff_iff.mpr
    rw [picks_iff (h m hm), readable, decide_eq_true_eq]
  exact ⟨List.filter_congr hsame, List.filter_congr fun m hm => congrArg (!·) (hsame m hm)⟩

/-- Whoever writes and reads a queue, and whichever of them are killed, the messages of session 1 are read in the order
they were written in, and those of the other sessions stay on it; of what a message says, a reader hears no state and no
event. -/
theorem manager_sessions {s₀ : Pool F Kernel} {tr : List (Option (Event interface ι))}
    {p : Pool ((manager P).family F) Kernel} (h₀ : Keeps (send P) s₀.kernel σ₀)
    (h : Run (restarting ((manager P).family F) (answer P) may) ((manager P).pool s₀) tr p) :
    ∃ tr' s left, Run (restarting F ((manager P).atomically (answer P)) may) s₀ tr' s ∧
      Matches (answer P) (manager P) (transferred P) (exchanged P) p s left ∧
      seen (transferred P) (tr.filterMap id) = seen (exchanged P) (tr'.filterMap id) ∧
      ∀ key : Key, ∃ rest : List Msgbuff,
        (∀ id : ℕ, p.kernel.ident key = some id → p.kernel.queue id = some (rest.map (send P))) ∧
        ((∀ m ∈ σ₀.queued key ++ written key (tr'.filterMap id), Header.Fits P m.toHeader) →
          (∀ r ∈ reads key (tr'.filterMap id), Header.Fits P r.1.toHeader) →
          rest.filter (!readable ·) = (σ₀.queued key ++ written key (tr'.filterMap id)).filter (!readable ·) ∧
          ∃ taken, taken ++ rest.filter readable = (σ₀.queued key ++ written key (tr'.filterMap id)).filter readable ∧
            List.Forall₂ (Heard P) (reads key (tr'.filterMap id)) taken) := by
  obtain ⟨tr', s, left, hrun, hm, hseen⟩ := reduces_restarting (manager_reduces (layout P) P) h
  obtain ⟨σ, hist, hk⟩ := manager_restarting (L := layout P) h₀ hrun
  refine ⟨tr', s, left, hrun, hm, hseen, fun key => ⟨σ.queued key, fun id hid => ?_, fun hfits hold => ?_⟩⟩
  · rw [hm.kernel] at hid ⊢
    exact queued_kernel (Set.mem_univ key) hk hid
  · obtain ⟨taken, hown, hothers, hreads⟩ := history_fifo key hist
    change taken ++ (σ.queued key).filter (discipline P).picks =
      (σ₀.queued key ++ written key (tr'.filterMap id)).filter (discipline P).picks at hown
    change (σ.queued key).filter (!(discipline P).picks ·) =
      (σ₀.queued key ++ written key (tr'.filterMap id)).filter (!(discipline P).picks ·) at hothers
    obtain ⟨htaken, hrest⟩ := sorted_mem hown hothers
    have hrest' : ∀ m ∈ σ.queued key, Header.Fits P m.toHeader := fun m hm => hfits m (hrest m hm)
    rw [(filter_picks hrest').1, (filter_picks hfits).1] at hown
    rw [(filter_picks hrest').2, (filter_picks hfits).2] at hothers
    refine ⟨hothers, taken, hown, ?_⟩
    obtain ⟨hlength, hall⟩ := List.forall₂_iff_zip.mp hreads
    refine List.forall₂_iff_zip.mpr ⟨hlength, fun {r m} hz => ?_⟩
    obtain ⟨hr, hm⟩ := List.of_mem_zip hz
    have hover : r.2 = (discipline P).overlay r.1 m := hall hz
    have hheard := overlay_heard (hfits m (htaken m hm)) (hold r hr)
    rwa [← hover] at hheard

def posted : Bool → List (Operation Key Msgbuff)
  | false => [.init deviceQueue, .write deviceQueue { authRequest with msgSessionId := 2 }, .write deviceQueue authRequest]
  | true => [.init deviceQueue, .read deviceQueue .zeroed]

abbrev postedStart : Pool (scripted Key Msgbuff Bool) Kernel := ⟨equipped [] 16384 1, fun i => .done (posted i)⟩

def postedRun :
    Option (List (Option (Event interface Bool)) × Pool ((manager amd64).family (scripted Key Msgbuff Bool)) Kernel) :=
  exec (restarting ((manager amd64).family (scripted Key Msgbuff Bool)) (answer amd64) (resumes posted))
    ((manager amd64).pool postedStart)
    [.call false, .call true, .call false, .call false, .call true, .call false, .call false, .call true,
      .restart true (posted true), .call true, .call true]

theorem postedRun_some : postedRun.isSome := by decide +kernel

theorem posted_runs :
    Run (restarting ((manager amd64).family (scripted Key Msgbuff Bool)) (answer amd64) (resumes posted))
      ((manager amd64).pool postedStart) (postedRun.get postedRun_some).1 (postedRun.get postedRun_some).2 :=
  run_exec _ (Option.some_get postedRun_some).symm

theorem zeroed_fits (P : Platform) : Header.Fits P Msgbuff.zeroed.toHeader := by
  have hzero : Fits 4 0 := by decide
  exact ⟨fits_long P hzero, fits_long P hzero, fits_long P hzero, fits_long P hzero⟩

theorem posted_fits {m : Msgbuff} {key : Key} {i : Bool} (hm : .write key m ∈ posted i) : Header.Fits P m.toHeader := by
  have hsession : Fits 4 2 := by decide
  cases i with
  | false =>
    have hrequest := authRequest_fits P
    obtain ⟨-, rfl⟩ | ⟨-, rfl⟩ := by simpa [posted] using hm
    · exact ⟨fits_long P hsession, hrequest.2.1, hrequest.2.2.1, hrequest.2.2.2⟩
    · exact hrequest
  | true => simp [posted] at hm

theorem posted_old {r : Msgbuff} {key : Key} {i : Bool} (hr : .read key r ∈ posted i) : Header.Fits P r.toHeader := by
  cases i with
  | false => simp [posted] at hr
  | true =>
    obtain ⟨-, rfl⟩ := by simpa [posted] using hr
    exact zeroed_fits P

theorem posted_sessions : ∃ (tr' : List (Option (Event (commands Key Msgbuff) Bool))) (rest taken : List Msgbuff),
    seen (transferred amd64) ((postedRun.get postedRun_some).1.filterMap id) = seen (exchanged amd64) (tr'.filterMap id) ∧
      rest.filter (!readable ·) = (written deviceQueue (tr'.filterMap id)).filter (!readable ·) ∧
      taken ++ rest.filter readable = (written deviceQueue (tr'.filterMap id)).filter readable ∧
      List.Forall₂ (Heard amd64) (reads deviceQueue (tr'.filterMap id)) taken := by
  obtain ⟨tr', s, left, hrun, -, hseen, hall⟩ := manager_sessions (equipped_keeps _ _ _ _ _) posted_runs
  obtain ⟨rest, -, hsorted⟩ := hall deviceQueue
  rw [vacant_queued, List.nil_append] at hsorted
  obtain ⟨hothers, taken, hown, hheard⟩ := hsorted (fun m hm => posted_fits (scripted_written hrun hm).choose_spec)
    fun r hr => posted_old (scripted_reads hrun hr).choose_spec
  exact ⟨tr', rest, taken, hseen, hothers, hown, hheard⟩

/-- The messages of other sessions use up a queue: in a whole run it accepts no more of them than it can hold. -/
theorem manager_starves {s₀ : Pool F Kernel} {tr : List (Option (Event interface ι))}
    {p : Pool ((manager P).family F) Kernel} (h₀ : Keeps (send P) s₀.kernel σ₀)
    (hroom : ∀ key, ((σ₀.queued key).map fun m => strlen m.msgText + 1).sum ≤ σ₀.capacity key)
    (h : Run (restarting ((manager P).family F) (answer P) may) ((manager P).pool s₀) tr p) :
    ∃ tr' s left, Run (restarting F ((manager P).atomically (answer P)) may) s₀ tr' s ∧
      Matches (answer P) (manager P) (transferred P) (exchanged P) p s left ∧
      seen (transferred P) (tr.filterMap id) = seen (exchanged P) (tr'.filterMap id) ∧
      ∀ (key : Key) (msqid : ℕ), p.kernel.ident key = some msqid →
        (∀ m ∈ σ₀.queued key ++ written key (tr'.filterMap id), Header.Fits P m.toHeader) →
        (((σ₀.queued key ++ written key (tr'.filterMap id)).filter (!readable ·)).map
          fun m => strlen m.msgText + 1).sum ≤ p.kernel.capacity msqid := by
  obtain ⟨tr', s, left, hrun, hm, hseen⟩ := reduces_restarting (manager_reduces (layout P) P) h
  obtain ⟨σ, hist, hk⟩ := manager_restarting (L := layout P) h₀ hrun
  have hsize : ∀ ms : List Msgbuff, (ms.map fun m => messageSize P ((layout P).wire P m)) =
      ms.map fun m => strlen m.msgText + 1 := fun ms => List.map_congr_left fun m _ => size_eq P m
  refine ⟨tr', s, left, hrun, hm, hseen, fun key msqid hid hfits => ?_⟩
  obtain ⟨taken, -, hothers, -⟩ := history_fifo key hist
  have hbound := history_bounded (room_bounds (layout P) P) hist (fun key => by rw [hsize]; exact hroom key) key
  rw [hsize] at hbound
  rw [hm.kernel] at hid ⊢
  obtain ⟨-, -, -, hcapacity⟩ := hk.present key (Set.mem_univ key) msqid hid
  rw [hcapacity, ← (filter_picks hfits).2]
  refine le_trans ?_ hbound
  calc _ = (((σ.queued key).filter (!(discipline P).picks ·)).map fun m => strlen m.msgText + 1).sum := by
        rw [hothers]
        rfl
    _ ≤ _ := (List.filter_sublist.map _).sum_le_sum fun _ _ => Nat.zero_le _

theorem posted_starves : ∃ tr' : List (Option (Event (commands Key Msgbuff) Bool)),
    seen (transferred amd64) ((postedRun.get postedRun_some).1.filterMap id) = seen (exchanged amd64) (tr'.filterMap id) ∧
      (((written deviceQueue (tr'.filterMap id)).filter (!readable ·)).map fun m => strlen m.msgText + 1).sum ≤
        16384 := by
  obtain ⟨tr', s, left, hrun, -, hseen, hall⟩ := manager_starves (equipped_keeps _ _ _ _ _)
    (fun key => by rw [vacant_queued]; exact Nat.zero_le _) posted_runs
  have hbound := hall deviceQueue 0 (by decide +kernel)
  rw [vacant_queued, List.nil_append] at hbound
  refine ⟨tr', hseen, (hbound fun m hm => posted_fits (scripted_written hrun hm).choose_spec).trans ?_⟩
  decide +kernel

end NutrinoStack.UtilityQueueManager

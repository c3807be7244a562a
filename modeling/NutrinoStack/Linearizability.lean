import NutrinoStack.Leftovers
import NutrinoStack.QueueStore

namespace NutrinoStack.QueueManager

open CStrings Interactions MachineWords MessageQueues Processes Reductions Restarts Runs Stores StructLayout

variable {P : Platform} {σ₀ : Store Key Msgbuff} {ι : Type} [DecidableEq ι] {F : Family (commands Key Msgbuff) ι}

theorem manager_linearizable {s₀ : Pool F Kernel} {tr : List (Event interface ι)}
    {p : Pool ((manager P).family F) Kernel} (h₀ : Keeps (send P) s₀.kernel σ₀)
    (h : Run (step ((manager P).family F) (answer P)) ((manager P).pool s₀) tr p) :
    ∃ tr' s left σ, Run (step F ((manager P).atomically (answer P))) s₀ tr' s ∧
      Matches (answer P) (manager P) (transferred P) (exchanged P) p s left ∧
      seen (transferred P) tr = seen (exchanged P) tr' ∧ (∀ i, calls tr i ≤ 2 * calls tr' i + 1) ∧
      History (discipline P) σ₀ (tr'.map Event.entry) σ ∧ Keeps (send P) p.kernel σ := by
  obtain ⟨tr', s, left, hrun, hm, hseen, hcalls⟩ := (manager_reduces (layout P) P).run h
  obtain ⟨σ, hist, hk⟩ := manager_history (L := layout P) h₀ hrun
  refine ⟨tr', s, left, σ, hrun, hm, hseen, fun i => ?_, hist, hm.kernel ▸ hk⟩
  have := hcalls i
  omega

abbrev i386 : Platform := ⟨.littleEndian, .four⟩

def opener : Msgbuff := ⟨⟨34567, msgTypeGlowLed, stInit, evSendToCoreNoAck⟩, zeroed maxSize⟩

def ferry : Bool → List (Operation Key Msgbuff)
  | false => [.init Queue.core.name, .write Queue.core.name opener]
  | true => [.init Queue.core.name, .read Queue.core.name .zeroed]

abbrev ferryStart : Pool (scripted Key Msgbuff Bool) Kernel := ⟨equipped [] 16384 1, fun i => .done (ferry i)⟩

def ferryRun : Option (List (Event interface Bool) × Pool ((manager i386).family (scripted Key Msgbuff Bool)) Kernel) :=
  exec (step ((manager i386).family (scripted Key Msgbuff Bool)) (answer i386)) ((manager i386).pool ferryStart)
    [true, true, false, false, false, true]

theorem ferryRun_some : ferryRun.isSome := by decide +kernel

theorem ferry_runs : Run (step ((manager i386).family (scripted Key Msgbuff Bool)) (answer i386))
    ((manager i386).pool ferryStart) (ferryRun.get ferryRun_some).1 (ferryRun.get ferryRun_some).2 :=
  run_exec _ (Option.some_get ferryRun_some).symm

theorem ferry_linearizable : ∃ (tr' : List (Event (commands Key Msgbuff) Bool)) (σ : Store Key Msgbuff),
    seen (transferred i386) (ferryRun.get ferryRun_some).1 = seen (exchanged i386) tr' ∧
      History (discipline i386) (vacant Msgbuff [] 16384) (tr'.map Event.entry) σ := by
  obtain ⟨tr', s, left, σ, -, -, hseen, -, hist, -⟩ := manager_linearizable (equipped_keeps _ _ _ _ _) ferry_runs
  exact ⟨tr', σ, hseen, hist⟩

def received (key : Key) (tr : List (Event (commands Key Msgbuff) ι)) : List Msgbuff := (reads key tr).map Prod.snd

structure Sendable (P : Platform) (m : Msgbuff) : Prop where
  fits : Header.Fits P m.toHeader
  terminated : Terminated m.msgText

def address (m : Msgbuff) : ℤ × ℤ := (m.msgSessionId, m.msgType)

def contents (m : Msgbuff) : Header × List UInt8 := (m.toHeader, text m.msgText)

def Arrives (P : Platform) (r : Msgbuff × Msgbuff) (m : Msgbuff) : Prop := r.2 = recv P r.1 (send P m)

theorem arrives_map {α : Type} {f : Msgbuff → α} {rs : List (Msgbuff × Msgbuff)} {ms : List Msgbuff}
    (h : List.Forall₂ (Arrives P) rs ms) (hf : ∀ m ∈ ms, ∀ old, f (recv P old (send P m)) = f m) :
    (rs.map Prod.snd).map f = ms.map f := by
  induction h with
  | nil => rfl
  | @cons r m rs ms hr _ ih =>
    rw [List.map_cons, List.map_cons, List.map_cons, ih fun m hm => hf m (by simp [hm]), hr, hf m (by simp)]

theorem arrives_address {rs : List (Msgbuff × Msgbuff)} {ms : List Msgbuff} (h : List.Forall₂ (Arrives P) rs ms)
    (hs : ∀ m ∈ ms, Sendable P m) : (rs.map Prod.snd).map address = ms.map address := by
  apply arrives_map h
  intro m hm old
  obtain ⟨hsession, htype⟩ : (recv P old (send P m)).msgSessionId = m.msgSessionId ∧ _ := recv_address (hs m hm).fits
  rw [address, hsession, htype, address]

theorem arrives_contents (h4 : P.long = 4) {rs : List (Msgbuff × Msgbuff)} {ms : List Msgbuff}
    (h : List.Forall₂ (Arrives P) rs ms) (hs : ∀ m ∈ ms, Sendable P m) :
    (rs.map Prod.snd).map contents = ms.map contents := by
  apply arrives_map h
  intro m hm old
  have hheader : (recv P old (send P m)).toHeader = m.toHeader := recv_toHeader (hs m hm).fits (by omega)
  rw [contents, hheader, recv_text_four h4 (hs m hm).terminated old, contents]

/-- Nothing that was written to a queue is lost, doubled or overtaken, whoever writes and reads it and whichever of them
are killed; and with a `long` of four bytes it is read as it was written. -/
theorem manager_fifo {may : Kernel → (i : ι) → F.Memory i → Bool} {s₀ : Pool F Kernel}
    {tr : List (Option (Event interface ι))} {p : Pool ((manager P).family F) Kernel}
    (h₀ : Keeps (send P) s₀.kernel σ₀)
    (h : Run (restarting ((manager P).family F) (answer P) may) ((manager P).pool s₀) tr p) :
    ∃ tr' s left, Run (restarting F ((manager P).atomically (answer P)) may) s₀ tr' s ∧
      Matches (answer P) (manager P) (transferred P) (exchanged P) p s left ∧
      seen (transferred P) (tr.filterMap id) = seen (exchanged P) (tr'.filterMap id) ∧
      ∀ key, ∃ taken rest, taken ++ rest = σ₀.queued key ++ written key (tr'.filterMap id) ∧
        List.Forall₂ (Arrives P) (reads key (tr'.filterMap id)) taken ∧
        (∀ id : ℕ, p.kernel.ident key = some id → p.kernel.queue id = some (rest.map (send P))) ∧
        ((∀ m ∈ taken, Sendable P m) →
          (received key (tr'.filterMap id)).map address = taken.map address ∧
          (P.long = 4 → (received key (tr'.filterMap id)).map contents = taken.map contents)) := by
  obtain ⟨tr', s, left, hrun, hm, hseen⟩ := reduces_restarting (manager_reduces (layout P) P) h
  obtain ⟨σ, hist, hk⟩ := manager_restarting (L := layout P) h₀ hrun
  refine ⟨tr', s, left, hrun, hm, hseen, fun key => ?_⟩
  obtain ⟨taken, hfifo, -, hreads⟩ := history_fifo key hist
  have harrives : List.Forall₂ (Arrives P) (reads key (tr'.filterMap id)) taken := hreads
  refine ⟨taken, σ.queued key, ?_, harrives, fun id hid => ?_, fun hs => ⟨?_, fun h4 => ?_⟩⟩
  · simpa [written, picks_all] using hfifo
  · rw [hm.kernel] at hid ⊢
    exact queued_kernel (Set.mem_univ key) hk hid
  · exact arrives_address harrives hs
  · exact arrives_contents h4 harrives hs

theorem opener_sendable : Sendable i386 opener := by
  have hlen : strlen opener.msgText = 0 := Nat.le_zero.mp (strlen_le_of_zero _ (by decide) (zeroed_getElem _))
  refine ⟨⟨by decide, by decide, by decide, by decide⟩, ?_⟩
  rw [terminated_iff, hlen]
  decide

def crashRun :
    Option (List (Option (Event interface Bool)) × Pool ((manager i386).family (scripted Key Msgbuff Bool)) Kernel) :=
  exec (restarting ((manager i386).family (scripted Key Msgbuff Bool)) (answer i386) (resumes ferry))
    ((manager i386).pool ferryStart)
    [.call true, .call true, .call false, .call false, .call false, .restart true (ferry true), .call true, .call true,
      .call true]

theorem crashRun_some : crashRun.isSome := by decide +kernel

theorem crash_fifo : ∃ (tr' : List (Option (Event (commands Key Msgbuff) Bool))) (taken rest : List Msgbuff),
    seen (transferred i386) ((crashRun.get crashRun_some).1.filterMap id) = seen (exchanged i386) (tr'.filterMap id) ∧
      taken ++ rest = written Queue.core.name (tr'.filterMap id) ∧
      (received Queue.core.name (tr'.filterMap id)).map contents = taken.map contents := by
  obtain ⟨tr', s, left, hrun, -, hseen, hall⟩ := manager_fifo (equipped_keeps _ _ _ _ _)
    (run_exec _ (Option.some_get crashRun_some).symm)
  obtain ⟨taken, rest, hfifo, -, -, harrives⟩ := hall Queue.core.name
  rw [vacant_queued, List.nil_append] at hfifo
  have hs : ∀ m ∈ taken, Sendable i386 m := by
    intro m hm
    obtain ⟨i, hi⟩ := scripted_written hrun (hfifo ▸ List.mem_append_left rest hm)
    cases i with
    | false =>
      obtain rfl : m = opener := by simpa [ferry] using hi
      exact opener_sendable
    | true => simp [ferry] at hi
  exact ⟨tr', taken, rest, hseen, hfifo, (harrives hs).2 rfl⟩

end NutrinoStack.QueueManager

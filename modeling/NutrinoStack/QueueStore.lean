import NutrinoStack.KernelStores
import NutrinoStack.QueueManager

namespace NutrinoStack.QueueManager

open CStrings Interactions MachineWords MessageQueues Reductions Stores StructLayout

abbrev manager (P : Platform) : Implementation (commands Key Msgbuff) interface := (layout P).manager

abbrev transferred (P : Platform) : Entry → Option (Transfer Msgbuff) := (layout P).transferred P

abbrev exchanged (P : Platform) : Done Key Msgbuff → Option (Transfer Msgbuff) := (layout P).exchanged P

abbrev discipline (P : Platform) : Discipline Msgbuff := (layout P).discipline P

variable {P : Platform} {S : Set Key} {k k' : Kernel} {σ : Store Key Msgbuff}

theorem size_le (P : Platform) (m : Msgbuff) : messageSize P (send P m) ≤ maxSize + 1 + 12 := by
  have := strlen_le m.msgText
  simp only [messageSize, send, List.length_take, store_length]
  omega

theorem picks_all (P : Platform) : (discipline P).picks = fun _ => true := by
  funext m
  exact send_any P (send P m)

theorem pre_nil {pre : List Msgbuff} (h : ∀ x ∈ pre, (discipline P).picks x = false) : pre = [] := by
  cases pre with
  | nil => rfl
  | cons m pre =>
    have hm := h m (by simp)
    rw [picks_all] at hm
    cases hm

theorem atomically_legal (h : KeepsOn S (send P) k σ) {c : Operation Key Msgbuff} {r : c.Reply}
    (hs : (manager P).atomically (answer P) k c = some (r, k')) (hS : c.key ∈ S) :
    ∃ σ', Legal (discipline P) σ ⟨c, r⟩ σ' ∧ KeepsOn S (send P) k' σ' := manager_legal (L := layout P) h hs hS

theorem atomically_waits (h : KeepsOn S (send P) k σ) {c : Operation Key Msgbuff}
    (hs : (manager P).atomically (answer P) k c = none) :
    ∃ key sbuf, c = .read key sbuf ∧ (key ∈ S → σ.queue key = some []) := by
  obtain ⟨key, sbuf, rfl, hwait⟩ := manager_waits (L := layout P) h hs
  refine ⟨key, sbuf, rfl, fun hS => ?_⟩
  obtain ⟨q, hq, hnone⟩ := hwait hS
  rwa [pre_nil hnone] at hq

end NutrinoStack.QueueManager

import NutrinoStack.MessageQueues

namespace NutrinoStack.MessageQueues

open Interactions MachineWords

variable {M : Type}

/-- What the two versions of `queue_manager.c` differ in: the bytes of their struct, how many of them `msgsnd` is asked to
send, and what `msgrcv` is asked for. -/
structure Layout (M : Type) where
  store : M → Bytes
  load : Bytes → M
  size : M → ℕ
  limit : ℕ
  msgtyp : ℕ
  width : ℕ
  store_length : ∀ m, (store m).length = width

def messageQueueInit (key : ℤ) : Prog interface ℤ := do
  let msqid ← msgget key true
  if msqid < 0 then return -1
  return 0

def Layout.messageQueueWrite (L : Layout M) (key : ℤ) (sbuf : M) : Prog interface ℤ := do
  let msqid ← msgget key false
  if msqid < 0 then return -1
  let buflen := L.size sbuf
  let sent ← msgsnd msqid (L.store sbuf) buflen
  if sent < 0 then return -1
  return 0

def Layout.messageQueueRead (L : Layout M) (key : ℤ) (sbuf : M) : Prog interface (ℤ × M) := do
  let msqid ← msgget key false
  if msqid < 0 then return (-1, sbuf)
  let (received, bytes) ← msgrcv msqid (L.store sbuf) L.limit L.msgtyp
  if received < 0 then return (-1, L.load bytes)
  return (0, L.load bytes)

def Layout.exchange (L : Layout M) (key : ℤ) (sbuf old : M) : Prog interface (ℤ × ℤ × M) := do
  let sent ← L.messageQueueWrite key sbuf
  let (got, received) ← L.messageQueueRead key old
  return (sent, got, received)

def Layout.wire (L : Layout M) (P : Platform) (m : M) : Bytes := (L.store m).take (P.long + L.size m)

def Layout.overlay (L : Layout M) (sbuf : M) (bytes : Bytes) : Bytes := bytes ++ (L.store sbuf).drop bytes.length

variable {L : Layout M} {P : Platform} {k : Kernel} {key : ℤ} {id : ℕ} {sbuf old m : M}

theorem wire_length (L : Layout M) (P : Platform) (m : M) : (L.wire P m).length = min (P.long + L.size m) L.width := by
  rw [Layout.wire, List.length_take, L.store_length]

theorem wire_size (L : Layout M) (P : Platform) (m : M) : messageSize P (L.wire P m) ≤ L.size m := by
  rw [messageSize, wire_length]
  omega

theorem overlay_length (m old : M) : (L.overlay old (L.wire P m)).length = L.width := by
  rw [Layout.overlay, Layout.wire, overwritten_length ((L.store_length m).trans (L.store_length old).symm),
    L.store_length]

theorem overlay_bytes (m old : M) (j : ℕ) :
    (L.overlay old (L.wire P m))[j]? = if j < P.long + L.size m then (L.store m)[j]? else (L.store old)[j]? :=
  overwritten_getElem ((L.store_length m).trans (L.store_length old).symm) _ j

theorem overlay_drop (old : M) {bytes : Bytes} {a : ℕ} (h : bytes.length ≤ a) :
    (L.overlay old bytes).drop a = (L.store old).drop a := by
  rw [Layout.overlay, List.drop_append, List.drop_eq_nil_of_le h, List.nil_append, List.drop_drop, Nat.add_sub_cancel' h]

theorem wire_type {msgtyp : ℕ} (htype : decode P.order ((L.store m).take P.long) = msgtyp) :
    ofType P msgtyp (L.wire P m) := by
  simp [ofType, Layout.wire, List.take_take, htype]

theorem eval_write {q : List Bytes} (htype : 0 < decode P.order ((L.store sbuf).take P.long))
    (hk : k.ident key = some id) (hq : k.queue id = some q)
    (hroom : (q.map (messageSize P)).sum + L.size sbuf ≤ k.capacity id) :
    eval (answer P) (L.messageQueueWrite key sbuf) k = some (0, k.set id (q ++ [L.wire P sbuf])) := by
  have hsend := eval_msgsnd hq htype hroom
  have hid : ¬ (id : ℤ) < 0 := by omega
  simp [Layout.messageQueueWrite, eval_bind, eval_msgget hk, hsend, hid, Layout.wire]

theorem eval_read (sbuf : M) {x : Bytes} {q : List Bytes} (hk : k.ident key = some id)
    (hq : k.queue id = some (x :: q)) (ht : ofType P L.msgtyp x) (hx : messageSize P x ≤ L.limit) :
    eval (answer P) (L.messageQueueRead key sbuf) k = some ((0, L.load (L.overlay sbuf x)), k.set id q) := by
  have hrcv := eval_msgrcv (l := []) hq nofun ht hx (L.store sbuf)
  have hid : ¬ (id : ℤ) < 0 := by omega
  have hgot : ¬ (messageSize P x : ℤ) < 0 := by omega
  simp [Layout.messageQueueRead, eval_bind, eval_msgget hk, hrcv, hid, hgot, Layout.overlay]

theorem eval_exchange (old : M) (htype : 0 < decode P.order ((L.store sbuf).take P.long))
    (hread : ofType P L.msgtyp (L.wire P sbuf)) (hlimit : L.size sbuf ≤ L.limit) (hk : k.ident key = some id)
    (hq : k.queue id = some []) (hroom : L.size sbuf ≤ k.capacity id) :
    ∃ k', eval (answer P) (L.exchange key sbuf old) k = some ((0, 0, L.load (L.overlay old (L.wire P sbuf))), k') := by
  have hwrite := eval_write htype hk hq (by simpa using hroom)
  have hk' : (k.set id ([] ++ [L.wire P sbuf])).ident key = some id := hk
  have hq' : (k.set id ([] ++ [L.wire P sbuf])).queue id = some [L.wire P sbuf] := by simp [Kernel.set]
  have hgot := eval_read old hk' hq' hread ((wire_size L P sbuf).trans hlimit)
  refine ⟨(k.set id ([] ++ [L.wire P sbuf])).set id [], ?_⟩
  simp only [Layout.exchange, eval_bind, hwrite, hgot, Option.bind_some, eval_pure]

variable {σ : Type} {step : σ → (c : SysCall) → c.Reply → σ → Prop} {s t : σ} {log : List Entry}

theorem exec_write {r : ℤ} (h : Exec (I := interface) step (L.messageQueueWrite key m) s log r t) :
    (∃ id : ℤ, id < 0 ∧ log = [⟨.msgget key false, id⟩] ∧ r = -1) ∨
      ∃ (id : ℤ) (buf : Bytes) (size : ℕ) (sent : ℤ), 0 ≤ id ∧
        log = [⟨.msgget key false, id⟩, ⟨.msgsnd id buf size, sent⟩] ∧ r = if sent < 0 then -1 else 0 := by
  obtain ⟨_, _, id, u, rfl, hget, hrest⟩ := exec_bind.mp h
  obtain ⟨rfl, -⟩ := exec_perform.mp hget
  by_cases hid : (id : ℤ) < 0
  · rw [if_pos hid] at hrest
    obtain ⟨rfl, rfl, -⟩ := exec_pure.mp hrest
    exact .inl ⟨id, hid, rfl, rfl⟩
  · rw [if_neg hid] at hrest
    obtain ⟨_, _, sent, v, rfl, hsend, hlast⟩ := exec_bind.mp hrest
    obtain ⟨rfl, -⟩ := exec_perform.mp hsend
    right
    refine ⟨id, L.store m, L.size m, sent, not_lt.mp hid, ?_⟩
    by_cases hs : (sent : ℤ) < 0
    · rw [if_pos hs] at hlast ⊢
      obtain ⟨rfl, rfl, -⟩ := exec_pure.mp hlast
      exact ⟨rfl, rfl⟩
    · rw [if_neg hs] at hlast ⊢
      obtain ⟨rfl, rfl, -⟩ := exec_pure.mp hlast
      exact ⟨rfl, rfl⟩

theorem exec_read {r : ℤ × M} (h : Exec (I := interface) step (L.messageQueueRead key m) s log r t) :
    (∃ id : ℤ, id < 0 ∧ log = [⟨.msgget key false, id⟩] ∧ r.1 = -1) ∨
      ∃ (id : ℤ) (buf : Bytes) (limit msgtyp : ℕ) (got : ℤ × Bytes), 0 ≤ id ∧
        log = [⟨.msgget key false, id⟩, ⟨.msgrcv id buf limit msgtyp, got⟩] ∧ r.1 = if got.1 < 0 then -1 else 0 := by
  obtain ⟨_, _, id, u, rfl, hget, hrest⟩ := exec_bind.mp h
  obtain ⟨rfl, -⟩ := exec_perform.mp hget
  by_cases hid : (id : ℤ) < 0
  · rw [if_pos hid] at hrest
    obtain ⟨rfl, rfl, -⟩ := exec_pure.mp hrest
    exact .inl ⟨id, hid, rfl, rfl⟩
  · rw [if_neg hid] at hrest
    obtain ⟨_, _, ⟨n, bytes⟩, v, rfl, hgot, hlast⟩ := exec_bind.mp hrest
    obtain ⟨rfl, -⟩ := exec_perform.mp hgot
    right
    refine ⟨id, L.store m, L.limit, L.msgtyp, (n, bytes), not_lt.mp hid, ?_⟩
    dsimp only at hlast ⊢
    by_cases hg : n < 0
    · rw [if_pos hg] at hlast ⊢
      obtain ⟨rfl, rfl, -⟩ := exec_pure.mp hlast
      exact ⟨rfl, rfl⟩
    · rw [if_neg hg] at hlast ⊢
      obtain ⟨rfl, rfl, -⟩ := exec_pure.mp hlast
      exact ⟨rfl, rfl⟩

theorem write_result {r : ℤ} (h : Exec (I := interface) step (L.messageQueueWrite key m) s log r t) :
    (r = 0 ↔ Placed log key) ∧ (r = 0 ↔ ∀ e ∈ log, e.1.Succeeds e.2) := by
  rcases exec_write h with ⟨id, hid, rfl, rfl⟩ | ⟨id, buf, size, sent, hid, rfl, rfl⟩
  · simp [Placed, Entry.found?, Entry.sent?, SysCall.Succeeds, hid]
  · rcases lt_or_ge sent 0 with hs | hs
    · simp [Placed, Entry.found?, Entry.sent?, SysCall.Succeeds, hid, hs]
    · simp [Placed, Entry.found?, Entry.sent?, SysCall.Succeeds, hid, hs, not_lt.mpr hs]

theorem read_result {r : ℤ × M} (h : Exec (I := interface) step (L.messageQueueRead key m) s log r t) :
    (r.1 = 0 ↔ Taken log key) ∧ (r.1 = 0 ↔ ∀ e ∈ log, e.1.Succeeds e.2) := by
  rcases exec_read h with ⟨id, hid, rfl, hr⟩ | ⟨id, buf, limit, msgtyp, got, hid, rfl, hr⟩ <;> rw [hr]
  · simp [Taken, Entry.found?, Entry.taken?, SysCall.Succeeds, hid]
  · rcases lt_or_ge got.1 0 with hg | hg
    · simp [Taken, Entry.found?, Entry.taken?, SysCall.Succeeds, hid, hg]
    · simp [Taken, Entry.found?, Entry.taken?, SysCall.Succeeds, hid, hg, not_lt.mpr hg]

theorem write_foreign {r : ℤ} (h : Exec (I := interface) step (L.messageQueueWrite key m) s log r t) :
    (∀ key', key ≠ key' → log.filterMap (Entry.found? key') = []) ∧ log.filterMap Entry.taken? = [] := by
  rcases exec_write h with ⟨id, hid, rfl, -⟩ | ⟨id, buf, size, sent, hid, rfl, -⟩
  · exact ⟨fun key' hne => by simp [Entry.found?, hne], rfl⟩
  · exact ⟨fun key' hne => by simp [Entry.found?, hne], rfl⟩

theorem read_foreign {r : ℤ × M} (h : Exec (I := interface) step (L.messageQueueRead key m) s log r t) :
    (∀ key', key ≠ key' → log.filterMap (Entry.found? key') = []) ∧ log.filterMap Entry.sent? = [] := by
  rcases exec_read h with ⟨id, hid, rfl, -⟩ | ⟨id, buf, limit, msgtyp, got, hid, rfl, -⟩
  · exact ⟨fun key' hne => by simp [Entry.found?, hne], rfl⟩
  · exact ⟨fun key' hne => by simp [Entry.found?, hne], rfl⟩

theorem write_read_log {s₁ t₁ s₂ t₂ : σ} {log₁ log₂ : List Entry} {key₁ key₂ r₁ : ℤ} {r₂ : ℤ × M} {m₁ m₂ : M}
    (hne : key₁ ≠ key₂) (hw : Exec (I := interface) step (L.messageQueueWrite key₁ m₁) s₁ log₁ r₁ t₁)
    (hr : Exec (I := interface) step (L.messageQueueRead key₂ m₂) s₂ log₂ r₂ t₂) :
    (Placed (log₁ ++ log₂) key₁ ↔ Placed log₁ key₁) ∧ (Taken (log₁ ++ log₂) key₂ ↔ Taken log₂ key₂) := by
  obtain ⟨hfound₁, htaken⟩ := write_foreign hw
  obtain ⟨hfound₂, hsent⟩ := read_foreign hr
  simp only [Placed, Taken, List.filterMap_append, hfound₁ _ hne, hfound₂ _ hne.symm, htaken, hsent,
    List.append_nil, List.nil_append, and_self]

end NutrinoStack.MessageQueues

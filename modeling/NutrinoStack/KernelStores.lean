import NutrinoStack.Layouts
import NutrinoStack.Stores

namespace NutrinoStack.MessageQueues

open Interactions MachineWords Processes Reductions Restarts Runs Stores

variable {M : Type} {L : Layout M} {P : Platform} {k k' : Kernel}

/-! The queue manager as operations over the kernel -/

def Layout.manager (L : Layout M) : Implementation (commands Key M) interface where
  program
    | .init key => messageQueueInit key
    | .write key sbuf => L.messageQueueWrite key sbuf
    | .read key sbuf => L.messageQueueRead key sbuf
  active c a h := by
    cases c with
    | init key => exact bind_active (p := perform (I := interface) (.msgget key true)) (perform_active _) a h
    | write key sbuf | read key sbuf =>
      exact bind_active (p := perform (I := interface) (.msgget key false)) (perform_active _) a h

inductive Transfer (M : Type)
  | placed (bytes : Bytes)
  | received (m : M)
  | failed

def Layout.transferred (L : Layout M) (P : Platform) : Entry → Option (Transfer M)
  | ⟨.msgget _ _, (r : ℤ)⟩ => if r < 0 then some .failed else none
  | ⟨.msgsnd _ buf size, (r : ℤ)⟩ => some (if r < 0 then .failed else .placed (buf.take (P.long + size)))
  | ⟨.msgrcv _ _ _ _, r⟩ => some (if r.1 < 0 then .failed else .received (L.load r.2))

def Layout.exchanged (L : Layout M) (P : Platform) : Done Key M → Option (Transfer M)
  | ⟨.init _, (r : ℤ)⟩ => if r < 0 then some .failed else none
  | ⟨.write _ sbuf, (r : ℤ)⟩ => some (if r < 0 then .failed else .placed (L.wire P sbuf))
  | ⟨.read _ _, r⟩ => some (if r.1 < 0 then .failed else .received r.2)

theorem answer_found {key : ℤ} {id : ℕ} (h : k.ident key = some id) (create : Bool) :
    answer P k (.msgget key create) = some ((id : ℤ), k) := by
  simp only [answer, h]

theorem answer_missing (key : Key) (h : k.ident key = none) : answer P k (.msgget key false) = some ((-1 : ℤ), k) := by
  simp only [answer, h, key.property, Bool.false_eq_true, or_self, if_false]

theorem answer_creates {key : ℤ} (h : k.ident key = none) :
    answer P k (.msgget key true) =
      match k.spare with
      | id :: rest => some ((id : ℤ), k.create key id rest)
      | [] => some ((-1 : ℤ), k) := by
  cases hspare : k.spare <;> simp only [answer, h, hspare, true_or, if_true]

theorem answer_ident {c : SysCall} {r : c.Reply} {key : ℤ} {id : ℕ} (h : answer P k c = some (r, k'))
    (hid : k.ident key = some id) : k'.ident key = some id := by
  cases c with
  | msgget key' create =>
    cases hkey : k.ident key' with
    | some id' =>
      rw [answer_found hkey] at h
      cases h
      exact hid
    | none =>
      have hne : ¬ (key = key' ∧ key' ≠ 0) := by
        rintro ⟨rfl, -⟩
        rw [hid] at hkey
        cases hkey
      simp only [answer, hkey] at h
      split at h
      · split at h <;> cases h
        · exact (if_neg hne).trans hid
        · exact hid
      · cases h
        exact hid
  | msgsnd id buf size =>
    simp only [answer] at h
    split at h
    · split at h <;> cases h <;> exact hid
    · cases h
      exact hid
  | msgrcv id buf limit msgtyp =>
    simp only [answer] at h
    split at h
    · split at h
      · split at h <;> cases h <;> exact hid
      · cases h
    · cases h
      exact hid

theorem looks_msgget {key : Key} {r : ℤ} (hr : ¬ r < 0) (h : answer P k (.msgget key false) = some (r, k')) :
    Looks (J := interface) (answer P) k (.msgget key false) r := by
  cases hid : k.ident key with
  | none =>
    rw [answer_missing key hid] at h
    cases h
    simp at hr
  | some id =>
    rw [answer_found hid] at h
    cases h
    intro k' hk'
    apply answer_found
    induction hk' with
    | refl => exact hid
    | tail _ hs ih =>
      obtain ⟨c, r, hs⟩ := hs
      exact answer_ident hs ih

theorem init_call (key : ℤ) :
    messageQueueInit key = .call (I := interface) (.msgget key true) fun id : ℤ => .done (if id < 0 then -1 else 0) := by
  apply congrArg (Prog.call (I := interface) (.msgget key true))
  funext id
  by_cases hid : (id : ℤ) < 0
  · exact (if_pos hid).trans (by rw [if_pos hid]; rfl)
  · exact (if_neg hid).trans (by rw [if_neg hid]; rfl)

theorem write_guarded (key : ℤ) (sbuf : M) :
    L.messageQueueWrite key sbuf =
      guarded (J := interface) (.msgget key false) (fun id : ℤ => id < 0) (-1 : ℤ)
        (fun id : ℤ => .msgsnd id (L.store sbuf) (L.size sbuf)) (fun _ sent => if (sent : ℤ) < 0 then -1 else 0) := by
  apply guarded_of_bind (J := interface) (c := .msgget key false)
  intro id sent
  by_cases hs : (sent : ℤ) < 0
  · exact (if_pos hs).trans (by rw [if_pos hs]; rfl)
  · exact (if_neg hs).trans (by rw [if_neg hs]; rfl)

theorem read_guarded (key : ℤ) (sbuf : M) :
    L.messageQueueRead key sbuf =
      guarded (J := interface) (.msgget key false) (fun id : ℤ => id < 0) ((-1 : ℤ), sbuf)
        (fun id : ℤ => .msgrcv id (L.store sbuf) L.limit L.msgtyp)
        (fun _ (got : ℤ × Bytes) => (if got.1 < 0 then -1 else 0, L.load got.2)) := by
  apply guarded_of_bind (J := interface) (c := .msgget key false)
  intro id got
  by_cases hg : got.1 < 0
  · exact (if_pos hg).trans (by rw [if_pos hg]; rfl)
  · exact (if_neg hg).trans (by rw [if_neg hg]; rfl)

theorem manager_atomic (c : Operation Key M) : Atomic (answer P) (L.manager.program c) 1 k := by
  cases c with
  | init key =>
    simp only [Layout.manager, init_call]
    exact fun k' r k₁ _ _ => .inl ⟨_, rfl⟩
  | write key sbuf =>
    simp only [Layout.manager, write_guarded]
    exact guarded_atomic (fun k r k' hr h => looks_msgget hr h) k
  | read key sbuf =>
    simp only [Layout.manager, read_guarded]
    exact guarded_atomic (fun k r k' hr h => looks_msgget hr h) k

theorem manager_shows (c : Operation Key M) :
    Shows (L.transferred P) (fun a => L.exchanged P ⟨c, a⟩) (L.manager.program c) := by
  cases c with
  | init key =>
    simp only [Layout.manager, init_call]
    intro r
    refine .inl ⟨_, rfl, ?_⟩
    by_cases hr : (r : ℤ) < 0 <;> simp [Layout.transferred, Layout.exchanged, hr]
  | write key sbuf =>
    simp only [Layout.manager, write_guarded]
    refine guarded_shows (fun r hr => ?_) fun r hr => ⟨?_, fun sent => ?_⟩
    · simp [Layout.transferred, Layout.exchanged, hr]
    · simp [Layout.transferred, hr]
    · by_cases hs : (sent : ℤ) < 0
      · simp [Layout.transferred, Layout.exchanged, hs]
      · simp [Layout.transferred, Layout.exchanged, hs, Layout.wire]
  | read key sbuf =>
    simp only [Layout.manager, read_guarded]
    refine guarded_shows (fun r hr => ?_) fun r hr => ⟨?_, fun got => ?_⟩
    · simp [Layout.transferred, Layout.exchanged, hr]
    · simp [Layout.transferred, hr]
    · by_cases hg : got.1 < 0 <;> simp [Layout.transferred, Layout.exchanged, hg]

theorem manager_reduces (L : Layout M) (P : Platform) :
    Reduces (answer P) L.manager (L.transferred P) (L.exchanged P) 1 :=
  ⟨fun c _ => manager_atomic c, manager_shows⟩

theorem eval_init (key : ℤ) :
    eval (answer P) (messageQueueInit key) k =
      match k.ident key with
      | some _ => some ((0 : ℤ), k)
      | none =>
        match k.spare with
        | id :: rest => some ((0 : ℤ), k.create key id rest)
        | [] => some ((-1 : ℤ), k) := by
  simp only [init_call, eval]
  cases hid : k.ident key with
  | some id =>
    rw [answer_found hid]
    simp [show ¬ (id : ℤ) < 0 by omega]
  | none =>
    rw [answer_creates hid]
    cases k.spare with
    | nil => simp
    | cons id rest => simp [show ¬ (id : ℤ) < 0 by omega]

theorem eval_write_cases (key : Key) (sbuf : M) :
    eval (answer P) (L.messageQueueWrite key sbuf) k =
      match k.ident key with
      | none => some ((-1 : ℤ), k)
      | some id =>
        match k.queue id with
        | none => some ((-1 : ℤ), k)
        | some q =>
          if 0 < decode P.order ((L.store sbuf).take P.long) ∧
              (q.map (messageSize P)).sum + L.size sbuf ≤ k.capacity id then
            some ((0 : ℤ), k.set id (q ++ [L.wire P sbuf]))
          else some ((-1 : ℤ), k) := by
  rw [write_guarded, eval_guarded]
  cases hid : k.ident key with
  | none =>
    rw [answer_missing key hid]
    rfl
  | some id =>
    have hpos : ¬ (id : ℤ) < 0 := by omega
    rw [answer_found hid]
    simp only [Option.bind_some, hpos, if_false, answer]
    cases k.queue id with
    | none => rfl
    | some q =>
      by_cases hc : 0 < decode P.order ((L.store sbuf).take P.long) ∧
          (q.map (messageSize P)).sum + L.size sbuf ≤ k.capacity id
      · simp only [hc]
        rfl
      · simp only [hc, if_false]
        rfl

theorem eval_read_cases (key : Key) (sbuf : M) :
    eval (answer P) (L.messageQueueRead key sbuf) k =
      match k.ident key with
      | none => some (((-1 : ℤ), sbuf), k)
      | some id =>
        match k.queue id with
        | none => some (((-1 : ℤ), L.load (L.store sbuf)), k)
        | some q =>
          match q.find? (ofType P L.msgtyp) with
          | none => none
          | some x =>
            if messageSize P x ≤ L.limit then
              some (((0 : ℤ), L.load (L.overlay sbuf x)), k.set id (q.eraseP (ofType P L.msgtyp)))
            else some (((-1 : ℤ), L.load (L.store sbuf)), k) := by
  rw [read_guarded, eval_guarded]
  cases hid : k.ident key with
  | none =>
    rw [answer_missing key hid]
    rfl
  | some id =>
    have hpos : ¬ (id : ℤ) < 0 := by omega
    rw [answer_found hid]
    simp only [Option.bind_some, hpos, if_false, answer]
    cases k.queue id with
    | none => rfl
    | some q =>
      dsimp only
      cases q.find? (ofType P L.msgtyp) with
      | none => rfl
      | some x =>
        by_cases hx : messageSize P x ≤ L.limit
        · have hsize : ¬ (messageSize P x : ℤ) < 0 := by omega
          simp only [hx, if_true, Option.map_some, hsize, if_false, Layout.overlay]
        · simp only [hx, if_false]
          rfl

def Layout.discipline (L : Layout M) (P : Platform) : Discipline M where
  accepts capacity q m :=
    0 < decode P.order ((L.store m).take P.long) ∧
      (q.map fun x => messageSize P (L.wire P x)).sum + L.size m ≤ capacity
  picks m := ofType P L.msgtyp (L.wire P m)
  fits m := messageSize P (L.wire P m) ≤ L.limit
  overlay sbuf m := L.load (L.overlay sbuf (L.wire P m))
  kept sbuf := L.load (L.store sbuf)

theorem room_bounds (L : Layout M) (P : Platform) :
    (L.discipline P).Bounds fun c q => (q.map fun m => messageSize P (L.wire P m)).sum ≤ c where
  nil c := Nat.zero_le c
  put c q m _ hm := by
    have hsize := wire_size L P m
    have hroom := hm.2
    simp only [List.map_append, List.map_cons, List.map_nil, List.sum_append, List.sum_cons, List.sum_nil]
    omega
  take c pre m post h := by
    simp only [List.map_append, List.map_cons, List.sum_append, List.sum_cons] at h ⊢
    omega

/-- Under the keys of `S` lie the queues of the store; what lies under the others is left open. -/
structure KeepsOn (S : Set Key) (wire : M → Bytes) (k : Kernel) (σ : Store Key M) : Prop where
  apart : ∀ key key' id, k.ident key = some id → k.ident key' = some id → key = key'
  absent : ∀ key : Key, k.ident key = none → σ.queue key = none
  present : ∀ key ∈ S, ∀ id, k.ident key = some id →
    ∃ q, σ.queue key = some q ∧ k.queue id = some (q.map wire) ∧ k.capacity id = σ.capacity key
  unused : k.spare.Nodup ∧ ∀ id ∈ k.spare, ∀ key, k.ident key ≠ some id

abbrev Keeps (wire : M → Bytes) (k : Kernel) (σ : Store Key M) : Prop := KeepsOn Set.univ wire k σ

variable {S : Set Key} {σ : Store Key M} {wire : M → Bytes}

theorem KeepsOn.put {key : Key} (hS : key ∈ S) {id : ℕ} (h : KeepsOn S wire k σ) (hid : k.ident key = some id)
    (q : List M) : KeepsOn S wire (k.set id (q.map wire)) (σ.put key q) where
  apart := h.apart
  unused := h.unused
  absent key' hk' := by
    have hne : key' ≠ key := by
      rintro rfl
      rw [show k.ident key' = none from hk'] at hid
      cases hid
    simp only [Store.put, Function.update_of_ne hne]
    exact h.absent key' hk'
  present key' hS' id' hk' := by
    by_cases hkey : key' = key
    · subst hkey
      obtain rfl : id = id' := Option.some.inj (hid.symm.trans hk')
      obtain ⟨_, -, -, hcap⟩ := h.present key' hS id hid
      exact ⟨q, by simp [Store.put], by simp [Kernel.set], hcap⟩
    · have hne : (id' : ℤ) ≠ id := by
        intro he
        obtain rfl : id' = id := by exact_mod_cast he
        exact hkey (Subtype.ext (h.apart _ _ _ hk' hid))
      obtain ⟨q', hq', hx, hcap⟩ := h.present key' hS' id' hk'
      exact ⟨q', by simpa [Store.put, Function.update_of_ne hkey] using hq',
        by simpa [Kernel.set, Function.update_of_ne hne] using hx, hcap⟩

theorem create_ident (k : Kernel) (key : Key) (id : ℕ) (spare : List ℕ) (key' : ℤ) :
    (k.create key id spare).ident key' = if key' = key then some id else k.ident key' := by
  simp [Kernel.create, key.property]

theorem KeepsOn.create {key : Key} {id : ℕ} {rest : List ℕ} (h : KeepsOn S wire k σ) (hkey : k.ident key = none)
    (hspare : k.spare = id :: rest) :
    KeepsOn S wire (k.create key id rest)
      ⟨Function.update σ.queue key (some []), Function.update σ.capacity key (k.capacity id)⟩ := by
  have hunused := h.unused
  rw [hspare, List.nodup_cons] at hunused
  obtain ⟨⟨hid, hnodup⟩, hall⟩ := hunused
  have hnew : ∀ key', k.ident key' ≠ some id := hall id (by simp)
  refine ⟨fun key₁ key₂ id' h₁ h₂ => ?_, fun key' hk' => ?_, fun key' hS' id' hk' => ?_, hnodup, fun id' hid' key' => ?_⟩
  · rw [create_ident] at h₁ h₂
    split at h₁ <;> split at h₂
    · next he₁ he₂ => exact he₁.trans he₂.symm
    · exact (hnew key₂ (h₂.trans h₁.symm)).elim
    · exact (hnew key₁ (h₁.trans h₂.symm)).elim
    · exact h.apart _ _ _ h₁ h₂
  · rw [create_ident] at hk'
    split at hk'
    · cases hk'
    · next hne =>
      have hne' : key' ≠ key := fun he => hne (congrArg Subtype.val he)
      exact (Function.update_of_ne hne' _ _).trans (h.absent key' hk')
  · rw [create_ident] at hk'
    split at hk'
    · next he =>
      obtain rfl : key' = key := Subtype.ext he
      obtain rfl : id = id' := by simpa using hk'
      exact ⟨[], by simp, by simp [Kernel.create], by simp [Kernel.create]⟩
    · next hne =>
      have hne' : key' ≠ key := fun he => hne (congrArg Subtype.val he)
      have hids : (id' : ℤ) ≠ id := by
        intro he
        obtain rfl : id' = id := by exact_mod_cast he
        exact hnew key' hk'
      obtain ⟨q, hq, hx, hcap⟩ := h.present key' hS' id' hk'
      exact ⟨q, (Function.update_of_ne hne' _ _).trans hq, (Function.update_of_ne hids _ _).trans hx,
        hcap.trans (Function.update_of_ne hne' _ _).symm⟩
  · rw [create_ident]
    split
    · rintro ⟨rfl⟩
      exact hid hid'
    · exact hall id' (List.mem_cons_of_mem _ hid') key'

def vacant (M : Type) (keys : List Key) (capacity : ℕ) : Store Key M where
  queue key := if key ∈ keys then some [] else none
  capacity _ := capacity

theorem vacant_queued (keys : List Key) (capacity : ℕ) (key : Key) : (vacant M keys capacity).queued key = [] := by
  by_cases hk : key ∈ keys <;> simp [Store.queued, vacant, hk]

theorem equipped_keeps (S : Set Key) (wire : M → Bytes) (keys : List Key) (capacity room : ℕ) :
    KeepsOn S wire (equipped keys capacity room) (vacant M keys capacity) where
  apart key key' id h h' := by
    obtain ⟨_, he, -⟩ := List.idxOf?_eq_some_iff.mp h
    obtain ⟨_, he', -⟩ := List.idxOf?_eq_some_iff.mp h'
    exact he.symm.trans he'
  absent key h := by
    have hnot := List.idxOf?_eq_none_iff.mp h
    exact if_neg fun hmem => hnot (List.mem_map_of_mem hmem)
  present key _ id h := by
    obtain ⟨hlt, he, -⟩ := List.idxOf?_eq_some_iff.mp h
    obtain ⟨key', hmem, hkey⟩ := List.mem_map.mp (he ▸ List.getElem_mem hlt)
    obtain rfl : key' = key := Subtype.ext hkey
    have hlt' : (id : ℤ) < keys.length := by simpa using hlt
    exact ⟨[], if_pos hmem, by simp [equipped, hlt'], rfl⟩
  unused := by
    refine ⟨List.nodup_range', fun id hid key h => ?_⟩
    obtain ⟨hlt, -, -⟩ := List.idxOf?_eq_some_iff.mp h
    have hge := (List.mem_range'_1.mp hid).1
    rw [List.length_map] at hlt
    omega

theorem queued_kernel {key : Key} (hS : key ∈ S) {id : ℕ} (h : KeepsOn S wire k σ) (hid : k.ident key = some id) :
    k.queue id = some ((σ.queued key).map wire) := by
  obtain ⟨q, hq, hx, -⟩ := h.present key hS id hid
  rw [hx, Store.queued, hq, Option.getD_some]

theorem find_wires {p : Bytes → Bool} {ms : List M} {x : Bytes} (h : (ms.map wire).find? p = some x) :
    ∃ pre m post, ms = pre ++ m :: post ∧ (∀ y ∈ pre, p (wire y) = false) ∧ p (wire m) ∧ x = wire m ∧
      (ms.map wire).eraseP p = (pre ++ post).map wire := by
  obtain ⟨hx, pre', post', hsplit, hpre'⟩ := List.find?_eq_some_iff_append.mp h
  obtain ⟨pre, tail, rfl, rfl, htail⟩ := List.map_eq_append_iff.mp hsplit
  obtain ⟨m, post, rfl, rfl, rfl⟩ := List.map_eq_cons_iff.mp htail
  have hpre : ∀ y ∈ pre, p (wire y) = false := by
    intro y hy
    simpa using hpre' _ (List.mem_map_of_mem hy)
  refine ⟨pre, m, post, rfl, hpre, hx, rfl, ?_⟩
  rw [List.map_append, List.map_cons, List.eraseP_append_right, List.eraseP_cons_of_pos hx, List.map_append]
  intro b hb
  obtain ⟨y, hy, rfl⟩ := List.mem_map.mp hb
  rw [hpre y hy]
  exact Bool.false_ne_true

theorem manager_legal (h : KeepsOn S (L.wire P) k σ) {c : Operation Key M} {r : c.Reply}
    (ha : L.manager.atomically (answer P) k c = some (r, k')) (hS : c.key ∈ S) :
    ∃ σ', Legal (L.discipline P) σ ⟨c, r⟩ σ' ∧ KeepsOn S (L.wire P) k' σ' := by
  cases c with
  | init key =>
    change eval (answer P) (messageQueueInit key) k = _ at ha
    rw [eval_init] at ha
    cases hid : k.ident key with
    | some id =>
      rw [hid] at ha
      cases ha
      obtain ⟨q, hq, -⟩ := h.present key hS id hid
      exact ⟨σ, .found hq, h⟩
    | none =>
      have habs := h.absent key hid
      rw [hid] at ha
      cases hspare : k.spare with
      | cons id rest =>
        rw [hspare] at ha
        cases ha
        exact ⟨_, .created (k.capacity id) habs, h.create hid hspare⟩
      | nil =>
        rw [hspare] at ha
        cases ha
        exact ⟨σ, .full habs, h⟩
  | write key m =>
    replace hS : key ∈ S := hS
    change eval (answer P) (L.messageQueueWrite key m) k = _ at ha
    rw [eval_write_cases] at ha
    cases hid : k.ident key with
    | none =>
      rw [hid] at ha
      cases ha
      refine ⟨σ, .refused fun q hq => ?_, h⟩
      rw [h.absent key hid] at hq
      cases hq
    | some id =>
      obtain ⟨q, hq, hx, hcap⟩ := h.present key hS id hid
      simp only [hid, hx, hcap, List.map_map, Function.comp_def] at ha
      split at ha
      · next hm =>
        cases ha
        refine ⟨_, .written hq hm, ?_⟩
        simpa using h.put hS hid (q ++ [m])
      · next hm =>
        cases ha
        refine ⟨σ, .refused fun q' hq' => ?_, h⟩
        rw [hq] at hq'
        cases hq'
        exact hm
  | read key sbuf =>
    change eval (answer P) (L.messageQueueRead key sbuf) k = _ at ha
    rw [eval_read_cases] at ha
    cases hid : k.ident key with
    | none =>
      rw [hid] at ha
      cases ha
      exact ⟨σ, .missing sbuf (h.absent key hid), h⟩
    | some id =>
      obtain ⟨q, hq, hx, -⟩ := h.present key hS id hid
      simp only [hid, hx] at ha
      cases hfind : (q.map (L.wire P)).find? (ofType P L.msgtyp) with
      | none => simp [hfind] at ha
      | some x =>
        obtain ⟨pre, m, post, rfl, hpre, hm, rfl, herase⟩ := find_wires hfind
        simp only [hfind, herase] at ha
        split at ha
        · next hfit =>
          cases ha
          exact ⟨_, .taken sbuf hq hpre hm hfit, h.put hS hid (pre ++ post)⟩
        · next hfit =>
          cases ha
          exact ⟨σ, .blocked sbuf hq hpre hm hfit, h⟩

theorem manager_waits (h : KeepsOn S (L.wire P) k σ) {c : Operation Key M}
    (ha : L.manager.atomically (answer P) k c = none) :
    ∃ key sbuf, c = .read key sbuf ∧
      (key ∈ S → ∃ q, σ.queue key = some q ∧ ∀ m ∈ q, (L.discipline P).picks m = false) := by
  cases c with
  | init key =>
    change eval (answer P) (messageQueueInit key) k = _ at ha
    rw [eval_init] at ha
    split at ha
    · cases ha
    · split at ha <;> cases ha
  | write key m =>
    change eval (answer P) (L.messageQueueWrite key m) k = _ at ha
    rw [eval_write_cases] at ha
    split at ha
    · cases ha
    · split at ha
      · cases ha
      · split at ha <;> cases ha
  | read key sbuf =>
    change eval (answer P) (L.messageQueueRead key sbuf) k = _ at ha
    rw [eval_read_cases] at ha
    refine ⟨key, sbuf, rfl, fun hS => ?_⟩
    cases hid : k.ident key with
    | none => simp [hid] at ha
    | some id =>
      obtain ⟨q, hq, hx, -⟩ := h.present key hS id hid
      simp only [hid, hx] at ha
      cases hfind : (q.map (L.wire P)).find? (ofType P L.msgtyp) with
      | none =>
        refine ⟨q, hq, fun m hm => ?_⟩
        exact (Bool.not_eq_true _).mp (List.find?_eq_none.mp hfind _ (List.mem_map_of_mem hm))
      | some y =>
        simp only [hfind] at ha
        split at ha <;> cases ha

section

variable {ι : Type} [DecidableEq ι] {F : Family (commands Key M) ι} {σ₀ : Store Key M} {s₀ s : Pool F Kernel}
  (h₀ : Keeps (L.wire P) s₀.kernel σ₀)
include h₀

theorem manager_history {tr : List (Event (commands Key M) ι)}
    (h : Run (step F (L.manager.atomically (answer P))) s₀ tr s) :
    ∃ σ, History (L.discipline P) σ₀ (tr.map Event.entry) σ ∧ Keeps (L.wire P) s.kernel σ :=
  run_history (R := Keeps (L.wire P)) (fun _ _ _ _ _ hk ha => manager_legal hk ha (Set.mem_univ _)) h₀ h

theorem manager_restarting {may : Kernel → (i : ι) → F.Memory i → Bool}
    {tr : List (Option (Event (commands Key M) ι))}
    (h : Run (restarting F (L.manager.atomically (answer P)) may) s₀ tr s) :
    ∃ σ, History (L.discipline P) σ₀ ((tr.filterMap id).map Event.entry) σ ∧ Keeps (L.wire P) s.kernel σ :=
  restarting_history (R := Keeps (L.wire P)) (fun _ _ _ _ _ hk ha => manager_legal hk ha (Set.mem_univ _)) h₀ h

end

end NutrinoStack.MessageQueues

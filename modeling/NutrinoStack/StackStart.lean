import NutrinoStack.StackPrograms

namespace NutrinoStack.LedStack

open Interactions MachineWords MessageQueues Processes QueueManager Reductions Runs Stores

def queues : List Queue := [.core, .application, .device]

def begins : ℕ → Prog operations Stage
  | 0 => .done .start
  | n + 1 => starts (queues.drop (n + 1))

def begun (n : ℕ) (k : Kernel) (d : Msgbuff) (script : ℕ → Script) : Pool programs Kernel where
  kernel := k
  thread
    | .core => begins n
    | .device => .done d
    | .client i => .done (script i)

abbrev start : Kernel → Msgbuff → (ℕ → Script) → Pool programs Kernel := begun 0

abbrev Calls (P : Platform) : Pool ((manager P).family programs) Kernel → List (Event interface Process) →
    Pool ((manager P).family programs) Kernel → Prop :=
  Run (step ((manager P).family programs) (answer P))

def keys : Set Key := Set.range Queue.name

theorem name_mem (q : Queue) : q.name ∈ keys := ⟨q, rfl⟩

def Ready (P : Platform) (cap : Queue → ℕ) (k : Kernel) : Prop :=
  ∃ σ, KeepsOn keys (send P) k σ ∧ ∀ q : Queue, σ.capacity q.name = cap q ∧ σ.queue q.name = some []

/-- The first calls, at most three of them, are calls of the core, and after these the queues are ready. -/
structure Boots (P : Platform) (cap : Queue → ℕ) (k : Kernel) (d : Msgbuff) (script : ℕ → Script)
    (boot : List (Event interface Process)) (u : Pool ((manager P).family programs) Kernel) : Prop where
  run : Calls P ((manager P).pool (start k d script)) boot u
  core : ∀ e ∈ boot, e.who = .core
  short : boot.length ≤ queues.length
  ready : Ready P cap u.kernel

variable {P : Platform} {k k' : Kernel} {d : Msgbuff} {script : ℕ → Script} {boot : List (Event interface Process)}
  {u : Pool ((manager P).family programs) Kernel} {cap : Queue → ℕ}

theorem starts_call (q : Queue) (qs : List Queue) :
    translate (manager P).program (starts (q :: qs)) =
      .call (I := interface) (.msgget q.key true) fun _ => translate (manager P).program (starts qs) := by
  change (messageQueueInit q.key >>= fun _ => translate (manager P).program (starts qs)) = _
  rw [init_call]
  rfl

theorem begins_next {n : ℕ} (hn : n < queues.length) :
    ((manager P).family programs).next .core (translate (manager P).program (begins n)) =
      some (.call (I := interface) (.msgget queues[n].key true) fun _ =>
        translate (manager P).program (begins (n + 1))) := by
  match n with
  | 0 => exact congrArg some (starts_call .core [.application, .device])
  | 1 => exact congrArg (((manager P).family programs).next .core) (starts_call .application [.device])
  | 2 => exact congrArg (((manager P).family programs).next .core) (starts_call .device [])

theorem begun_step {n : ℕ} (hn : n < queues.length) {e : Event interface Process}
    (hs : step ((manager P).family programs) (answer P) ((manager P).pool (begun n k d script)) .core = some (e, u)) :
    ∃ (r : ℤ) (k' : Kernel), answer P k (.msgget queues[n].key true) = some (r, k') ∧
      e = ⟨.core, ⟨.msgget queues[n].key true, r⟩⟩ ∧ u = (manager P).pool (begun (n + 1) k' d script) := by
  obtain ⟨c, next, r, k', hnext, ha, rfl, rfl⟩ := step_iff.mp hs
  cases (begins_next hn).symm.trans hnext
  refine ⟨r, k', ha, rfl, ?_⟩
  simp only [Implementation.pool, Pool.mk.injEq]
  refine ⟨rfl, funext fun i => ?_⟩
  cases i with
  | core => exact Function.update_self _ _ _
  | device | client i => exact Function.update_of_ne (by simp) _ _

theorem boot_run {I : List (Event interface Process) → Kernel → Prop}
    (h : Calls P ((manager P).pool (start k d script)) boot u) (hcore : ∀ e ∈ boot, e.who = .core)
    (hshort : boot.length ≤ queues.length) (h₀ : I [] k)
    (hI : ∀ (tr : List (Event interface Process)) k (r : ℤ) k' (hn : tr.length < queues.length), I tr k →
      answer P k (.msgget queues[tr.length].key true) = some (r, k') →
      I (tr ++ [⟨.core, ⟨.msgget queues[tr.length].key true, r⟩⟩]) k') :
    u = (manager P).pool (begun boot.length u.kernel d script) ∧ I boot u.kernel := by
  induction h with
  | nil => exact ⟨rfl, h₀⟩
  | @snoc tr t v a e _ hs ih =>
    have hlast : e.who = .core := hcore e (by simp)
    have hlt : tr.length < queues.length := by
      rw [List.length_append] at hshort
      exact hshort
    obtain ⟨ht, hinv⟩ := ih (fun e he => hcore e (by simp [he])) hlt.le
    obtain rfl : a = .core := by
      obtain ⟨_, _, _, _, -, -, rfl, -⟩ := step_iff.mp hs
      exact hlast
    rw [ht] at hs
    obtain ⟨r, k', ha, rfl, rfl⟩ := begun_step hlt hs
    refine ⟨?_, hI tr t.kernel r k' hlt hinv ha⟩
    rw [List.length_append]
    rfl

def Lost (k : Kernel) : Prop := k.spare = [] ∧ ∃ q : Queue, k.ident q.key = none

theorem msgget_failed {key r : ℤ} (ha : answer P k (.msgget key true) = some (r, k')) (hr : r < 0) :
    k' = k ∧ k.spare = [] ∧ k.ident key = none := by
  cases hid : k.ident key with
  | some id =>
    rw [answer_found hid] at ha
    cases ha
    omega
  | none =>
    rw [answer_creates hid] at ha
    cases hspare : k.spare with
    | nil =>
      rw [hspare] at ha
      cases ha
      exact ⟨rfl, rfl, rfl⟩
    | cons id rest =>
      rw [hspare] at ha
      cases ha
      omega

theorem Lost.msgget (h : Lost k) {key r : ℤ} (ha : answer P k (.msgget key true) = some (r, k')) : Lost k' := by
  cases hid : k.ident key with
  | some id =>
    rw [answer_found hid] at ha
    cases ha
    exact h
  | none =>
    rw [answer_creates hid, h.1] at ha
    cases ha
    exact h

theorem Ready.found (h : Ready P cap k) : ¬ Lost k := by
  rintro ⟨-, q, hnone⟩
  obtain ⟨σ, hk, hq⟩ := h
  have habsent := hk.absent q.name hnone
  rw [(hq q).2] at habsent
  cases habsent

theorem Boots.begun (h : Boots P cap k d script boot u) :
    u = (manager P).pool (begun boot.length u.kernel d script) :=
  (boot_run (I := fun _ _ => True) h.run h.core h.short trivial fun _ _ _ _ _ _ _ => trivial).1

theorem Boots.silent (h : Boots P cap k d script boot u) : ∀ e ∈ boot, transferred P e.entry = none := by
  obtain ⟨-, hsilent⟩ := boot_run (I := fun tr k => (∀ e ∈ tr, transferred P e.entry = none) ∨ Lost k) h.run h.core
    h.short (.inl nofun) fun tr k r k' hn hinv ha => by
      rcases hinv with hall | hlost
      · by_cases hr : r < 0
        · obtain ⟨rfl, hspare, hnone⟩ := msgget_failed ha hr
          exact .inr ⟨hspare, _, hnone⟩
        · refine .inl fun e he => ?_
          rcases List.mem_append.mp he with he | he
          · exact hall e he
          · obtain rfl := List.mem_singleton.mp he
            simp [Layout.transferred, hr]
      · exact .inr (hlost.msgget ha)
  exact hsilent.resolve_right h.ready.found

/-- The queues may be there from an earlier run that has left nothing on them. -/
theorem boots_warm (hk : Ready P cap k) : Boots P cap k d script [] ((manager P).pool (start k d script)) :=
  ⟨.nil, nofun, Nat.zero_le _, hk⟩

theorem keeps_msgget {σ : Store Key Msgbuff} (h : KeepsOn keys (send P) k σ) {key : Key} (hkey : key ∈ keys) {r : ℤ}
    (hroom : k.spare ≠ []) (ha : answer P k (.msgget key true) = some (r, k')) :
    ∃ σ', KeepsOn keys (send P) k' σ' ∧ σ'.queue key ≠ none ∧ (∀ key', σ'.queued key' = σ.queued key') ∧
      (∀ key', σ.queue key' ≠ none → σ'.queue key' ≠ none) ∧ k'.capacity = k.capacity ∧
      k.spare.length ≤ k'.spare.length + 1 := by
  cases hid : k.ident key with
  | some id =>
    rw [answer_found hid] at ha
    cases ha
    obtain ⟨q, hq, -⟩ := h.present key hkey id hid
    exact ⟨σ, h, by simp [hq], fun _ => rfl, fun _ hold => hold, rfl, Nat.le_succ _⟩
  | none =>
    rw [answer_creates hid] at ha
    cases hspare : k.spare with
    | nil => exact (hroom hspare).elim
    | cons id rest =>
      rw [hspare] at ha
      cases ha
      refine ⟨_, h.create hid hspare, by simp, queued_created _ (h.absent key hid), fun key' hk' => ?_, rfl,
        Nat.le_refl _⟩
      by_cases he : key' = key
      · simp [he]
      · simpa [Function.update_of_ne he] using hk'

/-- The ordinary first start: the core makes its three calls, and there is room for the queues that are missing. -/
theorem boots_cold {σ : Store Key Msgbuff} (hk : KeepsOn keys (send P) k σ) (hempty : ∀ q : Queue, σ.queued q.name = [])
    (hroom : queues.length ≤ k.spare.length) {capacity : ℕ} (hcap : ∀ id, k.capacity id = capacity)
    (h : Calls P ((manager P).pool (start k d script)) boot u) (hcore : ∀ e ∈ boot, e.who = .core)
    (hlength : boot.length = queues.length) : Boots P (fun _ => capacity) k d script boot u := by
  obtain ⟨-, σ', hk', hempty', hthere, hcap', -⟩ := boot_run (I := fun tr k => ∃ σ, KeepsOn keys (send P) k σ ∧
    (∀ q : Queue, σ.queued q.name = []) ∧ (∀ q ∈ queues.take tr.length, σ.queue q.name ≠ none) ∧
    (∀ id, k.capacity id = capacity) ∧ queues.length ≤ k.spare.length + tr.length) h hcore hlength.le
    ⟨σ, hk, hempty, by simp, hcap, hroom⟩ fun tr k r k' hn hinv ha => by
      obtain ⟨σ, hk, hempty, hthere, hcap, hroom⟩ := hinv
      have hspare : k.spare ≠ [] := by
        intro hnil
        rw [hnil, List.length_nil] at hroom
        omega
      obtain ⟨σ', hk', hnew, hqueued, hold, hsame, hless⟩ := keeps_msgget hk (name_mem queues[tr.length]) hspare ha
      refine ⟨σ', hk', fun q => (hqueued _).trans (hempty q), fun q hq => ?_, fun id => hsame ▸ hcap id, ?_⟩
      · rw [List.length_append, List.length_singleton, List.take_add_one, List.getElem?_eq_getElem hn] at hq
        rcases List.mem_append.mp hq with hq | hq
        · exact hold _ (hthere q hq)
        · obtain rfl : q = queues[tr.length] := by simpa using hq
          exact hnew
      · rw [List.length_append, List.length_singleton]
        omega
  refine ⟨h, hcore, hlength.le, σ', hk', fun q => ?_⟩
  have hq : σ'.queue q.name ≠ none := hthere q (by rw [hlength]; cases q <;> decide)
  obtain ⟨id, hid⟩ : ∃ id, u.kernel.ident q.name = some id :=
    Option.ne_none_iff_exists'.mp fun hnone => hq (hk'.absent _ hnone)
  obtain ⟨ms, hms, -, hcapacity⟩ := hk'.present _ (name_mem q) id hid
  have hnil := hempty' q
  rw [Store.queued, hms, Option.getD_some] at hnil
  exact ⟨hcapacity.symm.trans (hcap' _), hnil ▸ hms⟩

end NutrinoStack.LedStack

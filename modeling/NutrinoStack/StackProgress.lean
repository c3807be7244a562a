import Mathlib.Algebra.BigOperators.Ring.Finset
import NutrinoStack.Budgets
import NutrinoStack.Quiescence
import NutrinoStack.StackRefinement

namespace NutrinoStack.LedStack

open Application CoreFsm Interactions LedSystem MachineWords MessageQueues Processes QueueManager Reductions Stores
  StructLayout

variable {P : Platform} {k : Kernel} {cap : Queue → ℕ} {rule : SendRule} {d : Msgbuff}
  {script : ℕ → Script} {tr : List (Processes.Event operations Process)} {g : Ghost P} {v : Pool programs Kernel}
  {boot calls : List (Processes.Event interface Process)} {u p : Pool ((manager P).family programs) Kernel}

structure Stuck (script : ℕ → Script) (g : Ghost P) : Prop where
  quiet : Quiet g.state
  clients : ∀ i, g.state.waiting i = none ∧ asked i g.events = (script i).map Prod.fst ∨
    g.state.waiting i ≠ none ∧ g.state.queue .application = []

theorem waits_read (h : Tracks P cap rule d script tr k g) {i : Process} {c : Operation Key Msgbuff}
    {next : c.Reply → Prog operations (programs.Memory i)} {q : Prog operations (programs.Memory i)}
    (hn : programs.next i q = some (.call c next))
    (hs : programs.next i q = none ∨ ∃ c next, programs.next i q = some (.call c next) ∧
      (manager P).atomically (answer P) k c = none) :
    ∃ key sbuf, c = .read key sbuf ∧ ∀ q : Queue, q.name = key → g.state.queue q = [] := by
  rcases hs with hnone | ⟨c', next', hc', hwait⟩
  · rw [hn] at hnone
    cases hnone
  · rw [hn] at hc'
    cases hc'
    exact carries_waits h.carries hwait

theorem stuck_core (h : Tracks P cap rule d script tr k g) {q : Prog operations Stage} (hq : CoreAt g q)
    (hs : programs.next .core q = none ∨ ∃ c next, programs.next .core q = some (.call c next) ∧
      (manager P).atomically (answer P) k c = none) : g.state.hand = [] ∧ g.state.queue .core = [] := by
  rcases hq with rfl | ⟨-, -, hleft, ⟨rfl, -⟩ | rfl⟩
  · cases hhand : g.state.hand with
    | nil =>
      rw [hhand] at hs
      obtain ⟨key, sbuf, hread, hempty⟩ := waits_read (i := .core) (q := .done (.loop g.state.core)) h
        (main_loop (core_running h)) hs
      cases hread
      exact ⟨rfl, hempty .core rfl⟩
    | cons x rest =>
      rw [hhand] at hs
      obtain ⟨key, sbuf, hread, -⟩ := waits_read h rfl hs
      cases hread
  · obtain ⟨key, sbuf, hread, -⟩ := waits_read h rfl hs
    cases hread
  · cases hl : g.left with
    | nil => exact (hleft hl).elim
    | cons x rest =>
      rw [hl] at hs
      obtain ⟨key, sbuf, hread, -⟩ := waits_read h rfl hs
      cases hread

theorem stuck_device (h : Tracks P cap rule d script tr k g) {q : Prog operations Msgbuff} (hq : DeviceAt g.state q)
    (hs : programs.next .device q = none ∨ ∃ c next, programs.next .device q = some (.call c next) ∧
      (manager P).atomically (answer P) k c = none) : g.state.reply = none ∧ g.state.queue .device = [] := by
  cases hr : g.state.reply with
  | none =>
    obtain rfl : q = .done g.state.device := by simpa [DeviceAt, hr] using hq
    obtain ⟨key, sbuf, hread, hempty⟩ := waits_read (i := .device) (q := .done g.state.device) h
      (congrArg some (deviceWrapper_read g.state.device)) hs
    cases hread
    exact ⟨rfl, hempty .device rfl⟩
  | some x =>
    obtain rfl : q = replies g.state.device := by simpa [DeviceAt, hr] using hq
    obtain ⟨key, sbuf, hread, -⟩ := waits_read h rfl hs
    cases hread

theorem stuck_client (h : Tracks P cap rule d script tr k g) {i : ℕ} {q : Prog operations Script}
    (hq : ClientAt (script i) i g q)
    (hs : programs.next (.client i) q = none ∨ ∃ c next, programs.next (.client i) q = some (.call c next) ∧
      (manager P).atomically (answer P) k c = none) :
    g.state.waiting i = none ∧ asked i g.events = (script i).map Prod.fst ∨
      g.state.waiting i ≠ none ∧ g.state.queue .application = [] := by
  obtain ⟨rest, hasked, hq⟩ := hq
  cases hw : g.state.waiting i with
  | none =>
    obtain rfl : q = .done rest := by simpa [hw] using hq
    cases rest with
    | nil => exact .inl ⟨rfl, by simpa using hasked⟩
    | cons x rest =>
      obtain ⟨key, sbuf, hread, -⟩ := waits_read (i := .client i) (q := .done (x :: rest)) h
        (client_write x.1 x.2 rest) hs
      cases hread
  | some w =>
    obtain ⟨-, rfl⟩ : w.1.client = i ∧ q = _ := by simpa only [hw] using hq
    obtain ⟨key, sbuf, hread, hempty⟩ := waits_read h rfl hs
    cases hread
    exact .inr ⟨nofun, hempty .application rfl⟩

theorem holds_stuck (hobey : Obeys P cap rule d script)
    (h : (outline P cap rule d script hobey).Holds tr v g)
    (hs : ∀ i, step programs ((manager P).atomically (answer P)) v i = none) : Stuck script g := by
  have hstop := fun i => stopped_iff.mp (hs i)
  obtain ⟨hhand, hcore⟩ := stuck_core h.overall (h.thread .core) (hstop .core)
  obtain ⟨hreply, hdevice⟩ := stuck_device h.overall (h.thread .device) (hstop .device)
  exact ⟨⟨hcore, hdevice, hhand, hreply⟩, fun i => stuck_client h.overall (h.thread (.client i)) (hstop (.client i))⟩

def total (n : ℕ) (script : ℕ → Script) (f : Call → ℕ) : ℕ :=
  ∑ i ∈ Finset.range n, ((script i).map fun x => f x.1).sum

theorem asked_sum (f : Call → ℕ) {n : ℕ} {es : List LedSystem.Event} (hn : ∀ r ∈ requests es, r.client < n) :
    ∑ i ∈ Finset.range n, ((asked i es).map f).sum = ((requests es).map fun r => f r.call).sum := by
  unfold asked
  generalize requests es = rs at hn
  induction rs with
  | nil => simp
  | cons r rs ih =>
    have hr : r.client < n := hn r (by simp)
    have hrest := ih fun r hr => hn r (by simp [hr])
    have hone : ∀ i, (((r :: rs).filterMap fun r => if r.client = i then some r.call else none).map f).sum =
        (if r.client = i then f r.call else 0) +
          ((rs.filterMap fun r => if r.client = i then some r.call else none).map f).sum := by
      intro i
      by_cases hi : r.client = i <;> simp [hi]
    simp only [hone, Finset.sum_add_distrib, Finset.sum_ite_eq, Finset.mem_range, hr, if_true, hrest, List.map_cons,
      List.sum_cons]

theorem asked_client (h : Tracks P cap rule d script tr k g) {r : Request} (hr : r ∈ requests g.events) :
    script r.client ≠ [] := by
  intro hnil
  have hbegun := h.asked r.client
  rw [hnil, List.map_nil, List.prefix_nil] at hbegun
  have hmem : r.call ∈ asked r.client g.events := List.mem_filterMap.mpr ⟨r, hr, by simp⟩
  rw [hbegun] at hmem
  cases hmem

theorem requests_client {n : ℕ} (hn : ∀ i, n ≤ i → script i = []) (h : Tracks P cap rule d script tr k g) :
    ∀ r ∈ requests g.events, r.client < n := by
  intro r hr
  by_contra hlt
  exact asked_client h hr (hn _ (not_lt.mp hlt))

theorem requests_total {n : ℕ} (hn : ∀ i, n ≤ i → script i = []) (h : Tracks P cap rule d script tr k g)
    (f : Call → ℕ) : ((requests g.events).map fun r => f r.call).sum ≤ total n script f := by
  rw [← asked_sum f (requests_client hn h), total]
  apply Finset.sum_le_sum
  intro i _
  have := ((h.asked i).sublist.map f).sum_le_sum fun _ _ => Nat.zero_le _
  simpa [Function.comp_def] using this

theorem requests_total_next {n : ℕ} (hn : ∀ i, n ≤ i → script i = []) (h : Tracks P cap rule d script tr k g)
    {i : ℕ} {c : Call} {m : Msgbuff} {rest : Script}
    (hi : asked i g.events ++ ((c, m) :: rest).map Prod.fst = (script i).map Prod.fst) (f : Call → ℕ) :
    ((requests g.events).map fun r => f r.call).sum + f c ≤ total n script f := by
  have hlt : i < n := by
    by_contra hge
    rw [hn i (not_lt.mp hge)] at hi
    simp at hi
  have hc : ∑ j ∈ Finset.range n, (if i = j then f c else 0) = f c := by simp [hlt]
  rw [← asked_sum f (requests_client hn h), ← hc, ← Finset.sum_add_distrib, total]
  apply Finset.sum_le_sum
  intro j _
  by_cases hj : i = j
  · subst hj
    have hsum := congrArg (fun l => (l.map f).sum) hi
    simp only [List.map_append, List.sum_append, List.map_cons, List.sum_cons, List.map_map] at hsum
    rw [if_pos rfl]
    simp only [Function.comp_def] at hsum
    omega
  · have := ((h.asked j).sublist.map f).sum_le_sum fun _ _ => Nat.zero_le _
    simpa [hj, Function.comp_def] using this

theorem idle_client (h : Tracks P cap rule d script tr k g) {i : ℕ} (hi : script i = []) {q : Prog operations Script}
    (hq : ClientAt (script i) i g q) : programs.next (.client i) q = none := by
  obtain ⟨rest, hasked, hq⟩ := hq
  cases hw : g.state.waiting i with
  | none =>
    obtain rfl : q = .done rest := by simpa [hw] using hq
    cases rest with
    | nil => rfl
    | cons x rest =>
      rw [hi] at hasked
      simp at hasked
  | some w =>
    obtain ⟨hr, hown⟩ := waiting_request h.reaches i w.1 w.2 hw
    exact (asked_client h hr (by rw [hown, hi])).elim

theorem calls_client (hb : Boots P cap k d script boot u) (h : Calls P u calls p) :
    ∀ e ∈ boot ++ calls, ∀ i, e.who = .client i → script i ≠ [] := by
  have hcalls : ∀ e ∈ calls, ∀ i, e.who = .client i → script i ≠ [] := by
    apply h.events (P := fun e => ∀ i, e.who = .client i → script i ≠ [])
    rintro tr t a e u hrun hs i hwho hi
    obtain ⟨c, next, r, k', hn, -, rfl, -⟩ := step_iff.mp hs
    obtain rfl : a = .client i := hwho
    obtain ⟨tr', v, left, g, hm, hg, -, -⟩ := runs_outline obeys_lossy hb hrun
    have hidle := idle_client hg.overall hi (hg.thread (.client i))
    cases hm.inside (.client i) with
    | ended _ hp =>
      rw [hp] at hn
      cases hn
    | within hs' _ _ _ =>
      rw [hidle] at hs'
      cases hs'
  intro e he i hwho
  rcases List.mem_append.mp he with he | he
  · rw [hb.core e he] at hwho
    cases hwho
  · exact hcalls e he i hwho

def everyone (n : ℕ) : Finset Process := {.core, .device} ∪ (Finset.range n).image .client

theorem everyone_card (n : ℕ) : (everyone n).card = n + 2 := by
  rw [everyone, Finset.card_union_of_disjoint, Finset.card_image_of_injective]
  · simp [add_comm]
  · intro i j h
    cases h
    rfl
  · simp [Finset.disjoint_left]

def price (c : Call) : ℕ := 1 + Parcel.stepsAhead ⟨⟨0, 0, c⟩, .request⟩

theorem operations_le {n : ℕ} (hn : ∀ i, n ≤ i → script i = []) (h : Tracks P cap rule d script tr k g) :
    tr.length ≤ total n script price + 3 := by
  have hevents := events_le header_fits h.reaches
  have htotal := requests_total hn h price
  have hlength := h.length
  have hqueues : queues.length = 3 := rfl
  have hsame : ((requests g.events).map fun r => 1 + Parcel.stepsAhead ⟨r, .request⟩) =
      (requests g.events).map fun r => price r.call := rfl
  rw [hsame] at hevents
  omega

theorem stack_terminates {n : ℕ} (hn : ∀ i, n ≤ i → script i = []) (hb : Boots P cap k d script boot u)
    (h : Calls P u calls p) : (boot ++ calls).length ≤ 2 * (total n script price + 3) + (n + 2) := by
  obtain ⟨tr, v, left, g, -, hg, -, hcalls⟩ := runs_outline obeys_lossy hb h
  have hwho : ∀ e ∈ boot ++ calls, e.who ∈ everyone n := by
    intro e he
    have hclient := calls_client hb h e he
    cases hw : e.who with
    | core | device => simp [everyone]
    | client i =>
      have hlt : i < n := by
        by_contra hge
        exact hclient i hw (hn i (not_lt.mp hge))
      simp [everyone, hlt]
  have hsum : ∑ i ∈ everyone n, Processes.calls (boot ++ calls) i ≤ 2 * tr.length + (n + 2) := by
    calc ∑ i ∈ everyone n, Processes.calls (boot ++ calls) i
        ≤ ∑ i ∈ everyone n, (2 * Processes.calls tr i + 1) := Finset.sum_le_sum fun i _ => hcalls i
      _ = 2 * (∑ i ∈ everyone n, Processes.calls tr i) + (n + 2) := by
        rw [Finset.sum_add_distrib, ← Finset.mul_sum, ← Finset.card_eq_sum_ones, everyone_card]
      _ ≤ 2 * tr.length + (n + 2) := by
        have := sum_calls_le tr (everyone n)
        omega
  have hops := operations_le hn hg.overall
  rw [length_calls hwho]
  omega

theorem twoClients_idle : ∀ i, 2 ≤ i → twoClients i = [] := by
  intro i hi
  obtain ⟨j, rfl⟩ := Nat.exists_eq_add_of_le' hi
  rfl

theorem two_terminates : (twoBoot ++ twoCalls).length ≤ 2 * (total 2 twoClients price + 3) + (2 + 2) :=
  stack_terminates twoClients_idle two_boots two_runs

end NutrinoStack.LedStack

import NutrinoStack.Restarts

namespace NutrinoStack.Stores

open Interactions Processes Restarts Runs

variable {K M : Type}

inductive Operation (K M : Type)
  | init (key : K)
  | write (key : K) (sbuf : M)
  | read (key : K) (sbuf : M)
  deriving DecidableEq

abbrev Operation.Reply : Operation K M → Type
  | .init _ => ℤ
  | .write _ _ => ℤ
  | .read _ _ => ℤ × M

def Operation.key : Operation K M → K
  | .init key | .write key _ | .read key _ => key

abbrev commands (K M : Type) : Interface := ⟨Operation K M, Operation.Reply⟩

abbrev Done (K M : Type) : Type := Σ c : Operation K M, c.Reply

structure Store (K M : Type) where
  queue : K → Option (List M)
  capacity : K → ℕ

def Store.put [DecidableEq K] (σ : Store K M) (key : K) (q : List M) : Store K M :=
  { σ with queue := Function.update σ.queue key (some q) }

def Store.queued (σ : Store K M) (key : K) : List M := (σ.queue key).getD []

/-- Which messages a queue accepts, which of them a read picks, whether these fit its struct, and what is in the struct
then. -/
structure Discipline (M : Type) where
  accepts : ℕ → List M → M → Prop
  picks : M → Bool
  fits : M → Prop
  overlay : M → M → M
  kept : M → M

inductive Legal [DecidableEq K] (D : Discipline M) (σ : Store K M) : Done K M → Store K M → Prop
  | found {key : K} {q : List M} (hq : σ.queue key = some q) : Legal D σ ⟨.init key, (0 : ℤ)⟩ σ
  | created {key : K} (capacity : ℕ) (hq : σ.queue key = none) :
      Legal D σ ⟨.init key, (0 : ℤ)⟩
        ⟨Function.update σ.queue key (some []), Function.update σ.capacity key capacity⟩
  | full {key : K} (hq : σ.queue key = none) : Legal D σ ⟨.init key, (-1 : ℤ)⟩ σ
  | written {key : K} {q : List M} {m : M} (hq : σ.queue key = some q) (hm : D.accepts (σ.capacity key) q m) :
      Legal D σ ⟨.write key m, (0 : ℤ)⟩ (σ.put key (q ++ [m]))
  | refused {key : K} {m : M} (hm : ∀ q, σ.queue key = some q → ¬ D.accepts (σ.capacity key) q m) :
      Legal D σ ⟨.write key m, (-1 : ℤ)⟩ σ
  | taken {key : K} {pre post : List M} {m : M} (sbuf : M) (hq : σ.queue key = some (pre ++ m :: post))
      (hpre : ∀ x ∈ pre, D.picks x = false) (hm : D.picks m) (hfit : D.fits m) :
      Legal D σ ⟨.read key sbuf, ((0 : ℤ), D.overlay sbuf m)⟩ (σ.put key (pre ++ post))
  | blocked {key : K} {pre post : List M} {m : M} (sbuf : M) (hq : σ.queue key = some (pre ++ m :: post))
      (hpre : ∀ x ∈ pre, D.picks x = false) (hm : D.picks m) (hfit : ¬ D.fits m) :
      Legal D σ ⟨.read key sbuf, ((-1 : ℤ), D.kept sbuf)⟩ σ
  | missing {key : K} (sbuf : M) (hq : σ.queue key = none) : Legal D σ ⟨.read key sbuf, ((-1 : ℤ), sbuf)⟩ σ

inductive History [DecidableEq K] (D : Discipline M) (σ₀ : Store K M) : List (Done K M) → Store K M → Prop
  | nil : History D σ₀ [] σ₀
  | snoc {es : List (Done K M)} {σ σ' : Store K M} {e : Done K M} :
      History D σ₀ es σ → Legal D σ e σ' → History D σ₀ (es ++ [e]) σ'

def wrote? [DecidableEq K] (key : K) : Done K M → Option M
  | ⟨.write key' m, (r : ℤ)⟩ => if key' = key ∧ r = 0 then some m else none
  | _ => none

def read? [DecidableEq K] (key : K) : Done K M → Option (M × M)
  | ⟨.read key' sbuf, r⟩ => if key' = key ∧ r.1 = 0 then some (sbuf, r.2) else none
  | _ => none

def Overlays (D : Discipline M) (r : M × M) (m : M) : Prop := r.2 = D.overlay r.1 m

def queueInit (key : K) : Prog (commands K M) ℤ := perform (I := commands K M) (.init key)

def queueWrite (key : K) (sbuf : M) : Prog (commands K M) ℤ := perform (I := commands K M) (.write key sbuf)

def queueRead (key : K) (sbuf : M) : Prog (commands K M) (ℤ × M) := perform (I := commands K M) (.read key sbuf)

def writes {α : Type} : List (K × M) → α → Prog (commands K M) α
  | [], a => .done a
  | x :: rest, a => .call (I := commands K M) (.write x.1 x.2) fun _ => writes rest a

theorem writes_bind {α β : Type} (xs : List (K × M)) (a : α) (f : α → β) :
    (writes xs a >>= fun a => (.done (f a) : Prog (commands K M) β)) = writes xs (f a) := by
  induction xs with
  | nil => rfl
  | cons x xs ih => exact congrArg (Prog.call (I := commands K M) _) (funext fun _ => ih)

variable [DecidableEq K] {D : Discipline M} {σ₀ σ σ' : Store K M}

theorem queued_put (key key' : K) (q : List M) :
    (σ.put key q).queued key' = if key' = key then q else σ.queued key' := by
  by_cases h : key' = key
  · simp [Store.queued, Store.put, h]
  · simp [Store.queued, Store.put, h]

theorem queued_created {key : K} (capacity : ℕ) (hq : σ.queue key = none) (key' : K) :
    Store.queued ⟨Function.update σ.queue key (some []), Function.update σ.capacity key capacity⟩ key' =
      σ.queued key' := by
  by_cases h : key' = key
  · simp [Store.queued, h, hq]
  · simp [Store.queued, Function.update_of_ne h]

/-- An operation takes at most one message from a queue, the first that it picks,
and adds at most one behind the others. -/
theorem legal_queued (key : K) {e : Done K M} (h : Legal D σ e σ') :
    ∃ pre post taken, σ.queued key = pre ++ taken ++ post ∧ σ'.queued key = pre ++ post ++ (wrote? key e).toList ∧
      (∀ x ∈ taken, D.picks x) ∧ (taken ≠ [] → ∀ x ∈ pre, D.picks x = false) ∧
      List.Forall₂ (Overlays D) (read? key e).toList taken := by
  have hsame : σ'.queued key = σ.queued key → wrote? key e = none → read? key e = none →
      ∃ pre post taken, σ.queued key = pre ++ taken ++ post ∧ σ'.queued key = pre ++ post ++ (wrote? key e).toList ∧
        (∀ x ∈ taken, D.picks x) ∧ (taken ≠ [] → ∀ x ∈ pre, D.picks x = false) ∧
        List.Forall₂ (Overlays D) (read? key e).toList taken := by
    intro hq hw hr
    refine ⟨σ.queued key, [], [], by simp, by simp [hq, hw], nofun, fun hne => (hne rfl).elim, ?_⟩
    rw [hr]
    exact .nil
  cases h with
  | found | full | missing | blocked => exact hsame rfl (by simp [wrote?]) (by simp [read?])
  | refused => exact hsame rfl (by simp [wrote?]) (by simp [read?])
  | created capacity hq => exact hsame (queued_created capacity hq key) rfl rfl
  | @written key' q m hq hm =>
    by_cases hk : key = key'
    · subst hk
      refine ⟨q, [], [], by simp [Store.queued, hq], ?_, nofun, fun hne => (hne rfl).elim, .nil⟩
      rw [queued_put]
      simp [wrote?]
    · exact hsame (by rw [queued_put, if_neg hk]) (by simp [wrote?, Ne.symm hk]) rfl
  | @taken key' pre post m sbuf hq hpre hm hfit =>
    by_cases hk : key = key'
    · subst hk
      refine ⟨pre, post, [m], by simp [Store.queued, hq], ?_, by simpa using hm, fun _ => hpre, ?_⟩
      · rw [queued_put]
        simp [wrote?]
      · simp [read?, Overlays]
    · exact hsame (by rw [queued_put, if_neg hk]) rfl (by simp [read?, Ne.symm hk])

/-- The messages that a read picks leave a queue in the order they came in, and the others never leave it. -/
theorem history_fifo (key : K) {es : List (Done K M)} (h : History D σ₀ es σ) :
    ∃ taken, taken ++ (σ.queued key).filter D.picks = (σ₀.queued key ++ es.filterMap (wrote? key)).filter D.picks ∧
      (σ.queued key).filter (!D.picks ·) = (σ₀.queued key ++ es.filterMap (wrote? key)).filter (!D.picks ·) ∧
      List.Forall₂ (Overlays D) (es.filterMap (read? key)) taken := by
  induction h with
  | nil => exact ⟨[], by simp, by simp, .nil⟩
  | @snoc es σ σ' e _ hs ih =>
    obtain ⟨taken, hq, hrest, hr⟩ := ih
    obtain ⟨pre, post, last, hbefore, hafter, hlast, hpre, hr'⟩ := legal_queued key hs
    have hpicked : last.filter D.picks = last := List.filter_eq_self.mpr hlast
    have hleft : last.filter (!D.picks ·) = [] := by simpa using hlast
    have hwrote : es.filterMap (wrote? key) ++ [e].filterMap (wrote? key) =
        es.filterMap (wrote? key) ++ (wrote? key e).toList := by
      cases h : wrote? key e <;> simp [h]
    refine ⟨taken ++ last, ?_, ?_, ?_⟩
    · have hmove : last ++ pre.filter D.picks = pre.filter D.picks ++ last := by
        by_cases hne : last = []
        · simp [hne]
        · have hnone : pre.filter D.picks = [] := by simpa using hpre hne
          simp [hnone]
      rw [List.filterMap_append, hwrote, ← List.append_assoc (σ₀.queued key), List.filter_append, ← hq, hbefore, hafter]
      simp only [List.filter_append, hpicked, List.append_assoc]
      rw [← List.append_assoc last, hmove, List.append_assoc]
    · rw [List.filterMap_append, hwrote, ← List.append_assoc (σ₀.queued key), List.filter_append, ← hrest, hbefore,
      hafter]
      simp only [List.filter_append, hleft, List.append_nil]
    · rw [List.filterMap_append]
      apply List.rel_append hr
      cases h : read? key e <;> simpa [h] using hr'

theorem sorted_mem {picks : M → Bool} {taken rest ms : List M} (hpicked : taken ++ rest.filter picks = ms.filter picks)
    (hothers : rest.filter (!picks ·) = ms.filter (!picks ·)) : (∀ m ∈ taken, m ∈ ms) ∧ ∀ m ∈ rest, m ∈ ms := by
  constructor
  · intro m hm
    have hmem : m ∈ ms.filter picks := hpicked ▸ List.mem_append_left _ hm
    exact List.mem_of_mem_filter hmem
  · intro m hm
    by_cases hp : picks m
    · have hmem : m ∈ ms.filter picks := hpicked ▸ List.mem_append_right _ (List.mem_filter.mpr ⟨hm, hp⟩)
      exact List.mem_of_mem_filter hmem
    · have hmem : m ∈ ms.filter (!picks ·) := hothers ▸ List.mem_filter.mpr ⟨hm, by simpa using hp⟩
      exact List.mem_of_mem_filter hmem

structure Discipline.Bounds (D : Discipline M) (B : ℕ → List M → Prop) : Prop where
  nil : ∀ c, B c []
  put : ∀ c q m, B c q → D.accepts c q m → B c (q ++ [m])
  take : ∀ c pre m post, B c (pre ++ m :: post) → B c (pre ++ post)

theorem legal_bounded {B : ℕ → List M → Prop} (hB : D.Bounds B) {e : Done K M} (h : Legal D σ e σ')
    (hσ : ∀ key, B (σ.capacity key) (σ.queued key)) (key : K) : B (σ'.capacity key) (σ'.queued key) := by
  cases h with
  | found | full | refused | missing | blocked => exact hσ key
  | @created key' capacity hq =>
    rw [queued_created capacity hq]
    by_cases hk : key = key'
    · subst hk
      rw [Store.queued, hq]
      exact hB.nil _
    · simpa [Function.update_of_ne hk] using hσ key
  | @written key' q m hq hm =>
    rw [queued_put]
    split
    · next hk =>
      subst hk
      have hold := hσ key
      rw [Store.queued, hq] at hold
      exact hB.put _ _ _ hold hm
    · exact hσ key
  | @taken key' pre post m sbuf hq hpre hm hfit =>
    rw [queued_put]
    split
    · next hk =>
      subst hk
      have hold := hσ key
      rw [Store.queued, hq] at hold
      exact hB.take _ _ _ _ hold
    · exact hσ key

theorem history_bounded {B : ℕ → List M → Prop} (hB : D.Bounds B) {es : List (Done K M)} (h : History D σ₀ es σ)
    (h₀ : ∀ key, B (σ₀.capacity key) (σ₀.queued key)) : ∀ key, B (σ.capacity key) (σ.queued key) := by
  induction h with
  | nil => exact h₀
  | snoc _ hl ih => exact legal_bounded hB hl ih

variable {ι κ : Type}

def written (key : K) (tr : List (Event (commands K M) ι)) : List M := (tr.map Event.entry).filterMap (wrote? key)

def reads (key : K) (tr : List (Event (commands K M) ι)) : List (M × M) := (tr.map Event.entry).filterMap (read? key)

variable [DecidableEq ι] {F : Family (commands K M) ι}
  {answer : κ → (c : Operation K M) → Option (c.Reply × κ)} {R : κ → Store K M → Prop}

def recording (F : Family (commands K M) ι) (σ₀ : Store K M)
    (hlegal : ∀ k σ c r k', R k σ → answer k c = some (r, k') → ∃ σ', Legal D σ ⟨c, r⟩ σ' ∧ R k' σ') :
    Outline F answer (Store K M) where
  Global tr k σ := History D σ₀ (tr.map Event.entry) σ ∧ R k σ
  Local _ _ _ := True
  call {tr k σ i p c next r k'} h _ _ ha := by
    obtain ⟨σ', hl, hk⟩ := hlegal k σ c r k' h.2 ha
    refine ⟨σ', ⟨?_, hk⟩, trivial, fun _ _ _ _ => trivial⟩
    rw [List.map_append]
    exact h.1.snoc hl

theorem run_history
    (hlegal : ∀ k σ c r k', R k σ → answer k c = some (r, k') → ∃ σ', Legal D σ ⟨c, r⟩ σ' ∧ R k' σ')
    {s₀ s : Pool F κ} {tr : List (Event (commands K M) ι)} (h₀ : R s₀.kernel σ₀) (h : Run (step F answer) s₀ tr s) :
    ∃ σ, History D σ₀ (tr.map Event.entry) σ ∧ R s.kernel σ := by
  obtain ⟨σ, hσ⟩ := (recording F σ₀ hlegal).run ⟨⟨.nil, h₀⟩, fun _ => trivial⟩ h
  exact ⟨σ, hσ.overall⟩

variable {may : κ → (i : ι) → F.Memory i → Bool}

theorem restarting_history
    (hlegal : ∀ k σ c r k', R k σ → answer k c = some (r, k') → ∃ σ', Legal D σ ⟨c, r⟩ σ' ∧ R k' σ')
    {s₀ s : Pool F κ} {tr : List (Option (Event (commands K M) ι))} (h₀ : R s₀.kernel σ₀)
    (h : Run (restarting F answer may) s₀ tr s) :
    ∃ σ, History D σ₀ ((tr.filterMap id).map Event.entry) σ ∧ R s.kernel σ := by
  obtain ⟨σ, hσ⟩ := outline_restarting (recording F σ₀ hlegal)
    (fun hall _ _ => ⟨_, hall, trivial, fun _ _ _ _ => trivial⟩) ⟨⟨.nil, h₀⟩, fun _ => trivial⟩ h
  exact ⟨σ, hσ.overall⟩

def scripted (K M ι : Type) : Family (commands K M) ι where
  Memory _ := List (Operation K M)
  body _
    | [] => none
    | c :: rest => some (.call (I := commands K M) c fun _ => .done rest)
  active i m a h := by cases m <;> cases h

def scripting (answer : κ → (c : Operation K M) → Option (c.Reply × κ)) (scripts : ι → List (Operation K M)) :
    Outline (scripted K M ι) answer Unit where
  Global tr _ _ := ∀ e ∈ tr, e.entry.1 ∈ scripts e.who
  Local i _ p := ∃ rest : List (Operation K M), p = .done rest ∧ ∀ c ∈ rest, c ∈ scripts i
  call {tr k g i p c next r k'} h hp hn _ := by
    obtain ⟨rest, rfl, hrest⟩ := hp
    cases rest with
    | nil => cases hn
    | cons c' rest =>
      cases hn
      refine ⟨(), fun e he => ?_, ⟨rest, rfl, fun c hc => hrest c (by simp [hc])⟩, fun _ _ _ hq => hq⟩
      rcases List.mem_append.mp he with he | he
      · exact h e he
      · obtain rfl := List.mem_singleton.mp he
        exact hrest c (by simp)

def resumes [DecidableEq M] (scripts : ι → List (Operation K M)) (_ : κ) (i : ι) (cs : List (Operation K M)) : Bool :=
  decide (∀ c ∈ cs, c ∈ scripts i)

section

variable [DecidableEq M] {scripts : ι → List (Operation K M)} {k : κ} {tr : List (Option (Event (commands K M) ι))}
  {s : Pool (scripted K M ι) κ}
  (h : Run (restarting (scripted K M ι) answer (resumes scripts)) ⟨k, fun i => .done (scripts i)⟩ tr s)
include h

theorem scripted_run : ∀ e ∈ tr.filterMap id, e.entry.1 ∈ scripts e.who := by
  have hstart : (scripting answer scripts).Holds [] ⟨k, fun i => .done (scripts i)⟩ () :=
    ⟨fun e he => absurd he List.not_mem_nil, fun i => ⟨scripts i, rfl, fun _ => id⟩⟩
  have hmay : ∀ (k : κ) i (cs : List (Operation K M)), resumes scripts k i cs → ∀ c ∈ cs, c ∈ scripts i :=
    fun _ _ _ hm => of_decide_eq_true hm
  obtain ⟨_, hend⟩ := outline_restarting (scripting answer scripts)
    (fun hall _ hm => ⟨(), hall, ⟨_, rfl, hmay _ _ _ hm⟩, fun _ _ _ hq => hq⟩) hstart h
  exact hend.overall

theorem scripted_written {key : K} {m : M} (hm : m ∈ written key (tr.filterMap id)) :
    ∃ i, .write key m ∈ scripts i := by
  obtain ⟨x, hx, hw⟩ := List.mem_filterMap.mp hm
  obtain ⟨e, he, rfl⟩ := List.mem_map.mp hx
  have hc := scripted_run h e he
  obtain ⟨i, c, r⟩ := e
  cases c with
  | write key' m' =>
    obtain ⟨⟨rfl, -⟩, rfl⟩ := by simpa [wrote?] using hw
    exact ⟨i, hc⟩
  | init key' | read key' sbuf => cases hw

theorem scripted_reads {key : K} {r : M × M} (hr : r ∈ reads key (tr.filterMap id)) :
    ∃ i, .read key r.1 ∈ scripts i := by
  obtain ⟨x, hx, hread⟩ := List.mem_filterMap.mp hr
  obtain ⟨e, he, rfl⟩ := List.mem_map.mp hx
  have hc := scripted_run h e he
  obtain ⟨i, c, y⟩ := e
  cases c with
  | read key' sbuf =>
    obtain ⟨⟨rfl, -⟩, rfl⟩ := by simpa [read?] using hread
    exact ⟨i, hc⟩
  | init key' | write key' m => cases hread

end

end NutrinoStack.Stores

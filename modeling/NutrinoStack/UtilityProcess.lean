import NutrinoStack.MixedCalls
import NutrinoStack.UtilityHandler
import NutrinoStack.UtilityIsolation

namespace NutrinoStack.UtilityProcess

open Interactions Loops MachineWords MessageQueues MixedCalls Processes Reductions Restarts Runs Stores UtilityHandler
  UtilityQueueManager
open StructLayout (Header.Fits longAt)

abbrev operations : Interface := commands Key Msgbuff

abbrev applicationQueue : Key := ⟨queueWriteToApplication, by decide⟩

def announces (st result : ℤ) (msg : Msgbuff) : Prog operations ℤ := do
  let msg := { msg with msgState := st, msgEvent := evReadFromDevice }
  let _ ← queueWrite applicationQueue msg
  return result

def gotKey (msg : Msgbuff) : Prog operations ℤ := announces stAuth 0 msg

def fsmError (msg : Msgbuff) : Prog operations ℤ := announces stTerm 0 msg

def auth (msg : Msgbuff) : Prog operations ℤ := announces stRead 0 msg

def readData (msg : Msgbuff) : Prog operations ℤ := announces stRead 0 msg

def endComm (g : Globals) (msg : Msgbuff) : Prog operations ℤ := announces stTerm g.state msg

def handle (g : Globals) : Handler → Msgbuff → Prog operations ℤ
  | .gotKey => UtilityProcess.gotKey
  | .auth => UtilityProcess.auth
  | .readData => UtilityProcess.readData
  | .endComm => UtilityProcess.endComm g
  | .fsmError => UtilityProcess.fsmError

/-- What the structs that nothing initialises hold in each pass of the loop: the one that `GetMessageStateEvent` reads
into, and the one that it returns. -/
structure Locals where
  msg : ℕ → Msgbuff
  result : ℕ → Msgbuff

def getMessageStateEvent (g : Globals) (msg : Msgbuff) : Prog operations Globals := do
  let (_, msg) ← queueRead deviceQueue msg
  if msg.msgType = 1 then return ⟨toInt msg.msgState, toInt msg.msgEvent⟩
  return g

def callTransition (g : Globals) (msg : Msgbuff) : Prog operations Globals :=
  match rowFor g.state g.event with
  | some t => do
    let state ← handle g t.fn msg
    return { g with state := state }
  | none => return g

def turn (locals : Locals) (n : ℕ) (g : Globals) : Prog operations Globals := do
  let g ← getMessageStateEvent g (locals.msg n)
  callTransition g (locals.result n)

def main (locals : Locals) : ℕ × Globals → Option (Prog operations (ℕ × Globals))
  | (n, g) =>
    if g.state = stTerm then none
    else some do
      let g ← turn locals n g
      return (n + 1, g)

def place (x : Send) : Key × Msgbuff := (applicationQueue, x.msg)

theorem handle_writes (g : Globals) (f : Handler) (msg : Msgbuff) :
    handle g f msg = writes [place (f.run g msg).send] (f.run g msg).result := by
  cases f <;> rfl

theorem getMessageStateEvent_read (g : Globals) (msg : Msgbuff) :
    UtilityProcess.getMessageStateEvent g msg =
      .call (I := operations) (.read deviceQueue msg) fun got : ℤ × Msgbuff =>
        .done (UtilityHandler.getMessageStateEvent g got.2) := by
  apply congrArg (Prog.call (I := operations) (.read deviceQueue msg))
  funext got
  unfold UtilityHandler.getMessageStateEvent
  by_cases ht : got.2.msgType = 1
  · exact (if_pos ht).trans (by rw [if_pos ht]; rfl)
  · exact (if_neg ht).trans (by rw [if_neg ht]; rfl)

theorem callTransition_writes (g : Globals) (x : Reading) :
    callTransition (UtilityHandler.getMessageStateEvent g x.msg) x.result =
      writes ((iteration g x).1.sends.map place) (iteration g x).2 := by
  rw [callTransition, iteration]
  cases rowFor _ (UtilityHandler.getMessageStateEvent g x.msg).event with
  | none => rfl
  | some t =>
    simp only [handle_writes]
    exact writes_bind _ _ _

def answers (locals : Locals) (n : ℕ) (g : Globals) (msg : Msgbuff) : Prog operations (ℕ × Globals) :=
  writes ((iteration g ⟨msg, locals.result n⟩).1.sends.map place) (n + 1, (iteration g ⟨msg, locals.result n⟩).2)

theorem main_loop {locals : Locals} {n : ℕ} {g : Globals} (hg : g.state ≠ stTerm) :
    main locals (n, g) = some (.call (I := operations) (.read deviceQueue (locals.msg n)) fun got : ℤ × Msgbuff =>
      answers locals n g got.2) := by
  rw [main, if_neg hg, turn, getMessageStateEvent_read]
  apply congrArg (fun next => some (Prog.call (I := operations) (.read deviceQueue (locals.msg n)) next))
  funext got
  refine Eq.trans ?_ (writes_bind _ _ fun g => (n + 1, g))
  rw [← callTransition_writes]
  rfl

def handler (locals : Locals) : Family operations Unit where
  Memory _ := ℕ × Globals
  body _ := main locals
  active i m a h := by
    obtain ⟨n, g⟩ := m
    by_cases hg : g.state = stTerm
    · simp [main, hg] at h
    · cases (main_loop hg).symm.trans h

inductive Deed
  | took (m : Msgbuff)
  | sent (x : Send)

def deed : Done Key Msgbuff → Option Deed
  | ⟨.init _, _⟩ => none
  | ⟨.write key m, _⟩ => some (.sent ⟨key, m⟩)
  | ⟨.read _ _, r⟩ => some (.took r.2)

def deed? : (Σ c : (mixed operations interface).Call, (mixed operations interface).Reply c) → Option Deed
  | ⟨.inl c, r⟩ => deed ⟨c, r⟩
  | ⟨.inr _, _⟩ => none

variable {ι : Type} [DecidableEq ι]

def deeds (tr : List (Event (mixed operations interface) (Unit ⊕ ι))) : List Deed :=
  tr.filterMap fun e => if e.who = .inl () then deed? e.entry else none

def accounted (p : Iteration) : List Deed := .took p.input.msg :: p.turn.sends.map .sent

/-- A read fails and leaves the struct alone, or lays bytes of the type 1 over it, at most as many as `msgrcv` is asked
for. -/
structure Got (P : Platform) (locals : Locals) (n : ℕ) (x : Reading) : Prop where
  msg : x.msg = locals.msg n ∨ ∃ bytes, ofType P 1 bytes ∧ messageSize P bytes ≤ maxSize ∧
    x.msg = UtilityLayout.load P ((layout P).overlay (locals.msg n) bytes)
  result : x.result = locals.result n

structure Life where
  first : ℕ
  readings : List Reading
  done : List Deed
  unsent : List Send

structure Lived (P : Platform) (locals : Locals) (l : Life) : Prop where
  deeds : l.done ++ l.unsent.map .sent = (UtilityHandler.main l.readings).flatMap accounted
  got : ∀ n x, l.readings[n]? = some x → Got P locals (l.first + n) x
  keys : ∀ x ∈ l.unsent, x.key = queueWriteToApplication

structure Progress where
  past : List Life
  life : Life

variable {P : Platform} {locals : Locals} {G : Family interface ι} {k k' : Kernel}

abbrev among (P : Platform) (locals : Locals) (G : Family interface ι) : Family interface (Unit ⊕ ι) :=
  ((manager P).family (handler locals)).beside G

def start (P : Platform) (locals : Locals) (G : Family interface ι) (k : Kernel)
    (others : (j : ι) → Prog interface (G.Memory j)) : Pool (among P locals G) Kernel where
  kernel := k
  thread
    | .inl _ => .done ((0 : ℕ), Globals.initial)
    | .inr j => others j

structure Accounts (P : Platform) (locals : Locals) (tr : List (Event (mixed operations interface) (Unit ⊕ ι)))
    (w : Progress) : Prop where
  own : ∀ e ∈ tr, e.who = .inl () → ∃ c r, e.entry = ⟨.inl c, r⟩
  deeds : deeds tr = w.past.flatMap Life.done ++ w.life.done
  past : ∀ l ∈ w.past, Lived P locals l
  life : Lived P locals w.life

def Stands (locals : Locals) (w : Progress) :
    (i : Unit ⊕ ι) → Prog (mixed operations interface) ((mix (handler locals) G).Memory i) → Prop
  | .inl _, p => p = left (writes (w.life.unsent.map place)
      (w.life.first + w.life.readings.length, mainLoop.final Globals.initial w.life.readings))
  | .inr _, _ => True

theorem deeds_own (tr : List (Event (mixed operations interface) (Unit ⊕ ι)))
    (x : Σ c : (mixed operations interface).Call, (mixed operations interface).Reply c) :
    deeds (tr ++ [⟨.inl (), x⟩]) = deeds tr ++ (deed? x).toList := by
  rw [deeds, List.filterMap_append]
  congr 1

theorem deeds_other (tr : List (Event (mixed operations interface) (Unit ⊕ ι))) (j : ι)
    (x : Σ c : (mixed operations interface).Call, (mixed operations interface).Reply c) :
    deeds (tr ++ [⟨.inr j, x⟩]) = deeds tr := by
  simp [deeds]

theorem read_got {key : Key} {n : ℕ} {r : ℤ × Msgbuff} (hfits : Header.Fits P (locals.msg n).toHeader)
    (ha : (manager P).atomically (answer P) k (.read key (locals.msg n)) = some (r, k')) :
    Got P locals n ⟨r.2, locals.result n⟩ := by
  have hkept : (layout P).load ((layout P).store (locals.msg n)) = locals.msg n := UtilityLayout.load_store hfits
  change eval (answer P) ((layout P).messageQueueRead key (locals.msg n)) k = _ at ha
  rw [eval_read_cases] at ha
  split at ha
  · cases ha
    exact ⟨.inl rfl, rfl⟩
  · split at ha
    · cases ha
      exact ⟨.inl hkept, rfl⟩
    · split at ha
      · cases ha
      · next x hfind =>
        split at ha
        · next hsize =>
          cases ha
          exact ⟨.inr ⟨x, List.find?_some hfind, hsize, rfl⟩, rfl⟩
        · cases ha
          exact ⟨.inl hkept, rfl⟩

theorem main_snoc {xs : List Reading} {x : Reading} (hg : mainLoop.running (mainLoop.final Globals.initial xs)) :
    UtilityHandler.main (xs ++ [x]) = UtilityHandler.main xs ++ [mainLoop.pass (mainLoop.final Globals.initial xs) x] ∧
      mainLoop.final Globals.initial (xs ++ [x]) = (iteration (mainLoop.final Globals.initial xs) x).2 := by
  constructor
  · rw [UtilityHandler.main, passes_append, passes_running hg]
    rfl
  · rw [final_append, final_running hg]
    rfl

theorem sends_key (g : Globals) (x : Reading) : ∀ y ∈ (iteration g x).1.sends, y.key = queueWriteToApplication := by
  intro y hy
  unfold iteration at hy
  cases hrow : rowFor (UtilityHandler.getMessageStateEvent g x.msg).state
      (UtilityHandler.getMessageStateEvent g x.msg).event with
  | none => simp [hrow] at hy
  | some t =>
    obtain rfl : y = (t.fn.run (UtilityHandler.getMessageStateEvent g x.msg) x.result).send := by simpa [hrow] using hy
    rw [run_send]
    rfl

def Life.read (l : Life) (x : Reading) : Life where
  first := l.first
  readings := l.readings ++ [x]
  done := l.done ++ [.took x.msg]
  unsent := (iteration (mainLoop.final Globals.initial l.readings) x).1.sends

theorem lived_read {l : Life} {x : Reading} (h : Lived P locals l) (hsent : l.unsent = [])
    (hg : mainLoop.running (mainLoop.final Globals.initial l.readings))
    (hx : Got P locals (l.first + l.readings.length) x) : Lived P locals (l.read x) := by
  have hdeeds := h.deeds
  refine ⟨?_, fun n y hy => ?_, sends_key _ x⟩
  · rw [Life.read, (main_snoc hg).1, List.flatMap_append, ← hdeeds, hsent]
    simp [accounted, Loop.pass, mainLoop]
  · change (l.readings ++ [x])[n]? = some y at hy
    rcases Nat.lt_or_ge n l.readings.length with hlt | hge
    · rw [List.getElem?_append_left hlt] at hy
      exact h.got n y hy
    · rw [List.getElem?_append_right hge, List.getElem?_singleton] at hy
      obtain ⟨hn, rfl⟩ := by simpa using hy
      obtain rfl : n = l.readings.length := by omega
      exact hx

theorem lived_write {l : Life} {x : Send} {rest : List Send} (h : Lived P locals l) (hsent : l.unsent = x :: rest) :
    Lived P locals { l with done := l.done ++ [.sent x], unsent := rest } := by
  have hdeeds := h.deeds
  rw [hsent] at hdeeds
  exact ⟨by simpa using hdeeds, h.got, fun y hy => h.keys y (by simp [hsent, hy])⟩

theorem deed_write {x : Send} (hx : x.key = queueWriteToApplication) (r : ℤ) :
    deed ⟨.write (place x).1 (place x).2, r⟩ = some (.sent x) := by
  obtain ⟨key, m⟩ := x
  obtain rfl : key = queueWriteToApplication := hx
  rfl

omit [DecidableEq ι] in
theorem own_snoc {tr : List (Event (mixed operations interface) (Unit ⊕ ι))}
    {x : Σ c : (mixed operations interface).Call, (mixed operations interface).Reply c}
    (h : ∀ e ∈ tr, e.who = .inl () → ∃ c r, e.entry = ⟨.inl c, r⟩) (hx : ∃ c r, x = ⟨.inl c, r⟩) :
    ∀ e ∈ tr ++ [⟨.inl (), x⟩], e.who = .inl () → ∃ c r, e.entry = ⟨.inl c, r⟩ := by
  intro e he hwho
  rcases List.mem_append.mp he with he | he
  · exact h e he hwho
  · obtain rfl := List.mem_singleton.mp he
    exact hx

omit [DecidableEq ι] in
theorem stands_other {w w' : Progress} {i : Unit ⊕ ι}
    {p : Prog (mixed operations interface) ((mix (handler locals) G).Memory i)} (hi : i ≠ .inl ()) :
    Stands locals w i p → Stands locals w' i p := by
  cases i with
  | inl u => exact (hi rfl).elim
  | inr j => exact id

def outline (locals : Locals) (G : Family interface ι) (hfits : ∀ n, Header.Fits P (locals.msg n).toHeader) :
    Outline (mix (handler locals) G) ((withCalls (manager P)).atomically (answer P)) Progress where
  Global tr _ w := Accounts P locals tr w
  Local i w p := Stands locals w i p
  call {tr k w i p c next r k'} h hp hn ha := by
    have htr := h.deeds
    cases i with
    | inr j =>
      refine ⟨w, ⟨fun e he hwho => ?_, ?_, h.past, h.life⟩, trivial, fun j q _ hq => hq⟩
      · rcases List.mem_append.mp he with he | he
        · exact h.own e he hwho
        · obtain rfl := List.mem_singleton.mp he
          cases hwho
      · rw [deeds_other]
        exact htr
    | inl u =>
      obtain ⟨past, l⟩ := w
      change p = left (writes (l.unsent.map place)
        (l.first + l.readings.length, mainLoop.final Globals.initial l.readings)) at hp
      cases hsent : l.unsent with
      | nil =>
        rw [hsent] at hp
        subst hp
        change (main locals (l.first + l.readings.length, mainLoop.final Globals.initial l.readings)).map left = _ at hn
        by_cases hg : (mainLoop.final Globals.initial l.readings).state = stTerm
        · simp [main, hg] at hn
        · cases (congrArg (Option.map left) (main_loop hg)).symm.trans hn
          let x : Reading := ⟨r.2, locals.result (l.first + l.readings.length)⟩
          have hrun : mainLoop.running (mainLoop.final Globals.initial l.readings) := by simpa [mainLoop] using hg
          have hlived := lived_read (x := x) h.life hsent hrun (read_got (hfits _) ha)
          refine ⟨⟨past, l.read x⟩, ⟨own_snoc h.own ⟨_, _, rfl⟩, ?_, h.past, hlived⟩, ?_, fun _ _ hj => stands_other hj⟩
          · rw [deeds_own, htr, List.append_assoc]
            rfl
          · change left (answers locals (l.first + l.readings.length) (mainLoop.final Globals.initial l.readings) r.2) =
              left (writes ((l.read x).unsent.map place) (l.first + (l.readings ++ [x]).length,
                mainLoop.final Globals.initial (l.readings ++ [x])))
            rw [(main_snoc hrun).2, List.length_append]
            rfl
      | cons x rest =>
        rw [hsent] at hp
        subst hp
        cases hn
        refine ⟨⟨past, { l with done := l.done ++ [.sent x], unsent := rest }⟩,
          ⟨own_snoc h.own ⟨_, _, rfl⟩, ?_, h.past, lived_write h.life hsent⟩, rfl, fun _ _ hj => stands_other hj⟩
        rw [deeds_own, htr, List.append_assoc]
        exact congrArg (fun d => past.flatMap Life.done ++ (l.done ++ Option.toList d))
          (deed_write (h.life.keys x (by simp [hsent])) r)

variable {may : Kernel → (i : Unit ⊕ ι) → (among P locals G).Memory i → Bool}

theorem outline_restart (hfits : ∀ n, Header.Fits P (locals.msg n).toHeader)
    (hmay : ∀ k (m : ℕ × Globals), may k (.inl ()) m → m.2 = Globals.initial)
    {tr : List (Event (mixed operations interface) (Unit ⊕ ι))} {w : Progress} {i : Unit ⊕ ι}
    {m : (mix (handler locals) G).Memory i} (h : (outline locals G hfits).Global tr k w) (hm : may k i m) :
    ∃ w', (outline locals G hfits).Global tr k w' ∧ (outline locals G hfits).Local i w' (.done m) ∧
      ∀ j q, j ≠ i → (outline locals G hfits).Local j w q → (outline locals G hfits).Local j w' q := by
  cases i with
  | inl u =>
    obtain ⟨n, g⟩ := m
    obtain rfl : g = Globals.initial := hmay k _ hm
    refine ⟨⟨w.past ++ [w.life], ⟨n, [], [], []⟩⟩, ⟨h.own, ?_, fun l hl => ?_, rfl, fun n x hx => ?_, nofun⟩, rfl,
      fun _ _ hj => stands_other hj⟩
    · simpa using h.deeds
    · rcases List.mem_append.mp hl with hl | hl
      · exact h.past l hl
      · obtain rfl := List.mem_singleton.mp hl
        exact h.life
    · simp at hx
  | inr j => exact ⟨w, h, trivial, fun _ _ _ hq => hq⟩

theorem got_blind {n : ℕ} {x : Reading} (h : Got P locals n x) (hfits : Header.Fits P (locals.msg n).toHeader) :
    x.msg.msgState = (locals.msg n).msgState ∧ x.msg.msgEvent = (locals.msg n).msgEvent := by
  have hlong := long_cases P
  have hown := UtilityLayout.load_store hfits
  rcases h.msg with he | ⟨bytes, -, hsize, he⟩ <;> rw [he]
  · exact ⟨rfl, rfl⟩
  · have hshort : bytes.length ≤ 2 * P.long + maxSize := by
      rw [messageSize] at hsize
      omega
    have hlongAt : ∀ a, 2 * P.long + maxSize ≤ a → longAt P a ((layout P).overlay (locals.msg n) bytes) =
        longAt P a (UtilityLayout.store P (locals.msg n)) := by
      intro a ha
      rw [longAt, overlay_drop _ (hshort.trans ha)]
      rfl
    exact ⟨(hlongAt _ le_rfl).trans (congrArg (fun m : Msgbuff => m.msgState) hown),
      (hlongAt _ (by simp only [UtilityLayout.offsets]; omega)).trans (congrArg (fun m : Msgbuff => m.msgEvent) hown)⟩

def launch (locals : Locals) (G : Family interface ι) (k : Kernel) (others : (j : ι) → Prog interface (G.Memory j)) :
    Pool (mix (handler locals) G) Kernel where
  kernel := k
  thread
    | .inl _ => .done ((0 : ℕ), Globals.initial)
    | .inr j => right (others j)

omit [DecidableEq ι] in
theorem together_start (others : (j : ι) → Prog interface (G.Memory j)) :
    together (manager P) (start P locals G k others) = (withCalls (manager P)).pool (launch locals G k others) := by
  refine congrArg (Pool.mk k) (funext fun i => ?_)
  cases i with
  | inl u => rfl
  | inr j => exact (translate_right (manager P) (others j)).symm

abbrev shown (P : Platform) :
    (Σ c : (mixed operations interface).Call, (mixed operations interface).Reply c) → Option (Transfer Msgbuff) :=
  shownMixed (transferred P) (exchanged P)

theorem handler_run (hfits : ∀ n, Header.Fits P (locals.msg n).toHeader)
    (hmay : ∀ k (m : ℕ × Globals), may k (.inl ()) m → m.2 = Globals.initial)
    {others : (j : ι) → Prog interface (G.Memory j)} {tr : List (Option (Event interface (Unit ⊕ ι)))}
    {p : Pool (among P locals G) Kernel}
    (h : Run (restarting (among P locals G) (answer P) may) (start P locals G k others) tr p) :
    ∃ (tr' : List (Option (Event (mixed operations interface) (Unit ⊕ ι)))) (s : Pool (mix (handler locals) G) Kernel)
        (left : Unit ⊕ ι → ℕ) (lives : List Life),
      Run (restarting (mix (handler locals) G) ((withCalls (manager P)).atomically (answer P)) may)
        (launch locals G k others) tr' s ∧
      Matches (answer P) (withCalls (manager P)) (transferred P) (shown P) (together (manager P) p) s left ∧
      seen (transferred P) (tr.filterMap id) = seen (shown P) (tr'.filterMap id) ∧
      (∀ e ∈ tr'.filterMap id, e.who = .inl () → ∃ c r, e.entry = ⟨.inl c, r⟩) ∧
      deeds (tr'.filterMap id) = lives.flatMap Life.done ∧ ∀ l ∈ lives, Lived P locals l := by
  have htogether := together_run h
  rw [together_start] at htogether
  obtain ⟨tr', s, left, hrun, hm, hseen⟩ :=
    reduces_restarting (reduces_withCalls (manager_reduces (layout P) P)) htogether
  have hstart : (outline locals G hfits).Holds [] (launch locals G k others) ⟨[], ⟨0, [], [], []⟩⟩ := by
    refine ⟨⟨fun e he => absurd he List.not_mem_nil, rfl, nofun, rfl, fun n x hx => by simp at hx, nofun⟩, fun i => ?_⟩
    cases i with
    | inl u => rfl
    | inr j => trivial
  obtain ⟨w, hw⟩ := outline_restarting (outline locals G hfits)
    (fun hall _ hm => outline_restart hfits hmay hall hm) hstart hrun
  refine ⟨tr', s, left, w.past ++ [w.life], hrun, hm, hseen, hw.overall.own, by simpa using hw.overall.deeds,
    fun l hl => ?_⟩
  rcases List.mem_append.mp hl with hl | hl
  · exact hw.overall.past l hl
  · obtain rfl := List.mem_singleton.mp hl
    exact hw.overall.life

/-- Whatever the others do, the handler goes through the loop of `main` on what it reads, each time it is started; and
the state and the event that it reads are those which its own struct happens to hold. -/
theorem handler_refines (hfits : ∀ n, Header.Fits P (locals.msg n).toHeader)
    (hmay : ∀ k (m : ℕ × Globals), may k (.inl ()) m → m.2 = Globals.initial)
    {others : (j : ι) → Prog interface (G.Memory j)} {tr : List (Option (Event interface (Unit ⊕ ι)))}
    {p : Pool (among P locals G) Kernel}
    (h : Run (restarting (among P locals G) (answer P) may) (start P locals G k others) tr p) :
    ∃ (tr' : List (Option (Event (mixed operations interface) (Unit ⊕ ι)))) (s : Pool (mix (handler locals) G) Kernel)
        (left : Unit ⊕ ι → ℕ) (lives : List Life),
      Run (restarting (mix (handler locals) G) ((withCalls (manager P)).atomically (answer P)) may)
        (launch locals G k others) tr' s ∧
      Matches (answer P) (withCalls (manager P)) (transferred P) (shown P) (together (manager P) p) s left ∧
      seen (transferred P) (tr.filterMap id) = seen (shown P) (tr'.filterMap id) ∧
      deeds (tr'.filterMap id) = lives.flatMap Life.done ∧ ∀ l ∈ lives, Lived P locals l ∧
        ∀ n x, l.readings[n]? = some x → x.msg.msgState = (locals.msg (l.first + n)).msgState ∧
          x.msg.msgEvent = (locals.msg (l.first + n)).msgEvent := by
  obtain ⟨tr', s, left, lives, hrun, hm, hseen, -, hdeeds, hlives⟩ := handler_run hfits hmay h
  refine ⟨tr', s, left, lives, hrun, hm, hseen, hdeeds, fun l hl => ⟨hlives l hl, fun n x hx => ?_⟩⟩
  exact got_blind ((hlives l hl).got n x hx) (hfits _)

def requester : Family interface Unit where
  Memory _ := Unit
  body _ _ := none
  active _ _ _ h := by cases h

def request : Prog interface Unit := do
  let msqid ← msgget deviceQueue true
  let _ ← msgget applicationQueue true
  let _ ← msgsnd msqid (StructLayout.store amd64 authRequest) (1 + 12)
  return ()

def renewed (locals : Locals) (_ : Kernel) : (i : Unit ⊕ Unit) → (among amd64 locals requester).Memory i → Bool
  | .inl _, (_, g) => decide (g = Globals.initial)
  | .inr _, _ => true

abbrev requesting (locals : Locals) : Pool (among amd64 locals requester) Kernel :=
  start amd64 locals requester (equipped [] 16384 2) fun _ => request

def requestRun (locals : Locals) (schedule : List (Happening (among amd64 locals requester))) :
    Option (List (Option (Event interface (Unit ⊕ Unit))) × Pool (among amd64 locals requester) Kernel) :=
  exec (restarting (among amd64 locals requester) (answer amd64) (renewed locals)) (requesting locals) schedule

theorem renewed_initial (k : Kernel) (m : ℕ × Globals) (h : renewed locals k (.inl ()) m) :
    m.2 = Globals.initial := of_decide_eq_true h

def staleLocals : Locals := ⟨fun _ => authRequest, fun _ => authRequest⟩

def staleRun := requestRun staleLocals
  [.call (.inr ()), .call (.inr ()), .call (.inr ()), .call (.inl ()), .call (.inl ()), .call (.inl ()),
    .restart (.inl ()) ((1 : ℕ), Globals.initial), .call (.inl ())]

theorem staleRun_some : staleRun.isSome := by decide +kernel

theorem stale_refines : ∃ (tr' : List (Option (Event (mixed operations interface) (Unit ⊕ Unit)))) (lives : List Life),
    seen (transferred amd64) ((staleRun.get staleRun_some).1.filterMap id) = seen (shown amd64) (tr'.filterMap id) ∧
      deeds (tr'.filterMap id) = lives.flatMap Life.done ∧ ∀ l ∈ lives, Lived amd64 staleLocals l := by
  obtain ⟨tr', s, left, lives, -, -, hseen, hdeeds, hlives⟩ := handler_refines (fun _ => authRequest_fits amd64)
    renewed_initial (run_exec _ (Option.some_get staleRun_some).symm)
  exact ⟨tr', lives, hseen, hdeeds, fun l hl => (hlives l hl).1⟩

theorem receive_deaf {g : Globals} {m : Msgbuff} (hg : g.event ≠ evReadFromDevice)
    (hm : toInt m.msgEvent ≠ evReadFromDevice) :
    (UtilityHandler.getMessageStateEvent g m).event ≠ evReadFromDevice := by
  by_cases ht : m.msgType = 1
  · rwa [receive_own g ht]
  · rwa [receive_foreign g ht]

theorem passes_silent {g : Globals} {xs : List Reading} (hg : g.event ≠ evReadFromDevice)
    (h : ∀ x ∈ xs, toInt x.msg.msgEvent ≠ evReadFromDevice) : ∀ p ∈ mainLoop.passes g xs, p.turn = ⟨none, []⟩ := by
  induction xs generalizing g with
  | nil => simp [Loop.passes]
  | cons x xs ih =>
    by_cases hr : mainLoop.running g
    · have hnext := receive_deaf hg (h x (by simp))
      have hrow : rowFor (UtilityHandler.getMessageStateEvent g x.msg).state
          (UtilityHandler.getMessageStateEvent g x.msg).event = none := by
        apply Option.eq_none_iff_forall_ne_some.mpr
        intro t ht
        exact hnext (rowFor_eq_some.mp ht).2.2
      have hit := iteration_none hrow
      rw [passes_running hr, List.forall_mem_cons]
      refine ⟨congrArg Prod.fst hit, ih ?_ fun y hy => h y (by simp [hy])⟩
      change (iteration g x).2.event ≠ evReadFromDevice
      rwa [hit]
    · rw [passes_ended (by simpa using hr)]
      simp

theorem placed_sent {x : Done Key Msgbuff} {b : Bytes} (h : exchanged P x = some (.placed b)) :
    ∃ y, deed x = some (.sent y) := by
  obtain ⟨c, r⟩ := x
  cases c with
  | write key m => exact ⟨⟨key, m⟩, rfl⟩
  | init key =>
    simp only [Layout.exchanged] at h
    split at h <;> cases h
  | read key sbuf =>
    simp only [Layout.exchanged] at h
    split at h <;> cases h

theorem handler_silent (hfits : ∀ n, Header.Fits P (locals.msg n).toHeader)
    (hdeaf : ∀ n, toInt (locals.msg n).msgEvent ≠ evReadFromDevice)
    (hmay : ∀ k (m : ℕ × Globals), may k (.inl ()) m → m.2 = Globals.initial)
    {others : (j : ι) → Prog interface (G.Memory j)} {tr : List (Option (Event interface (Unit ⊕ ι)))}
    {p : Pool (among P locals G) Kernel}
    (h : Run (restarting (among P locals G) (answer P) may) (start P locals G k others) tr p) :
    ∀ e, some e ∈ tr → e.who = .inl () → ∀ b, transferred P e.entry ≠ some (.placed b) := by
  intro e he hwho b hplaced
  obtain ⟨tr', s, left, lives, -, -, hseen, hown, hdeeds, hlives⟩ := handler_run hfits hmay h
  have hcall : e ∈ tr.filterMap id := List.mem_filterMap.mpr ⟨some e, he, rfl⟩
  have hmem := seen_mem hcall hplaced
  rw [hseen, hwho] at hmem
  obtain ⟨e', he', hshow⟩ := List.mem_filterMap.mp hmem
  obtain ⟨o, ho, hpair⟩ := Option.map_eq_some_iff.mp hshow
  obtain ⟨hwho', rfl⟩ := Prod.mk.inj hpair
  obtain ⟨c, r, hentry⟩ := hown e' he' hwho'
  rw [hentry] at ho
  obtain ⟨y, hy⟩ := placed_sent (x := ⟨c, r⟩) ho
  have hsent : Deed.sent y ∈ lives.flatMap Life.done := by
    rw [← hdeeds]
    refine List.mem_filterMap.mpr ⟨e', he', (if_pos hwho').trans ?_⟩
    rw [hentry]
    exact hy
  obtain ⟨l, hl, hdone⟩ := List.mem_flatMap.mp hsent
  have hlived := hlives l hl
  have hacc : Deed.sent y ∈ (UtilityHandler.main l.readings).flatMap accounted := by
    rw [← hlived.deeds]
    exact List.mem_append_left _ hdone
  obtain ⟨q, hq, hacc⟩ := List.mem_flatMap.mp hacc
  have hreadings : ∀ x ∈ l.readings, toInt x.msg.msgEvent ≠ evReadFromDevice := by
    intro x hx
    obtain ⟨n, hn⟩ := List.mem_iff_getElem?.mp hx
    rw [(got_blind (hlived.got n x hn) (hfits _)).2]
    exact hdeaf _
  have hturn := passes_silent (by decide) hreadings q hq
  simp [accounted, hturn] at hacc

def emptyLocals : Locals := ⟨fun _ => .zeroed, fun _ => .zeroed⟩

def emptyRun := requestRun emptyLocals
  [.call (.inr ()), .call (.inr ()), .call (.inl ()), .call (.inr ()), .restart (.inl ()) ((0 : ℕ), Globals.initial),
    .call (.inl ()), .call (.inl ())]

theorem emptyRun_some : emptyRun.isSome := by decide +kernel

theorem empty_silent : (emptyRun.get emptyRun_some).1.length = 7 ∧
    ¬ ∃ e, some e ∈ (emptyRun.get emptyRun_some).1 ∧ e.who = .inl () ∧
      ∃ b, transferred amd64 e.entry = some (.placed b) := by
  refine ⟨by decide +kernel, ?_⟩
  rintro ⟨e, he, hwho, b, hplaced⟩
  have hzero : toInt 0 ≠ evReadFromDevice := by decide
  exact handler_silent (fun _ => zeroed_fits amd64) (fun _ => hzero) renewed_initial
    (run_exec _ (Option.some_get emptyRun_some).symm) e he hwho b hplaced

end NutrinoStack.UtilityProcess

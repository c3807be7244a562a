import NutrinoStack.ByteChannel
import NutrinoStack.Handlings
import NutrinoStack.Linearizability
import NutrinoStack.StackStart
import NutrinoStack.Waiting

namespace NutrinoStack.LedStack

open Application CoreFsm Interactions LedSystem MachineWords MessageQueues Processes QueueManager Reductions Stores
  StructLayout

variable {P : Platform} {k k' : Kernel} {cap : Queue → ℕ}
  {queue : Queue → List (Packet (bytes P))}

def Carries (P : Platform) (cap : Queue → ℕ) (k : Kernel) (queue : Queue → List (Packet (bytes P))) : Prop :=
  ∃ σ, KeepsOn keys (send P) k σ ∧ ∀ q, σ.capacity q.name = cap q ∧
    ∃ ms, σ.queue q.name = some ms ∧ (queue q).map Packet.wire = ms.map (send P)

def Room (P : Platform) (cap : Queue → ℕ) (queue : Queue → List (Packet (bytes P))) (q : Queue) (m : Msgbuff) : Prop :=
  0 < decode P.order ((store P m).take P.long) ∧
    ((queue q).map fun p => messageSize P p.wire).sum + (CStrings.strlen m.msgText + 1 + 12) ≤ cap q

theorem name_injective {q q' : Queue} (h : q.name = q'.name) : q = q' := by
  revert h
  cases q <;> cases q' <;> decide

theorem carries_init (h : Carries P cap k queue) {q : Queue} {r : ℤ}
    (hs : (manager P).atomically (answer P) k (.init q.name) = some (r, k')) : r = 0 ∧ Carries P cap k' queue := by
  obtain ⟨σ, hk, hq⟩ := h
  obtain ⟨σ', hlegal, hk'⟩ := atomically_legal hk hs (name_mem q)
  obtain ⟨-, ms, hms, -⟩ := hq q
  cases hlegal with
  | found _ => exact ⟨rfl, σ, hk', hq⟩
  | created _ hnone | full hnone =>
    rw [hms] at hnone
    cases hnone

theorem carries_put {σ : Store Key Msgbuff} (h : ∀ q', σ.capacity q'.name = cap q' ∧
    ∃ ms, σ.queue q'.name = some ms ∧ (queue q').map Packet.wire = ms.map (send P))
    (q : Queue) (ps : List (Packet (bytes P))) (ms : List Msgbuff) (hps : ps.map Packet.wire = ms.map (send P)) :
    ∀ q', (σ.put q.name ms).capacity q'.name = cap q' ∧ ∃ ms', (σ.put q.name ms).queue q'.name = some ms' ∧
      (Function.update queue q ps q').map Packet.wire = ms'.map (send P) := by
  intro q'
  by_cases he : q' = q
  · subst he
    exact ⟨(h q').1, ms, by simp [Store.put], by simpa using hps⟩
  · have hne : q'.name ≠ q.name := fun h => he (name_injective h)
    simpa [Store.put, Function.update_of_ne he, Function.update_of_ne hne] using h q'

theorem carries_write (h : Carries P cap k queue) {q : Queue} {m : Msgbuff} {r : ℤ}
    (hs : (manager P).atomically (answer P) k (.write q.name m) = some (r, k')) :
    (r = 0 ∧ ∀ p, Carries P cap k' (Function.update queue q (queue q ++ [⟨send P m, p⟩]))) ∨
      r = -1 ∧ Carries P cap k' queue ∧ ¬ Room P cap queue q m := by
  obtain ⟨σ, hk, hq⟩ := h
  obtain ⟨σ', hlegal, hk'⟩ := atomically_legal hk hs (name_mem q)
  obtain ⟨hcap, ms, hms, hwire⟩ := hq q
  cases hlegal with
  | @written _ ms' _ hms' hm =>
    rw [hms] at hms'
    cases hms'
    left
    refine ⟨rfl, fun p => ⟨_, hk', carries_put hq q _ _ ?_⟩⟩
    rw [List.map_append, hwire, List.map_append]
    rfl
  | refused hm =>
    refine .inr ⟨rfl, ⟨σ, hk', hq⟩, fun ⟨hpos, hroom⟩ => hm ms hms ⟨hpos, ?_⟩⟩
    have hsum : ((queue q).map fun p => messageSize P p.wire).sum = (ms.map fun m => messageSize P (send P m)).sum := by
      have hmap : ((queue q).map fun p => messageSize P p.wire) = (ms.map (send P)).map (messageSize P) := by
        rw [← hwire]
        exact (List.map_map (g := messageSize P) (f := fun p : Packet (bytes P) => p.wire)).symm
      rw [hmap, List.map_map]
      rfl
    rw [hsum, ← hcap] at hroom
    exact hroom

theorem carries_read (h : Carries P cap k queue) {q : Queue} {sbuf : Msgbuff} {r : ℤ × Msgbuff}
    (hs : (manager P).atomically (answer P) k (.read q.name sbuf) = some (r, k')) :
    ∃ p rest, queue q = p :: rest ∧ r = (0, recv P sbuf p.wire) ∧ Carries P cap k' (Function.update queue q rest) := by
  obtain ⟨σ, hk, hq⟩ := h
  obtain ⟨σ', hlegal, hk'⟩ := atomically_legal hk hs (name_mem q)
  obtain ⟨-, ms, hms, hwire⟩ := hq q
  cases hlegal with
  | @taken _ pre ms' m _ hms' hpre hm hfit =>
    obtain rfl := pre_nil hpre
    rw [hms] at hms'
    cases hms'
    cases hqueue : queue q with
    | nil => simp [hqueue] at hwire
    | cons p rest =>
      rw [hqueue] at hwire
      have hp : p.wire = send P m := (List.cons.inj hwire).1
      exact ⟨p, rest, rfl, by rw [hp]; rfl, _, hk', carries_put hq q rest ms' (List.cons.inj hwire).2⟩
  | missing _ hnone =>
    rw [hms] at hnone
    cases hnone
  | @blocked _ _ _ m _ _ _ _ hfit => exact (hfit (size_le P m)).elim

theorem carries_waits (h : Carries P cap k queue) {c : Operation Key Msgbuff}
    (hs : (manager P).atomically (answer P) k c = none) :
    ∃ key sbuf, c = .read key sbuf ∧ ∀ q : Queue, q.name = key → queue q = [] := by
  obtain ⟨σ, hk, hq⟩ := h
  obtain ⟨key, sbuf, rfl, hempty⟩ := atomically_waits hk hs
  refine ⟨key, sbuf, rfl, ?_⟩
  rintro q rfl
  obtain ⟨-, ms, hms, hwire⟩ := hq q
  rw [hempty (name_mem q)] at hms
  cases hms
  exact List.map_eq_nil_iff.mp hwire

def transfer (P : Platform) : LedSystem.Event → Process × Transfer Msgbuff
  | .request r m placed => (.client r.client, if placed then .placed (send P m) else .failed)
  | .coreSend x placed => (.core, if placed then .placed (send P x.msg) else .failed)
  | .deviceSend _ m placed => (.device, if placed then .placed (send P m) else .failed)
  | .clientRead r _ m => (.client r.client, .received m)
  | .coreRead _ m _ => (.core, .received m)
  | .deviceRead _ m => (.device, .received m)

def mover : LedSystem.Event → Process
  | .request r _ _ | .clientRead r _ _ => .client r.client
  | .coreRead _ _ _ | .coreSend _ _ => .core
  | .deviceRead _ _ | .deviceSend _ _ _ => .device

def asked (i : ℕ) (es : List LedSystem.Event) : List Call :=
  (requests es).filterMap fun r => if r.client = i then some r.call else none

def placeOf (x : Pending) : Key × Msgbuff := (x.queue.name, x.msg)

theorem header_address {x : Parcel} {m : Msgbuff} (hm : m.toHeader = x.header fun _ => sessionId) :
    m.msgSessionId = sessionId ∧ m.msgType = msgTypeGlowLed := by
  rw [hm, header_msgSessionId, header_msgType]
  exact ⟨rfl, rfl⟩

/-- A run of the system, with the queues that `main` has not yet initialised. -/
structure Ghost (P : Platform) where
  events : List LedSystem.Event
  state : State (bytes P)
  left : List Queue

def CoreAt (g : Ghost P) (p : Prog operations Stage) : Prop :=
  p = writes (g.state.hand.map placeOf) (.loop g.state.core) ∨
    g.state.hand = [] ∧ g.state.core = Globals.initial ∧ g.left ≠ [] ∧
      (p = .done .start ∧ g.left = queues ∨ p = starts g.left)

def DeviceAt (s : State (bytes P)) (p : Prog operations Msgbuff) : Prop :=
  match s.reply with
  | none => p = .done s.device
  | some _ => p = replies s.device

def ClientAt (script : Script) (i : ℕ) (g : Ghost P) (p : Prog operations Script) : Prop :=
  ∃ rest, asked i g.events ++ rest.map Prod.fst = script.map Prod.fst ∧
    match g.state.waiting i with
    | none => p = .done rest
    | some (r, m) => r.client = i ∧ p = .call (I := operations) (.read Queue.application.name m) fun _ => .done rest

def At (P : Platform) (script : ℕ → Script) (g : Ghost P) : (i : Process) → Prog operations (programs.Memory i) → Prop
  | .core => CoreAt g
  | .device => DeviceAt g.state
  | .client i => ClientAt (script i) i g

theorem asked_snoc (i : ℕ) (es : List LedSystem.Event) (e : LedSystem.Event) :
    asked i (es ++ [e]) = asked i es ++ asked i [e] := by
  simp [asked]

theorem asked_quiet {i : ℕ} {e : LedSystem.Event} (h : e.request? = none) : asked i [e] = [] := by
  simp [asked, requests, h]

theorem put_state (s : State (bytes P)) (q : Queue) (x : Packet (bytes P)) (placed : Bool) :
    s.put q x placed =
      { s with queue := if placed then Function.update s.queue q (s.queue q ++ [x]) else s.queue } := by
  cases placed <;> rfl

theorem at_frame {script : ℕ → Script} {rule : SendRule} {sid : ℕ → ℤ} {d : Msgbuff} {es : List LedSystem.Event}
    {s t : State (bytes P)} {e : LedSystem.Event} (h : Reaches (bytes P) rule sid d es s)
    (hm : Move (bytes P) rule sid s e t)
    {left : List Queue} {i : Process} (hi : i ≠ mover e) {p : Prog operations (programs.Memory i)}
    (hp : At P script ⟨es, s, left⟩ i p) : At P script ⟨es ++ [e], t, left⟩ i p := by
  cases i with
  | core =>
    cases hm with
    | coreRead | coreSend => exact (hi rfl).elim
    | call => simpa [At, CoreAt, State.afterCall, put_state] using hp
    | clientRead | deviceRead => exact hp
    | deviceSend => simpa [At, CoreAt, State.afterDeviceSend, put_state] using hp
  | device =>
    cases hm with
    | deviceRead | deviceSend => exact (hi rfl).elim
    | call => simpa [At, DeviceAt, State.afterCall, put_state] using hp
    | clientRead | coreRead => exact hp
    | coreSend => simpa [At, DeviceAt, State.afterCoreSend, put_state] using hp
  | client i =>
    obtain ⟨rest, hasked, hp⟩ := hp
    have hquiet : ∀ {e : LedSystem.Event}, e.request? = none → asked i (es ++ [e]) = asked i es := by
      intro e he
      rw [asked_snoc, asked_quiet he, List.append_nil]
    cases hm with
    | call client c m placed hw hr =>
      have hne : client ≠ i := fun h => hi (by rw [h]; rfl)
      refine ⟨rest, ?_, ?_⟩
      · simpa [asked, requests, Event.request?, hne] using hasked
      · have hwait :
            (s.afterCall ⟨s.issued, client, c⟩ (c.message (sid s.issued) m) placed).waiting i = s.waiting i := by
          simp only [State.afterCall]
          split
          · rw [Function.update_of_ne hne.symm]
          · rfl
        simpa only [hwait] using hp
    | clientRead client r m x rest' hw hq =>
      have hown : r.client = client := (waiting_request h client r m hw).2
      have hne : client ≠ i := fun he => hi (by rw [← he, ← hown]; rfl)
      refine ⟨rest, by rwa [hquiet rfl], ?_⟩
      simpa only [State.afterClientRead, Function.update_of_ne hne.symm] using hp
    | coreRead => exact ⟨rest, by rwa [hquiet rfl], hp⟩
    | deviceRead => exact ⟨rest, by rwa [hquiet rfl], hp⟩
    | coreSend => exact ⟨rest, by rwa [hquiet rfl], by simpa [State.afterCoreSend, put_state] using hp⟩
    | deviceSend => exact ⟨rest, by rwa [hquiet rfl], by simpa [State.afterDeviceSend, put_state] using hp⟩

structure Tracks (P : Platform) (cap : Queue → ℕ) (rule : SendRule) (d : Msgbuff) (script : ℕ → Script)
    (tr : List (Processes.Event operations Process)) (k : Kernel) (g : Ghost P) : Prop where
  reaches : Reaches (bytes P) rule (fun _ => sessionId) d g.events g.state
  carries : Carries P cap k g.state.queue
  seen : seen (exchanged P) tr = g.events.map (transfer P)
  length : tr.length + g.left.length = g.events.length + queues.length
  asked : ∀ i, asked i g.events <+: (script i).map Prod.fst

def Obeys (P : Platform) (cap : Queue → ℕ) (rule : SendRule) (d : Msgbuff)
    (script : ℕ → Script) : Prop :=
  ∀ ⦃tr k g i p q m next r k'⦄, Tracks P cap rule d script tr k g → At P script g i p →
    programs.next i p = some (.call (.write (Queue.name q) m) next) →
    (manager P).atomically (answer P) k (.write q.name m) = some (r, k') →
    rule q (g.state.queue q).length (decide (r = (0 : ℤ)))

def Follows (P : Platform) (cap : Queue → ℕ) (rule : SendRule) (d : Msgbuff) (script : ℕ → Script)
    (tr : List (Processes.Event operations Process)) (k' : Kernel) (g : Ghost P) (i : Process) (e : Done Key Msgbuff)
    (p : Prog operations (programs.Memory i)) : Prop :=
  ∃ g', Tracks P cap rule d script (tr ++ [⟨i, e⟩]) k' g' ∧ At P script g' i p ∧
    ∀ j q, j ≠ i → At P script g j q → At P script g' j q

variable {rule : SendRule} {d : Msgbuff} {script : ℕ → Script} {tr : List (Processes.Event operations Process)}
  {es : List LedSystem.Event} {s t : State (bytes P)} {left : List Queue}

theorem asked_other {i : ℕ} {e : LedSystem.Event} (h : mover e ≠ .client i) : asked i [e] = [] := by
  cases e with
  | request r m placed =>
    have hne : r.client ≠ i := fun hi => h (congrArg Process.client hi)
    simp [asked, requests, Event.request?, hne]
  | _ => exact asked_quiet rfl

theorem follows_move {i : Process} {x : Done Key Msgbuff} {e : LedSystem.Event} {p : Prog operations (programs.Memory i)}
    (h : Tracks P cap rule d script tr k ⟨es, s, left⟩) (hm : Move (bytes P) rule (fun _ => sessionId) s e t)
    (hi : mover e = i) (hshow : (exchanged P x).map (i, ·) = some (transfer P e)) (hc : Carries P cap k' t.queue)
    (hat : At P script ⟨es ++ [e], t, left⟩ i p) : Follows P cap rule d script tr k' ⟨es, s, left⟩ i x p := by
  obtain ⟨a, hs⟩ := move_step hm
  refine ⟨⟨es ++ [e], t, left⟩, ⟨h.reaches.snoc hs, hc, ?_, ?_, fun j => ?_⟩, hat, fun j q hj hq => ?_⟩
  · rw [seen_snoc, h.seen, hshow, List.map_append]
    rfl
  · have := h.length
    simp only [List.length_append, List.length_singleton] at this ⊢
    omega
  · by_cases hj : i = .client j
    · subst hj
      obtain ⟨rest, hasked, -⟩ := hat
      exact ⟨rest.map Prod.fst, hasked⟩
    · rw [asked_snoc, asked_other (hi ▸ hj), List.append_nil]
      exact h.asked j
  · exact at_frame h.reaches hm (hi ▸ hj) hq

theorem coreAt_starts (hh : s.hand = []) (hg : s.core = Globals.initial) (qs : List Queue) :
    CoreAt ⟨es, s, qs⟩ (starts qs) := by
  cases qs with
  | nil => exact .inl (by rw [hh, hg]; rfl)
  | cons q qs => exact .inr ⟨hh, hg, nofun, .inr rfl⟩

theorem follows_init {q : Queue} {qs : List Queue}
    (h : Tracks P cap rule d script tr k ⟨es, s, q :: qs⟩) (hh : s.hand = []) (hg : s.core = Globals.initial) {r : ℤ}
    (ha : (manager P).atomically (answer P) k (.init q.name) = some (r, k')) :
    Follows P cap rule d script tr k' ⟨es, s, q :: qs⟩ .core ⟨.init q.name, r⟩ (starts qs) := by
  obtain ⟨rfl, hc⟩ := carries_init h.carries ha
  refine ⟨⟨es, s, qs⟩, ⟨h.reaches, hc, ?_, ?_, h.asked⟩, coreAt_starts hh hg qs, fun j _ hj hq => ?_⟩
  · rw [seen_snoc, h.seen]
    simp [exchanged, Layout.exchanged]
  · have := h.length
    simp only [List.length_append, List.length_cons, List.length_nil] at this ⊢
    omega
  · cases j with
    | core => exact (hj rfl).elim
    | device => exact hq
    | client i => exact hq

theorem pending_placeOf (g : Globals) (x : Parcel) (m : Msgbuff) :
    (pending x m (iteration g m).1).map placeOf = (iteration g m).1.sends.map Send.place := by
  rcases iteration_sends g m with h | ⟨f, h⟩
  · rw [h]
    rfl
  · rw [h]
    simp [pending, placeOf, Send.place, Function.comp_def]

theorem core_running (h : Tracks P cap rule d script tr k ⟨es, s, left⟩) : s.core.state ≠ stTerm :=
  (reaches_routed header_fits h.reaches).idle.running

section

variable (hobey : Obeys P cap rule d script)
  (h : Tracks P cap rule d script tr k ⟨es, s, left⟩)
include hobey h

theorem core_follows {p : Prog operations Stage} (hp : CoreAt ⟨es, s, left⟩ p) {c : Operation Key Msgbuff}
    {next : c.Reply → Prog operations Stage} (hn : programs.next .core p = some (.call c next)) {r : c.Reply}
    (ha : (manager P).atomically (answer P) k c = some (r, k')) :
    Follows P cap rule d script tr k' ⟨es, s, left⟩ .core ⟨c, r⟩ (next r) := by
  have hat := hp
  rcases hp with rfl | ⟨hh, hg, hleft, ⟨rfl, rfl⟩ | rfl⟩
  · cases hhand : s.hand with
    | nil =>
      rw [hhand] at hn
      cases (main_loop (core_running h)).symm.trans hn
      obtain ⟨x, rest, hq, rfl, hc⟩ := carries_read h.carries ha
      refine follows_move h (.coreRead x rest (core_running h) hhand hq) rfl rfl hc (.inl ?_)
      rw [State.afterCoreRead]
      simp only [pending_placeOf]
      rfl
    | cons x rest =>
      have hrule := fun q m next r k' => @hobey _ _ _ .core _ q m next r k' h hat
      rw [hhand] at hn hrule
      cases hn
      have hr := hrule _ _ _ _ _ rfl ha
      rcases carries_write h.carries ha with ⟨rfl, hc⟩ | ⟨rfl, hc, -⟩
      · exact follows_move h (.coreSend x rest true hhand hr) rfl rfl (hc x.parcel) (.inl rfl)
      · exact follows_move h (.coreSend x rest false hhand hr) rfl rfl hc (.inl rfl)
  · cases main_start.symm.trans hn
    exact follows_init h hh hg ha
  · cases left with
    | nil => exact (hleft rfl).elim
    | cons q qs =>
      cases hn
      exact follows_init h hh hg ha

theorem device_follows {p : Prog operations Msgbuff} (hp : DeviceAt s p) {c : Operation Key Msgbuff}
    {next : c.Reply → Prog operations Msgbuff} (hn : programs.next .device p = some (.call c next)) {r : c.Reply}
    (ha : (manager P).atomically (answer P) k c = some (r, k')) :
    Follows P cap rule d script tr k' ⟨es, s, left⟩ .device ⟨c, r⟩ (next r) := by
  have hat := hp
  cases hr : s.reply with
  | none =>
    obtain rfl : p = .done s.device := by simpa [DeviceAt, hr] using hp
    cases (congrArg some (deviceWrapper_read s.device)).symm.trans hn
    obtain ⟨x, rest, hq, rfl, hc⟩ := carries_read h.carries ha
    exact follows_move h (.deviceRead x rest hr hq) rfl rfl hc rfl
  | some x =>
    obtain rfl : p = replies s.device := by simpa [DeviceAt, hr] using hp
    cases hn
    have hrule := @hobey _ _ _ .device _ .core _ _ _ _ h hat rfl ha
    rcases carries_write h.carries ha with ⟨rfl, hc⟩ | ⟨rfl, hc, -⟩
    · exact follows_move h (.deviceSend x true hr hrule) rfl rfl (hc x) rfl
    · exact follows_move h (.deviceSend x false hr hrule) rfl rfl hc rfl

omit hobey h in
theorem clientAt_call {i : ℕ} {c : Call} {m : Msgbuff} {rest : Script} (hw : s.waiting i = none)
    (hasked : asked i es ++ ((c, m) :: rest).map Prod.fst = (script i).map Prod.fst) (msg : Msgbuff) (placed : Bool)
    (left : List Queue) :
    ClientAt (script i) i ⟨es ++ [.request ⟨s.issued, i, c⟩ msg placed], s.afterCall ⟨s.issued, i, c⟩ msg placed, left⟩
      (awaits c msg rest) := by
  refine ⟨rest, ?_, ?_⟩
  · have hone : asked i [.request ⟨s.issued, i, c⟩ msg placed] = [c] := by simp [asked, requests, Event.request?]
    rw [asked_snoc, hone, List.append_assoc]
    exact hasked
  · cases hc : c.waits
    · simp [State.afterCall, awaits, hc, hw]
    · simp [State.afterCall, awaits, hc]

theorem client_follows {i : ℕ} {p : Prog operations Script} (hp : ClientAt (script i) i ⟨es, s, left⟩ p)
    {c : Operation Key Msgbuff}
    {next : c.Reply → Prog operations Script} (hn : programs.next (.client i) p = some (.call c next)) {r : c.Reply}
    (ha : (manager P).atomically (answer P) k c = some (r, k')) :
    Follows P cap rule d script tr k' ⟨es, s, left⟩ (.client i) ⟨c, r⟩ (next r) := by
  have hat : At P script ⟨es, s, left⟩ (.client i) p := hp
  obtain ⟨rest, hasked, hp⟩ := hp
  cases hw : s.waiting i with
  | none =>
    obtain rfl : p = .done rest := by simpa [hw] using hp
    cases rest with
    | nil => cases hn
    | cons x rest =>
      obtain ⟨call, m⟩ := x
      have hwrite := client_write call m rest
      cases hwrite.symm.trans hn
      have hrule := @hobey _ _ _ _ _ .core _ _ _ _ h hat hwrite ha
      have hnext := clientAt_call hw hasked (call.message sessionId m)
      rcases carries_write h.carries ha with ⟨rfl, hc⟩ | ⟨rfl, hc, -⟩
      · exact follows_move h (.call i call m true hw hrule) rfl rfl
          (hc ⟨⟨s.issued, i, call⟩, .request⟩) (hnext true left)
      · exact follows_move h (.call i call m false hw hrule) rfl rfl hc (hnext false left)
  | some w =>
    obtain ⟨req, m⟩ := w
    obtain ⟨hown, rfl⟩ : req.client = i ∧ p = _ := by simpa only [hw] using hp
    cases hn
    obtain ⟨x, rest', hq, rfl, hc⟩ := carries_read h.carries ha
    refine follows_move h (.clientRead i req m x rest' hw hq) (congrArg Process.client hown) ?_ hc ⟨rest, ?_, ?_⟩
    · simp [transfer, exchanged, Layout.exchanged, hown, bytes]
    · rwa [asked_snoc, asked_quiet rfl, List.append_nil]
    · simp [State.afterClientRead]

end

def outline (P : Platform) (cap : Queue → ℕ) (rule : SendRule) (d : Msgbuff)
    (script : ℕ → Script) (hobey : Obeys P cap rule d script) :
    Outline programs ((manager P).atomically (answer P)) (Ghost P) where
  Global := Tracks P cap rule d script
  Local i g p := At P script g i p
  call {tr k g i p c next r k'} h hp hn ha := by
    cases i with
    | core => exact core_follows hobey h hp hn ha
    | device => exact device_follows hobey h hp hn ha
    | client i => exact client_follows hobey h hp hn ha

def opened (n : ℕ) : List (Processes.Event operations Process) :=
  (queues.take n).map fun q => ⟨.core, ⟨.init q.name, (0 : ℤ)⟩⟩

theorem opened_silent (n : ℕ) : seen (exchanged P) (opened n) = [] := by
  apply List.filterMap_eq_nil_iff.mpr
  intro e he
  obtain ⟨q, -, rfl⟩ := List.mem_map.mp he
  simp [Layout.exchanged]

theorem begins_at {n : ℕ} (d : Msgbuff) : CoreAt ⟨[], State.initial (bytes P) d, queues.drop n⟩ (begins n) := by
  cases n with
  | zero => exact .inr ⟨rfl, rfl, nofun, .inl ⟨rfl, rfl⟩⟩
  | succ n => exact coreAt_starts rfl rfl _

theorem begun_holds (hobey : Obeys P cap rule d script) (hk : Ready P cap k) {n : ℕ} (hn : n ≤ queues.length) :
    (outline P cap rule d script hobey).Holds (opened n) (begun n k d script)
      ⟨[], State.initial (bytes P) d, queues.drop n⟩ := by
  obtain ⟨σ, hkeep, hempty⟩ := hk
  refine ⟨⟨.nil, ⟨σ, hkeep, fun q => ⟨(hempty q).1, [], (hempty q).2, rfl⟩⟩, opened_silent n, ?_,
    fun i => List.nil_prefix⟩, fun i => ?_⟩
  · simp only [opened, List.length_map, List.length_take, List.length_drop, List.length_nil]
    omega
  · cases i with
    | core => exact begins_at d
    | device => rfl
    | client i => exact ⟨script i, rfl, rfl⟩

variable {boot calls : List (Processes.Event interface Process)} {u p : Pool ((manager P).family programs) Kernel}

theorem runs_outline (hobey : Obeys P cap rule d script) (hb : Boots P cap k d script boot u) (h : Calls P u calls p) :
    ∃ tr v left g, Matches (answer P) (manager P) (transferred P) (exchanged P) p v left ∧
      (outline P cap rule d script hobey).Holds tr v g ∧
      seen (transferred P) (boot ++ calls) = seen (exchanged P) tr ∧
      ∀ i, Processes.calls (boot ++ calls) i ≤ 2 * Processes.calls tr i + 1 := by
  rw [hb.begun] at h
  obtain ⟨tr, v, left, hrun, hm, hseen, hcalls⟩ := (manager_reduces (layout P) P).run h
  obtain ⟨g, hg⟩ := (begun_holds hobey hb.ready hb.short).run hrun
  refine ⟨_, v, left, g, hm, hg, ?_, fun i => ?_⟩
  · have hsilent : seen (transferred P) boot = [] := by
      apply List.filterMap_eq_nil_iff.mpr
      intro e he
      rw [hb.silent e he, Option.map_none]
    rw [seen, seen, List.filterMap_append, List.filterMap_append]
    exact congrArg₂ (· ++ ·) (hsilent.trans (opened_silent _).symm) hseen
  · have hopened : ∀ e ∈ opened boot.length, e.who = .core := by
      intro e he
      obtain ⟨q, -, rfl⟩ := List.mem_map.mp he
      rfl
    have hlength : (opened boot.length).length = boot.length := by
      simpa only [opened, List.length_map, List.length_take, min_eq_left_iff] using hb.short
    have := hcalls i
    rw [calls_append, calls_append, calls_alone hb.core, calls_alone hopened, hlength]
    split <;> omega

theorem obeys_lossy : Obeys P cap lossy d script := fun _ _ _ _ _ _ _ _ _ _ _ _ _ _ => rfl

theorem carries_queue (h : Carries P cap k queue) (q : Queue) :
    ∃ id, k.ident q.key = some id ∧ k.queue id = some ((queue q).map Packet.wire) := by
  obtain ⟨σ, hk, hq⟩ := h
  obtain ⟨-, ms, hms, hwire⟩ := hq q
  cases hid : k.ident q.key with
  | none =>
    rw [hk.absent q.name hid] at hms
    cases hms
  | some id =>
    obtain ⟨ms', hms', hx, -⟩ := hk.present q.name (name_mem q) id hid
    rw [hms] at hms'
    cases hms'
    exact ⟨id, rfl, hx.trans (congrArg some hwire.symm)⟩

/-- Every interleaving of the system calls is a run of the system, in which each write and each read that succeeded
is one move. -/
theorem stack_refines (hb : Boots P cap k d script boot u) (h : Calls P u calls p) :
    ∃ es s, Reaches (bytes P) lossy (fun _ => sessionId) d es s ∧
      seen (transferred P) (boot ++ calls) = es.map (transfer P) ∧
      (∀ q : Queue, ∃ id, p.kernel.ident q.key = some id ∧ p.kernel.queue id = some ((s.queue q).map Packet.wire)) ∧
      ∀ i, asked i es <+: (script i).map Prod.fst := by
  obtain ⟨tr, v, left, g, hm, hg, hseen, -⟩ := runs_outline obeys_lossy hb h
  refine ⟨g.events, g.state, hg.overall.reaches, hseen.trans hg.overall.seen, fun q => ?_, hg.overall.asked⟩
  rw [hm.kernel]
  exact carries_queue hg.overall.carries q

abbrev cold : Kernel := equipped [] 16384 3

def twoClients : ℕ → Script
  | 0 => [(.glowLedWithBoardAck, .zeroed)]
  | 1 => [(.glowLed, .zeroed)]
  | _ => []

abbrev TwoPool : Type := Pool ((manager amd64).family programs) Kernel

def twoStart : Option (List (Processes.Event interface Process) × TwoPool) :=
  Runs.exec (step ((manager amd64).family programs) (answer amd64)) ((manager amd64).pool (start cold .zeroed twoClients))
    [.core, .core, .core]

theorem twoStart_some : twoStart.isSome := by decide +kernel

abbrev twoBoot : List (Processes.Event interface Process) := (twoStart.get twoStart_some).1

abbrev twoBooted : TwoPool := (twoStart.get twoStart_some).2

theorem two_boots : Boots amd64 (fun _ => 16384) cold .zeroed twoClients twoBoot twoBooted :=
  boots_cold (equipped_keeps _ _ [] _ _) (fun _ => vacant_queued [] _ _) (by decide) (fun _ => rfl)
    (Runs.run_exec _ (Option.some_get twoStart_some).symm) (by decide +kernel) (by decide +kernel)

def twoRun : Option (List (Processes.Event interface Process) × TwoPool) :=
  Runs.exec (step ((manager amd64).family programs) (answer amd64)) twoBooted
    [.client 0, .client 1, .device, .client 1, .client 0, .client 0, .core, .core, .core, .core, .core, .core, .core,
      .core, .device, .device, .core, .core, .core, .core, .device, .device, .core, .client 0, .core, .core, .core, .core]

theorem twoRun_some : twoRun.isSome := by decide +kernel

abbrev twoCalls : List (Processes.Event interface Process) := (twoRun.get twoRun_some).1

abbrev twoPool : TwoPool := (twoRun.get twoRun_some).2

theorem two_runs : Calls amd64 twoBooted twoCalls twoPool := Runs.run_exec _ (Option.some_get twoRun_some).symm

theorem two_refines : ∃ es s, Reaches (bytes amd64) lossy (fun _ => sessionId) .zeroed es s ∧
    seen (transferred amd64) (twoBoot ++ twoCalls) = es.map (transfer amd64) := by
  obtain ⟨es, s, hreach, hseen, -⟩ := stack_refines two_boots two_runs
  exact ⟨es, s, hreach, hseen⟩

end NutrinoStack.LedStack

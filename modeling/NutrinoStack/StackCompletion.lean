import NutrinoStack.Replies
import NutrinoStack.Settlement
import NutrinoStack.StackProgress

namespace NutrinoStack.LedStack

open Application CoreFsm CStrings Interactions LedSystem MachineWords MessageQueues Processes QueueManager Reductions
  Stores
  StructLayout

variable {P : Platform} {k : Kernel} {cap : Queue → ℕ} {rule : SendRule} {d : Msgbuff}
  {script : ℕ → Script} {tr : List (Processes.Event operations Process)} {g : Ghost P} {v : Pool programs Kernel}
  {boot calls : List (Processes.Event interface Process)} {u p : Pool ((manager P).family programs) Kernel}
  {n : ℕ} {q : Queue} {left : Process → ℕ}

def shareOf (q : Queue) (c : Call) : ℕ := Parcel.share q ⟨⟨0, 0, c⟩, .request⟩

theorem sent_size_le (m : Msgbuff) (hm : strlen m.msgText ≤ 55) : messageSize P (send P m) ≤ 68 := by
  simp only [messageSize, send, List.length_take, store_length]
  omega

theorem packet_size_le {s : State (bytes P)} (h : Routed (fun _ => sessionId) s) {x : Packet (bytes P)}
    (hx : x ∈ s.queue q) : messageSize P x.wire ≤ 68 := by
  obtain ⟨-, m, hw, -, hs, -⟩ := h.packets q x hx
  rw [hw]
  exact sent_size_le m hs.2

theorem room_of (h : Tracks P cap rule d script tr k g) (hcap : 68 * total n script (shareOf q) ≤ cap q)
    (hlen : (g.state.queue q).length + 1 ≤ total n script (shareOf q)) {m : Msgbuff} {x : Parcel}
    (hm : m.toHeader = x.header fun _ => sessionId) (ht : strlen m.msgText ≤ 55) : Room P cap g.state.queue q m := by
  have hfit : Header.Fits P m.toHeader := hm ▸ header_fits x
  constructor
  · rw [store_session hfit.1, (header_address hm).1]
    decide
  · have hsum : ((g.state.queue q).map fun p => messageSize P p.wire).sum ≤ 68 * (g.state.queue q).length := by
      have hle := List.sum_le_card_nsmul ((g.state.queue q).map fun p => messageSize P p.wire) 68 ?_
      · simpa [mul_comm] using hle
      · intro n hn
        obtain ⟨x, hx, rfl⟩ := List.mem_map.mp hn
        exact packet_size_le (reaches_routed header_fits h.reaches) hx
    have hmul := Nat.mul_le_mul_left 68 hlen
    omega

theorem call_eq {I : Interface} {α : Type} {c c' : I.Call} {next : I.Reply c → Prog I α} {next' : I.Reply c' → Prog I α}
    (h : some (Prog.call c next) = some (.call c' next')) : c = c' := by
  cases h
  rfl

theorem hand_le (h : Tracks P cap rule d script tr k g) (hn : ∀ i, n ≤ i → script i = []) (q' : Queue) {x : Parcel}
    (hx : x ∈ g.state.load.hand q') (ht : x.target = q) :
    (g.state.queue q).length + 1 ≤ total n script (shareOf q) := by
  have hqueue := queue_le header_fits h.reaches q
  have htotal := requests_total hn h (shareOf q)
  have hone : 1 ≤ ((g.state.load.hand q').map (Parcel.share q)).sum :=
    (share_pos ht).trans (List.single_le_sum (fun _ _ => Nat.zero_le _) _ (List.mem_map_of_mem hx))
  have hpart : ((g.state.load.hand q').map (Parcel.share q)).sum ≤
      ∑ q', ((g.state.load.hand q').map (Parcel.share q)).sum :=
    Finset.single_le_sum (f := fun q' => ((g.state.load.hand q').map (Parcel.share q)).sum) (fun _ _ => Nat.zero_le _)
      (Finset.mem_univ q')
  have hsame : ((requests g.events).map fun r => Parcel.share q ⟨r, .request⟩) =
      (requests g.events).map fun r => shareOf q r.call := by
    cases q <;> rfl
  rw [hsame] at hqueue
  omega

structure Admitted (n : ℕ) (script : ℕ → Script) (g : Ghost P) (q : Queue) (m : Msgbuff) : Prop where
  place : (g.state.queue q).length + 1 ≤ total n script (shareOf q)
  header : ∃ x : Parcel, m.toHeader = x.header fun _ => sessionId
  text : strlen m.msgText ≤ 55

theorem write_eq {key key' : Key} {m m' : Msgbuff} (h : Operation.write key m = .write key' m') :
    key = key' ∧ m = m' := by
  cases h
  exact ⟨rfl, rfl⟩

theorem core_admitted (hn : ∀ i, n ≤ i → script i = []) (h : Tracks P cap rule d script tr k g)
    {c : Prog operations Stage} (hat : CoreAt g c) {m : Msgbuff} {next : ℤ → Prog operations Stage}
    (hw : programs.next .core c = some (.call (I := operations) (.write q.name m) next)) : Admitted n script g q m := by
  rcases hat with rfl | ⟨-, -, hleft, ⟨rfl, -⟩ | rfl⟩
  · cases hhand : g.state.hand with
    | nil =>
      rw [hhand] at hw
      cases call_eq ((main_loop (core_running h)).symm.trans hw)
    | cons x rest =>
      rw [hhand] at hw
      obtain ⟨hkey, rfl⟩ := write_eq (call_eq hw)
      obtain rfl := name_injective hkey
      obtain ⟨htarget, hheader, -, hsend⟩ := (reaches_routed header_fits h.reaches).hand x (by simp [hhand])
      refine ⟨hand_le h hn .core ?_ htarget.symm, ⟨x.parcel, hheader⟩, hsend.2⟩
      simp [State.load, hhand]
  · cases call_eq hw
  · cases hl : g.left with
    | nil => exact (hleft hl).elim
    | cons x rest =>
      rw [hl] at hw
      cases call_eq hw

theorem device_admitted (hn : ∀ i, n ≤ i → script i = []) (h : Tracks P cap rule d script tr k g)
    {c : Prog operations Msgbuff} (hat : DeviceAt g.state c) {m : Msgbuff} {next : ℤ → Prog operations Msgbuff}
    (hw : programs.next .device c = some (.call (I := operations) (.write q.name m) next)) : Admitted n script g q m := by
  cases hr : g.state.reply with
  | none =>
    obtain rfl : c = .done g.state.device := by simpa [DeviceAt, hr] using hat
    cases call_eq ((congrArg some (deviceWrapper_read g.state.device)).symm.trans hw)
  | some x =>
    obtain rfl : c = replies g.state.device := by simpa [DeviceAt, hr] using hat
    obtain ⟨hkey, rfl⟩ := write_eq (call_eq hw)
    obtain rfl : Queue.core = q := name_injective hkey
    obtain ⟨hhop, hheader⟩ := (reaches_routed header_fits h.reaches).reply x hr
    have htype : g.state.device.msgType = msgTypeGlowLed := by
      rw [hheader, header_msgType]
    refine ⟨hand_le h hn .device (x := x) ?_ (by simp [Parcel.target, hhop]),
      ⟨x, (deviceAnswer_header htype).trans hheader⟩, ?_⟩
    · simp [State.load, hr]
    · exact (within_strcpy fromDevice_plain _).2

theorem client_admitted (hn : ∀ i, n ≤ i → script i = []) (h : Tracks P cap rule d script tr k g) {i : ℕ}
    {c : Prog operations Script} (hat : ClientAt (script i) i g c) {m : Msgbuff} {next : ℤ → Prog operations Script}
    (hw : programs.next (.client i) c = some (.call (I := operations) (.write q.name m) next)) :
    Admitted n script g q m := by
  obtain ⟨rest, hasked, hat⟩ := hat
  cases hwait : g.state.waiting i with
  | none =>
    obtain rfl : c = .done rest := by simpa [hwait] using hat
    cases rest with
    | nil => cases hw
    | cons x rest =>
      obtain ⟨hkey, rfl⟩ := write_eq (call_eq ((client_write x.1 x.2 rest).symm.trans hw))
      obtain rfl : Queue.core = q := name_injective hkey
      refine ⟨?_, ⟨⟨⟨0, 0, x.1⟩, .request⟩, rfl⟩, ?_⟩
      · have hqueue := queue_le header_fits h.reaches .core
        have htotal := requests_total_next hn h hasked (shareOf .core)
        have hone : shareOf .core x.1 = 1 := rfl
        have hsame : ((requests g.events).map fun r => Parcel.share .core ⟨r, .request⟩) =
            (requests g.events).map fun r => shareOf .core r.call := rfl
        rw [hsame] at hqueue
        omega
      · exact (within_strcpy (call_text_plain x.1) _).2
  | some w =>
    obtain ⟨-, rfl⟩ : w.1.client = i ∧ c = _ := by simpa only [hwait] using hat
    cases call_eq hw

theorem at_admitted (hn : ∀ i, n ≤ i → script i = []) (h : Tracks P cap rule d script tr k g) {i : Process}
    {c : Prog operations (programs.Memory i)} (hat : At P script g i c) {m : Msgbuff}
    {next : ℤ → Prog operations (programs.Memory i)}
    (hw : programs.next i c = some (.call (I := operations) (.write q.name m) next)) : Admitted n script g q m := by
  cases i with
  | core => exact core_admitted hn h hat hw
  | device => exact device_admitted hn h hat hw
  | client i => exact client_admitted hn h hat hw

theorem obeys_reliable (hn : ∀ i, n ≤ i → script i = [])
    (hcap : ∀ q, 68 * total n script (shareOf q) ≤ cap q) : Obeys P cap reliable d script := by
  intro tr k g i c q m next r k' h hat hw ha
  rcases carries_write h.carries ha with ⟨rfl, -⟩ | ⟨-, -, hroom⟩
  · rfl
  · obtain ⟨hplace, ⟨x, hx⟩, htext⟩ := at_admitted hn h hat hw
    exact (hroom (room_of h (hcap q) hplace hx htext)).elim

def Lies (k : Kernel) (key : ℤ) (ms : List Bytes) : Prop := ∃ id, k.ident key = some id ∧ k.queue id = some ms

theorem client_ended (hm : Matches (answer P) (manager P) (transferred P) (exchanged P) p v left) {i : ℕ}
    (hi : programs.next (.client i) (v.thread (.client i)) = none) :
    ((manager P).family programs).next (.client i) (p.thread (.client i)) = none := by
  cases hm.inside (.client i) with
  | ended _ hp => exact hp
  | within hs _ _ _ =>
    rw [hs] at hi
    cases hi

theorem client_finished {i : ℕ} {c : Prog operations Script} (hat : ClientAt (script i) i g c)
    (hw : g.state.waiting i = none) (hasked : asked i g.events = (script i).map Prod.fst) :
    programs.next (.client i) c = none := by
  obtain ⟨rest, hrest, hat⟩ := hat
  obtain rfl : c = .done rest := by simpa [hw] using hat
  obtain rfl : rest = [] := by simpa [hasked] using hrest
  rfl

theorem run_stuck (hobey : Obeys P cap rule d script) (hb : Boots P cap k d script boot u)
    (h : Calls P u calls p) (hs : ∀ i, step ((manager P).family programs) (answer P) p i = none) :
    ∃ tr v left g, Matches (answer P) (manager P) (transferred P) (exchanged P) p v left ∧
      (outline P cap rule d script hobey).Holds tr v g ∧ Stuck script g := by
  obtain ⟨tr, v, left, g, hm, hg, -, -⟩ := runs_outline hobey hb h
  exact ⟨tr, v, left, g, hm, hg, holds_stuck hobey hg fun i => hm.stopped (hs i)⟩

theorem quiet_lies (hm : Matches (answer P) (manager P) (transferred P) (exchanged P) p v left)
    (hc : Carries P cap v.kernel g.state.queue) (hq : g.state.queue q = []) : Lies p.kernel q.key [] := by
  have hlies := carries_queue hc q
  rw [hq] at hlies
  rwa [hm.kernel]

theorem stack_deadlock (hb : Boots P cap k d script boot u) (h : Calls P u calls p)
    (hs : ∀ i, step ((manager P).family programs) (answer P) p i = none) :
    Lies p.kernel Queue.core.key [] ∧ Lies p.kernel Queue.device.key [] ∧
      ∀ i, ((manager P).family programs).next (.client i) (p.thread (.client i)) = none ∨
        Lies p.kernel Queue.application.key [] := by
  obtain ⟨tr, v, left, g, hm, hg, hstuck⟩ := run_stuck obeys_lossy hb h hs
  have hcarries := hg.overall.carries
  refine ⟨quiet_lies hm hcarries hstuck.quiet.core, quiet_lies hm hcarries hstuck.quiet.device, fun i => ?_⟩
  rcases hstuck.clients i with ⟨hw, hasked⟩ | ⟨-, happ⟩
  · exact .inl (client_ended hm (client_finished (hg.thread (.client i)) hw hasked))
  · exact .inr (quiet_lies hm hcarries happ)

def stale : Call → ℕ
  | .glowLed | .glowLedWithFsmAck => 1
  | .glowLedWithBoardAck => 0

theorem stale_waits (r : Request) : stale r.call + r.call.waits.toNat = Parcel.acksAhead ⟨r, .request⟩ := by
  obtain ⟨_, _, c⟩ := r
  cases c <;> rfl

theorem stale_sum (rs : List Request) :
    (rs.map fun r => stale r.call).sum + (rs.map fun r => r.call.waits.toNat).sum =
      (rs.map fun r => Parcel.acksAhead ⟨r, .request⟩).sum := by
  rw [← List.sum_map_add]
  simp only [stale_waits]

theorem stuck_answered (hn : ∀ i, n ≤ i → script i = []) (h : Tracks P cap reliable d script tr k g)
    (hs : Stuck script g) (i : ℕ) : g.state.waiting i = none := by
  cases hw : g.state.waiting i with
  | none => rfl
  | some w =>
    have hclient := requests_client hn h
    have hsettled := application_settled header_fits h.reaches hs.quiet hclient
    have hsum := stale_sum (requests g.events)
    obtain ⟨hr, hown⟩ := waiting_request h.reaches i w.1 w.2 hw
    have hlt : i < n := hown ▸ hclient _ hr
    have hone : 1 ≤ waitingCount n g.state :=
      (by simp [hw] : 1 ≤ (g.state.waiting i).isSome.toNat).trans
        (Finset.single_le_sum (f := fun i => (g.state.waiting i).isSome.toNat) (fun _ _ => Nat.zero_le _)
          (Finset.mem_range.mpr hlt))
    rcases hs.clients i with ⟨hnone, -⟩ | ⟨-, happ⟩
    · rw [hw] at hnone
      cases hnone
    · simp only [happ, List.length_nil, waits] at hsettled
      omega

theorem stuck_asked (hn : ∀ i, n ≤ i → script i = []) (h : Tracks P cap reliable d script tr k g)
    (hs : Stuck script g) (i : ℕ) : asked i g.events = (script i).map Prod.fst := by
  rcases hs.clients i with ⟨-, hasked⟩ | ⟨hw, -⟩
  · exact hasked
  · exact (hw (stuck_answered hn h hs i)).elim

theorem stuck_leftover (hn : ∀ i, n ≤ i → script i = []) (h : Tracks P cap reliable d script tr k g)
    (hs : Stuck script g) : (g.state.queue .application).length = total n script stale := by
  have hclient := requests_client hn h
  have hsettled := application_settled header_fits h.reaches hs.quiet hclient
  have hsum := stale_sum (requests g.events)
  have hnone : waitingCount n g.state = 0 := by simp [waitingCount, stuck_answered hn h hs]
  have htotal : total n script stale = ((requests g.events).map fun r => stale r.call).sum := by
    rw [← asked_sum stale hclient, total]
    simp only [stuck_asked hn h hs, List.map_map]
    rfl
  simp only [waits, hnone] at hsettled
  omega

theorem idle_stopped (hb : Boots P cap k d script boot u) (h : Calls P u calls p) {i : ℕ}
    (hi : script i = []) : step ((manager P).family programs) (answer P) p (.client i) = none := by
  obtain ⟨tr, v, left, g, hm, hg, -, -⟩ := runs_outline obeys_lossy hb h
  exact stopped_iff.mpr (.inl (client_ended hm (idle_client hg.overall hi (hg.thread (.client i)))))

theorem two_blocked : ∀ i ∈ [Process.core, .device, .client 0, .client 1],
    (step ((manager amd64).family programs) (answer amd64) twoPool i).isNone := by decide +kernel

theorem two_stopped (i : Process) :
    step ((manager amd64).family programs) (answer amd64) twoPool i = none := by
  match i with
  | .core | .device | .client 0 | .client 1 => exact Option.isNone_iff_eq_none.mp (two_blocked _ (by simp))
  | .client (_ + 2) => exact idle_stopped two_boots two_runs rfl

theorem two_deadlock : Lies twoPool.kernel Queue.core.key [] ∧ Lies twoPool.kernel Queue.device.key [] :=
  have h := stack_deadlock two_boots two_runs two_stopped
  ⟨h.1, h.2.1⟩

section

variable (hn : ∀ i, n ≤ i → script i = []) (hb : Boots P cap k d script boot u)
  (hcap : ∀ q, 68 * total n script (shareOf q) ≤ cap q) (h : Calls P u calls p)
include hn hb hcap h

theorem stack_never_fails : ∀ e ∈ boot ++ calls, transferred P e.entry ≠ some .failed := by
  obtain ⟨tr, v, left, g, -, hg, hseen, -⟩ := runs_outline (obeys_reliable hn hcap) hb h
  intro e he hfailed
  have hmem := seen_mem he hfailed
  rw [hseen, hg.overall.seen] at hmem
  obtain ⟨x, hx, ht⟩ := List.mem_map.mp hmem
  have hplaced := reaches_refused hg.overall.reaches x hx
  cases x with
  | request r m placed | coreSend x placed | deviceSend x m placed =>
    obtain rfl : placed = true := by simpa [LedSystem.Event.refused] using hplaced
    simp [transfer] at ht
  | clientRead | coreRead | deviceRead => simp [transfer] at ht

omit hn hb hcap h in
theorem twoClients_room : ∀ q, 68 * total 2 twoClients (shareOf q) ≤ 16384 := by decide +kernel

omit hn hb hcap h in
theorem two_never_fails : ¬ ∃ e ∈ twoBoot ++ twoCalls, transferred amd64 e.entry = some .failed := by
  rintro ⟨e, he, hfailed⟩
  exact stack_never_fails twoClients_idle two_boots twoClients_room two_runs e he hfailed

theorem stack_completes (hs : ∀ i, step ((manager P).family programs) (answer P) p i = none) :
    (∀ i, ((manager P).family programs).next (.client i) (p.thread (.client i)) = none) ∧
      Lies p.kernel Queue.core.key [] ∧ Lies p.kernel Queue.device.key [] ∧
      ∃ ms, Lies p.kernel Queue.application.key ms ∧ ms.length = total n script stale := by
  obtain ⟨tr, v, left, g, hm, hg, hstuck⟩ := run_stuck (obeys_reliable hn hcap) hb h hs
  have hcarries := hg.overall.carries
  refine ⟨fun i => ?_, quiet_lies hm hcarries hstuck.quiet.core, quiet_lies hm hcarries hstuck.quiet.device,
    _, hm.kernel ▸ carries_queue hcarries .application, ?_⟩
  · exact client_ended hm (client_finished (hg.thread (.client i)) (stuck_answered hn hg.overall hstuck i)
      (stuck_asked hn hg.overall hstuck i))
  · exact (List.length_map Packet.wire).trans (stuck_leftover hn hg.overall hstuck)

end

theorem two_completes : ∃ ms, Lies twoPool.kernel Queue.application.key ms ∧ ms.length = 1 := by
  obtain ⟨-, -, -, ms, hlies, hlen⟩ :=
    stack_completes twoClients_idle two_boots twoClients_room two_runs two_stopped
  exact ⟨ms, hlies, hlen⟩

end NutrinoStack.LedStack

import NutrinoStack.Ledgers

namespace NutrinoStack.LedSystem

open Application CoreFsm Relays Runs

def Parcel.acksAhead (p : Parcel) : ℕ :=
  match p.hop with
  | .request =>
    match p.origin.call with
    | .glowLed => 1
    | .glowLedWithFsmAck => 2
    | .glowLedWithBoardAck => 1
  | .requeue | .command | .answer => 1
  | .initAck | .finalAck => 0

def Parcel.commandsAhead (p : Parcel) : ℕ :=
  match p.hop with
  | .request => if p.origin.call = .glowLed then 0 else 1
  | .command => 1
  | .requeue | .answer | .initAck | .finalAck => 0

def Parcel.workAhead (p : Parcel) : ℕ :=
  match p.hop with
  | .request =>
    match p.origin.call with
    | .glowLed => 4
    | .glowLedWithFsmAck => 7
    | .glowLedWithBoardAck => 6
  | .requeue => 2
  | .command => 4
  | .answer => 2
  | .initAck | .finalAck => 0

theorem acksAhead_application {p : Parcel} (h : p.target = .application) : p.acksAhead = 0 := by
  rcases target_application h with hp | hp <;> simp only [Parcel.acksAhead, hp]

theorem commandsAhead_application {p : Parcel} (h : p.target = .application) : p.commandsAhead = 0 := by
  rcases target_application h with hp | hp <;> simp only [Parcel.commandsAhead, hp]

def ackAccount : Account network where
  gain
    | .sent p true => if p.target = .application then 1 else 0
    | .taken p => p.acksAhead
    | _ => 0
  unread := Parcel.acksAhead
  unsent p := (if p.target = .application then 1 else 0) + p.acksAhead
  injected _ _ := rfl
  read := by
    rintro ⟨⟨n, client, c⟩, hop⟩
    cases hop <;> cases c <;> rfl
  sent _ := rfl
  refused _ := Nat.zero_le _
  taken _ := rfl

def commandAccount : Account network where
  gain
    | .read p => if p.hop = .command then 1 else 0
    | .taken p => p.commandsAhead
    | _ => 0
  unread := Parcel.commandsAhead
  unsent := Parcel.commandsAhead
  injected _ _ := rfl
  read := by
    rintro ⟨⟨n, client, c⟩, hop⟩
    cases hop <;> cases c <;> rfl
  sent _ := Nat.zero_add _
  refused _ := Nat.zero_le _
  taken _ := rfl

def workAccount : Account network where
  gain
    | .read p => if p.target = .application then 0 else 1
    | .sent _ _ => 1
    | .taken p => p.workAhead
    | .injected _ _ => 0
  unread := Parcel.workAhead
  unsent p := 1 + p.workAhead
  injected _ _ := rfl
  read := by
    rintro ⟨⟨n, client, c⟩, hop⟩
    cases hop <;> cases c <;> rfl
  sent _ := rfl
  refused p := Nat.le_add_right 1 p.workAhead
  taken _ := rfl

theorem onward_origin (p x : Parcel) (hx : x ∈ network.onward p) : x.origin = p.origin := by
  obtain ⟨⟨n, client, c⟩, hop⟩ := p
  cases hop <;> cases c <;> simp only [network, Parcel.onward, List.mem_cons, List.not_mem_nil, or_false] at hx
  all_goals rcases hx with rfl | rfl <;> rfl

def Account.of (A : Account network) (r : Request) : Account network :=
  A.only (fun p => p.origin = r) fun p x hx => by rw [onward_origin p x hx]

variable {C : Channel} {rule : SendRule} {sid : ℕ → ℤ} {d : Msgbuff} {tr : List Event} {s : State C}

theorem credited_of (A : Account network) (r : Request) (hplaced : ∀ e ∈ tr, e.refused = false) :
    (Account.of A r).credited (tr.map Event.relay) = (requests tr).count r * A.unread ⟨r, .request⟩ := by
  induction tr with
  | nil => simp [Account.credited, requests]
  | cons e tr ih =>
    have ht := ih fun x hx => hplaced x (by simp [hx])
    have he := hplaced e (by simp)
    simp only [Account.credited, List.map_cons, List.sum_cons, List.map_map] at ht ⊢
    rw [ht]
    cases e with
    | request r' m placed =>
      obtain rfl : placed = true := by simpa [Event.refused] using he
      by_cases hr : r' = r
      · subst hr
        simp [Event.relay, Account.credit, Account.of, Account.only, requests, Event.request?, add_mul, add_comm]
      · simp [Event.relay, Account.credit, Account.of, Account.only, requests, Event.request?, hr]
    | _ => simp [Event.relay, Account.credit, requests, Event.request?, List.filterMap_cons]

theorem balance [Carrier C] (hfit : ∀ p : Parcel, Carrier.Fits C (p.header sid)) (A : Account network)
    (h : Reaches C reliable sid d tr s) {r : Request} (hr : r ∈ requests tr) :
    (Account.of A r).earned (tr.map Event.relay) + (Account.of A r).outstanding s.load =
      A.unread ⟨r, .request⟩ := by
  have hplaced := reaches_refused h
  have hsent : ∀ p, .sent p false ∉ tr.map Event.relay := by
    intro p hp
    obtain ⟨e, he, hep⟩ := List.mem_map.mp hp
    have := hplaced e he
    cases e <;> simp_all [Event.relay, Event.refused]
  have hrun := run_account (Account.of A r) (reaches_relay hfit h) hsent
  rw [credited_of A r hplaced, List.count_eq_one_of_mem (requests_nodup h) hr, one_mul] at hrun
  simpa [Account.outstanding, Load.empty] using hrun

end NutrinoStack.LedSystem

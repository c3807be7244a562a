import NutrinoStack.Balances

namespace NutrinoStack.LedSystem

open Application CoreFsm Relays Runs

def Parcel.stepsAhead (p : Parcel) : ℕ :=
  match p.hop with
  | .request =>
    match p.origin.call with
    | .glowLed => 5
    | .glowLedWithFsmAck => 9
    | .glowLedWithBoardAck => 7
  | .requeue | .answer => 3
  | .command => 5
  | .initAck | .finalAck => 1

def Parcel.share (q : Queue) (p : Parcel) : ℕ :=
  match q with
  | .core =>
    match p.hop with
    | .request | .requeue | .command | .answer => 1
    | .initAck | .finalAck => 0
  | .device => p.commandsAhead
  | .application =>
    match p.hop with
    | .initAck | .finalAck => 1
    | _ => p.acksAhead

def stepAccount : Account network where
  gain
    | .read _ | .sent _ _ => 1
    | .taken p => p.stepsAhead
    | .injected _ _ => 0
  unread := Parcel.stepsAhead
  unsent p := 1 + p.stepsAhead
  injected _ _ := rfl
  read := by
    rintro ⟨⟨n, client, c⟩, hop⟩
    cases hop <;> cases c <;> rfl
  sent _ := rfl
  refused p := Nat.le_add_right 1 p.stepsAhead
  taken _ := rfl

def shareAccount (q : Queue) : Account network where
  gain
    | .read p => p.share q - (p.onward.map (Parcel.share q)).sum
    | .taken p => p.share q
    | _ => 0
  unread := Parcel.share q
  unsent := Parcel.share q
  injected _ _ := rfl
  read := by
    rintro ⟨⟨n, client, c⟩, hop⟩
    cases q <;> cases hop <;> cases c <;> rfl
  sent _ := Nat.zero_add _
  refused _ := Nat.zero_le _
  taken _ := rfl

theorem share_pos {q : Queue} {p : Parcel} (h : p.target = q) : 1 ≤ p.share q := by
  obtain ⟨r, hop⟩ := p
  subst h
  cases hop <;> exact le_rfl

variable {C : Channel} [Carrier C] {rule : SendRule} {sid : ℕ → ℤ} {d : Msgbuff} {tr : List Event} {s : State C}

theorem credited_le (A : Account network) (tr : List Event) :
    A.credited (tr.map Event.relay) ≤ ((requests tr).map fun r => A.unread ⟨r, .request⟩).sum := by
  induction tr with
  | nil => simp [Account.credited, requests]
  | cons e tr ih =>
    simp only [Account.credited, requests, List.map_cons, List.sum_cons, List.map_map] at ih ⊢
    cases e with
    | request r m placed =>
      cases placed <;> simp [Event.relay, Account.credit, Event.request?] <;> omega
    | _ => simpa [Event.relay, Account.credit, Event.request?, List.filterMap_cons] using ih

section

variable (hfit : ∀ p : Parcel, Carrier.Fits C (p.header sid))
include hfit

theorem outstanding_le (A : Account network) (h : Reaches C rule sid d tr s) :
    A.earned (tr.map Event.relay) + A.outstanding s.load ≤
      ((requests tr).map fun r => A.unread ⟨r, .request⟩).sum := by
  have hle := run_account_le A (reaches_relay hfit h)
  have hcredit := credited_le A tr
  simp only [Account.outstanding, Load.empty, List.map_nil, List.sum_nil, Finset.sum_const_zero, add_zero, zero_add]
    at hle
  simp only [Account.outstanding]
  omega

theorem events_le (h : Reaches C rule sid d tr s) :
    tr.length ≤ ((requests tr).map fun r => 1 + Parcel.stepsAhead ⟨r, .request⟩).sum := by
  have hle := outstanding_le hfit stepAccount h
  have hgain : ∀ e ∈ tr, stepAccount.gain e.relay = if e.request?.isNone then 1 else 0 := by
    intro e he
    have hs := reaches_sound hfit h e he
    cases e with
    | clientRead r p m =>
      rcases target_application hs.1 with hp | hp <;>
        simp [stepAccount, Event.relay, Event.request?, Parcel.stepsAhead, hp]
    | _ => rfl
  have hearned := earned_eq_countP stepAccount Event.relay (fun e => e.request?.isNone) hgain
  have hsplit : tr.length = (requests tr).length + tr.countP fun e => e.request?.isNone := by
    rw [requests, List.length_filterMap_eq_countP, List.length_eq_countP_add_countP fun e => e.request?.isSome]
    congr 2
    funext e
    cases e.request? <;> rfl
  have hsum : ((requests tr).map fun r => 1 + Parcel.stepsAhead ⟨r, .request⟩).sum =
      (requests tr).length + ((requests tr).map fun r => Parcel.stepsAhead ⟨r, .request⟩).sum := by
    simp [List.sum_map_add]
  rw [hearned] at hle
  simp only [stepAccount] at hle
  omega

theorem queue_le (h : Reaches C rule sid d tr s) (q : Queue) :
    (s.queue q).length + (∑ q', ((s.load.hand q').map (Parcel.share q)).sum) ≤
      ((requests tr).map fun r => Parcel.share q ⟨r, .request⟩).sum := by
  have hle := outstanding_le hfit (shareAccount q) h
  have hone : (s.queue q).length ≤ ((s.load.queue q).map (Parcel.share q)).sum := by
    have hshare : ∀ n ∈ (s.load.queue q).map (Parcel.share q), 1 ≤ n := by
      intro n hn
      obtain ⟨p, hp, rfl⟩ := List.mem_map.mp hn
      obtain ⟨x, hx, rfl⟩ := List.mem_map.mp hp
      exact share_pos ((reaches_routed hfit h).packets q x hx).1
    have := List.card_nsmul_le_sum _ 1 hshare
    simpa [State.load] using this
  have hpart : ((s.load.queue q).map (Parcel.share q)).sum ≤ ∑ q', ((s.load.queue q').map (Parcel.share q)).sum :=
    Finset.single_le_sum (f := fun q' => ((s.load.queue q').map (Parcel.share q)).sum) (fun _ _ => Nat.zero_le _)
      (Finset.mem_univ q)
  simp only [Account.outstanding, shareAccount] at hle
  omega

end

end NutrinoStack.LedSystem

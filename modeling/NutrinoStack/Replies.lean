import NutrinoStack.Deliveries
import NutrinoStack.Takes

namespace NutrinoStack.LedSystem

open Application CoreFsm MachineWords Relays Runs

variable {C : Channel} [Carrier C] {rule : SendRule} {sid : ℕ → ℤ} {d : Msgbuff} {tr : List Event} {s : State C}

section

variable (hfit : ∀ p : Parcel, Carrier.Fits C (p.header sid))
include hfit

theorem taken_request (h : Reaches C rule sid d tr s) {r : Request} {p : Parcel} {m : Msgbuff}
    (hr : .clientRead r p m ∈ tr) : p.origin ∈ requests tr := by
  have hall := reaches_all (S := fun p => p.origin ∈ requests tr) hfit ?_ h fun r hr => hr
  · exact hall.2 _ hr
  · intro p hp x hx
    rw [onward_origin p x hx]
    exact hp

theorem takes_le_worth (h : Reaches C reliable sid d tr s) {r : Request} (hr : r ∈ requests tr) :
    takes tr r ≤ Parcel.acksAhead ⟨r, .request⟩ := by
  have := takes_balance h r
  have := acks_balance hfit h hr
  omega

theorem takes_eq_worth (h : Reaches C reliable sid d tr s) (hc : Clean s) {r : Request} (hr : r ∈ requests tr) :
    takes tr r = Parcel.acksAhead ⟨r, .request⟩ := by
  have := takes_balance h r
  simp only [hc.2, List.countP_nil, add_zero] at this
  rw [this, acks_quiet hfit h hc.1 hr]

theorem acks_le_deliveries (h : Reaches C reliable sid d tr s) {r : Request} (hr : r ∈ requests tr)
    (hb : r.call = .glowLedWithBoardAck) : acks tr r ≤ deliveries tr r := by
  have hahead : ∀ p : Parcel, p.origin = r → p.commandsAhead ≤ p.acksAhead := by
    rintro ⟨r, hop⟩ rfl
    cases hop <;> simp_all [Parcel.commandsAhead, Parcel.acksAhead]
  have hmono : (Account.of commandAccount r).outstanding s.load ≤ (Account.of ackAccount r).outstanding s.load := by
    apply outstanding_mono <;> intro p <;> by_cases hp : p.origin = r
    · simpa [Account.of, Account.only, commandAccount, ackAccount, hp] using hahead p hp
    · simp [Account.of, Account.only, hp]
    · have := hahead p hp
      simp only [Account.of, Account.only, commandAccount, ackAccount, hp, if_true]
      omega
    · simp [Account.of, Account.only, hp]
  have hack := acks_balance hfit h hr
  have hcmd := deliveries_balance hfit h hr
  have h₁ : Parcel.acksAhead ⟨r, .request⟩ = 1 := by simp [Parcel.acksAhead, hb]
  have h₂ : Parcel.commandsAhead ⟨r, .request⟩ = 1 := by simp [Parcel.commandsAhead, hb]
  omega

theorem taken_lone {tr₀ tr₁ : List Event} {s₀ : State C} (h₀ : Reaches C reliable sid d tr₀ s₀) (hc : Clean s₀)
    (h : Reaches C reliable sid d (tr₀ ++ tr₁) s) {r : Request} (hr : requests tr₁ = [r]) {r' : Request} {p : Parcel}
    {m : Msgbuff} (hp : .clientRead r' p m ∈ tr₁) : p.origin = r := by
  have hmem := taken_request hfit h (List.mem_append_right tr₀ hp)
  simp only [requests_append, hr, List.mem_append, List.mem_singleton] at hmem
  rcases hmem with hmem | hmem
  · have hspent := takes_eq_worth hfit h₀ hc hmem
    have hworth := takes_le_worth hfit h (r := p.origin) (by simp [hmem])
    have htake : 0 < takes tr₁ p.origin := List.countP_pos_iff.mpr ⟨_, hp, by simp [Event.takes]⟩
    rw [takes, List.countP_append] at hworth
    simp only [takes] at hspent htake
    omega
  · exact hmem

theorem taken_serial (h : Reaches C reliable sid d tr s) (hs : Serial tr)
    (hb : ∀ r ∈ requests tr, r.call = .glowLedWithBoardAck) :
    ∀ r p m, .clientRead r p m ∈ tr → p.origin = r := by
  revert hs hb
  apply h.invariant (I := fun tr _ => Serial tr → (∀ r ∈ requests tr, r.call = .glowLedWithBoardAck) →
    ∀ r p m, .clientRead r p m ∈ tr → p.origin = r) (by simp)
  intro tr t a e u hrun ih hs hserial hb r p m hr
  have hown := ih hserial.of_append fun r hr => hb r (by simp [hr])
  rcases List.mem_append.mp hr with hr | hr
  · exact hown r p m hr
  · obtain rfl := List.mem_singleton.mp hr
    by_contra hne
    have hreach := hrun.snoc hs
    have hmem : p.origin ∈ requests tr := by
      simpa [requests, Event.request?] using taken_request hfit hreach (List.mem_append_right tr hr)
    cases step_move hs with
    | clientRead client r m p rest hw hq =>
      have hwait := waiting_request hrun client r m hw
      rcases serial_returned hserial.of_append hmem hwait.1 hne with ⟨p', m', hp'⟩ | ⟨p', m', hp'⟩
      · have htake : 0 < takes tr p.parcel.origin :=
          List.countP_pos_iff.mpr ⟨_, hp', by simp [Event.takes, hown _ _ _ hp']⟩
        have hworth := takes_le_worth hfit hreach (r := p.parcel.origin) (by simp [hmem])
        simp only [takes, List.countP_append, List.countP_singleton, Event.takes, decide_true, if_true,
          Parcel.acksAhead, hb p.parcel.origin (by simp [hmem])] at hworth htake
        omega
      · exact waiting_unreturned hrun hw p' m' hp'

theorem taken_origin {r : Request} {p : Parcel} {m : Msgbuff}
    (h : Reaches C reliable sid d (tr ++ [.clientRead r p m]) s) :
    p.origin ∈ requests tr ∧
      takes (tr ++ [.clientRead r p m]) p.origin ≤ acks tr p.origin ∧
      (p.origin.call = .glowLedWithBoardAck → ∃ p' m', .deviceRead p' m' ∈ tr ∧ p'.origin = p.origin) ∧
      (Serial tr → (∀ r' ∈ requests tr, r'.call = .glowLedWithBoardAck) → p.origin = r) ∧
      ∀ tr₀ tr₁ s₀, tr = tr₀ ++ tr₁ → Reaches C reliable sid d tr₀ s₀ → Clean s₀ →
        requests tr₁ = [r] → p.origin = r := by
  have hread : .clientRead r p m ∈ tr ++ [Event.clientRead r p m] := by simp
  have hmem : p.origin ∈ requests tr := by
    simpa [requests, Event.request?] using taken_request hfit h hread
  have hmem' : p.origin ∈ requests (tr ++ [.clientRead r p m]) := by simp [hmem]
  have htake : takes (tr ++ [.clientRead r p m]) p.origin ≤ acks tr p.origin := by
    have := takes_balance h p.origin
    have hack : acks (tr ++ [.clientRead r p m]) p.origin = acks tr p.origin := by
      simp [acks, Event.acknowledges, List.countP_append]
    omega
  refine ⟨hmem, htake, fun hb => ?_, fun hs hb => ?_, ?_⟩
  · have hpos : 0 < takes (tr ++ [.clientRead r p m]) p.origin :=
      List.countP_pos_iff.mpr ⟨_, hread, by simp [Event.takes]⟩
    have hle := acks_le_deliveries hfit h hmem' hb
    have hdel : deliveries (tr ++ [.clientRead r p m]) p.origin = deliveries tr p.origin := by
      simp [deliveries, Event.delivers, List.countP_append]
    have hack : acks tr p.origin ≤ acks (tr ++ [.clientRead r p m]) p.origin := by
      simp [acks, List.countP_append]
    have hread : 0 < tr.countP (Event.delivers p.origin) := by
      rw [← deliveries]
      omega
    obtain ⟨e, he, hd⟩ := List.countP_pos_iff.mp hread
    cases e with
    | deviceRead p' m' => exact ⟨p', m', he, by simpa [Event.delivers] using hd⟩
    | _ => simp [Event.delivers] at hd
  · apply taken_serial hfit h (hs.snoc rfl) _ r p m hread
    simpa [requests, Event.request?] using hb
  · rintro tr₀ tr₁ s₀ rfl h₀ hc hr
    rw [List.append_assoc] at h
    have hlast : .clientRead r p m ∈ tr₁ ++ [Event.clientRead r p m] := by simp
    apply taken_lone hfit h₀ hc h _ hlast
    rw [requests_append, hr]
    rfl

end

theorem board_taken : ∃ tr p m s, Reaches (bytes amd64) reliable (fun _ => sessionId) .zeroed
    (tr ++ [.clientRead ⟨0, 0, .glowLedWithBoardAck⟩ p m]) s ∧ p.origin = ⟨0, 0, .glowLedWithBoardAck⟩ ∧
    takes (tr ++ [.clientRead ⟨0, 0, .glowLedWithBoardAck⟩ p m]) p.origin ≤ acks tr p.origin := by
  obtain ⟨tr, s, hrun, -, hr, m, p, hw, hq⟩ := board_run
  obtain ⟨a, ha⟩ := move_step (.clientRead 0 ⟨0, 0, .glowLedWithBoardAck⟩ m p [] hw hq)
  have htake := hrun.snoc ha
  obtain ⟨-, hle, -, -, hlone⟩ := taken_origin header_fits htake
  exact ⟨_, _, _, _, htake, hlone [] _ _ rfl .nil ⟨⟨rfl, rfl, rfl, rfl⟩, rfl⟩ hr, hle⟩

theorem second_takes_first : ¬ ∀ tr s, Reaches records reliable (fun _ => sessionId) .zeroed tr s →
    ∀ r p m, .clientRead r p m ∈ tr → p.origin = r := by
  intro hall
  have hrun : Reaches records reliable (fun _ => sessionId) .zeroed _ _ := run_exec
    [.call 0 .glowLedWithBoardAck .zeroed true, .call 1 .glowLedWithBoardAck .zeroed true, .coreRead,
      .coreSend true, .deviceRead, .deviceSend true, .coreRead, .coreSend true, .coreRead, .coreSend true] rfl
  have htake := hrun.snoc (a := .clientRead 1) rfl
  have hown := hall _ _ htake _ _ _ (List.mem_append_right _ (List.mem_singleton_self _))
  exact absurd hown (by decide)

end NutrinoStack.LedSystem

import NutrinoStack.Acknowledgements
import NutrinoStack.Waiting

namespace NutrinoStack.LedSystem

open Application CoreFsm Runs

def Event.takes (r : Request) : Event → Bool
  | .clientRead _ p _ => p.origin = r
  | _ => false

def takes (tr : List Event) (r : Request) : ℕ := tr.countP (Event.takes r)

def Serial (tr : List Event) : Prop :=
  ∀ tr₁ r m placed tr₂, tr = tr₁ ++ .request r m placed :: tr₂ →
    ∀ r' ∈ requests tr₁, ∃ p m', .clientRead r' p m' ∈ tr₁

def Clean {C : Channel} (s : State C) : Prop := Quiet s ∧ s.queue .application = []

theorem Serial.of_append {tr tr' : List Event} (h : Serial (tr ++ tr')) : Serial tr := by
  intro tr₁ r m placed tr₂ htr
  apply h tr₁ r m placed (tr₂ ++ tr')
  simp [htr]

theorem Serial.snoc {tr : List Event} {e : Event} (h : Serial tr) (he : e.request? = none) : Serial (tr ++ [e]) := by
  intro tr₁ r m placed tr₂ htr
  rcases List.eq_nil_or_concat tr₂ with rfl | ⟨tr₃, e', rfl⟩
  · obtain ⟨-, hlast⟩ := List.append_inj' htr rfl
    obtain rfl := List.singleton_inj.mp hlast
    simp [Event.request?] at he
  · rw [List.concat_eq_append, ← List.cons_append, ← List.append_assoc] at htr
    obtain ⟨rfl, -⟩ := List.append_inj' htr rfl
    exact h tr₁ r m placed tr₃ rfl

theorem request_split {tr : List Event} {r : Request} (hr : r ∈ requests tr) :
    ∃ tr₁ m placed tr₂, tr = tr₁ ++ .request r m placed :: tr₂ := by
  obtain ⟨e, he, her⟩ := List.mem_filterMap.mp hr
  cases e with
  | request r' m placed =>
    obtain rfl : r' = r := by simpa [Event.request?] using her
    obtain ⟨tr₁, tr₂, htr⟩ := List.append_of_mem he
    exact ⟨tr₁, m, placed, tr₂, htr⟩
  | _ => simp [Event.request?] at her

theorem serial_returned {tr : List Event} (h : Serial tr) {r r' : Request} (hr : r ∈ requests tr)
    (hr' : r' ∈ requests tr) (hne : r ≠ r') :
    (∃ p m, .clientRead r p m ∈ tr) ∨ ∃ p m, .clientRead r' p m ∈ tr := by
  obtain ⟨tr₁, m, placed, tr₂, rfl⟩ := request_split hr
  have hmem : r' ∈ requests tr₁ ∨ r' ∈ requests tr₂ := by
    simpa [requests, Event.request?, hne.symm, List.filterMap_cons] using hr'
  rcases hmem with hmem | hmem
  · obtain ⟨p, m', hp⟩ := h tr₁ r m placed tr₂ rfl r' hmem
    exact .inr ⟨p, m', by simp [hp]⟩
  · obtain ⟨tr₃, m', placed', tr₄, rfl⟩ := request_split hmem
    obtain ⟨p, m'', hp⟩ := h (tr₁ ++ .request r m placed :: tr₃) r' m' placed' tr₄ (by simp) r
      (by simp [requests, Event.request?])
    left
    refine ⟨p, m'', ?_⟩
    simp only [List.mem_append, List.mem_cons] at hp ⊢
    tauto

variable {C : Channel} {rule : SendRule} {sid : ℕ → ℤ} {d : Msgbuff} {tr : List Event} {s t : State C}

theorem move_takes {e : Event} (hm : Move C rule sid s e t) (r : Request) :
    (if e.takes r then 1 else 0) + (t.queue .application).countP (fun p => p.parcel.origin = r) =
      (s.queue .application).countP (fun p => p.parcel.origin = r) + if e.acknowledges r then 1 else 0 := by
  cases hm with
  | call client c old placed => cases placed <;> simp [Event.takes, Event.acknowledges, State.afterCall, State.put]
  | clientRead client r' m p rest hw hq =>
    simp [Event.takes, Event.acknowledges, State.afterClientRead, hq, List.countP_cons, add_comm]
  | coreRead p rest => simp [Event.takes, Event.acknowledges, State.afterCoreRead]
  | coreSend x rest placed hh hr =>
    cases placed with
    | false => simp [Event.takes, Event.acknowledges, State.afterCoreSend, State.put]
    | true =>
      by_cases hq : x.queue = .application
      · simp [Event.takes, Event.acknowledges, State.afterCoreSend, State.put, hq, List.countP_append]
      · have hne : Queue.application ≠ x.queue := Ne.symm hq
        simp [Event.takes, Event.acknowledges, State.afterCoreSend, State.put, hq, Function.update_of_ne hne]
  | deviceRead p rest => simp [Event.takes, Event.acknowledges, State.afterDeviceRead]
  | deviceSend p placed => cases placed <;> simp [Event.takes, Event.acknowledges, State.afterDeviceSend, State.put]

theorem takes_balance (h : Reaches C rule sid d tr s) (r : Request) :
    takes tr r + (s.queue .application).countP (fun p => p.parcel.origin = r) = acks tr r := by
  apply h.invariant (I := fun tr s =>
    takes tr r + (s.queue .application).countP (fun p => p.parcel.origin = r) = acks tr r) rfl
  intro tr t a e u _ ih hs
  have hstep := move_takes (step_move hs) r
  simp only [takes, acks, List.countP_append, List.countP_singleton] at ih ⊢
  omega

theorem returned_request (h : Reaches C rule sid d tr s) {r : Request} {p : Parcel} {m : Msgbuff}
    (hr : .clientRead r p m ∈ tr) : r ∈ requests tr := by
  revert r p m
  apply h.invariant (I := fun tr _ => ∀ {r p m}, .clientRead r p m ∈ tr → r ∈ requests tr) (by simp)
  intro tr t a e u hrun ih hs r p m hr
  rcases List.mem_append.mp hr with hr | hr
  · simp [ih hr]
  · obtain rfl := List.mem_singleton.mp hr
    cases step_move hs with
    | clientRead client r m p rest hw hq => simp [(waiting_request hrun client r m hw).1]

theorem waiting_unreturned (h : Reaches C rule sid d tr s) {client : ℕ} {r : Request} {m : Msgbuff}
    (hw : s.waiting client = some (r, m)) (p : Parcel) (m' : Msgbuff) : .clientRead r p m' ∉ tr := by
  revert client r m p m'
  apply h.invariant (I := fun tr s => ∀ {client r m}, s.waiting client = some (r, m) →
    ∀ p m', .clientRead r p m' ∉ tr) (by simp)
  intro tr t a e u hrun ih hs client r m hw p m' hmem
  rcases move_waiting (step_move hs) hw with ⟨placed, rfl, hn, -⟩ | ⟨hold, hother⟩
  · have hr : .clientRead r p m' ∈ tr := by simpa using hmem
    have := List.mem_map_of_mem (f := Request.number) (returned_request hrun hr)
    rw [requests_number hrun, List.mem_range] at this
    omega
  · rcases List.mem_append.mp hmem with hmem | hmem
    · exact ih hold p m' hmem
    · obtain ⟨client', m'', hw', hne⟩ := hother r p m' (List.mem_singleton.mp hmem).symm
      have h₁ := (waiting_request hrun client r m hold).2
      have h₂ := (waiting_request hrun client' r m'' hw').2
      omega

end NutrinoStack.LedSystem

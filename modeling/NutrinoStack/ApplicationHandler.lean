import NutrinoStack.Exchange

namespace NutrinoStack.ApplicationHandler

open Application CStrings Interactions MachineWords MessageQueues QueueManager StructLayout

def glowLed (P : Platform) (old : Msgbuff) : Prog interface ℤ := do
  let msg := Call.glowLed.message sessionId old
  let _ ← messageQueueWrite P Queue.core.key msg
  return 0

def glowLedWithFsmAck (P : Platform) (old : Msgbuff) : Prog interface ℤ := do
  let msg := Call.glowLedWithFsmAck.message sessionId old
  let _ ← messageQueueWrite P Queue.core.key msg
  let _ ← messageQueueRead P Queue.application.key msg
  return 0

def glowLedWithBoardAck (P : Platform) (old : Msgbuff) : Prog interface ℤ := do
  let msg := Call.glowLedWithBoardAck.message sessionId old
  let _ ← messageQueueWrite P Queue.core.key msg
  let _ ← messageQueueRead P Queue.application.key msg
  return 0

def program (P : Platform) : Call → Msgbuff → Prog interface ℤ
  | .glowLed => glowLed P
  | .glowLedWithFsmAck => glowLedWithFsmAck P
  | .glowLedWithBoardAck => glowLedWithBoardAck P

structure Reports (c : Call) (log : List Entry) (result : ℤ) : Prop where
  success : result = 0 ↔ Placed log Queue.core.key ∧ (c.waits → Taken log Queue.application.key)
  untouched : ¬ Placed log Queue.core.key → ¬ Taken log Queue.application.key

variable {P : Platform} {σ : Type} {step : σ → (c : SysCall) → c.Reply → σ → Prop} {s t : σ} {log : List Entry}
  {key : ℤ} {m : Msgbuff}

theorem exec_glowLed {result : ℤ} (h : Exec (I := interface) step (glowLed P m) s log result t) :
    Reports .glowLed log result ↔ ∀ e ∈ log, e.1.Succeeds e.2 := by
  obtain ⟨log₁, log₂, r, u, rfl, hw, hrest⟩ := exec_bind.mp h
  obtain ⟨rfl, rfl, -⟩ := exec_pure.mp hrest
  obtain ⟨hplaced, hall⟩ := write_result hw
  rw [List.append_nil, ← hall, hplaced]
  constructor
  · intro hr
    exact (hr.success.mp rfl).1
  · intro hp
    exact ⟨by simp [hp, Call.waits], fun hn => (hn hp).elim⟩

theorem exec_waiting {c : Call} (hc : c.waits) {result : ℤ}
    (h : Exec (I := interface) step (do
      let _ ← messageQueueWrite P Queue.core.key m
      let _ ← messageQueueRead P Queue.application.key m
      return 0) s log result t) :
    Reports c log result ↔ ∀ e ∈ log, e.1.Succeeds e.2 := by
  obtain ⟨log₁, _, r₁, u, rfl, hw, hrest⟩ := exec_bind.mp h
  obtain ⟨log₂, _, r₂, v, rfl, hr, hlast⟩ := exec_bind.mp hrest
  obtain ⟨rfl, rfl, -⟩ := exec_pure.mp hlast
  obtain ⟨hplaced, hwall⟩ := write_result hw
  obtain ⟨htaken, hrall⟩ := read_result hr
  obtain ⟨hpl, htl⟩ := write_read_log (by decide) hw hr
  have hall : (∀ e ∈ log₁ ++ log₂, e.1.Succeeds e.2) ↔ Placed log₁ Queue.core.key ∧ Taken log₂ Queue.application.key := by
    rw [← hplaced, ← htaken, hwall, hrall]
    simp only [List.mem_append, or_imp, forall_and]
  rw [List.append_nil, hall]
  constructor
  · intro hrep
    obtain ⟨hp, ht⟩ := hrep.success.mp rfl
    exact ⟨hpl.mp hp, htl.mp (ht hc)⟩
  · rintro ⟨hp, ht⟩
    have hp' := hpl.mpr hp
    exact ⟨by simp [hp', htl.mpr ht], fun hn => (hn hp').elim⟩

theorem program_reports_iff {others : Kernel → Kernel → Prop} {k k' : Kernel} {c : Call} {old : Msgbuff} {result : ℤ}
    (h : Exec (Faulty P others) (program P c old) k log result k') :
    Reports c log result ↔ ∀ e ∈ log, e.1.Succeeds e.2 := by
  cases c with
  | glowLed => exact exec_glowLed h
  | glowLedWithFsmAck => exact exec_waiting rfl h
  | glowLedWithBoardAck => exact exec_waiting rfl h

theorem answered_faulty {k k' : Kernel} {α : Type} {p : Prog interface α} {a : α}
    (h : eval (answer P) p k = some (a, k')) : ∃ log, Exec (Faulty P Eq) p k log a k' :=
  exec_eval h fun hr => ⟨_, rfl, .inl hr⟩

section

variable {k : Kernel} {id : ℕ} (hk : k.ident Queue.core.key = some id) (hq : k.queue id = some [])
  (hroom : 68 ≤ k.capacity id)
include hk hq hroom

theorem call_written (c : Call) (old : Msgbuff) :
    ∃ log, Exec (Faulty P Eq) (messageQueueWrite P Queue.core.key (c.message sessionId old)) k log 0
      (k.set id [send P (c.message sessionId old)]) ∧ ∀ e ∈ log, e.1.Succeeds e.2 := by
  have htype : 0 < decode P.order ((store P (c.message sessionId old)).take P.long) := by
    rw [store_session (message_fits P c old).1]
    exact Int.natCast_pos.mpr (Nat.succ_pos 34566)
  have hsize : strlen (c.message sessionId old).msgText + 1 + 12 ≤ k.capacity id := by
    have := (call_text_plain c).2.1
    rw [message_strlen]
    omega
  obtain ⟨log, hw⟩ := answered_faulty (eval_write (L := layout P) htype hk hq (by simpa [layout] using hsize))
  exact ⟨log, hw, (write_result hw).2.mp rfl⟩

theorem glowLed_succeeds (old : Msgbuff) :
    ∃ log k', Exec (Faulty P Eq) (program P .glowLed old) k log 0 k' ∧ ∀ e ∈ log, e.1.Succeeds e.2 := by
  obtain ⟨log, hw, hall⟩ := call_written (P := P) hk hq hroom .glowLed old
  exact ⟨log ++ [], _, exec_bind.mpr ⟨_, _, _, _, rfl, hw, .done _ _⟩, by simpa using hall⟩

theorem waiting_succeeds {c : Call} (hc : c.waits) {a : ℕ} {x : Bytes} {q : List Bytes} (hne : (a : ℤ) ≠ id)
    (happ : k.ident Queue.application.key = some a) (hx : k.queue a = some (x :: q))
    (hfit : messageSize P x ≤ maxSize + 1 + 12) (old : Msgbuff) :
    ∃ log k', Exec (Faulty P Eq) (program P c old) k log 0 k' ∧ ∀ e ∈ log, e.1.Succeeds e.2 := by
  obtain ⟨log₁, hw, hwall⟩ := call_written (P := P) hk hq hroom c old
  have hx' : (k.set id [send P (c.message sessionId old)]).queue a = some (x :: q) := by
    simpa [Kernel.set, Function.update_of_ne hne] using hx
  obtain ⟨log₂, hr⟩ := answered_faulty
    (eval_read (L := layout P) (k := k.set id [send P (c.message sessionId old)]) (c.message sessionId old) happ hx'
      (send_any P x) hfit)
  have hrall := (read_result hr).2.mp rfl
  have hall : ∀ e ∈ log₁ ++ (log₂ ++ []), e.1.Succeeds e.2 := by
    simpa [or_imp, forall_and] using And.intro hwall hrall
  refine ⟨log₁ ++ (log₂ ++ []), (k.set id [send P (c.message sessionId old)]).set a q, ?_, hall⟩
  cases c with
  | glowLed => cases hc
  | glowLedWithFsmAck | glowLedWithBoardAck =>
    exact exec_bind.mpr ⟨log₁, _, _, _, rfl, hw, exec_bind.mpr ⟨log₂, [], _, _, rfl, hr, .done _ _⟩⟩

end

def ack (P : Platform) : Bytes :=
  send P { Msgbuff.zeroed with msgSessionId := sessionId, msgState := stSendAck, msgEvent := evSendToApp }

abbrev acknowledged (P : Platform) : Kernel := booted.set 1 [ack P]

theorem calls_report : ∃ log k' log' k'',
    Exec (Faulty amd64 Eq) (program amd64 .glowLed .zeroed) booted log 0 k' ∧
      Reports .glowLed log 0 ∧
    Exec (Faulty amd64 Eq) (program amd64 .glowLedWithBoardAck .zeroed)
      (acknowledged amd64) log' 0 k'' ∧
      Reports .glowLedWithBoardAck log' 0 := by
  obtain ⟨log, k', hrun, hall⟩ := glowLed_succeeds (P := amd64) (k := booted) rfl rfl (by decide) .zeroed
  obtain ⟨log', k'', hrun', hall'⟩ := waiting_succeeds (P := amd64) (k := acknowledged amd64) (c := .glowLedWithBoardAck)
    rfl rfl (by decide) rfl (a := 1) (by decide) rfl rfl (by decide +kernel) .zeroed
  exact ⟨log, k', log', k'', hrun, (program_reports_iff hrun).mpr hall, hrun', (program_reports_iff hrun').mpr hall'⟩

theorem glowLed_misreports : ¬ ∀ (P : Platform) (others : Kernel → Kernel → Prop) (k k' : Kernel) (c : Call)
    (old : Msgbuff) (log : List Entry) (result : ℤ),
    Exec (Faulty P others) (program P c old) k log result k' → Reports c log result := by
  intro hall
  have hrun : Exec (Faulty amd64 Eq) (program amd64 .glowLed .zeroed)
      (equipped [] 0 0) [⟨.msgget Queue.core.key false, (-1 : ℤ)⟩] 0 _ :=
    .call ⟨_, rfl, .inl rfl⟩ (.done _ _)
  obtain ⟨hplaced, -⟩ := (hall _ _ _ _ _ _ _ _ hrun).success.mp rfl
  simp [Placed, Entry.sent?] at hplaced

end NutrinoStack.ApplicationHandler

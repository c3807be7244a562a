import NutrinoStack.Layouts
import NutrinoStack.StructLayout

namespace NutrinoStack.StructTransfers

open CStrings Interactions MachineWords MessageQueues StructLayout

structure Describes (o : Offsets) (P : Platform) (L : Layout Msgbuff) : Prop where
  holds : ∀ m, o.Holds P (L.store m) m
  load : ∀ bs, L.load bs = o.load P bs
  text : o.text + maxSize ≤ L.width

def Delivers (L : Layout Msgbuff) (P : Platform) (k : Kernel) (key : ℤ) (sbuf old : Msgbuff) : Prop :=
  ∃ received k', eval (answer P) (L.exchange key sbuf old) k = some ((0, 0, received), k') ∧
    received.toHeader = sbuf.toHeader ∧ text received.msgText = text sbuf.msgText

variable {o : Offsets} {P : Platform} {L : Layout Msgbuff} {k : Kernel} {key : ℤ} {id : ℕ} {sbuf old m : Msgbuff}

theorem long_sent (m old : Msgbuff) {a : ℕ} (ha : a + P.long ≤ P.long + L.size m) :
    longAt P a (L.overlay old (L.wire P m)) = longAt P a (L.store m) := by
  apply (longAt_eq_iff ((overlay_length m old).trans (L.store_length m).symm) a).mpr
  intro j _ hj
  rw [overlay_bytes, if_pos (by omega)]

theorem long_own (m old : Msgbuff) {a : ℕ} (ha : P.long + L.size m ≤ a) :
    longAt P a (L.overlay old (L.wire P m)) = longAt P a (L.store old) := by
  apply (longAt_eq_iff ((overlay_length m old).trans (L.store_length old).symm) a).mpr
  intro j hj _
  rw [overlay_bytes, if_neg (by omega)]

section

variable (D : Describes o P L)
include D

theorem store_type (hfit : Fits P.long sbuf.msgSessionId) :
    decode P.order ((L.store sbuf).take P.long) = sbuf.msgSessionId := (D.holds sbuf).session_first hfit

/-- A struct is received as it was sent just when the bytes that were not sent are already in the receiver's struct. -/
theorem received_iff (hfit : Header.Fits P sbuf.toHeader) (ht : Terminated sbuf.msgText) :
    ((L.load (L.overlay old (L.wire P sbuf))).toHeader = sbuf.toHeader ∧
        text (L.load (L.overlay old (L.wire P sbuf))).msgText = text sbuf.msgText) ↔
      ∀ j, P.long + L.size sbuf ≤ j → o.Shown P sbuf j → (L.store old)[j]? = (L.store sbuf)[j]? := by
  have hload := (D.holds sbuf).load hfit
  have hlength : (L.overlay old (L.wire P sbuf)).length = (L.store sbuf).length :=
    (overlay_length sbuf old).trans (L.store_length sbuf).symm
  have hroom : o.text + maxSize ≤ (L.overlay old (L.wire P sbuf)).length := by
    rw [overlay_length]
    exact D.text
  have hsame := same_iff hlength hroom (by rw [hload]; exact (terminated_iff _).mp ht)
  rw [hload] at hsame
  rw [D.load, hsame]
  constructor
  · intro h j hj hshown
    have := h j hshown
    rwa [overlay_bytes, if_neg (by omega)] at this
  · intro h j hshown
    rw [overlay_bytes]
    split
    · rfl
    · exact h j (by omega) hshown

theorem exchange_delivers (hfit : Header.Fits P sbuf.toHeader) (hpos : 0 < sbuf.msgSessionId)
    (ht : Terminated sbuf.msgText) (htype : ofType P L.msgtyp (L.wire P sbuf)) (hlimit : L.size sbuf ≤ L.limit)
    (hk : k.ident key = some id) (hq : k.queue id = some []) (hroom : L.size sbuf ≤ k.capacity id) :
    Delivers L P k key sbuf old ↔
      ∀ j, P.long + L.size sbuf ≤ j → o.Shown P sbuf j → (L.store old)[j]? = (L.store sbuf)[j]? := by
  obtain ⟨k', heval⟩ := eval_exchange old (by rwa [store_type D hfit.1]) htype hlimit hk hq hroom
  rw [← received_iff D hfit ht]
  simp only [Delivers, heval, Option.some.injEq, Prod.mk.injEq, true_and]
  constructor
  · rintro ⟨_, _, ⟨rfl, -⟩, hd⟩
    exact hd
  · exact fun hd => ⟨_, _, ⟨rfl, rfl⟩, hd⟩

end

end NutrinoStack.StructTransfers

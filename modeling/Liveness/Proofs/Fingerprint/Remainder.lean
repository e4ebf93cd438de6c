import Mathlib.Algebra.Field.ZMod
import Mathlib.Algebra.Polynomial.Div
import Mathlib.Tactic.LinearCombination
import Mathlib.Tactic.Ring
import Liveness.Proofs.Fingerprint

/-!
# The hash is a remainder

Bits are the coefficients of a polynomial over the two-element field, the first bit that of the highest
power; a word is the polynomial of its bits, lowest first. To append bits one at a time is then the
division in school: the word comes before the bits, and what is left is the remainder by `modulus`, the
polynomial of the hash with its highest power (`remainder_divide`). What the library computes from its
table is this remainder (`extend_by_division`).
-/

namespace Liveness.Fingerprint

open Polynomial

noncomputable section

/-- The polynomial with the given coefficients, that of the highest power first. -/
def message : List Bool → (ZMod 2)[X]
  | [] => 0
  | bit :: bits => (if bit then X ^ bits.length else 0) + message bits

/-- The polynomial of a word: its lowest bit goes with the highest power. -/
def ofWord (t : UInt64) : (ZMod 2)[X] := message (lowBits 64 t.toNat)

/-- What the hash divides by: a word has no bit for the highest power. -/
def modulus : (ZMod 2)[X] := X ^ 64 + ofWord polynomial

theorem degree_message (bits : List Bool) : (message bits).degree < bits.length := by
  induction bits with
  | nil => simp [message]
  | cons bit bits ih =>
    have hlt : ((bits.length : Nat) : WithBot Nat) < (bits.length + 1 : Nat) := by exact_mod_cast Nat.lt_succ_self _
    refine lt_of_le_of_lt (degree_add_le _ _) (max_lt ?_ (ih.trans hlt))
    cases bit with
    | false => simp
    | true => simpa using hlt

theorem degree_ofWord (t : UInt64) : (ofWord t).degree < (64 : Nat) := by
  have hdegree := degree_message (lowBits 64 t.toNat)
  rwa [length_lowBits] at hdegree

theorem modulus_monic : modulus.Monic := monic_X_pow_add (degree_ofWord polynomial)

theorem degree_modulus : modulus.degree = (64 : Nat) := by
  rw [modulus, degree_add_eq_left_of_degree_lt, degree_X_pow]
  rw [degree_X_pow]
  exact degree_ofWord polynomial

theorem message_append (as bs : List Bool) : message (as ++ bs) = X ^ bs.length * message as + message bs := by
  induction as with
  | nil => simp [message]
  | cons a as ih =>
    rw [List.cons_append, message, ih, message, List.length_append, pow_add]
    split_ifs <;> ring

/-- Words are added like polynomials. -/
theorem message_xor (n x y : Nat) :
    message (lowBits n (x ^^^ y)) = message (lowBits n x) + message (lowBits n y) := by
  induction n generalizing x y with
  | zero => simp [lowBits, message]
  | succ n ih =>
    have hhalf : (x ^^^ y) / 2 = x / 2 ^^^ y / 2 := Nat.xor_div_two
    have htwo : (X ^ n : (ZMod 2)[X]) + X ^ n = 0 := CharTwo.add_self_eq_zero _
    simp only [lowBits_succ, message, length_lowBits, hhalf, ih, Nat.testBit_xor]
    cases x.testBit 0 <;> cases y.testBit 0 <;>
      simp only [Bool.xor_false, Bool.false_xor, Bool.xor_self, Bool.false_eq_true, if_true, if_false]
    · ring
    · ring
    · ring
    · linear_combination -htwo

theorem ofWord_xor (a b : UInt64) : ofWord (a ^^^ b) = ofWord a + ofWord b := by
  rw [ofWord, UInt64.toNat_xor, message_xor]
  rfl

/-- To shift a word is to multiply it by the variable, but for what drops out. -/
theorem mul_ofWord (t : UInt64) :
    X * ofWord t = ofWord (t >>> 1) + (if t.toNat.testBit 0 then X ^ 64 else 0) := by
  have hlt : t.toNat / 2 < 2 ^ 63 := by
    have := t.toNat_lt
    omega
  have hbits : lowBits 64 (t.toNat / 2) = lowBits 63 (t.toNat / 2) ++ [false] := by
    rw [lowBits_add 63 1, Nat.mod_eq_of_lt hlt, Nat.div_eq_of_lt hlt]
    rfl
  have hshifted : ofWord (t >>> 1) = X * message (lowBits 63 (t.toNat / 2)) := by
    rw [ofWord, toNat_half, hbits, message_append]
    simp [message]
  rw [hshifted, ofWord, lowBits_succ, message, length_lowBits]
  split_ifs <;> ring

/-- **One step of the division**: the divisor is taken off if its highest power occurs. -/
theorem ofWord_appendBit (t : UInt64) (bit : Bool) :
    X * ofWord t + (if bit then X ^ 64 else 0) =
      ofWord (appendBit t bit) + (if t.toNat.testBit 0 != bit then modulus else 0) := by
  have htwo : ∀ p : (ZMod 2)[X], p + p = 0 := CharTwo.add_self_eq_zero
  have hzero : ofWord 0 = 0 := by simpa [UInt64.xor_self, htwo] using ofWord_xor 0 0
  rw [mul_ofWord, appendBit, ofWord_xor]
  cases t.toNat.testBit 0 <;> cases bit <;>
    simp only [Bool.bne_true, Bool.bne_false, Bool.not_false, Bool.not_true, Bool.false_eq_true, if_true, if_false,
      hzero, modulus]
  · linear_combination -htwo (ofWord polynomial)
  · linear_combination -htwo (ofWord polynomial)
  · linear_combination htwo (X ^ 64)

/-- **What bits leave is a remainder**: that of the word before them and the bits, divided by the modulus. -/
theorem remainder_divide (fp : UInt64) (bits : List Bool) :
    ofWord (divide fp bits) = (X ^ bits.length * ofWord fp + X ^ 64 * message bits) %ₘ modulus := by
  -- the quotient grows by a power of the variable for each time the divisor is taken off
  have hquotient : ∃ q, ofWord (divide fp bits) + modulus * q = X ^ bits.length * ofWord fp + X ^ 64 * message bits := by
    induction bits generalizing fp with
    | nil => exact ⟨0, by simp [divide, message]⟩
    | cons bit bits ih =>
      obtain ⟨q, hq⟩ := ih (appendBit fp bit)
      have hstep := ofWord_appendBit fp bit
      refine ⟨q + (if fp.toNat.testBit 0 != bit then X ^ bits.length else 0), ?_⟩
      have hdivide : divide fp (bit :: bits) = divide (appendBit fp bit) bits := rfl
      rw [hdivide, mul_add, ← add_assoc, hq, message, List.length_cons, pow_succ]
      split_ifs at hstep ⊢
      all_goals linear_combination -X ^ bits.length * hstep
  obtain ⟨q, hq⟩ := hquotient
  have hdegree : (ofWord (divide fp bits)).degree < modulus.degree := by
    rw [degree_modulus]
    exact degree_ofWord _
  exact (div_modByMonic_unique q _ modulus_monic ⟨hq, hdegree⟩).2.symm

end

/-- **The table divides.** A byte is eight steps of the division, each of which shifts the word and adds the
polynomial if a one drops out. So an integer or a text goes in bit by bit, whatever came before, and what
is left is the remainder of all that went in. Exclusive or of what goes in is exclusive or of what comes
out. -/
theorem extend_by_division (fp fp' : UInt64) (b b' : UInt8) (x x' : Int64) (s : String) :
    extendByte fp b = advance^[8] (fp ^^^ b.toUInt64) ∧
      extendInt fp x = divide fp (lowBits 64 x.toUInt64.toNat) ∧
      extendText fp s = divide fp (textBits s) ∧
      (∀ bits, ofWord (divide fp bits) = (X ^ bits.length * ofWord fp + X ^ 64 * message bits) %ₘ modulus) ∧
      extendByte (fp ^^^ fp') (b ^^^ b') = extendByte fp b ^^^ extendByte fp' b' ∧
      extendInt (fp ^^^ fp') (x ^^^ x') = extendInt fp x ^^^ extendInt fp' x' := by
  have hcomm : ∀ y y' : UInt64, fp ^^^ fp' ^^^ (y ^^^ y') = (fp ^^^ y) ^^^ (fp' ^^^ y') := by
    intro y y'
    ac_rfl
  refine ⟨extendByte_eq_advance fp b, extendInt_eq_divide fp x, extendText_eq_divide fp s, remainder_divide fp, ?_, ?_⟩
  · simp only [extendByte_eq_advance, UInt8.toUInt64_xor, hcomm, advance_iterate_xor]
  · simp only [extendInt_eq_advance, Int64.toUInt64_xor, hcomm, advance_iterate_xor]

end Liveness.Fingerprint

import Mathlib.Algebra.Group.Nat.Defs
import Mathlib.Data.Nat.Bitwise
import Mathlib.Logic.Function.Iterate
import Mathlib.Tactic.Common
import Liveness.Fingerprint

/-!
# Bytes from a table, bit by bit

To append a byte is to look up one remainder in a table of 256. What this comes to is said here bit by
bit: a word is divided by shifting it one place at a time and adding the polynomial whenever a one drops
out (`advance`), and a bit is appended by adding it first. A step is linear in exclusive or
(`advance_xor`), so that eight of them are those of the low byte, which the table has, and a shift of
the rest (`extendByte_eq_advance`). A step also loses nothing (`advance_injective`): the polynomial has
the highest bit, which no shifted word has.
-/

namespace Liveness.Fingerprint

/-! ### One step -/

theorem low_eq_testBit (t : UInt64) : (t &&& 1 != 0) = t.toNat.testBit 0 := by
  have hzero : t &&& 1 = 0 ↔ t.toNat.testBit 0 = false := by
    rw [← UInt64.toNat_inj, UInt64.toNat_and, Nat.testBit_zero]
    simp
  cases h : t.toNat.testBit 0 <;> simp [hzero, h]

theorem toNat_half (t : UInt64) : (t >>> 1).toNat = t.toNat / 2 := by
  rw [UInt64.toNat_shiftRight]
  exact Nat.shiftRight_one _

/-- **A step is linear.** -/
theorem advance_xor (a b : UInt64) : advance (a ^^^ b) = advance a ^^^ advance b := by
  simp only [advance, low_eq_testBit, UInt64.shiftRight_xor, UInt64.toNat_xor, Nat.testBit_xor]
  -- the polynomial is added if exactly one of the words is odd; if both are it cancels
  cases a.toNat.testBit 0 <;> cases b.toNat.testBit 0
  · simp
  · simp [UInt64.xor_assoc]
  · simp only [Bool.xor_false, if_true, Bool.false_eq_true, if_false, UInt64.xor_zero]
    ac_rfl
  · have hcancel : ∀ x y : UInt64, x ^^^ y = x ^^^ polynomial ^^^ (y ^^^ polynomial) := by
      intro x y
      rw [UInt64.xor_comm y, UInt64.xor_assoc, ← UInt64.xor_assoc polynomial, UInt64.xor_self, UInt64.zero_xor]
    simpa using hcancel _ _

theorem advance_iterate_xor (n : Nat) (a b : UInt64) : advance^[n] (a ^^^ b) = advance^[n] a ^^^ advance^[n] b := by
  induction n generalizing a b with
  | zero => rfl
  | succ n ih => rw [Function.iterate_succ_apply, advance_xor, ih]; rfl

theorem advance_iterate_zero (n : Nat) : advance^[n] 0 = 0 := Function.iterate_fixed rfl n

/-- A word that a step takes to nothing is nothing. -/
theorem eq_zero_of_advance {t : UInt64} (h : advance t = 0) : t = 0 := by
  rw [advance, low_eq_testBit, UInt64.xor_eq_zero_iff] at h
  have hhalf := congrArg UInt64.toNat h
  rw [toNat_half] at hhalf
  have hlt := t.toNat_lt
  split_ifs at hhalf with hlow
  · -- the polynomial is no shifted word
    have hpoly : polynomial.toNat = 0x911498AE0E66BAD6 := rfl
    omega
  · rw [Nat.testBit_zero, decide_eq_true_eq] at hlow
    have hz : (0 : UInt64).toNat = 0 := rfl
    exact UInt64.toNat_inj.mp (by omega)

/-- **A step loses nothing.** -/
theorem advance_injective : Function.Injective advance := by
  intro a b h
  have hxor : advance (a ^^^ b) = 0 := by rw [advance_xor, h, UInt64.xor_self]
  exact UInt64.xor_eq_zero_iff.mp (eq_zero_of_advance hxor)

/-! ### Words with nothing in their low bits -/

/-- While only zeros drop out, a step is a shift. -/
theorem advance_double {y : Nat} (h : 2 * y < 2 ^ 64) : advance (UInt64.ofNat (2 * y)) = UInt64.ofNat y := by
  have hlow : (UInt64.ofNat (2 * y)).toNat.testBit 0 = false := by
    rw [UInt64.toNat_ofNat_of_lt' h, Nat.testBit_zero]
    simp
  rw [advance, low_eq_testBit, hlow]
  refine UInt64.toNat_inj.mp ?_
  rw [if_neg (by simp), UInt64.xor_zero, toNat_half, UInt64.toNat_ofNat_of_lt' h,
    UInt64.toNat_ofNat_of_lt' (show y < 2 ^ 64 by omega)]
  omega

theorem advance_iterate_mul {n y : Nat} (h : 2 ^ n * y < 2 ^ 64) :
    advance^[n] (UInt64.ofNat (2 ^ n * y)) = UInt64.ofNat y := by
  induction n with
  | zero => simp
  | succ n ih =>
    rw [Nat.pow_succ', Nat.mul_assoc] at h
    rw [Function.iterate_succ_apply, Nat.pow_succ', Nat.mul_assoc, advance_double h]
    exact ih (by omega)

/-- A number is what stands above a bit, and what stands below. -/
theorem xor_div_mod (x n : Nat) : 2 ^ n * (x / 2 ^ n) ^^^ x % 2 ^ n = x := by
  refine Nat.eq_of_testBit_eq fun i => ?_
  rw [Nat.testBit_xor, Nat.testBit_two_pow_mul, Nat.testBit_mod_two_pow, Nat.testBit_div_two_pow]
  by_cases hi : i < n
  · simp [hi, Nat.not_le.mpr hi]
  · simp [hi, Nat.not_lt.mp hi]

/-- The low bits of a word go through the steps apart from the rest of it, which is only shifted. -/
theorem advance_iterate_split (n : Nat) (t : UInt64) :
    advance^[n] t = UInt64.ofNat (t.toNat / 2 ^ n) ^^^ advance^[n] (UInt64.ofNat (t.toNat % 2 ^ n)) := by
  have hlt : 2 ^ n * (t.toNat / 2 ^ n) < 2 ^ 64 := Nat.lt_of_le_of_lt (Nat.mul_div_le _ _) t.toNat_lt
  conv_lhs => rw [← UInt64.ofNat_toNat (x := t), ← xor_div_mod t.toNat n, UInt64.ofNat_xor, advance_iterate_xor]
  rw [advance_iterate_mul hlt]

/-! ### The table -/

theorem powersFrom_getElem? {n j : Nat} (t : UInt64) (hj : j < n) : (powersFrom n t)[j]? = some (advance^[j] t) := by
  induction n generalizing t j with
  | zero => exact absurd hj (Nat.not_lt_zero j)
  | succ n ih =>
    cases j with
    | zero => rfl
    | succ j => exact ih (advance t) (Nat.lt_of_succ_lt_succ hj)

/-- The power for a bit of a byte is what eight steps make of the bit. -/
theorem powers_getD {k : Nat} (hk : k < 8) : powers.getD (71 - k) 0 = advance^[8] (UInt64.ofNat (2 ^ k)) := by
  have hbit : advance^[63 - k] 0x8000000000000000 = UInt64.ofNat (2 ^ k) := by
    have hpow : 2 ^ (63 - k) * 2 ^ k = 0x8000000000000000 := by
      rw [← Nat.pow_add, Nat.sub_add_cancel (by omega)]
    have := advance_iterate_mul (n := 63 - k) (y := 2 ^ k) (by rw [hpow]; decide)
    rwa [hpow] at this
  rw [powers, Array.getD_eq_getD_getElem?, List.getElem?_toArray, powersFrom_getElem? _ (by omega), ← hbit,
    ← Function.iterate_add_apply, show 8 + (63 - k) = 71 - k by omega]
  rfl

theorem mod_two_pow_succ (x n : Nat) : x % 2 ^ (n + 1) = x % 2 ^ n ^^^ (if x.testBit n then 2 ^ n else 0) := by
  refine Nat.eq_of_testBit_eq fun i => ?_
  rw [Nat.testBit_xor, Nat.testBit_mod_two_pow, Nat.testBit_mod_two_pow]
  rcases Nat.lt_trichotomy i n with hi | rfl | hi
  · cases x.testBit n <;> simp [hi, Nat.lt_succ_of_lt hi, Nat.ne_of_gt hi]
  · cases x.testBit i <;> simp
  · cases x.testBit n <;> simp [Nat.not_lt.mpr (Nat.le_of_lt hi), Nat.not_lt.mpr hi, Nat.ne_of_lt hi]

/-- The powers for the low bits of a number add up to what eight steps make of these bits. -/
theorem foldl_powers (x : Nat) {n : Nat} (hn : n ≤ 8) :
    (List.range n).foldl (fun v k => if x.testBit k then v ^^^ powers.getD (71 - k) 0 else v) 0 =
      advance^[8] (UInt64.ofNat (x % 2 ^ n)) := by
  induction n with
  | zero => rw [Nat.pow_zero, Nat.mod_one]; rfl
  | succ n ih =>
    rw [List.range_succ, List.foldl_append, ih (by omega), mod_two_pow_succ, UInt64.ofNat_xor, advance_iterate_xor,
      List.foldl_cons, List.foldl_nil, powers_getD (by omega)]
    cases x.testBit n with
    | false =>
      have hzero : advance^[8] (UInt64.ofNat 0) = 0 := advance_iterate_zero 8
      simp only [Bool.false_eq_true, if_false, hzero, UInt64.xor_zero]
    | true => rfl

/-- What a byte contributes is what eight steps make of it. -/
theorem byteTable_getD {x : Nat} (hx : x < 2 ^ 8) : byteTable.getD x 0 = advance^[8] (UInt64.ofNat x) := by
  have hget : (Array.range 256)[x]? = some x := by
    rw [Array.getElem?_range]
    exact if_pos hx
  rw [byteTable, Array.getD_eq_getD_getElem?, Array.getElem?_map, hget, Option.map_some, Option.getD_some,
    byteRemainder, foldl_powers x (Nat.le_refl 8), Nat.mod_eq_of_lt hx]

/-- **A byte is eight steps.** -/
theorem extendByte_eq_advance (fp : UInt64) (b : UInt8) : extendByte fp b = advance^[8] (fp ^^^ b.toUInt64) := by
  have hindex : ((b.toUInt64 ^^^ fp) &&& 0xFF).toNat = (fp ^^^ b.toUInt64).toNat % 2 ^ 8 := by
    rw [UInt64.xor_comm, UInt64.toNat_and]
    exact Nat.and_two_pow_sub_one_eq_mod _ 8
  have hrest : UInt64.ofNat ((fp ^^^ b.toUInt64).toNat / 2 ^ 8) = fp >>> 8 := by
    rw [UInt64.toNat_xor, Nat.xor_div_two_pow, UInt8.toNat_toUInt64, Nat.div_eq_of_lt b.toNat_lt, Nat.xor_zero,
      ← Nat.shiftRight_eq_div_pow]
    exact UInt64.ofNat_toNat (x := fp >>> 8)
  rw [advance_iterate_split, hrest, extendByte, hindex, byteTable_getD (Nat.mod_lt _ (by decide))]

/-! ### Division, bit by bit -/

/-- Append a bit: the word is shifted, and the polynomial is added if the bit that comes in differs from
the one that drops out. -/
def appendBit (t : UInt64) (bit : Bool) : UInt64 := (t >>> 1) ^^^ (if t.toNat.testBit 0 != bit then polynomial else 0)

/-- What is left of a word once the given bits are appended, one after the other. -/
def divide (fp : UInt64) (bits : List Bool) : UInt64 := bits.foldl appendBit fp

/-- The `n` low bits of a number, lowest first. -/
def lowBits (n x : Nat) : List Bool := (List.range n).map x.testBit

theorem length_lowBits (n x : Nat) : (lowBits n x).length = n := by simp [lowBits]

theorem appendBit_eq_advance (t : UInt64) (bit : Bool) : appendBit t bit = advance (t ^^^ UInt64.ofNat bit.toNat) := by
  have hshift : t >>> 1 = (t ^^^ UInt64.ofNat bit.toNat) >>> 1 := by
    have hnone : UInt64.ofNat bit.toNat >>> 1 = 0 := by cases bit <;> rfl
    rw [UInt64.shiftRight_xor, hnone, UInt64.xor_zero]
  have hlow : (t.toNat.testBit 0 != bit) = (t ^^^ UInt64.ofNat bit.toNat).toNat.testBit 0 := by
    rw [UInt64.toNat_xor, Nat.testBit_xor]
    cases bit <;> rfl
  rw [appendBit, advance, low_eq_testBit, hshift, hlow]

theorem lowBits_add (m n x : Nat) : lowBits (m + n) x = lowBits m (x % 2 ^ m) ++ lowBits n (x / 2 ^ m) := by
  rw [lowBits, List.range_add, List.map_append, List.map_map]
  refine congrArg₂ (· ++ ·) (List.map_congr_left fun i hi => ?_) (List.map_congr_left fun i _ => ?_)
  · simp [Nat.testBit_mod_two_pow, List.mem_range.mp hi]
  · rw [Nat.testBit_div_two_pow, Nat.add_comm]
    rfl

theorem lowBits_mod (n x : Nat) : lowBits n (x % 2 ^ n) = lowBits n x := by
  simpa [lowBits] using (lowBits_add n 0 x).symm

theorem lowBits_succ (n x : Nat) : lowBits (n + 1) x = x.testBit 0 :: lowBits n (x / 2) := by
  rw [Nat.add_comm, lowBits_add, lowBits_mod, Nat.pow_one]
  rfl

/-- Bits of one word go in one after the other or all at once. -/
theorem divide_lowBits (fp : UInt64) {n x : Nat} (hn : n ≤ 64) (hx : x < 2 ^ n) :
    divide fp (lowBits n x) = advance^[n] (fp ^^^ UInt64.ofNat x) := by
  induction n generalizing fp x with
  | zero =>
    obtain rfl : x = 0 := by simpa using hx
    exact UInt64.xor_zero.symm
  | succ n ih =>
    have hhalf : x / 2 < 2 ^ n := by omega
    have hlt : 2 * (x / 2) < 2 ^ 64 := by
      have := Nat.pow_le_pow_right (show 0 < 2 by decide) hn
      omega
    have hlow : x % 2 = (x.testBit 0).toNat := by
      rw [Nat.testBit_zero]
      rcases Nat.mod_two_eq_zero_or_one x with h | h <;> simp [h]
    -- the bits above the lowest may go in before the step, or after it one place lower
    have hstep : advance (fp ^^^ UInt64.ofNat x) = appendBit fp (x.testBit 0) ^^^ UInt64.ofNat (x / 2) := by
      conv_lhs => rw [← xor_div_mod x 1, Nat.pow_one, hlow, UInt64.ofNat_xor, UInt64.xor_comm (UInt64.ofNat _),
        ← UInt64.xor_assoc, advance_xor, ← appendBit_eq_advance, advance_double hlt]
    rw [lowBits_succ, Function.iterate_succ_apply, hstep]
    exact ih (appendBit fp (x.testBit 0)) (by omega) hhalf

theorem divide_append (fp : UInt64) (as bs : List Bool) : divide fp (as ++ bs) = divide (divide fp as) bs :=
  List.foldl_append

/-- **Bytes go in bit by bit.** -/
theorem extendBytes_eq_divide (fp : UInt64) (bs : List UInt8) :
    extendBytes fp bs = divide fp (bs.flatMap fun b => lowBits 8 b.toNat) := by
  induction bs generalizing fp with
  | nil => rfl
  | cons b bs ih =>
    have hbyte : extendByte fp b = divide fp (lowBits 8 b.toNat) := by
      rw [extendByte_eq_advance, divide_lowBits fp (by decide) b.toNat_lt, ← UInt8.toNat_toUInt64, UInt64.ofNat_toNat]
    rw [List.flatMap_cons, divide_append, ← hbyte]
    exact ih (extendByte fp b)

theorem flatMap_toBytes (width x : Nat) :
    ((toBytes width x).flatMap fun b => lowBits 8 b.toNat) = lowBits (8 * width) x := by
  induction width generalizing x with
  | zero => rfl
  | succ width ih =>
    rw [toBytes, List.flatMap_cons, ih, Nat.mul_succ, Nat.add_comm, lowBits_add]
    rfl

/-- **An integer goes in bit by bit.** -/
theorem extendInt_eq_divide (fp : UInt64) (x : Int64) : extendInt fp x = divide fp (lowBits 64 x.toUInt64.toNat) := by
  rw [extendInt, extendBytes_eq_divide, bytes64, flatMap_toBytes]

/-- An integer is a whole word, so it may be added before the first step. -/
theorem extendInt_eq_advance (fp : UInt64) (x : Int64) : extendInt fp x = advance^[64] (fp ^^^ x.toUInt64) := by
  rw [extendInt_eq_divide, divide_lowBits fp (Nat.le_refl 64) x.toUInt64.toNat_lt, UInt64.ofNat_toNat]

/-- The bits of a text: the low eight of each of its 16-bit units. -/
def textBits (s : String) : List Bool := s.toList.flatMap fun c => (units c).flatMap fun u => lowBits 8 u.toNat

/-- **A text goes in bit by bit.** -/
theorem extendText_eq_divide (fp : UInt64) (s : String) : extendText fp s = divide fp (textBits s) := by
  have hunit : ∀ u : UInt16, lowBits 8 u.toUInt8.toNat = lowBits 8 u.toNat := fun u => lowBits_mod 8 u.toNat
  rw [extendText, extendBytes_eq_divide, textBytes, textBits, List.flatMap_map, List.flatMap_assoc]
  simp only [hunit]

/-! ### What is appended can be told -/

theorem divide_injective (bits : List Bool) : Function.Injective fun fp => divide fp bits := by
  induction bits with
  | nil => exact fun _ _ h => h
  | cons bit bits ih =>
    intro a b h
    have hstep : appendBit a bit = appendBit b bit := ih h
    rw [appendBit_eq_advance, appendBit_eq_advance] at hstep
    exact (UInt64.xor_left_inj _).mp (advance_injective hstep)

theorem extendText_injective (s : String) : Function.Injective fun fp => extendText fp s := by
  simpa only [extendText_eq_divide] using divide_injective (textBits s)

theorem extendInt_injective (x : Int64) : Function.Injective fun fp => extendInt fp x := by
  simpa only [extendInt_eq_divide] using divide_injective (lowBits 64 x.toUInt64.toNat)

/-- **Distinct integers are told apart**, whatever came before them. -/
theorem extendInt_inj {fp : UInt64} {x y : Int64} : extendInt fp x = extendInt fp y ↔ x = y := by
  rw [extendInt_eq_advance, extendInt_eq_advance, (advance_injective.iterate 64).eq_iff, UInt64.xor_right_inj]
  exact ⟨congrArg Int64.ofUInt64, congrArg Int64.toUInt64⟩

end Liveness.Fingerprint

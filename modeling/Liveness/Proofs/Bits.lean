import Mathlib.Data.Nat.Bitwise
import Mathlib.Tactic.Common
import Liveness.Bits

/-!
# What a row of bits holds

A row is known by its length and by its bits. The row of a function has the bits of the
function inside its length; to mark or clear a bit changes that bit and no other. Bits
packed into a number are the bits of the number. The rows that the operations give have
no bit set beyond their length, so that two of them with the same length and the same bits
are equal.
-/

namespace Liveness

/-- The bits of a packed number. -/
theorem testBit_pack (width : Nat) (f : Nat → Bool) (i : Nat) :
    (pack width f).testBit i = (decide (i < width) && f i) := by
  induction width generalizing f i with
  | zero => simp [pack]
  | succ width ih =>
    rw [pack]
    cases i with
    | zero => cases f 0 <;> simp
    | succ i =>
      have hhalf : ((f 0).toNat + 2 * pack width fun j => f (j + 1)) / 2 = pack width fun j => f (j + 1) := by
        cases f 0
        · simp
        · simp
          omega
      rw [Nat.testBit_add_one, hhalf, ih]
      simp

theorem pack_lt (width : Nat) (f : Nat → Bool) : pack width f < 2 ^ width := by
  induction width generalizing f with
  | zero => simp [pack]
  | succ width ih =>
    have := ih fun j => f (j + 1)
    rw [pack, Nat.pow_succ]
    cases f 0 <;> simp <;> omega

namespace Bits

theorem toNat_unit {k : Nat} (hk : k < 64) : (unit k).toNat = 2 ^ k := by
  have hlt : 2 ^ k < 2 ^ 64 := Nat.pow_lt_pow_right (by decide) hk
  simp only [unit, UInt64.toNat_shiftLeft, UInt64.toNat_ofNat']
  rw [Nat.mod_eq_of_lt (show k < 2 ^ 64 by omega), Nat.mod_eq_of_lt hk]
  simpa [Nat.shiftLeft_eq] using Nat.mod_eq_of_lt hlt

/-- The bits of a word are those of its number. -/
theorem bit_eq_testBit (w : UInt64) {k : Nat} (hk : k < 64) : bit w k = w.toNat.testBit k := by
  have hzero : (w &&& unit k = 0) ↔ w.toNat.testBit k = false := by
    rw [← UInt64.toNat_inj, UInt64.toNat_and, toNat_unit hk, Nat.and_two_pow]
    cases w.toNat.testBit k <;> simp
  cases h : w.toNat.testBit k <;> simp [bit, hzero, h]

theorem bit_or_unit (w : UInt64) {k j : Nat} (hk : k < 64) (hj : j < 64) :
    bit (w ||| unit k) j = (bit w j || decide (k = j)) := by
  rw [bit_eq_testBit _ hj, bit_eq_testBit _ hj, UInt64.toNat_or, Nat.testBit_or, toNat_unit hk, Nat.testBit_two_pow]

theorem bit_and_not_unit (w : UInt64) {k j : Nat} (hk : k < 64) (hj : j < 64) :
    bit (w &&& ~~~ unit k) j = (bit w j && !decide (k = j)) := by
  have hnot : (~~~ unit k).toNat.testBit j = !decide (k = j) := by
    rw [← UInt64.toNat_toBitVec, UInt64.toBitVec_not, BitVec.testBit_toNat, BitVec.getLsbD_not,
      ← BitVec.testBit_toNat, UInt64.toNat_toBitVec, toNat_unit hk, Nat.testBit_two_pow]
    simp [hj]
  rw [bit_eq_testBit _ hj, bit_eq_testBit _ hj, UInt64.toNat_and, Nat.testBit_and, hnot]

/-- The words of a row are as many as its bits need. -/
def Sized (b : Bits) : Prop := b.words.size = (b.len + 63) / 64

theorem sized_zeros (len : Nat) : (zeros len).Sized := by simp [Sized, zeros]

@[simp] theorem len_zeros (len : Nat) : (zeros len).len = len := rfl

theorem bit_words_zeros (len w : Nat) {k : Nat} (hk : k < 64) : bit ((zeros len).words.getD w 0) k = false := by
  have hword : (zeros len).words.getD w 0 = 0 := by
    rw [zeros, Array.getD_eq_getD_getElem?, Array.getElem?_replicate]
    split_ifs <;> rfl
  rw [hword, bit_eq_testBit _ hk]
  simp

@[simp] theorem get_zeros (len i : Nat) : (zeros len).get i = false := by
  rw [get, bit_words_zeros _ _ (Nat.mod_lt _ (by decide)), Bool.and_false]

/-- A change of one word in place changes the bits of that word. -/
theorem get_modify {b : Bits} (f : UInt64 → UInt64) {i : Nat} (hi : i / 64 < b.words.size) (j : Nat) :
    get { b with words := b.words.modify (i / 64) f } j =
      if j / 64 = i / 64 then decide (j < b.len) && bit (f (b.words.getD (j / 64) 0)) (j % 64) else b.get j := by
  rw [get, Array.getD_eq_getD_getElem?, Array.getElem?_modify]
  split_ifs with h₁ h₂ h₂
  · rw [← h₁, Array.getD_eq_getD_getElem?, Array.getElem?_eq_getElem hi]
    rfl
  · exact absurd h₁.symm h₂
  · exact absurd h₂.symm h₁
  · rw [get, Array.getD_eq_getD_getElem?]

theorem Sized.div_lt {b : Bits} (h : b.Sized) {i : Nat} (hi : i < b.len) : i / 64 < b.words.size := by
  rw [h]
  omega

theorem eq_of_div_of_mod {i j : Nat} (hdiv : j / 64 = i / 64) : i % 64 = j % 64 ↔ j = i := by omega

theorem get_mark {b : Bits} (h : b.Sized) {i : Nat} (hi : i < b.len) (j : Nat) :
    (b.mark i).get j = (b.get j || decide (j = i)) := by
  rw [mark, get_modify _ (h.div_lt hi)]
  split_ifs with hword
  · rw [bit_or_unit _ (Nat.mod_lt _ (by decide)) (Nat.mod_lt _ (by decide)), get]
    simp only [eq_of_div_of_mod hword]
    by_cases hji : j = i
    · subst hji
      simp [hi]
    · simp [hji]
  · have hne : j ≠ i := fun hji => hword (by rw [hji])
    simp [hne]

theorem get_unmark {b : Bits} (h : b.Sized) {i : Nat} (hi : i < b.len) (j : Nat) :
    (b.unmark i).get j = (b.get j && !decide (j = i)) := by
  rw [unmark, get_modify _ (h.div_lt hi)]
  split_ifs with hword
  · rw [bit_and_not_unit _ (Nat.mod_lt _ (by decide)) (Nat.mod_lt _ (by decide)), get]
    simp only [eq_of_div_of_mod hword, Bool.and_assoc]
  · have hne : j ≠ i := fun hji => hword (by rw [hji])
    simp [hne]

@[simp] theorem len_mark (b : Bits) (i : Nat) : (b.mark i).len = b.len := rfl

@[simp] theorem len_unmark (b : Bits) (i : Nat) : (b.unmark i).len = b.len := rfl

theorem Sized.mark {b : Bits} (h : b.Sized) (i : Nat) : (b.mark i).Sized := by
  simpa [Sized, Bits.mark] using h

theorem Sized.unmark {b : Bits} (h : b.Sized) (i : Nat) : (b.unmark i).Sized := by
  simpa [Sized, Bits.unmark] using h

/-- Writing a bit changes that bit. -/
theorem put_spec {b : Bits} (h : b.Sized) {i : Nat} (hi : i < b.len) (v : Bool) :
    ∃ b', b.put i v = .ok b' ∧ b'.Sized ∧ b'.len = b.len ∧ ∀ j, b'.get j = if j = i then v else b.get j := by
  cases v with
  | true =>
    refine ⟨b.mark i, by simp [put, set, hi], h.mark i, rfl, fun j => ?_⟩
    rw [get_mark h hi]
    by_cases hji : j = i <;> simp [hji]
  | false =>
    refine ⟨b.unmark i, by simp [put, clear, hi], h.unmark i, rfl, fun j => ?_⟩
    rw [get_unmark h hi]
    by_cases hji : j = i <;> simp [hji]

theorem put_eq_ok {b b' : Bits} (h : b.Sized) {i : Nat} {v : Bool} (hput : b.put i v = .ok b') :
    b'.Sized ∧ ∀ j, b'.get j = if j = i then v else b.get j := by
  by_cases hi : i < b.len
  · obtain ⟨b'', hb'', hsized, -, hget⟩ := put_spec h hi v
    obtain rfl := Except.ok.inj (hput.symm.trans hb'')
    exact ⟨hsized, hget⟩
  · cases v <;> simp [put, set, clear, hi] at hput

theorem set_eq_ok {b b' : Bits} (h : b.Sized) {i : Nat} (hset : b.set i = .ok b') :
    b'.Sized ∧ ∀ j, b'.get j = if j = i then true else b.get j :=
  put_eq_ok h (by rw [put, if_pos rfl, hset])

/-- A loop whose turns set bits of a row and clear none. -/
theorem foldlM_sets {ι ε : Type} {f : Bits → ι → Except ε Bits} (sets : ι → Nat → Prop) {xs : List ι}
    (hf : ∀ x ∈ xs, ∀ b b' : Bits, b.Sized → f b x = .ok b' →
      b'.Sized ∧ ∀ j, b'.get j = true ↔ b.get j = true ∨ sets x j) :
    ∀ b b' : Bits, b.Sized → xs.foldlM f b = .ok b' →
      b'.Sized ∧ ∀ j, b'.get j = true ↔ b.get j = true ∨ ∃ x ∈ xs, sets x j := by
  induction xs with
  | nil =>
    intro b b' hb h
    obtain rfl := Except.ok.inj h
    exact ⟨hb, fun j => by simp⟩
  | cons x xs ih =>
    intro b b' hb h
    rw [List.foldlM_cons] at h
    cases hx : f b x with
    | error e => rw [hx] at h; cases h
    | ok b₁ =>
      rw [hx] at h
      obtain ⟨hb₁, hget₁⟩ := hf x (by simp) b b₁ hb hx
      obtain ⟨hb', hget'⟩ := ih (fun y hy => hf y (by simp [hy])) b₁ b' hb₁ h
      refine ⟨hb', fun j => ?_⟩
      rw [hget', hget₁, or_assoc]
      simp

/-- A loop whose turns write bits of a row, each turn bits of its own. -/
theorem foldlM_writes {ι ε : Type} {f : Bits → ι → Except ε Bits} (owns : ι → Nat → Prop) (value : ι → Nat → Bool)
    {xs : List ι} (hxs : xs.Pairwise fun x y => ∀ j, owns x j → ¬ owns y j)
    (hf : ∀ x ∈ xs, ∀ b b' : Bits, b.Sized → f b x = .ok b' →
      b'.Sized ∧ (∀ j, owns x j → b'.get j = value x j) ∧ ∀ j, ¬ owns x j → b'.get j = b.get j) :
    ∀ b b' : Bits, b.Sized → xs.foldlM f b = .ok b' →
      b'.Sized ∧ (∀ x ∈ xs, ∀ j, owns x j → b'.get j = value x j) ∧
        ∀ j, (∀ x ∈ xs, ¬ owns x j) → b'.get j = b.get j := by
  induction xs with
  | nil =>
    intro b b' hb h
    obtain rfl := Except.ok.inj h
    exact ⟨hb, fun x hx => (by cases hx), fun _ _ => rfl⟩
  | cons x xs ih =>
    intro b b' hb h
    obtain ⟨hx, hxs⟩ := List.pairwise_cons.mp hxs
    rw [List.foldlM_cons] at h
    cases hfx : f b x with
    | error e => rw [hfx] at h; cases h
    | ok b₁ =>
      rw [hfx] at h
      obtain ⟨hb₁, hown, hother⟩ := hf x (by simp) b b₁ hb hfx
      obtain ⟨hb', hown', hother'⟩ := ih hxs (fun y hy => hf y (by simp [hy])) b₁ b' hb₁ h
      refine ⟨hb', fun y hy j hj => ?_, fun j hj => ?_⟩
      · rcases List.mem_cons.mp hy with rfl | hy
        · rw [hother' j fun z hz => hx z hz j hj, hown j hj]
        · exact hown' y hy j hj
      · rw [hother' j fun y hy => hj y (by simp [hy]), hother j (hj x (by simp))]

/-- The row of a function, bit by bit. -/
theorem foldl_mark_spec (f : Nat → Bool) (is : List Nat) : ∀ b : Bits, b.Sized → (∀ i ∈ is, i < b.len) →
    let b' := is.foldl (fun b i => if f i then b.mark i else b) b
    b'.Sized ∧ b'.len = b.len ∧ ∀ j, b'.get j = (b.get j || (decide (j ∈ is) && f j)) := by
  induction is with
  | nil => exact fun b h _ => ⟨h, rfl, fun j => by simp⟩
  | cons i is ih =>
    intro b h his
    have hi := his i (by simp)
    simp only [List.foldl_cons]
    cases hf : f i with
    | true =>
      obtain ⟨hsized, hlen, hget⟩ := ih (b.mark i) (h.mark i) fun j hj => his j (by simp [hj])
      refine ⟨hsized, hlen, fun j => ?_⟩
      rw [if_pos rfl, hget, get_mark h hi]
      by_cases hji : j = i
      · simp [hji, hf]
      · simp [hji]
    | false =>
      obtain ⟨hsized, hlen, hget⟩ := ih b h fun j hj => his j (by simp [hj])
      refine ⟨hsized, hlen, fun j => ?_⟩
      rw [if_neg (by simp), hget]
      by_cases hji : j = i
      · simp [hji, hf]
      · simp [hji]

@[simp] theorem get_ofFn (len : Nat) (f : Nat → Bool) (i : Nat) : (ofFn len f).get i = (decide (i < len) && f i) := by
  rw [ofFn, (foldl_mark_spec f (List.range len) (zeros len) (sized_zeros len) (by simp)).2.2]
  simp

@[simp] theorem len_ofFn (len : Nat) (f : Nat → Bool) : (ofFn len f).len = len :=
  (foldl_mark_spec f (List.range len) (zeros len) (sized_zeros len) (by simp)).2.1

/-- Only the bits inside the length count. -/
theorem ofFn_congr {len : Nat} {f g : Nat → Bool} (h : ∀ i < len, f i = g i) : ofFn len f = ofFn len g := by
  have hfold : ∀ (is : List Nat) (b : Bits), (∀ i ∈ is, i < len) →
      is.foldl (fun b i => if f i then b.mark i else b) b = is.foldl (fun b i => if g i then b.mark i else b) b := by
    intro is
    induction is with
    | nil => exact fun _ _ => rfl
    | cons i is ih =>
      intro b his
      rw [List.foldl_cons, List.foldl_cons, h i (his i (by simp))]
      exact ih _ fun j hj => his j (by simp [hj])
  exact hfold _ _ (by simp)

@[simp] theorem get_ofList (bs : List Bool) (i : Nat) : (ofList bs).get i = bs.getD i false := by
  rw [ofList, ofArray, get_ofFn, List.size_toArray, Array.getD_eq_getD_getElem?, List.getElem?_toArray,
    List.getD_eq_getElem?_getD]
  by_cases hi : i < bs.length <;> simp [hi]

@[simp] theorem len_ofList (bs : List Bool) : (ofList bs).len = bs.length := by
  rw [ofList, ofArray, len_ofFn, List.size_toArray]

@[simp] theorem get_empty (i : Nat) : empty.get i = false := get_zeros 0 i

/-! ### Rows without stray bits -/

/-- The bit at a position of the words, whether it is inside the row or not. -/
def raw (b : Bits) (i : Nat) : Bool := bit (b.words.getD (i / 64) 0) (i % 64)

theorem get_eq_raw (b : Bits) (i : Nat) : b.get i = (decide (i < b.len) && b.raw i) := rfl

/-- The bits of the words are those of a long enough row. -/
theorem raw_eq_get (b : Bits) (i : Nat) : b.raw i = get { b with len := i + 1 } i := by
  simp [get_eq_raw, raw]

/-- The row has the words it needs, and no bit is set beyond its length. -/
structure Clean (b : Bits) : Prop where
  sized : b.Sized
  padding : ∀ i, b.len ≤ i → b.raw i = false

theorem clean_zeros (len : Nat) : (zeros len).Clean :=
  ⟨sized_zeros len, fun _ _ => bit_words_zeros _ _ (Nat.mod_lt _ (by decide))⟩

/-- A change of one word that keeps the bits beyond the length leaves the row clean. -/
theorem Clean.modify {b : Bits} (h : b.Clean) {f : UInt64 → UInt64} {i : Nat} (hi : i < b.len)
    (hf : ∀ w, ∀ k < 64, k ≠ i % 64 → bit (f w) k = bit w k) :
    Clean { b with words := b.words.modify (i / 64) f } := by
  refine ⟨by simpa [Sized] using h.sized, fun j hj => ?_⟩
  have hj : b.len ≤ j := hj
  have hsize := h.sized.div_lt hi
  rw [raw_eq_get]
  have hget := get_modify (b := { b with len := j + 1 }) f hsize j
  refine hget.trans ?_
  split_ifs with hword
  · have hne : j % 64 ≠ i % 64 := fun hmod => by
      have := (eq_of_div_of_mod hword).mp hmod.symm
      omega
    rw [hf _ _ (Nat.mod_lt _ (by decide)) hne]
    simpa [raw] using h.padding j hj
  · rw [← raw_eq_get]
    exact h.padding j hj

theorem Clean.mark {b : Bits} (h : b.Clean) {i : Nat} (hi : i < b.len) : (b.mark i).Clean := by
  refine h.modify hi fun w k hk hne => ?_
  rw [bit_or_unit w (Nat.mod_lt _ (by decide)) hk]
  simp [Ne.symm hne]

theorem Clean.unmark {b : Bits} (h : b.Clean) {i : Nat} (hi : i < b.len) : (b.unmark i).Clean := by
  refine h.modify hi fun w k hk hne => ?_
  rw [bit_and_not_unit w (Nat.mod_lt _ (by decide)) hk]
  simp [Ne.symm hne]

theorem Clean.put {b b' : Bits} (h : b.Clean) {i : Nat} {v : Bool} (hput : b.put i v = .ok b') : b'.Clean := by
  by_cases hi : i < b.len
  · cases v with
    | true =>
      simp only [Bits.put, if_true, set, hi, Except.ok.injEq] at hput
      exact hput ▸ h.mark hi
    | false =>
      simp only [Bits.put, Bool.false_eq_true, if_false, clear, hi, if_true, Except.ok.injEq] at hput
      exact hput ▸ h.unmark hi
  · cases v <;> simp [Bits.put, set, clear, hi] at hput

theorem clean_ofFn (len : Nat) (f : Nat → Bool) : (ofFn len f).Clean := by
  have hfold : ∀ (is : List Nat) (b : Bits), b.Clean → b.len = len → (∀ i ∈ is, i < len) →
      (is.foldl (fun b i => if f i then b.mark i else b) b).Clean := by
    intro is
    induction is with
    | nil => exact fun b h _ _ => h
    | cons i is ih =>
      intro b h hlen his
      rw [List.foldl_cons]
      have htail : ∀ j ∈ is, j < len := fun j hj => his j (by simp [hj])
      split_ifs
      · exact ih _ (h.mark (hlen ▸ his i (by simp))) hlen htail
      · exact ih b h hlen htail
  exact hfold _ _ (clean_zeros len) rfl (by simp)

/-- A row without stray bits is known by its length and its bits. -/
theorem Clean.ext {b b' : Bits} (h : b.Clean) (h' : b'.Clean) (hlen : b.len = b'.len) (hget : ∀ i, b.get i = b'.get i) :
    b = b' := by
  have hraw : ∀ i, b.raw i = b'.raw i := fun i => by
    by_cases hi : i < b.len
    · have := hget i
      simpa [get_eq_raw, hi, hlen ▸ hi] using this
    · rw [h.padding i (by omega), h'.padding i (by omega)]
  have hsize : b.words.size = b'.words.size := by rw [h.sized, h'.sized, hlen]
  have hword : ∀ w, b.words.getD w 0 = b'.words.getD w 0 := fun w => by
    rw [← UInt64.toNat_inj]
    refine Nat.eq_of_testBit_eq fun k => ?_
    by_cases hk : k < 64
    · have := hraw (64 * w + k)
      rwa [raw, raw, show (64 * w + k) / 64 = w by omega, show (64 * w + k) % 64 = k by omega,
        bit_eq_testBit _ hk, bit_eq_testBit _ hk] at this
    · have hbig : ∀ v : UInt64, v.toNat.testBit k = false := fun v =>
        Nat.testBit_eq_false_of_lt (v.toNat_lt.trans_le (Nat.pow_le_pow_right (by decide) (by omega)))
      rw [hbig, hbig]
  obtain ⟨len, words⟩ := b
  obtain ⟨len', words'⟩ := b'
  obtain rfl : len = len' := hlen
  congr 1
  refine Array.ext hsize fun i hi hi' => ?_
  simpa [Array.getD_eq_getD_getElem?, hi, hi'] using hword i

/-- A row without stray bits is the row of its bits. -/
theorem Clean.ofFn_get {b : Bits} (h : b.Clean) : ofFn b.len b.get = b := by
  refine (clean_ofFn _ _).ext h (len_ofFn _ _) fun i => ?_
  rw [get_ofFn]
  by_cases hi : i < b.len <;> simp [hi, get_eq_raw]

/-- The rows that the operations on rows give. -/
inductive Built : Bits → Prop
  | zeros (len : Nat) : Built (zeros len)
  | ofList (bs : List Bool) : Built (ofList bs)
  | put {b b' : Bits} {i : Nat} {v : Bool} : Built b → b.put i v = .ok b' → Built b'
  | slice {b b' : Bits} {offset len : Nat} : Built b → b.slice offset len = .ok b' → Built b'

theorem Built.clean {b : Bits} (h : b.Built) : b.Clean := by
  induction h with
  | zeros len => exact clean_zeros len
  | ofList bs => exact clean_ofFn _ _
  | put _ hput ih => exact ih.put hput
  | slice _ hslice _ =>
    rw [Bits.slice] at hslice
    split_ifs at hslice
    exact Except.ok.inj hslice ▸ clean_ofFn _ _

end Bits

end Liveness

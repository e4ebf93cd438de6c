import Liveness.Proofs.Bits

/-!
# What the words of a row tell

A row is compared and its true bits are counted word by word, whatever its length. That is right
since no operation leaves a bit behind beyond the length: two rows are equal if and only if they
have the same length and the same bits (`Built.eq_iff`), and the true bits of the words are those
of the row (`Clean.count_eq`).
-/

namespace Liveness

namespace Bits

variable {b c : Bits}

/-! ### Writes -/

/-- A write of one bit. -/
inductive Write where
  /-- Make a bit true. -/
  | set (position : Nat)
  /-- Make a bit false. -/
  | clear (position : Nat)
  /-- Give a bit a value. -/
  | put (position : Nat) (value : Bool)
deriving DecidableEq, Repr

namespace Write

/-- The position that is written. -/
def position : Write → Nat
  | set i => i
  | clear i => i
  | put i _ => i

/-- The value that is written. -/
def value : Write → Bool
  | set _ => true
  | clear _ => false
  | put _ v => v

/-- The row after a write. -/
def apply (b : Bits) : Write → Except Misuse Bits
  | set i => b.set i
  | clear i => b.clear i
  | put i v => b.put i v

theorem apply_eq_put (b : Bits) (w : Write) : w.apply b = b.put w.position w.value := by
  cases w <;> rfl

end Write

/-- A write inside a row changes the bit it is for and no other. -/
theorem Built.write (h : b.Built) {w : Write} (hw : w.position < b.len) :
    ∃ b', w.apply b = .ok b' ∧ b'.Built ∧ b'.len = b.len ∧
      ∀ j, b'.get j = if j = w.position then w.value else b.get j := by
  obtain ⟨b', hput, -, hlen, hget⟩ := put_spec h.clean.sized hw w.value
  exact ⟨b', (w.apply_eq_put b).trans hput, h.put hput, hlen, hget⟩

/-! ### Counting -/

/-- The true bits of words in a row, counted by position. -/
theorem foldl_population (ws : List UInt64) (n : Nat) :
    ws.foldl (fun n w => n + population w) n =
      n + (List.range (64 * ws.length)).countP fun i => bit (ws.getD (i / 64) 0) (i % 64) := by
  induction ws generalizing n with
  | nil => simp
  | cons w ws ih =>
    have hfirst : (List.range 64).countP (fun i => bit ((w :: ws).getD (i / 64) 0) (i % 64)) = population w := by
      refine List.countP_congr fun i hi => ?_
      have hlt := List.mem_range.mp hi
      rw [Nat.div_eq_of_lt hlt, Nat.mod_eq_of_lt hlt, List.getD_cons_zero]
    have hrest : ((List.range (64 * ws.length)).map (64 + ·)).countP
        (fun i => bit ((w :: ws).getD (i / 64) 0) (i % 64)) =
          (List.range (64 * ws.length)).countP fun i => bit (ws.getD (i / 64) 0) (i % 64) := by
      rw [List.countP_map]
      refine List.countP_congr fun i _ => ?_
      rw [Function.comp_apply, show (64 + i) / 64 = i / 64 + 1 by omega, show (64 + i) % 64 = i % 64 by omega,
        List.getD_cons_succ]
    rw [List.foldl_cons, ih, List.length_cons, Nat.mul_succ, Nat.add_comm (64 * ws.length) 64, List.range_add,
      List.countP_append, hfirst, hrest, Nat.add_assoc]

theorem count_eq_countP_raw (b : Bits) : b.count = (List.range (64 * b.words.size)).countP b.raw := by
  rw [count, foldl_population, Nat.zero_add, Array.length_toList]
  refine List.countP_congr fun i _ => ?_
  rw [raw, Array.getD_eq_getD_getElem?, List.getD_eq_getElem?_getD, Array.getElem?_toList]

/-- Without stray bits the true bits of the words are those of the row. -/
theorem Clean.count_eq (h : b.Clean) : b.count = b.ones.length := by
  have hsize : 64 * b.words.size = b.len + (64 * b.words.size - b.len) := by
    have := h.sized
    rw [Sized] at this
    omega
  have hinside : (List.range b.len).countP b.raw = (List.range b.len).countP b.get := by
    refine List.countP_congr fun i hi => ?_
    simp [get_eq_raw, List.mem_range.mp hi]
  have hbeyond : ((List.range (64 * b.words.size - b.len)).map (b.len + ·)).countP b.raw = 0 := by
    rw [List.countP_eq_zero]
    intro i hi
    obtain ⟨k, -, rfl⟩ := List.mem_map.mp hi
    simp [h.padding (b.len + k) (Nat.le_add_right ..)]
  rw [count_eq_countP_raw, hsize, List.range_add, List.countP_append, hinside, hbeyond, Nat.add_zero, ones,
    List.countP_eq_length_filter]

/-! ### Rows and their words -/

theorem Built.eq_iff (hb : b.Built) (hc : c.Built) : b = c ↔ b.len = c.len ∧ ∀ i, b.get i = c.get i := by
  constructor
  · rintro rfl
    exact ⟨rfl, fun _ => rfl⟩
  · rintro ⟨hlen, hget⟩
    exact hb.clean.ext hc.clean hlen hget

/-- A part of a row has the bits of the row at its positions. -/
theorem Built.exists_slice (h : b.Built) {offset len : Nat} (hend : offset + len ≤ wordLimit) :
    ∃ c, b.slice offset len = .ok c ∧ c.Built ∧ c.len = len ∧ ∀ i < len, c.get i = b.get (offset + i) := by
  have hslice : b.slice offset len = .ok (ofFn len fun i => b.get (offset + i)) := by
    rw [Bits.slice, if_pos (.inr hend)]
  refine ⟨_, hslice, h.slice hslice, len_ofFn .., fun i hi => ?_⟩
  simp [hi]

/-- **The words of a row** are as many as its bits need and hold no bit beyond its length. A write inside the
row changes one bit and leaves such a row. So equality of rows is equality of their lengths and bits, the true
bits of the words are those of the row, and a part of the row has the bits of the row. -/
theorem Built.words_exact (h : b.Built) :
    b.words.size = (b.len + 63) / 64 ∧ (∀ i, b.len ≤ i → b.raw i = false) ∧
      (∀ w : Write, w.position < b.len → ∃ b', w.apply b = .ok b' ∧ b'.Built ∧ b'.len = b.len ∧
        ∀ j, b'.get j = if j = w.position then w.value else b.get j) ∧
      (∀ c : Bits, c.Built → (b = c ↔ b.len = c.len ∧ ∀ i, b.get i = c.get i)) ∧
      b.count = b.ones.length ∧
      ∀ offset len, offset + len ≤ wordLimit →
        ∃ c, b.slice offset len = .ok c ∧ c.Built ∧ c.len = len ∧ ∀ i < len, c.get i = b.get (offset + i) := by
  refine ⟨h.clean.sized, h.clean.padding, fun w hw => h.write hw, fun c hc => h.eq_iff hc, h.clean.count_eq, ?_⟩
  exact fun offset len hend => h.exists_slice hend

/-- A row that ends in its second word, with the last bit of the first word and its own last bit true. -/
def crossing : Bits := ((zeros 70).mark 63).mark 69

theorem built_crossing : crossing.Built := .put (i := 69) (v := true) (.put (i := 63) (v := true) (.zeros 70) rfl) rfl

theorem words_exact_crossing :
    crossing.Built ∧ crossing.words.size = 2 ∧ crossing.raw 127 = false ∧ crossing.count = 2 ∧
    (∃ b, (Write.clear 69).apply crossing = .ok b ∧ b.get 63 = true ∧ b.get 69 = false ∧ b ≠ crossing) ∧
      ∃ c, crossing.slice 60 8 = .ok c ∧ c.get 3 = true := by
  obtain ⟨hsize, hpadding, hwrite, heq, hcount, hslice⟩ := built_crossing.words_exact
  have hones : crossing.ones = [63, 69] := by decide +kernel
  obtain ⟨b, hb, hbuilt, -, hget⟩ := hwrite (.clear 69) (by decide)
  obtain ⟨c, hc, -, -, hread⟩ := hslice 60 8 (by decide)
  have hbit : crossing.get 63 = true ∧ crossing.get 69 = true := by decide +kernel
  refine ⟨built_crossing, hsize, hpadding 127 (by decide), by rw [hcount, hones]; rfl,
    ⟨b, hb, (hget 63).trans hbit.1, hget 69, ?_⟩, c, hc, (hread 3 (by decide)).trans hbit.1⟩
  intro hsame
  have hlast := ((heq b hbuilt).mp hsame.symm).2 69
  cases hbit.2.symm.trans (hlast.trans (hget 69))

end Bits

end Liveness

import Liveness.Proofs.Graph.Canonical
import Liveness.Proofs.Graph.Cut

/-!
# Records of the wrong length

A record that lost bytes at its end, and one that is followed by other bytes, is refused, and
the fault names the place where the record starts (`decode_of_wrong_length`). Whatever is read
of a part of a record, or of a record with more after it, has the sizes that the fields of the
record say. So it has a record of the same length, and there is only one cut that fits.

The sizes in a record are 32-bit numbers, and of a greater size only the low bits are written.
The record of a node with so many checks, or with so many words in its steps, can start with
the record of another node (`prefix_of_overlong_record`).
-/

namespace Liveness.Node

variable {n : Node} {offset : Nat} {bytes : List UInt8}

/-! ### The length of a record -/

/-- The bytes that were read as a node are as many as those of its record. -/
theorem IsRecord.length_eq (h : n.IsRecord bytes) : bytes.length = n.encode.length := by
  obtain ⟨row, hrow, -, rfl⟩ := h.parts
  simp only [Node.encode_eq, List.length_append, hrow, length_bitBytes]

theorem used_cut (n : Node) : n.cut.used = n.used % 2 ^ 32 := by
  have hle : n.used % 2 ^ 32 ≤ n.words.size := Nat.mod_le _ _
  simp [used, cut] at hle ⊢
  omega

theorem length_encode_cut (n : Node) : n.cut.encode.length + 4 * n.used = n.encode.length + 4 * (n.used % 2 ^ 32) := by
  have hlen : n.cut.stateBits.len = n.stateBits.len := Bits.len_ofFn _ _
  rw [length_encode, length_encode, used_cut, hlen]
  change 24 + (encodeParent n.parent).length + _ + _ + _ = _
  omega

/-- What is read of a part of a record, or of the record with more after it, is as long as the
fields of the record say. -/
theorem length_of_decode (hbits : n.stateBits.len < 2 ^ 32) {more : List UInt8} (hbytes : bytes <+: n.encode ++ more)
    {m : Node} (h : decode offset bytes = .ok m) : bytes.length + 4 * n.used = n.encode.length + 4 * (n.used % 2 ^ 32) := by
  obtain rfl := eq_cut_of_isPrefix hbits hbytes h
  rw [(isRecord_of_decode h).length_eq, length_encode_cut]

/-- **A record of the wrong length is refused.** If the state checks of a node can be counted with
32 bits, its record with other bytes after it is damaged, and if the words of its steps can, so is
every proper part of the record. The fault names the place where the record starts. -/
theorem decode_of_wrong_length (n : Node) (hbits : n.stateBits.len < 2 ^ 32) (offset : Nat) :
    (n.used < 2 ^ 32 → ∀ bytes, bytes <+: n.encode → bytes ≠ n.encode →
      ∃ damage, decode offset bytes = .error (.corrupt offset damage)) ∧
    ∀ bytes, bytes ≠ [] → ∃ damage, decode offset (n.encode ++ bytes) = .error (.corrupt offset damage) := by
  constructor
  · intro hwords bytes hbytes hne
    refine exists_damage fun m hm => hne ?_
    have hbytes' : bytes <+: n.encode ++ [] := by rwa [List.append_nil]
    have hlen := length_of_decode hbits hbytes' hm
    rw [Nat.mod_eq_of_lt hwords] at hlen
    exact hbytes.eq_of_length (by omega)
  · intro bytes hne
    refine exists_damage fun m hm => hne ?_
    have hlen := length_of_decode hbits List.prefix_rfl hm
    have hmod := Nat.mod_le n.used (2 ^ 32)
    rw [List.length_append] at hlen
    exact List.length_eq_zero_iff.mp (by omega)

/-- A record without its last byte, and one with a byte after it. -/
theorem decode_of_wrong_length_ferry :
    (∃ damage, decode 5 ferry.encode.dropLast = .error (.corrupt 5 damage)) ∧
      ∃ damage, decode 5 (ferry.encode ++ [0]) = .error (.corrupt 5 damage) := by
  have hbits : ferry.stateBits.len < 2 ^ 32 := by decide +kernel
  obtain ⟨hcut, hmore⟩ := decode_of_wrong_length ferry hbits 5
  exact ⟨hcut (by decide) _ (List.dropLast_prefix _) (by decide +kernel), hmore [0] (by decide)⟩

/-! ### Sizes that do not fit -/

theorem bitBytes_zeros (len : Nat) : bitBytes (.zeros len) = List.replicate ((len + 7) / 8) 0 := by
  have hbyte : UInt8.ofNat (pack 8 fun _ => false) = 0 := by decide
  simp [bitBytes, hbyte, List.map_const']

/-- A node with `2 ^ 32` state checks, which is said to have none. -/
def unchecked : Node := setState { key := ⟨0, 0⟩, parent := none } (.zeros (2 ^ 32))

theorem encode_unchecked : unchecked.encode = List.replicate (25 + 2 ^ 29) 0 := by
  have hfront : unchecked.front = List.replicate 17 0 := by decide
  have hback : unchecked.back = List.replicate 8 0 := by decide
  rw [encode_eq, hfront, hback]
  change List.replicate 17 0 ++ bitBytes (.zeros (2 ^ 32)) ++ List.replicate 8 0 = _
  have hsum : 17 + (2 ^ 32 + 7) / 8 + 8 = 25 + 2 ^ 29 := by decide
  rw [bitBytes_zeros, List.replicate_append_replicate, List.replicate_append_replicate, hsum]

/-- The node without its steps, and with as much of their width as a record can say. -/
def withoutSteps (n : Node) : Node := { n with width := n.width % 2 ^ 32, words := #[], capacity := 0 }

/-- The number of words may be written as zero. -/
theorem encode_withoutSteps (h : n.used % 2 ^ 32 = 0) :
    n.encode = n.withoutSteps.encode ++ n.words.toList.flatMap bytes32 := by
  have hwidth : toBytes 4 (n.width % 2 ^ 32) = toBytes 4 n.width := toBytes_mod 4 n.width
  have hused : toBytes 4 n.used = toBytes 4 0 := by
    rw [← toBytes_mod 4 n.used]
    exact congrArg (toBytes 4) h
  simp only [encode, withoutSteps, hwidth, hused]
  simp [used]

theorem decode_withoutSteps (h : n.stateBits.len < 2 ^ 32) (offset : Nat) :
    decode offset n.withoutSteps.encode = .ok n.withoutSteps.normal := by
  have hwhole : n.withoutSteps.Whole := whole_of_size_eq_zero rfl
  have hwidth : n.withoutSteps.width < 2 ^ 32 := Nat.mod_lt _ (by decide)
  have hused : n.withoutSteps.used < 2 ^ 32 := by
    change 0 < 2 ^ 32
    decide
  exact decode_encode_of_lt hwhole h hwidth hused offset

/-- A first step can have any number of action checks that its buffer has room for. -/
theorem exists_addStep (key : Key) {width : Nat} (hroom : stepLen width ≤ maxCapacity) (hword : width ≤ wordLimit) :
    ∃ n : Node, n.Built ∧ n.stateBits = .empty ∧ n.used = stepLen width := by
  have hpos : 0 < stepLen width := stepLen_pos width
  have hfit : stepLen width < wordLimit := hroom.trans_lt (by decide)
  have hadd : ∃ n, addStep { key := key, parent := none } key width .empty 0 1 = (.ok (), n) := by
    have hreserve : reserve { key := key, parent := none, width := width } 1 =
        .ok { key := key, parent := none, width := width, capacity := stepLen width } := by
      simp [reserve, used, mulWords, hpos, hfit, hroom, bind, Except.bind, pure, Except.pure]
    simp [addStep, widen, hreserve, hword]
  obtain ⟨n, hn⟩ := hadd
  obtain ⟨hwhole, hsteps, hwidth, hsame⟩ := addStep_spec (whole_of_size_eq_zero rfl) hn
  refine ⟨n, .addStep (.new key none) hn, hsame.stateBits, ?_⟩
  have hdegree : n.degree = 1 := by
    rw [← length_steps, hsteps, steps_eq_nil rfl]
    rfl
  rw [used, hwhole, hdegree, hwidth, Nat.one_mul]

/-- **A size that does not fit makes a part of a record a record.** The checks of the first node, and
the words of the second, cannot be counted with 32 bits. -/
theorem prefix_of_overlong_record :
    (∃ n : Node, n.Built ∧ n.used < 2 ^ 32 ∧ List.replicate 25 0 <+: n.encode ∧ List.replicate 25 0 ≠ n.encode ∧
      decode 64 (List.replicate 25 0) = .ok { key := ⟨0, 0⟩, parent := none }) ∧
    ∃ n : Node, n.Built ∧ n.stateBits.len < 2 ^ 32 ∧ ∃ bytes m, bytes <+: n.encode ∧ bytes ≠ n.encode ∧
      decode 64 bytes = .ok m := by
  constructor
  · refine ⟨unchecked, .setState (.new _ _) (.zeros _), by decide, ?_, ?_, by decide⟩
    · rw [encode_unchecked, ← List.replicate_append_replicate]
      exact List.prefix_append _ _
    · intro heq
      have hlen := congrArg List.length heq
      rw [encode_unchecked, List.length_replicate, List.length_replicate] at hlen
      revert hlen
      decide
  · have hlen : stepLen (32 * (2 ^ 32 - 3)) = 2 ^ 32 := by decide
    have hroom : stepLen (32 * (2 ^ 32 - 3)) ≤ maxCapacity := by
      rw [hlen]
      decide
    obtain ⟨n, hbuilt, hbits, hused⟩ := exists_addStep ⟨0, 0⟩ hroom (by decide)
    rw [hlen] at hused
    have hlt : n.stateBits.len < 2 ^ 32 := by
      rw [hbits]
      decide
    have hencode := encode_withoutSteps (n := n) (by rw [hused, Nat.mod_self])
    refine ⟨n, hbuilt, hlt, n.withoutSteps.encode, n.withoutSteps.normal, ⟨_, hencode.symm⟩, fun heq => ?_,
      decode_withoutSteps hlt 64⟩
    have hwords : n.words.toList.length = 2 ^ 32 := hused
    have hlength := congrArg List.length hencode
    rw [heq, List.length_append, length_words, hwords] at hlength
    omega

end Liveness.Node

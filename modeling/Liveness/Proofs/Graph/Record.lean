import Liveness.Graph.Record
import Liveness.Proofs.Graph.Node
import Liveness.Proofs.Reader

/-!
# Records are read back

The bytes of a node whose sizes fit the 32-bit fields of a record are read as the node
itself (`decode_encode`), in the form that reading gives: the row of its state checks is
made anew from the bits, and its buffer has no spare room. Neither shows in the steps or
in the bits.
-/

namespace Liveness

namespace Node

variable {n : Node}

/-- The node in the form that reading gives. -/
def normal (n : Node) : Node :=
  { n with stateBits := .ofFn n.stateBits.len n.stateBits.get, capacity := n.used }

@[simp] theorem steps_normal (n : Node) : n.normal.steps = n.steps := rfl

@[simp] theorem targets_normal (n : Node) : n.normal.targets = n.targets := rfl

@[simp] theorem key_normal (n : Node) : n.normal.key = n.key := rfl

@[simp] theorem parent_normal (n : Node) : n.normal.parent = n.parent := rfl

@[simp] theorem width_normal (n : Node) : n.normal.width = n.width := rfl

@[simp] theorem len_stateBits_normal (n : Node) : n.normal.stateBits.len = n.stateBits.len := Bits.len_ofFn _ _

@[simp] theorem get_stateBits_normal (n : Node) : n.normal.stateBits.get = n.stateBits.get := by
  funext i
  simp only [normal, Bits.get_ofFn]
  by_cases hi : i < n.stateBits.len <;> simp [hi, Bits.get]

theorem Whole.normal (h : n.Whole) : n.normal.Whole := h

theorem length_words (ws : List UInt32) : (ws.flatMap bytes32).length = 4 * ws.length := by
  induction ws with
  | nil => rfl
  | cons w ws ih =>
    rw [List.flatMap_cons, List.length_append, ih, bytes32, length_toBytes, List.length_cons]
    omega

@[simp] theorem length_bitBytes (b : Bits) : (bitBytes b).length = (b.len + 7) / 8 := by simp [bitBytes]

/-- The sizes of the node's record fit the 32-bit fields. The number of checks has a field
of its own: a short record can have more state checks than that field can say. -/
structure Storable (n : Node) : Prop where
  bits : n.stateBits.len < 2 ^ 32
  width : n.width < 2 ^ 32
  length : n.encode.length < 2 ^ 32

theorem length_encode (n : Node) : n.encode.length =
    24 + (encodeParent n.parent).length + (n.stateBits.len + 7) / 8 + 4 * n.used := by
  have hkey : n.key.encode.length = 12 := by simp [Key.encode, bytes64, bytes32]
  simp only [encode, List.length_append, length_toBytes, hkey, length_bitBytes, length_words, Array.length_toList, used]
  omega

theorem Storable.used_lt (h : n.Storable) : n.used < 2 ^ 32 := by
  have hlen := h.length
  rw [length_encode] at hlen
  omega

/-- The buffer holds whole steps, and a node without any does not ask for more action checks
than their field can say. -/
structure Tidy (n : Node) : Prop where
  whole : n.Whole
  narrow : n.used = 0 → n.width < 2 ^ 32

theorem tidy_new (key : Key) (parent : Option Key) : Tidy { key, parent } :=
  ⟨whole_of_size_eq_zero rfl, fun _ => Nat.two_pow_pos 32⟩

theorem Tidy.normal (h : n.Tidy) : n.normal.Tidy := ⟨h.whole, h.narrow⟩

theorem Tidy.trim (h : n.Tidy) : n.trim.Tidy := ⟨h.whole, h.narrow⟩

theorem Tidy.setState (h : n.Tidy) (bits : Bits) : (n.setState bits).Tidy := ⟨h.whole, h.narrow⟩

/-- A node with steps is tidy, however wide they are. -/
theorem Whole.tidy (h : n.Whole) (hsteps : n.steps ≠ []) : n.Tidy :=
  ⟨h, fun hused => absurd (steps_eq_nil hused) hsteps⟩

theorem Tidy.addStep (h : n.Tidy) {m : Node} {target : Key} {width : Nat} {row : Bits} {offset hint : Nat}
    (hm : n.addStep target width row offset hint = (.ok (), m)) : m.Tidy := by
  obtain ⟨hwhole, hsteps, -⟩ := addStep_spec h.whole hm
  exact hwhole.tidy (by simp [hsteps])

/-- A tidy node with a record of less than 512 MiB is storable. -/
theorem Tidy.storable (h : n.Tidy) (hlen : n.encode.length < 2 ^ 29) : n.Storable := by
  rw [length_encode] at hlen
  refine ⟨by omega, ?_, by rw [length_encode]; omega⟩
  by_cases hzero : n.used = 0
  · exact h.narrow hzero
  · have hwhole : n.used = n.degree * stepLen n.width := h.whole
    have hdegree : 0 < n.degree := Nat.pos_of_ne_zero fun h0 => hzero (by rw [hwhole, h0, Nat.zero_mul])
    have hstep : stepLen n.width ≤ n.used := hwhole ▸ Nat.le_mul_of_pos_left (stepLen n.width) hdegree
    simp only [stepLen, actionWords] at hstep
    omega

/-- The bytes of a row are read as its bits. -/
theorem ofBitBytes_bitBytes (b : Bits) : ofBitBytes b.len (bitBytes b) = .ofFn b.len b.get := by
  refine Bits.ofFn_congr fun i hi => ?_
  have hbyte : i / 8 < (b.len + 7) / 8 := by omega
  have hget : (bitBytes b).toArray.getD (i / 8) 0 = UInt8.ofNat (pack 8 fun j => b.get (8 * (i / 8) + j)) := by
    rw [Array.getD_eq_getD_getElem?, List.getElem?_toArray, bitBytes, List.getElem?_map, List.getElem?_range hbyte]
    rfl
  rw [hget, UInt8.toNat_ofNat', Nat.mod_eq_of_lt (pack_lt _ _), testBit_pack, Nat.div_add_mod]
  simp [Nat.mod_lt i (show 0 < 8 by decide)]

theorem takes_readParent (parent : Option Key) : Reader.Takes readParent (encodeParent parent) parent := by
  cases parent with
  | none => exact (Reader.takes_byte 0).bind (Reader.Takes.pure none)
  | some k => exact (Reader.takes_byte 1).bind ((Reader.takes_key k).map some)

theorem takes_bitBytes (b : Bits) : Reader.Takes (Reader.take ((b.len + 7) / 8)) (bitBytes b) (bitBytes b) := by
  have := Reader.takes_take (bitBytes b)
  rwa [length_bitBytes] at this

theorem takes_words (ws : List UInt32) :
    Reader.Takes (Reader.many Reader.word32 ws.length) (ws.flatMap bytes32) ws :=
  Reader.takes_many ws fun w _ => Reader.takes_word32 w

/-- What the fields of a record can hold is read as it was written, however long the record is. -/
theorem decode_encode_of_lt (hwhole : n.Whole) (hbits : n.stateBits.len < 2 ^ 32) (hwide : n.width < 2 ^ 32)
    (hwords : n.used < 2 ^ 32) (offset : Nat) : decode offset n.encode = .ok n.normal := by
  have htakes := takes_words n.words.toList
  rw [Array.length_toList, show n.words.size = n.used from rfl] at htakes
  have hragged : n.used % stepLen n.width = 0 := by
    rw [used, hwhole]
    exact Nat.mul_mod_left _ _
  have hlen : n.stateBits.len < 256 ^ 4 := hbits
  have hwidth : n.width < 256 ^ 4 := hwide
  have hused : n.used < 256 ^ 4 := hwords
  have hread : ∃ position, reader ⟨offset, n.encode ++ [], 0⟩ = .ok (n.normal, ⟨offset, [], position⟩) := by
    simp only [encode, List.append_assoc]
    rw [reader, (Reader.takes_key n.key).bind_apply, (takes_readParent n.parent).bind_apply,
      (Reader.takes_number hlen).bind_apply, (takes_bitBytes n.stateBits).bind_apply, (Reader.takes_number hwidth).bind_apply,
      (Reader.takes_number hused).bind_apply, if_neg (by simp [hragged]), htakes.bind_apply, ofBitBytes_bitBytes]
    exact ⟨_, rfl⟩
  obtain ⟨position, hread⟩ := hread
  rw [decode, Reader.read, ← List.append_nil n.encode, hread]
  rfl

/-- **A record is read as the node that was written.** -/
theorem decode_encode (hwhole : n.Whole) (h : n.Storable) (offset : Nat) : decode offset n.encode = .ok n.normal :=
  decode_encode_of_lt hwhole h.bits h.width h.used_lt offset

/-- What a record could be read as is tidy, whatever else it holds, and the number of its words has 32 bits. -/
theorem gives_reader : Reader.Gives reader fun n => n.Tidy ∧ n.used < 2 ^ 32 := by
  refine (Reader.gives_true _).bind fun key _ => (Reader.gives_true _).bind fun parent _ =>
    (Reader.gives_true _).bind fun stateLen _ => (Reader.gives_true _).bind fun stateBytes _ =>
    (Reader.gives_number_lt 4).bind fun width hwidth => (Reader.gives_number_lt 4).bind fun used hused => ?_
  split_ifs with hragged
  · exact .fail _ _
  · refine (Reader.gives_length_many _ used).bind fun words hwords => (Reader.gives_true _).bind fun atEnd _ => ?_
    cases atEnd with
    | false => exact .fail _ _
    | true =>
      refine .pure ⟨⟨?_, fun _ => hwidth⟩, ?_⟩
      · change words.toArray.size = words.toArray.size / stepLen width * stepLen width
        rw [List.size_toArray, hwords]
        exact (Nat.div_mul_cancel (Nat.dvd_of_mod_eq_zero (not_not.mp hragged))).symm
      · change words.toArray.size < 2 ^ 32
        rw [List.size_toArray, hwords]
        exact hused

/-! ### How the reader of nodes fails -/

theorem blames_readParent : Reader.Blames readParent Eq := by
  refine Reader.blames_byte.bind fun tag => ?_
  split_ifs
  · exact .pure _
  · exact Reader.blames_key.bind fun k => .pure _
  · exact Reader.blames_fail _

theorem blames_reader : Reader.Blames reader Eq := by
  refine Reader.blames_key.bind fun key => blames_readParent.bind fun parent => (Reader.blames_number 4).bind fun len =>
    (Reader.blames_take _).bind fun row => (Reader.blames_number 4).bind fun width =>
    (Reader.blames_number 4).bind fun used => ?_
  split_ifs
  · exact Reader.blames_fail _
  · refine (Reader.blames_word32.many used).bind fun words => Reader.blames_atEnd.bind fun atEnd => ?_
    cases atEnd with
    | false => exact Reader.blames_fail _
    | true => exact .pure _

/-- What is no record is refused with the place where it starts. -/
theorem exists_damage {offset : Nat} {bytes : List UInt8} (h : ∀ n, decode offset bytes ≠ .ok n) :
    ∃ damage, decode offset bytes = .error (.corrupt offset damage) := by
  obtain ⟨place, damage, hfail, hplace⟩ := blames_reader.of_read h
  exact ⟨damage, by rw [decode, hfail, hplace]⟩

/-! ### Bytes after a node -/

theorem stable_readParent : Reader.Stable readParent := by
  refine Reader.stable_byte.bind fun tag => ?_
  split_ifs
  · exact .pure _
  · exact Reader.stable_key.bind fun k => .pure _
  · exact .fail _

theorem refuses_readParent : Reader.Refuses .trailing readParent := by
  refine Reader.refuses_byte.bind Reader.stable_byte fun tag => ?_
  split_ifs
  · exact .pure _
  · exact Reader.refuses_key.bind Reader.stable_key fun k => .pure _
  · exact .fail _

theorem refuses_reader : Reader.Refuses .trailing reader := by
  refine Reader.refuses_key.bind Reader.stable_key fun key => refuses_readParent.bind stable_readParent fun parent =>
    (Reader.refuses_number 4).bind (Reader.stable_number 4) fun len =>
    (Reader.refuses_take _).bind (Reader.stable_take _) fun row =>
    (Reader.refuses_number 4).bind (Reader.stable_number 4) fun width =>
    (Reader.refuses_number 4).bind (Reader.stable_number 4) fun used => ?_
  split_ifs
  · exact .fail _
  · refine (Reader.refuses_word32.many Reader.stable_word32 used).bind (Reader.stable_word32.many used) fun words => ?_
    intro c place hfail more
    obtain ⟨offset, rest, position⟩ := c
    cases rest with
    | nil => cases hfail
    | cons b rest => exact hfail

/-- Bytes after a node are damage, whatever more there is. -/
theorem decode_append_of_trailing {offset place : Nat} {bytes : List UInt8}
    (h : decode offset bytes = .error (.corrupt place .trailing)) (more : List UInt8) :
    decode offset (bytes ++ more) = .error (.corrupt offset .trailing) := by
  obtain ⟨damage, hdamage⟩ := exists_damage fun n hn => by cases h.symm.trans hn
  cases h.symm.trans hdamage
  exact refuses_reader.of_read h more

theorem tidy_of_decode {offset : Nat} {bytes : List UInt8} (h : decode offset bytes = .ok n) : n.Tidy :=
  (gives_reader.of_read h).1

theorem used_lt_of_decode {offset : Nat} {bytes : List UInt8} (h : decode offset bytes = .ok n) : n.used < 2 ^ 32 :=
  (gives_reader.of_read h).2

theorem whole_of_decode {offset : Nat} {bytes : List UInt8} (h : decode offset bytes = .ok n) : n.Whole :=
  (tidy_of_decode h).whole

end Node

end Liveness

import Mathlib.Data.Nat.Bitwise
import Liveness.Proofs.Graph.Built

/-!
# Records and nodes

Writing a node and reading the record gives the node back, and reading a record and writing
the node gives the record back, but for the bits after the state checks that fill up their
last byte: reading passes over them, and they are written as zeros
(`record_round_trip`).
-/

namespace Liveness.Node

variable {n : Node}

/-! ### The bytes of a row of bits -/

/-- The byte with its lowest `k` bits only. -/
def lowBits (k : Nat) (b : UInt8) : UInt8 := UInt8.ofNat (b.toNat % 2 ^ k)

theorem testBit_lowBits (k : Nat) (b : UInt8) (i : Nat) :
    (lowBits k b).toNat.testBit i = (decide (i < k) && b.toNat.testBit i) := by
  have hlt : b.toNat % 2 ^ k < 2 ^ 8 := (Nat.mod_le _ _).trans_lt b.toNat_lt
  rw [lowBits, UInt8.toNat_ofNat', Nat.mod_eq_of_lt hlt, Nat.testBit_mod_two_pow]

theorem byte_ext {a b : UInt8} (h : ∀ i < 8, a.toNat.testBit i = b.toNat.testBit i) : a = b := by
  rw [← UInt8.toNat_inj]
  refine Nat.eq_of_testBit_eq fun i => ?_
  by_cases hi : i < 8
  · exact h i hi
  · have hbig : ∀ c : UInt8, c.toNat.testBit i = false := fun c =>
      Nat.testBit_eq_false_of_lt (c.toNat_lt.trans_le (Nat.pow_le_pow_right (by decide) (by omega)))
    rw [hbig, hbig]

theorem testBit_bitBytes (b : Bits) {i j : Nat} (hj : j < (bitBytes b).length) (hi : i < 8) :
    (bitBytes b)[j].toNat.testBit i = b.get (8 * j + i) := by
  simp only [bitBytes, List.getElem_map, List.getElem_range]
  rw [UInt8.toNat_ofNat', Nat.mod_eq_of_lt (pack_lt _ _), testBit_pack]
  simp [hi]

theorem get_ofBitBytes (len : Nat) (bytes : List UInt8) {i j : Nat} (hj : j < bytes.length) (hi : i < 8) :
    (ofBitBytes len bytes).get (8 * j + i) = (decide (8 * j + i < len) && bytes[j].toNat.testBit i) := by
  have hdiv : (8 * j + i) / 8 = j := by omega
  have hmod : (8 * j + i) % 8 = i := by omega
  have hget : bytes.toArray.getD j 0 = bytes[j] := by simp [hj]
  simp only [ofBitBytes, Bits.get_ofFn, hdiv, hmod, hget]

/-- The bytes of a row that was read are the bytes read, with zeros after the row. -/
theorem bitBytes_ofBitBytes {len : Nat} {bytes : List UInt8} (hbytes : bytes.length = (len + 7) / 8) :
    bitBytes (ofBitBytes len bytes) = if len % 8 = 0 then bytes else bytes.modify (len / 8) (lowBits (len % 8)) := by
  have hlen : (bitBytes (ofBitBytes len bytes)).length = bytes.length := by
    rw [length_bitBytes, hbytes]
    simp [ofBitBytes]
  have hbit : ∀ i j (hj : j < (bitBytes (ofBitBytes len bytes)).length) (hj' : j < bytes.length), i < 8 →
      (bitBytes (ofBitBytes len bytes))[j].toNat.testBit i =
        (decide (8 * j + i < len) && bytes[j].toNat.testBit i) := fun i j hj hj' hi => by
    rw [testBit_bitBytes _ hj hi, get_ofBitBytes _ _ hj' hi]
  by_cases hfull : len % 8 = 0
  · rw [if_pos hfull]
    refine List.ext_getElem hlen fun j hj hj' => byte_ext fun i hi => ?_
    have hin : 8 * j + i < len := by omega
    rw [hbit i j hj hj' hi, decide_eq_true hin, Bool.true_and]
  · rw [if_neg hfull]
    refine List.ext_getElem (by rw [hlen, List.length_modify]) fun j hj hj' => byte_ext fun i hi => ?_
    rw [hbit i j hj (hlen ▸ hj) hi, List.getElem_modify]
    -- Only the last byte is cut; the checks fill all bytes before it.
    by_cases hlast : len / 8 = j
    · have hin : 8 * j + i < len ↔ i < len % 8 := by omega
      rw [if_pos hlast, testBit_lowBits, decide_eq_decide.mpr hin]
    · have hin : 8 * j + i < len := by omega
      rw [if_neg hlast, decide_eq_true hin, Bool.true_and]

/-! ### The parts of a record -/

theorem inverts_readParent : Reader.Inverts readParent encodeParent := by
  intro c parent c' h
  obtain ⟨tag, c₁, htag, h⟩ := Reader.bind_eq_ok.mp h
  have hrest := Reader.inverts_byte _ _ _ htag
  split_ifs at h with hnone hsome
  · cases h
    rw [hrest, hnone]
    rfl
  · obtain ⟨k, c₂, hk, h⟩ := Reader.bind_eq_ok.mp h
    cases h
    rw [hrest, hsome, Reader.inverts_key _ _ _ hk]
    rfl
  · cases h

/-- A change inside the part in the middle. -/
theorem modify_append_append {f : UInt8 → UInt8} {i : Nat} (xs : List UInt8) {ys : List UInt8} (hi : i < ys.length)
    (zs : List UInt8) : (xs ++ (ys ++ zs)).modify (xs.length + i) f = xs ++ (ys.modify i f ++ zs) := by
  have hmiddle : (ys ++ zs).modify i f = ys.modify i f ++ zs := by
    have hall : i < (ys ++ zs).length := by
      rw [List.length_append]
      omega
    rw [List.modify_eq_take_cons_drop hall, List.modify_eq_take_cons_drop hi, List.take_append_of_le_length (by omega),
      List.drop_append_of_le_length (by omega), List.getElem_append_left hi, List.append_assoc, List.cons_append]
  rw [← hmiddle]
  exact List.modifyTailIdx_add _ i xs (ys ++ zs)

/-- The bytes before the state checks in a record of the node. -/
def front (n : Node) : List UInt8 := n.key.encode ++ encodeParent n.parent ++ toBytes 4 n.stateBits.len

/-- The bytes after the state checks in a record of the node. -/
def back (n : Node) : List UInt8 := toBytes 4 n.width ++ toBytes 4 n.used ++ n.words.toList.flatMap bytes32

theorem encode_eq (n : Node) : n.encode = n.front ++ bitBytes n.stateBits ++ n.back := by
  simp only [encode, front, back, List.append_assoc]

/-- The node is what is read from the bytes: its sizes are in the fields, and its state checks are
some row of bytes, of which nothing is said beyond the last check. -/
structure IsRecord (n : Node) (bytes : List UInt8) : Prop where
  bits : n.stateBits.len < 2 ^ 32
  width : n.width < 2 ^ 32
  used : n.used < 2 ^ 32
  whole : n.Whole
  room : n.capacity = n.used
  parts : ∃ row, row.length = (n.stateBits.len + 7) / 8 ∧ n.stateBits = ofBitBytes n.stateBits.len row ∧
    bytes = n.front ++ row ++ n.back

theorem isRecord_of_decode {offset : Nat} {bytes : List UInt8} (h : decode offset bytes = .ok n) :
    n.IsRecord bytes := by
  have hwhole := whole_of_decode h
  obtain ⟨c, h⟩ := Reader.exists_of_read h
  obtain ⟨key, c₁, hkey, h⟩ := Reader.bind_eq_ok.mp h
  obtain ⟨parent, c₂, hparent, h⟩ := Reader.bind_eq_ok.mp h
  obtain ⟨len, c₃, hlen, h⟩ := Reader.bind_eq_ok.mp h
  obtain ⟨row, c₄, hrow, h⟩ := Reader.bind_eq_ok.mp h
  obtain ⟨width, c₅, hwidth, h⟩ := Reader.bind_eq_ok.mp h
  obtain ⟨used, c₆, hused, h⟩ := Reader.bind_eq_ok.mp h
  split_ifs at h with hragged
  · cases h
  obtain ⟨words, c₇, hwords, h⟩ := Reader.bind_eq_ok.mp h
  obtain ⟨atEnd, c₈, hend, h⟩ := Reader.bind_eq_ok.mp h
  cases atEnd with
  | false => cases h
  | true =>
    cases h
    have hnil : c₇.rest = [] := by
      injection hend with hend
      exact List.isEmpty_iff.mp (Prod.mk.inj hend).1
    obtain ⟨hlen, hbits⟩ := Reader.number_eq_ok hlen
    obtain ⟨hrow, hsize⟩ := Reader.take_eq_ok hrow
    obtain ⟨hwidth, hwide⟩ := Reader.number_eq_ok hwidth
    obtain ⟨hused, hmany⟩ := Reader.number_eq_ok hused
    have hcount := Reader.gives_length_many _ _ _ _ _ hwords
    have hstate : (ofBitBytes len row).len = len := Bits.len_ofFn _ _
    constructor
    · rw [hstate]
      exact hbits
    · exact hwide
    · rw [Node.used, List.size_toArray, hcount]
      exact hmany
    · exact hwhole
    · exact hcount.symm
    · -- Each field gives back the bytes that were taken for it, and none are left.
      refine ⟨row, by rw [hstate, hsize], by rw [hstate], ?_⟩
      have hbytes := Reader.inverts_key _ _ _ hkey
      rw [inverts_readParent _ _ _ hparent, hlen, hrow, hwidth, hused, Reader.inverts_word32.many _ _ _ _ hwords,
        hnil] at hbytes
      simpa [front, back, hstate, hcount, Node.used] using hbytes

/-- The record of the node is the bytes it was read from, the last state byte cut to its checks. -/
theorem IsRecord.encode_eq {bytes : List UInt8} (h : n.IsRecord bytes) :
    n.encode = if n.stateBits.len % 8 = 0 then bytes
      else bytes.modify (n.front.length + n.stateBits.len / 8) (lowBits (n.stateBits.len % 8)) := by
  obtain ⟨row, hrow, hbits, rfl⟩ := h.parts
  have hbytes := bitBytes_ofBitBytes hrow
  rw [← hbits] at hbytes
  rw [Node.encode_eq, hbytes]
  split_ifs with hfull
  · rfl
  · rw [List.append_assoc n.front row, modify_append_append n.front (by omega), List.append_assoc]

theorem IsRecord.decode_encode {bytes : List UInt8} (h : n.IsRecord bytes) (offset : Nat) :
    decode offset n.encode = .ok n := by
  obtain ⟨row, -, hbits, -⟩ := h.parts
  have hclean : n.stateBits.Clean := by
    rw [hbits]
    exact Bits.clean_ofFn _ _
  have hnormal : n.normal = n := by
    rw [normal, hclean.ofFn_get, ← h.room]
  rw [decode_encode_of_lt h.whole h.bits h.width h.used, hnormal]

/-- **Nodes and records correspond.** The record of a node that can be made is read as the node,
which is the same but for the room of its buffer. The node in any bytes that can be read is read
again from its record, and the record is these bytes, but for the bits above the state checks in
their last byte, which are zero in the record. -/
theorem record_round_trip :
    (∀ n : Node, n.Built → n.stateBits.len < 2 ^ 32 → n.width < 2 ^ 32 → n.used < 2 ^ 32 →
      ∀ offset, decode offset n.encode = .ok n.trim) ∧
    ∀ offset bytes n, decode offset bytes = .ok n → decode offset n.encode = .ok n ∧
      n.encode = if n.stateBits.len % 8 = 0 then bytes
        else bytes.modify (n.front.length + n.stateBits.len / 8) (lowBits (n.stateBits.len % 8)) := by
  constructor
  · intro n hn hbits hwidth hused offset
    rw [decode_encode_of_lt hn.whole hbits hwidth hused, hn.normal_eq]
  · intro offset bytes n h
    have hrecord := isRecord_of_decode h
    exact ⟨hrecord.decode_encode offset, hrecord.encode_eq⟩

/-- A node with three state checks and a step with one action check, and room for another step. -/
def ferry : Node :=
  { key := ⟨7, 0⟩, parent := none, stateBits := .ofList [true, false, true], width := 1, words := #[0, 9, 2, 1],
    capacity := 8 }

theorem built_ferry : ferry.Built := by
  have hadd : (setState { key := ⟨7, 0⟩, parent := none } (.ofList [true, false, true])).addStep ⟨9, 2⟩ 1
      (.ofList [true]) 0 2 = (.ok (), ferry) := by decide +kernel
  exact .addStep (.setState (.new ⟨7, 0⟩ none) (.ofList [true, false, true])) hadd

/-- The state checks of the node take three bits, so five bits of their byte can be anything. -/
theorem record_round_trip_ferry :
    decode 5 ferry.encode = .ok ferry.trim ∧
      ∃ bytes, bytes ≠ ferry.trim.encode ∧ decode 5 bytes = .ok ferry.trim ∧
        ferry.trim.encode = bytes.modify 17 (lowBits 3) := by
  have hdecode : decode 5 (ferry.encode.set 17 0xFD) = .ok ferry.trim := by decide +kernel
  refine ⟨record_round_trip.1 ferry built_ferry (by decide +kernel) (by decide) (by decide) 5, _, by decide +kernel, hdecode,
    ?_⟩
  exact (record_round_trip.2 5 _ ferry.trim hdecode).2

end Liveness.Node

import Liveness.Proofs.Graph.Record

/-!
# Records that were cut

The length of a record is written with 32 bits, and so is the number of its words. Of a longer
record only a first part is read. If that part is a record at all, it is one of the same node
with the first of its steps (`steps_of_isPrefix`): whatever is read was written.
-/

namespace Liveness.Node

variable {n n' : Node}

/-- The steps are in the words, by their width. -/
theorem steps_congr (hwords : n'.words = n.words) (hwidth : n'.width = n.width) : n'.steps = n.steps := by
  simp only [steps, degree, used, target, actions, word, hwords, hwidth]

/-- What the fields of a record can say of the node. -/
def cut (n : Node) : Node :=
  { n.normal with
    width := n.width % 2 ^ 32
    words := (n.words.toList.take (n.used % 2 ^ 32)).toArray
    capacity := n.used % 2 ^ 32 }

/-- What is read of a part of a node's record, or of the record with bytes after it, is what its
fields can say of the node. -/
theorem eq_cut_of_isPrefix (hbits : n.stateBits.len < 2 ^ 32) {offset : Nat} {xs ys : List UInt8}
    (hxs : xs <+: n.encode ++ ys) (h : decode offset xs = .ok n') : n' = n.cut := by
  obtain ⟨c, hread⟩ := Reader.exists_of_read h
  simp only [encode, List.append_assoc] at hxs
  rw [reader] at hread
  obtain ⟨key, c, hkey, hread⟩ := Reader.bind_eq_ok.mp hread
  obtain ⟨rfl, xs, position, rfl, hxs⟩ := (Reader.takes_key n.key).of_isPrefix Reader.stable_key hxs hkey
  obtain ⟨parent, c, hparent, hread⟩ := Reader.bind_eq_ok.mp hread
  obtain ⟨rfl, xs, position, rfl, hxs⟩ := (takes_readParent n.parent).of_isPrefix stable_readParent hxs hparent
  obtain ⟨len, c, hlen, hread⟩ := Reader.bind_eq_ok.mp hread
  obtain ⟨rfl, xs, position, rfl, hxs⟩ := (Reader.takes_number (show n.stateBits.len < 256 ^ 4 from hbits)).of_isPrefix
    (Reader.stable_number 4) hxs hlen
  obtain ⟨bytes, c, hbytes, hread⟩ := Reader.bind_eq_ok.mp hread
  obtain ⟨rfl, xs, position, rfl, hxs⟩ := (takes_bitBytes n.stateBits).of_isPrefix (Reader.stable_take _) hxs hbytes
  obtain ⟨width, c, hw, hread⟩ := Reader.bind_eq_ok.mp hread
  obtain ⟨rfl, xs, position, rfl, hxs⟩ := (Reader.takes_number_mod 4 n.width).of_isPrefix (Reader.stable_number 4) hxs hw
  obtain ⟨used, c, hused, hread⟩ := Reader.bind_eq_ok.mp hread
  obtain ⟨rfl, xs, position, rfl, hxs⟩ := (Reader.takes_number_mod 4 n.used).of_isPrefix (Reader.stable_number 4) hxs
    hused
  split_ifs at hread with hragged
  · cases hread
  obtain ⟨words, c, hwords, hread⟩ := Reader.bind_eq_ok.mp hread
  -- The words that are read are the first of those that were written.
  have htake := takes_words (n.words.toList.take (n.used % 256 ^ 4))
  rw [List.length_take, Array.length_toList, show n.words.size = n.used from rfl,
    Nat.min_eq_left (Nat.mod_le _ _)] at htake
  rw [← List.take_append_drop (n.used % 256 ^ 4) n.words.toList, List.flatMap_append, List.append_assoc] at hxs
  obtain ⟨rfl, xs, position, rfl, -⟩ := htake.of_isPrefix (Reader.stable_word32.many _) hxs hwords
  obtain ⟨atEnd, c, hend, hread⟩ := Reader.bind_eq_ok.mp hread
  cases atEnd with
  | false => cases hread
  | true =>
    cases hread
    rw [ofBitBytes_bitBytes]
    rfl

/-- **Whatever is read of a record was written**: the node with the first of its steps. -/
theorem steps_of_isPrefix (hbits : n.stateBits.len < 2 ^ 32) (hwidth : n.width < 2 ^ 32) {offset : Nat}
    {xs : List UInt8} (hxs : xs <+: n.encode) (h : decode offset xs = .ok n') :
    n'.key = n.key ∧ n'.width = n.width ∧ n'.stateBits = .ofFn n.stateBits.len n.stateBits.get ∧
      n'.steps <+: n.steps := by
  have hwhole := whole_of_decode h
  have hxs' : xs <+: n.encode ++ [] := by rwa [List.append_nil]
  obtain rfl := eq_cut_of_isPrefix hbits hxs' h
  have hwide : n.cut.width = n.width := Nat.mod_eq_of_lt hwidth
  refine ⟨rfl, hwide, rfl, ?_⟩
  have hsteps := steps_prefix_append hwhole (n.words.toList.drop (n.used % 2 ^ 32))
  have happend : (n.cut.append (n.words.toList.drop (n.used % 2 ^ 32))).words = n.words := by
    simp [append, cut]
  rwa [steps_congr happend hwide] at hsteps

end Liveness.Node

import Liveness.Store.Log
import Liveness.Proofs.Graph.Record
import Liveness.Proofs.Store.File

/-!
# The log keeps its records

A log that ends where its file ends is *whole*. To append a record to it gives a whole
log from which the new record is read (`read_append_len`), and what could be read before
is read as before (`read_append_of_eq`).

The length of a record and the numbers of the checks of its node are written with 32 bits.
Nothing refuses a node with more, and what is read of it then is something else. A log
*fits* if there is no such record in it (`Fits`).
-/

namespace Liveness

namespace Log

variable {l : Log} {body : List UInt8}

/-- The log ends where its file ends. -/
def Whole (l : Log) : Prop := l.file.size = l.len

/-- The bytes of a record. -/
def record (body : List UInt8) : List UInt8 := toBytes headLen body.length ++ body

theorem length_record (body : List UInt8) : (record body).length = headLen + body.length := by
  simp [record]

theorem append_eq (h : l.Whole) (body : List UInt8) :
    l.append body = (l.len, ⟨l.file.append (record body), l.len + headLen + body.length⟩) := by
  rw [append, ← record, File.write_end h]

theorem whole_append (h : l.Whole) (body : List UInt8) : (l.append body).2.Whole := by
  have hsize : l.file.size = l.len := h
  rw [append_eq h]
  change (l.file.append (record body)).size = l.len + headLen + body.length
  rw [← File.length_toList, File.toList_append, List.length_append, File.length_toList, length_record]
  omega

/-- A log that was cut to nothing is a new one. -/
theorem truncate_zero (l : Log) : l.truncate 0 = {} := by
  have hfile : l.file.resize 0 = .empty := by
    rw [← File.toList_inj, File.toList_resize]
    simp
  rw [truncate, hfile]

theorem whole_truncate_zero (l : Log) : (l.truncate 0).Whole := by
  rw [truncate_zero]
  rfl

/-- The record of `body` stands at a place of the log. -/
def Has (l : Log) (offset : Nat) (body : List UInt8) : Prop :=
  ∃ before after, l.file.toList = before ++ record body ++ after ∧ before.length = offset

theorem has_append (h : l.Whole) (body : List UInt8) : (l.append body).2.Has l.len body := by
  refine ⟨l.file.toList, [], ?_, by rw [File.length_toList, h]⟩
  simp [append_eq h]

/-- A record that is appended leaves those before it where they are. -/
theorem Has.append (h : l.Whole) {offset : Nat} (hbody : l.Has offset body) (more : List UInt8) :
    (l.append more).2.Has offset body := by
  obtain ⟨before, after, hfile, hoffset⟩ := hbody
  refine ⟨before, after ++ record more, ?_, hoffset⟩
  simp [append_eq h, hfile]

/-- **All of a record is read**: the first bytes of a long one decide only what all would. -/
theorem read_eq (l : Log) (offset : Nat) : l.read offset =
    if l.len < offset + headLen then .error (.corrupt offset (.beyondLog l.len))
    else l.file.read offset headLen >>= fun head =>
      if l.len < offset + headLen + ofBytes head then .error (.corrupt offset (.overrun (ofBytes head)))
      else l.file.read (offset + headLen) (ofBytes head) >>= Node.decode offset := by
  rw [read]
  split_ifs with hhead
  · rfl
  refine congrArg (l.file.read offset headLen >>= ·) (funext fun head => ?_)
  dsimp only
  split_ifs with hrest hearly
  · rfl
  · rw [endsEarly] at hearly
    split_ifs at hearly with hlong
    split at hearly
    · rename_i htrailing
      rw [File.slice_eq (by omega)] at htrailing
      have hbody := List.take_append_drop frontLen ((l.file.toList.drop (offset + headLen)).take (ofBytes head))
      rw [List.take_take, Nat.min_eq_left (by omega)] at hbody
      rw [File.read_eq, if_pos hlong.2, ← hbody]
      exact (Node.decode_append_of_trailing htrailing _).symm
    · cases hearly
  · rfl

/-- What is read at the place of a record: its length is written with 32 bits, so of a longer
record only a part is read. -/
theorem read_of_has (h : l.Whole) {offset : Nat} (hbody : l.Has offset body) :
    l.read offset = Node.decode offset (body.take (body.length % 2 ^ 32)) := by
  obtain ⟨before, after, hfile, rfl⟩ := hbody
  have hlen : l.len = before.length + (record body).length + after.length := by
    rw [← show l.file.size = l.len from h, ← File.length_toList, hfile, List.length_append, List.length_append]
  have hmod : body.length % 2 ^ 32 ≤ body.length := Nat.mod_le _ _
  have hhead : l.file.read before.length headLen = .ok (toBytes headLen body.length) := by
    have := File.read_of_eq (f := l.file) before (toBytes headLen body.length) (body ++ after) (by simp [hfile, record])
    rwa [length_toBytes] at this
  have hrest : l.file.read (before.length + headLen) (body.length % 2 ^ 32) =
      .ok (body.take (body.length % 2 ^ 32)) := by
    have := File.read_of_eq (f := l.file) (before ++ toBytes headLen body.length) (body.take (body.length % 2 ^ 32))
      (body.drop (body.length % 2 ^ 32) ++ after) (by
        rw [List.append_assoc, ← List.append_assoc (body.take _), List.take_append_drop, hfile, record]
        simp)
    rwa [List.length_append, length_toBytes, List.length_take, Nat.min_eq_left hmod] at this
  rw [length_record] at hlen
  rw [read_eq, if_neg (by omega), hhead]
  dsimp only [bind, Except.bind]
  rw [ofBytes_toBytes_mod, show (256 ^ headLen : Nat) = 2 ^ 32 from rfl, if_neg (by omega), hrest]

/-- The record that was appended is read. -/
theorem read_append_len (h : l.Whole) (hbody : body.length < 2 ^ 32) :
    (l.append body).2.read l.len = Node.decode l.len body := by
  rw [read_of_has (whole_append h body) (has_append h body), Nat.mod_eq_of_lt hbody, List.take_length]

/-- A log whose file goes on where another ends reads what could be read from the other. -/
theorem read_of_isPrefix {l' : Log} (h : l.Whole) (h' : l'.Whole) (hfile : l.file.toList <+: l'.file.toList)
    {offset : Nat} {n : Node} (hn : l.read offset = .ok n) : l'.read offset = .ok n := by
  have hsize : l.file.size = l.len := h
  have hlen : l.len ≤ l'.len := by
    have := hfile.length_le
    rwa [File.length_toList, File.length_toList, h, h'] at this
  rw [read_eq] at hn ⊢
  split_ifs at hn with hhead
  rw [if_neg (by omega), File.read_of_isPrefix hfile (by omega)]
  cases hbytes : l.file.read offset headLen with
  | error f =>
    rw [hbytes] at hn
    cases hn
  | ok head =>
    rw [hbytes] at hn
    dsimp only [bind, Except.bind] at hn ⊢
    split_ifs at hn with hrest
    rw [if_neg (by omega), File.read_of_isPrefix hfile (by omega)]
    exact hn

/-- What could be read is read as before. -/
theorem read_append_of_eq (h : l.Whole) {offset : Nat} {n : Node} (hn : l.read offset = .ok n) :
    (l.append body).2.read offset = .ok n :=
  read_of_isPrefix h (whole_append h body) (by simp [append_eq h]) hn

/-- What is read from a log is read from the bytes of a record. -/
theorem exists_decode_of_read {offset : Nat} {n : Node} (h : l.read offset = .ok n) :
    ∃ body, Node.decode offset body = .ok n := by
  rw [read_eq] at h
  split_ifs at h
  cases hhead : l.file.read offset headLen with
  | error f =>
    rw [hhead] at h
    cases h
  | ok head =>
    rw [hhead] at h
    dsimp only [bind, Except.bind] at h
    split_ifs at h
    cases hbody : l.file.read (offset + headLen) (ofBytes head) with
    | error f =>
      rw [hbody] at h
      cases h
    | ok body =>
      rw [hbody] at h
      exact ⟨body, h⟩

theorem tidy_of_read {offset : Nat} {n : Node} (h : l.read offset = .ok n) : n.Tidy := by
  obtain ⟨body, hbody⟩ := exists_decode_of_read h
  exact Node.tidy_of_decode hbody

/-! ### Logs of nodes -/

/-- The bytes of the records of nodes. -/
def records (ns : List Node) : List UInt8 := ns.flatMap fun n => record n.encode

/-- The log consists of the records of nodes. -/
structure Lists (l : Log) (ns : List Node) : Prop where
  tidy : ∀ n ∈ ns, n.Tidy
  file : l.file.toList = records ns

/-- There is nothing but records of nodes in the log. -/
def Recorded (l : Log) : Prop := ∃ ns, l.Lists ns

/-- The records in the log fit their fields: however it is read from its start as records of
nodes, the nodes are storable. -/
def Fits (l : Log) : Prop :=
  ∀ ns : List Node, (∀ n ∈ ns, n.Tidy) → records ns <+: l.file.toList → ∀ n ∈ ns, n.Storable

theorem recorded_empty : Recorded {} := ⟨[], by simp, rfl⟩

theorem Lists.append {ns : List Node} (h : l.Lists ns) (hwhole : l.Whole) {n : Node} (hn : n.Tidy) :
    (l.append n.encode).2.Lists (ns ++ [n]) := by
  refine ⟨fun n' hn' => ?_, ?_⟩
  · rcases List.mem_append.mp hn' with hn' | hn'
    · exact h.tidy n' hn'
    · exact List.mem_singleton.mp hn' ▸ hn
  · simp [append_eq hwhole, h.file, records]

theorem Recorded.append (h : l.Recorded) (hwhole : l.Whole) {n : Node} (hn : n.Tidy) :
    (l.append n.encode).2.Recorded := by
  obtain ⟨ns, hns⟩ := h
  exact ⟨ns ++ [n], hns.append hwhole hn⟩

/-- A log that fits did so when it was shorter. -/
theorem Fits.of_isPrefix {l' : Log} (h : l'.Fits) (hfile : l.file.toList <+: l'.file.toList) : l.Fits :=
  fun ns htidy hns => h ns htidy (hns.trans hfile)

/-- A node whose record was appended to a log that fits is storable. -/
theorem Fits.storable {n : Node} (h : (l.append n.encode).2.Fits) (hwhole : l.Whole) (hrecorded : l.Recorded)
    (hn : n.Tidy) : n.Storable := by
  obtain ⟨ns, hns⟩ := hrecorded
  have happend := hns.append hwhole hn
  exact h _ happend.tidy (happend.file ▸ List.prefix_rfl) n (by simp)

theorem length_encode_le_of_mem {ns : List Node} {n : Node} (h : n ∈ ns) : n.encode.length ≤ (records ns).length := by
  induction ns with
  | nil => cases h
  | cons n' ns ih =>
    rw [records, List.flatMap_cons, List.length_append, length_record, ← records]
    rcases List.mem_cons.mp h with rfl | h
    · omega
    · exact (ih h).trans (Nat.le_add_left _ _)

/-- A log of less than 512 MiB fits. -/
theorem fits_of_size_lt (h : l.file.size < 2 ^ 29) : l.Fits := by
  intro ns htidy hns n hn
  have hlen := hns.length_le
  rw [File.length_toList] at hlen
  exact (htidy n hn).storable (((length_encode_le_of_mem hn).trans hlen).trans_lt h)

end Log

end Liveness

import Liveness.Store.Checkpoint
import Liveness.Proofs.Reader
import Liveness.Proofs.Store.Table

/-!
# Checkpoints are read back

The bytes of a checkpoint are read as the checkpoint (`Snapshot.decode_encode`), and the
rows of a table, in whatever order they were written, give the table (`Store.table_snapshot`).
Of a checkpoint that could be read, also of one that was damaged, every record lies in the log
(`Snapshot.below_of_decode`).
-/

namespace Liveness

/-- The record of a written node starts in a log of so many bytes. -/
def Slot.Below (len : Nat) : Slot → Prop
  | .recorded _ => True
  | .written offset => offset < len

/-- The records of all nodes of a state start in a log of so many bytes. -/
def Row.Below (len : Nat) (r : Row) : Prop := ∀ e ∈ r.slots, e.2.Below len

/-- The records of all nodes start in a log of so many bytes. -/
def Table.Below (len : Nat) (t : Table) : Prop := ∀ fp, (Table.row t fp).Below len

namespace Snapshot

variable {c : Snapshot} {len : Nat}

/-! ### Writing and reading -/

theorem takes_readSlot {slot : Slot} (hlen : len < 2 ^ 64) (h : slot.Below len) :
    Reader.Takes (readSlot len) (encodeSlot slot) slot := by
  cases slot with
  | recorded parent =>
    cases parent with
    | none => exact (Reader.takes_byte 0).bind (Reader.Takes.pure _)
    | some k => exact (Reader.takes_byte 1).bind ((Reader.takes_key k).map _)
  | written offset =>
    have hoffset : offset < len := h
    have hnumber : Reader.Takes (Reader.number 8) (toBytes 8 offset) offset :=
      Reader.takes_number (show offset < 2 ^ 64 by omega)
    intro start rest position
    change readSlot len ⟨start, [2] ++ (toBytes 8 offset ++ rest), position⟩ = _
    rw [readSlot, (Reader.takes_byte 2).bind_apply, if_neg (by decide), if_neg (by decide), if_pos rfl,
      hnumber.bind_apply, if_neg (by omega), Nat.add_assoc, ← List.length_append]
    rfl

theorem takes_readPoint {e : UInt32 × Slot} (hlen : len < 2 ^ 64) (h : e.2.Below len) :
    Reader.Takes (readPoint len) (encodePoint e) e :=
  (Reader.takes_word32 e.1).bind ((takes_readSlot hlen h).map _)

/-- The bytes are those of a state with its row. Any byte but zero marks the state as expanded. -/
def IsRow (e : Fingerprint × Row) (bs : List UInt8) : Prop :=
  ∃ mark : UInt8, (mark != 0) = e.2.done ∧
    bs = bytes64 e.1 ++ [mark] ++ toBytes 4 e.2.slots.length ++ e.2.slots.flatMap encodePoint

theorem isRow_encodeRow (e : Fingerprint × Row) : IsRow e (encodeRow e) :=
  ⟨if e.2.done then 1 else 0, by cases e.2.done <;> rfl, rfl⟩

theorem takes_readRow {e : Fingerprint × Row} (hlen : len < 2 ^ 64) (h : e.2.Below len)
    (hcount : e.2.slots.length < 2 ^ 32) {bs : List UInt8} (hbs : IsRow e bs) : Reader.Takes (readRow len) bs e := by
  obtain ⟨fp, done, slots⟩ := e
  obtain ⟨mark, hdone, rfl⟩ := hbs
  have hslots : Reader.Takes (Reader.many (readPoint len) slots.length) (slots.flatMap encodePoint) slots :=
    Reader.takes_many slots fun e he => takes_readPoint hlen (h e he)
  have hnumber : Reader.Takes (Reader.number 4) (toBytes 4 slots.length) slots.length := Reader.takes_number hcount
  intro offset rest position
  simp only [List.append_assoc]
  rw [readRow, (Reader.takes_word64 fp).bind_apply, (Reader.takes_byte mark).bind_apply, hnumber.bind_apply,
    hslots.bind_apply, hdone]
  simp only [List.length_append, Nat.add_assoc]
  rfl

/-- What a checkpoint holds fits its fields. -/
structure Fits (c : Snapshot) : Prop where
  logLen : c.logLen < 2 ^ 64
  roots : c.roots.length < 2 ^ 32
  rows : c.rows.length < 2 ^ 64
  slots : ∀ e ∈ c.rows, e.2.slots.length < 2 ^ 32
  below : ∀ e ∈ c.rows, e.2.Below c.logLen

theorem takes_readHead (h : c.Fits) : Reader.Takes readHead c.encodeHead { c with rows := [] } := by
  have hmagic : Reader.Takes (Reader.take 4) magic magic := Reader.takes_take magic
  have hlen : Reader.Takes (Reader.number 8) (toBytes 8 c.logLen) c.logLen := Reader.takes_number h.logLen
  have hcount : Reader.Takes (Reader.number 4) (toBytes 4 c.roots.length) c.roots.length :=
    Reader.takes_number h.roots
  have hroots : Reader.Takes (Reader.many Reader.key c.roots.length) (c.roots.flatMap Key.encode) c.roots :=
    Reader.takes_many c.roots fun k _ => Reader.takes_key k
  intro offset rest position
  simp only [encodeHead, List.append_assoc]
  rw [readHead, hmagic.bind_apply, if_neg (not_not.mpr rfl), (Reader.takes_word32 version).bind_apply,
    if_neg (not_not.mpr rfl), hlen.bind_apply, (Reader.takes_word64 c.size).bind_apply,
    (Reader.takes_word64 c.baseline).bind_apply, hcount.bind_apply, hroots.bind_apply]
  simp only [List.length_append, Nat.add_assoc]
  rfl

/-- **A checkpoint is read as it was written.** -/
theorem decode_encode (h : c.Fits) : decode c.encode = .ok c := by
  have hcount : Reader.Takes (Reader.number 8) (toBytes 8 c.rows.length) c.rows.length := Reader.takes_number h.rows
  have hrows : Reader.Takes (Reader.many (readRow c.logLen) c.rows.length) (c.rows.flatMap encodeRow) c.rows :=
    Reader.takes_many c.rows fun e he => takes_readRow h.logLen (h.below e he) (h.slots e he) (isRow_encodeRow e)
  have hread : ∃ position, reader ⟨0, c.encode ++ [], 0⟩ = .ok (c, ⟨0, [], position⟩) := by
    simp only [encode, List.append_assoc]
    rw [reader, (takes_readHead h).bind_apply, hcount.bind_apply, hrows.bind_apply]
    exact ⟨_, rfl⟩
  obtain ⟨position, hread⟩ := hread
  rw [decode, Reader.read, ← List.append_nil c.encode, hread]
  rfl

/-! ### What is read of any file -/

theorem gives_readSlot (len : Nat) : Reader.Gives (readSlot len) (Slot.Below len) := by
  refine (Reader.gives_true _).bind fun tag _ => ?_
  split_ifs
  · exact .pure trivial
  · exact (Reader.gives_true _).bind fun k _ => .pure trivial
  · refine (Reader.gives_true _).bind fun offset _ => ?_
    split_ifs with hlen
    · exact .throw _ _
    · exact .pure (show offset < len by omega)
  · exact .fail _ _

theorem gives_readRow (len : Nat) : Reader.Gives (readRow len) fun e => e.2.Below len := by
  have hpoint : Reader.Gives (readPoint len) fun e => e.2.Below len :=
    (Reader.gives_true _).bind fun point _ => (gives_readSlot len).bind fun slot hslot => .pure hslot
  exact (Reader.gives_true _).bind fun fp _ => (Reader.gives_true _).bind fun done _ =>
    (Reader.gives_true _).bind fun count _ => (hpoint.many count).bind fun slots hslots => .pure hslots

/-- A checkpoint that could be read has its records in the log. -/
theorem below_of_decode {bytes : List UInt8} (h : decode bytes = .ok c) : ∀ e ∈ c.rows, e.2.Below c.logLen := by
  have hreader : Reader.Gives reader fun c => ∀ e ∈ c.rows, e.2.Below c.logLen :=
    (Reader.gives_true _).bind fun head _ => (Reader.gives_true _).bind fun count _ =>
      ((gives_readRow head.logLen).many count).bind fun rows hrows => .pure hrows
  exact hreader.of_read h

/-! ### The table of a checkpoint -/

theorem mem_of_getElem?_foldl {rows : List (Fingerprint × Row)} {t : Table} {fp : Fingerprint} {r : Row}
    (h : (rows.foldl (fun t (fp, row) => t.insert fp row) t)[fp]? = some r) : (fp, r) ∈ rows ∨ t[fp]? = some r := by
  induction rows generalizing t with
  | nil => exact .inr h
  | cons e rows ih =>
    rcases ih h with hmem | ht
    · exact .inl (List.mem_cons_of_mem _ hmem)
    · rw [Std.ExtTreeMap.getElem?_insert] at ht
      split_ifs at ht with he
      · obtain rfl := Std.LawfulEqCmp.compare_eq_iff_eq.mp he
        cases ht
        exact .inl (by simp)
      · exact .inr ht

theorem mem_foldl {rows : List (Fingerprint × Row)} {t : Table} {fp : Fingerprint}
    (h : fp ∈ t ∨ fp ∈ rows.map Prod.fst) : fp ∈ rows.foldl (fun t (fp, row) => t.insert fp row) t := by
  induction rows generalizing t with
  | nil => simpa using h
  | cons e rows ih =>
    refine ih ?_
    rw [Std.ExtTreeMap.mem_insert]
    rcases h with ht | hrow
    · exact .inl (.inr ht)
    · rcases List.mem_cons.mp hrow with rfl | hrow
      · exact .inl (.inl (Std.ReflCmp.compare_self))
      · exact .inr hrow

theorem below_table (h : ∀ e ∈ c.rows, e.2.Below len) : Table.Below len c.table := by
  intro fp
  rw [Table.row, Std.ExtTreeMap.getD_eq_getD_getElem?]
  cases hr : c.table[fp]? with
  | none => exact fun e he => by simp at he
  | some r =>
    rcases mem_of_getElem?_foldl hr with hmem | hempty
    · exact h _ hmem
    · simp at hempty

end Snapshot

namespace Store

theorem mem_rows_snapshot {o : RowOrder} {s : Store} {fp : Fingerprint} {r : Row} :
    (fp, r) ∈ (s.snapshot o).rows ↔ s.table[fp]? = some r := by
  rw [snapshot, (o.perm _ _).mem_iff, Std.ExtTreeMap.mem_toList_iff_getElem?_eq_some]

/-- The rows give the table, in whatever order they stand. -/
theorem table_snapshot (o : RowOrder) (s : Store) : (s.snapshot o).table = s.table := by
  have hsub : ∀ {fp : Fingerprint} {r : Row}, (s.snapshot o).table[fp]? = some r → s.table[fp]? = some r := by
    intro fp r h
    rcases Snapshot.mem_of_getElem?_foldl h with hmem | hempty
    · exact mem_rows_snapshot.mp hmem
    · simp at hempty
  refine Std.ExtTreeMap.ext_getElem? fun fp => ?_
  cases hr : (s.snapshot o).table[fp]? with
  | some r => exact (hsub hr).symm
  | none =>
    cases ht : s.table[fp]? with
    | none => rfl
    | some r =>
      -- A state with a row has one in the table of the checkpoint.
      have hmem : fp ∈ (s.snapshot o).table := Snapshot.mem_foldl
        (.inr (List.mem_map.mpr ⟨(fp, r), mem_rows_snapshot.mpr ht, rfl⟩))
      rw [Std.ExtTreeMap.mem_iff_isSome_getElem?, hr] at hmem
      cases hmem

end Store

end Liveness

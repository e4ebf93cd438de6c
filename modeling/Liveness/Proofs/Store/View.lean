import Liveness.Proofs.Store.Log
import Liveness.Proofs.Store.Table

/-!
# What the changes of a store do

A store is *intact* if its log is whole and holds only records of nodes, and the record of
every written node can be read.
An intact store stays so, and of each change it is said here what it does to the nodes
that are read: to record a node or to make it a root adds a node without steps, if it was
never seen; to write a node changes what is read of it and of no other.
-/

namespace Liveness.Store

variable {s : Store} {k l : Key} {n : Node} {fp : Fingerprint}

/-- The node is known, and is read as `n`. -/
def Holds (s : Store) (k : Key) (n : Node) : Prop := s.isUnseen k = false ∧ s.node k = .ok n

/-- The log is whole, a log of nodes, and the records can be read. -/
structure Intact (s : Store) : Prop where
  whole : s.log.Whole
  recorded : s.log.Recorded
  readable : ∀ k offset, s.slot? k = some (.written offset) → ∃ n, s.log.read offset = .ok n ∧ n.key = k

theorem Intact.exists_node (h : s.Intact) (k : Key) : ∃ n, s.node k = .ok n ∧ n.key = k := by
  unfold node
  split
  · exact h.readable k _ ‹_›
  · exact ⟨_, rfl, rfl⟩
  · exact ⟨_, rfl, rfl⟩

theorem Intact.exists_holds (h : s.Intact) (hk : s.isUnseen k = false) : ∃ n, s.Holds k n ∧ n.key = k := by
  obtain ⟨n, hn, hkey⟩ := h.exists_node k
  exact ⟨n, ⟨hk, hn⟩, hkey⟩

theorem Holds.unique {n' : Node} (h : s.Holds k n) (h' : s.Holds k n') : n = n' :=
  Except.ok.inj (h.2.symm.trans h'.2)

theorem isUnseen_iff : s.isUnseen k = true ↔ s.slot? k = none := by
  simp [isUnseen]

theorem isUnseen_eq_false_iff : s.isUnseen k = false ↔ ∃ slot, s.slot? k = some slot := by
  rw [isUnseen, Option.isNone_eq_false_iff, Option.isSome_iff_exists]

theorem isUnseen_of_isWritten (h : s.isWritten k = true) : s.isUnseen k = false := by
  unfold isWritten at h
  split at h
  · exact isUnseen_eq_false_iff.mpr ⟨_, ‹_›⟩
  · cases h

/-- What could be read of a node is tidy. -/
theorem tidy_of_node (h : s.node k = .ok n) : n.Tidy := by
  unfold node at h
  split at h
  · exact Log.tidy_of_read h
  · cases h
    exact Node.tidy_new _ _
  · cases h
    exact Node.tidy_new _ _

/-- What could be read of a node has less than 2³² words. -/
theorem used_lt_of_node (h : s.node k = .ok n) : n.used < 2 ^ 32 := by
  unfold node at h
  split at h
  · obtain ⟨body, hbody⟩ := Log.exists_decode_of_read h
    exact Node.used_lt_of_decode hbody
  · cases h
    exact Nat.two_pow_pos 32
  · cases h
    exact Nat.two_pow_pos 32

theorem whole_of_node (h : s.node k = .ok n) : n.Whole := (tidy_of_node h).whole

/-- A node with steps was written. -/
theorem isWritten_of_steps (h : s.node k = .ok n) (hsteps : n.steps ≠ []) : s.isWritten k = true := by
  by_contra hw
  obtain ⟨parent, hnode⟩ := s.node_of_not_written (by simpa using hw)
  obtain rfl := Except.ok.inj (h.symm.trans hnode)
  exact hsteps (Node.steps_eq_nil rfl)

/-! ### A node that was never seen -/

@[simp] theorem slot?_insert (s : Store) (k : Key) (slot : Slot) (l : Key) :
    (s.insert k slot).slot? l = if l = k then some slot else s.slot? l :=
  Table.slot?_put s.table k slot l

@[simp] theorem isDone_insert (s : Store) (k : Key) (slot : Slot) (fp : Fingerprint) :
    (s.insert k slot).isDone fp = s.isDone fp :=
  Table.done_row_put s.table k slot fp

theorem isUnseen_insert (s : Store) (k : Key) (slot : Slot) (l : Key) :
    (s.insert k slot).isUnseen l = (decide (l ≠ k) && s.isUnseen l) := by
  rw [isUnseen, slot?_insert, isUnseen]
  by_cases h : l = k <;> simp [h]

theorem isWritten_insert_recorded (hk : s.isUnseen k = true) (parent : Option Key) (l : Key) :
    (s.insert k (.recorded parent)).isWritten l = s.isWritten l := by
  unfold isWritten
  rw [slot?_insert]
  by_cases h : l = k
  · subst h
    rw [isUnseen_iff.mp hk, if_pos rfl]
  · rw [if_neg h]

/-- A node that was never seen is read without steps; the others are read as before. -/
theorem node_insert_recorded (s : Store) (k : Key) (parent : Option Key) (l : Key) :
    (s.insert k (.recorded parent)).node l = if l = k then .ok { key := k, parent := parent } else s.node l := by
  unfold node
  rw [slot?_insert]
  split_ifs with h
  · rw [h]
  · rfl

theorem holds_insert_recorded (hk : s.isUnseen k = true) (parent : Option Key) :
    (s.insert k (.recorded parent)).Holds l n ↔ s.Holds l n ∨ (l = k ∧ n = { key := k, parent := parent }) := by
  rw [Holds, isUnseen_insert, node_insert_recorded]
  by_cases h : l = k
  · subst h
    simp [Holds, hk, eq_comm]
  · simp [Holds, h]

theorem Intact.insert_recorded (h : s.Intact) (k : Key) (parent : Option Key) :
    (s.insert k (.recorded parent)).Intact := by
  refine ⟨h.whole, h.recorded, fun l offset hl => ?_⟩
  rw [slot?_insert] at hl
  split_ifs at hl
  · cases hl
  · exact h.readable l offset hl

theorem record_of_seen (hk : s.isUnseen k = false) (parent : Key) : s.record k parent = s := by
  rw [record, if_neg (by simp [hk])]

theorem record_of_unseen (hk : s.isUnseen k = true) (parent : Key) :
    s.record k parent = s.insert k (.recorded (some parent)) := by
  rw [record, if_pos hk]

/-- A node that is named is put into the table, unless it is there. -/
theorem record_cases {I : Store → Prop} (parent : Key) (h : I s)
    (hnew : s.isUnseen k = true → I (s.insert k (.recorded (some parent)))) : I (s.record k parent) := by
  rw [record]
  split_ifs with hk
  · exact hnew hk
  · exact h

@[simp] theorem isUnseen_record (s : Store) (k parent l : Key) :
    (s.record k parent).isUnseen l = (decide (l ≠ k) && s.isUnseen l) := by
  cases hk : s.isUnseen k with
  | true => rw [record_of_unseen hk, isUnseen_insert]
  | false =>
    rw [record_of_seen hk]
    by_cases h : l = k <;> simp [h, hk]

@[simp] theorem isDone_record (s : Store) (k parent : Key) (fp : Fingerprint) :
    (s.record k parent).isDone fp = s.isDone fp := by
  rw [record]
  split_ifs
  · exact isDone_insert ..
  · rfl

@[simp] theorem isWritten_record (s : Store) (k parent l : Key) :
    (s.record k parent).isWritten l = s.isWritten l := by
  cases hk : s.isUnseen k with
  | true => rw [record_of_unseen hk, isWritten_insert_recorded hk]
  | false => rw [record_of_seen hk]

@[simp] theorem roots_record (s : Store) (k parent : Key) : (s.record k parent).roots = s.roots := by
  rw [record]
  split_ifs <;> rfl

theorem holds_record {parent : Key} : (s.record k parent).Holds l n ↔
    s.Holds l n ∨ (s.isUnseen k = true ∧ l = k ∧ n = { key := k, parent := some parent }) := by
  cases hk : s.isUnseen k with
  | true => simp [record_of_unseen hk, holds_insert_recorded hk]
  | false => simp [record_of_seen hk]

theorem Intact.record (h : s.Intact) (k parent : Key) : (s.record k parent).Intact :=
  record_cases parent h fun _ => h.insert_recorded k _

/-! ### Roots -/

/-- What a new root adds to the table. -/
def seeRoot (s : Store) (k : Key) : Store := if s.isUnseen k then s.insert k (.recorded none) else s

theorem seeRoot_cases {I : Store → Prop} (h : I s) (hnew : s.isUnseen k = true → I (s.insert k (.recorded none))) :
    I (s.seeRoot k) := by
  rw [seeRoot]
  split_ifs with hk
  · exact hnew hk
  · exact h

theorem addRoot_eq (s : Store) (k : Key) :
    s.addRoot k = { s.seeRoot k with roots := if k ∈ s.roots then s.roots else s.roots ++ [k] } := by
  have hroots : (s.seeRoot k).roots = s.roots := by
    rw [seeRoot]
    split_ifs <;> rfl
  change (if (s.seeRoot k).roots.contains k then s.seeRoot k else
    { s.seeRoot k with roots := (s.seeRoot k).roots ++ [k] }) = _
  simp only [List.contains_iff_mem, hroots]
  split_ifs with hk
  · rw [← hroots]
  · rfl

theorem mem_roots_addRoot : l ∈ (s.addRoot k).roots ↔ l ∈ s.roots ∨ l = k := by
  rw [addRoot_eq]
  change l ∈ (if k ∈ s.roots then s.roots else s.roots ++ [k]) ↔ _
  split_ifs with hk
  · constructor
    · exact Or.inl
    · rintro (hl | rfl)
      · exact hl
      · exact hk
  · simp

theorem isUnseen_addRoot (s : Store) (k l : Key) :
    (s.addRoot k).isUnseen l = (decide (l ≠ k) && s.isUnseen l) := by
  rw [addRoot_eq]
  change (s.seeRoot k).isUnseen l = _
  rw [seeRoot]
  split_ifs with hk
  · exact isUnseen_insert ..
  · by_cases h : l = k
    · simpa [h] using hk
    · simp [h]

@[simp] theorem isDone_addRoot (s : Store) (k : Key) (fp : Fingerprint) : (s.addRoot k).isDone fp = s.isDone fp := by
  rw [addRoot_eq]
  change (s.seeRoot k).isDone fp = _
  rw [seeRoot]
  split_ifs
  · exact isDone_insert ..
  · rfl

theorem slot?_insert_of_seen {l : Key} (h : s.isUnseen l = false) (hk : s.isUnseen k = true) (slot : Slot) :
    (s.insert k slot).slot? l = s.slot? l := by
  rw [slot?_insert, if_neg]
  intro hlk
  rw [← hlk, h] at hk
  cases hk

/-- A node that is known is left alone when it is named again. -/
theorem slot?_record_of_seen {l : Key} (h : s.isUnseen l = false) (k parent : Key) :
    (s.record k parent).slot? l = s.slot? l := by
  rw [Store.record]
  split_ifs with hk
  · exact slot?_insert_of_seen h hk _
  · rfl

theorem slot?_addRoot_of_seen {l : Key} (h : s.isUnseen l = false) (k : Key) :
    (s.addRoot k).slot? l = s.slot? l := by
  rw [addRoot_eq]
  change (s.seeRoot k).slot? l = _
  rw [seeRoot]
  split_ifs with hk
  · exact slot?_insert_of_seen h hk _
  · rfl

@[simp] theorem isWritten_addRoot (s : Store) (k l : Key) : (s.addRoot k).isWritten l = s.isWritten l := by
  rw [addRoot_eq]
  change (s.seeRoot k).isWritten l = _
  rw [seeRoot]
  split_ifs with hk
  · exact isWritten_insert_recorded hk none l
  · rfl

theorem holds_addRoot : (s.addRoot k).Holds l n ↔
    s.Holds l n ∨ (s.isUnseen k = true ∧ l = k ∧ n = { key := k, parent := none }) := by
  rw [addRoot_eq]
  change (s.seeRoot k).Holds l n ↔ _
  rw [seeRoot]
  split_ifs with hk
  · simp [holds_insert_recorded hk, hk]
  · simp [hk]

theorem Intact.addRoot (h : s.Intact) (k : Key) : (s.addRoot k).Intact := by
  have hsee : (s.seeRoot k).Intact := seeRoot_cases h fun _ => h.insert_recorded k none
  rw [addRoot_eq]
  exact ⟨hsee.whole, hsee.recorded, hsee.readable⟩

/-! ### Expanded states -/

@[simp] theorem slot?_setDone (s : Store) (fp : Fingerprint) (l : Key) : (s.setDone fp).slot? l = s.slot? l :=
  Table.slot?_setDone s.table fp l

@[simp] theorem isUnseen_setDone (s : Store) (fp : Fingerprint) (l : Key) :
    (s.setDone fp).isUnseen l = s.isUnseen l := by
  rw [isUnseen, slot?_setDone, isUnseen]

@[simp] theorem isDone_setDone (s : Store) (fp fp' : Fingerprint) :
    (s.setDone fp).isDone fp' = (decide (fp' = fp) || s.isDone fp') :=
  Table.done_row_setDone s.table fp fp'

@[simp] theorem node_setDone (s : Store) (fp : Fingerprint) (l : Key) : (s.setDone fp).node l = s.node l := by
  unfold node
  rw [slot?_setDone]
  rfl

@[simp] theorem isWritten_setDone (s : Store) (fp : Fingerprint) (l : Key) :
    (s.setDone fp).isWritten l = s.isWritten l := by
  unfold isWritten
  rw [slot?_setDone]

theorem holds_setDone : (s.setDone fp).Holds l n ↔ s.Holds l n := by simp [Holds]

theorem Intact.setDone (h : s.Intact) (fp : Fingerprint) : (s.setDone fp).Intact :=
  ⟨h.whole, h.recorded, fun l offset hl => h.readable l offset (by rwa [slot?_setDone] at hl)⟩

/-! ### Writing a node -/

theorem addNode_eq (s : Store) (n : Node) : ∃ size, s.addNode n =
    { s with log := (s.log.append n.encode).2, table := s.table.put n.key (.written s.log.len), size := size } := by
  rw [addNode]
  by_cases h : isUnseen { s with log := (s.log.append n.encode).2 } n.key = true
  · exact ⟨s.size + 1, if_pos h⟩
  · exact ⟨s.size, if_neg h⟩

theorem log_addNode (s : Store) (n : Node) : (s.addNode n).log = (s.log.append n.encode).2 := by
  obtain ⟨size, heq⟩ := addNode_eq s n
  rw [heq]

/-- A node that is written to a log that fits is storable. -/
theorem Intact.storable (h : s.Intact) (hn : n.Tidy) (hfits : (s.addNode n).log.Fits) : n.Storable := by
  rw [log_addNode] at hfits
  exact hfits.storable h.whole h.recorded hn

theorem slot?_addNode (s : Store) (n : Node) (l : Key) :
    (s.addNode n).slot? l = if l = n.key then some (.written s.log.len) else s.slot? l := by
  obtain ⟨size, heq⟩ := addNode_eq s n
  rw [heq]
  exact Table.slot?_put s.table n.key _ l

@[simp] theorem isUnseen_addNode (s : Store) (n : Node) (l : Key) :
    (s.addNode n).isUnseen l = (decide (l ≠ n.key) && s.isUnseen l) := by
  rw [isUnseen, slot?_addNode, isUnseen]
  by_cases h : l = n.key <;> simp [h]

@[simp] theorem isDone_addNode (s : Store) (n : Node) (fp : Fingerprint) : (s.addNode n).isDone fp = s.isDone fp := by
  obtain ⟨size, heq⟩ := addNode_eq s n
  rw [heq]
  exact Table.done_row_put s.table n.key _ fp

@[simp] theorem roots_addNode (s : Store) (n : Node) : (s.addNode n).roots = s.roots := by
  obtain ⟨size, heq⟩ := addNode_eq s n
  rw [heq]

theorem isWritten_addNode (s : Store) (n : Node) (l : Key) :
    (s.addNode n).isWritten l = (decide (l = n.key) || s.isWritten l) := by
  unfold isWritten
  rw [slot?_addNode]
  by_cases h : l = n.key <;> simp [h]

/-- The node that was written is read. -/
theorem node_addNode_self (h : s.Intact) (hwhole : n.Whole) (hstorable : n.Storable) :
    (s.addNode n).node n.key = .ok n.normal := by
  obtain ⟨size, heq⟩ := addNode_eq s n
  rw [node, slot?_addNode, if_pos rfl, heq]
  change (s.log.append n.encode).2.read s.log.len = _
  rw [Log.read_append_len h.whole hstorable.length, Node.decode_encode hwhole hstorable]

/-- The others are read as before. -/
theorem node_addNode_of_ne (h : s.Intact) (hl : l ≠ n.key) : (s.addNode n).node l = s.node l := by
  obtain ⟨size, heq⟩ := addNode_eq s n
  unfold node
  rw [slot?_addNode, if_neg hl]
  cases hslot : s.slot? l with
  | none => rfl
  | some slot =>
    cases slot with
    | recorded parent => rfl
    | written offset =>
      obtain ⟨n', hn', -⟩ := h.readable l offset hslot
      rw [heq]
      change (s.log.append n.encode).2.read offset = s.log.read offset
      rw [hn', Log.read_append_of_eq h.whole hn']

theorem holds_addNode (h : s.Intact) (hwhole : n.Whole) (hstorable : n.Storable) {n' : Node} :
    (s.addNode n).Holds l n' ↔ (l = n.key ∧ n' = n.normal) ∨ (l ≠ n.key ∧ s.Holds l n') := by
  rw [Holds, isUnseen_addNode]
  by_cases hl : l = n.key
  · subst hl
    simp [node_addNode_self h hwhole hstorable, eq_comm]
  · simp [hl, node_addNode_of_ne h hl, Holds]

theorem Intact.addNode (h : s.Intact) (hwhole : n.Whole) (hstorable : n.Storable) : (s.addNode n).Intact := by
  obtain ⟨size, heq⟩ := addNode_eq s n
  refine ⟨?_, ?_, fun l offset hl => ?_⟩
  · rw [heq]
    exact Log.whole_append h.whole _
  · rw [heq]
    exact h.recorded.append h.whole ⟨hwhole, fun _ => hstorable.width⟩
  · have hread := node_addNode_self h hwhole hstorable
    rw [node, slot?_addNode, if_pos rfl] at hread
    rw [slot?_addNode] at hl
    split_ifs at hl with hkey
    · cases hl
      exact ⟨n.normal, hread, by rw [hkey, Node.key_normal]⟩
    · obtain ⟨n', hn', hkey'⟩ := h.readable l offset hl
      refine ⟨n', ?_, hkey'⟩
      rw [heq]
      exact Log.read_append_of_eq h.whole hn'

theorem slot?_of_empty (htable : s.table = ∅) (k : Key) : s.slot? k = none := by
  simp [slot?, htable, Table.slot?, Table.row, Row.slot?]

theorem isUnseen_of_empty (htable : s.table = ∅) (k : Key) : s.isUnseen k = true :=
  isUnseen_iff.mpr (slot?_of_empty htable k)

theorem not_holds_of_empty (htable : s.table = ∅) (k : Key) (n : Node) : ¬ s.Holds k n := by
  intro hn
  cases hn.1.symm.trans (isUnseen_of_empty htable k)

/-- An empty store is intact. -/
theorem Intact.of_empty (hlog : s.log = {}) (htable : s.table = ∅) : s.Intact := by
  refine ⟨hlog ▸ rfl, hlog ▸ Log.recorded_empty, fun k offset hk => ?_⟩
  rw [slot?_of_empty htable] at hk
  cases hk

/-- A new store has no nodes. -/
theorem create_eq_ok {folder : String} {taken : List String} {index : Nat} (h : create folder taken index = .ok s) :
    s.log = {} ∧ s.table = ∅ ∧ s.roots = [] ∧ s.size = 0 := by
  unfold create at h
  split_ifs at h
  obtain rfl := Except.ok.inj h
  exact ⟨rfl, rfl, rfl, rfl⟩

end Liveness.Store

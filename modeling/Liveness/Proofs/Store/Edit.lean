import Liveness.Proofs.Store.Keys
import Liveness.Proofs.Store.Snapshot

/-!
# Changes of a store

The changes that the exploration makes to a store. Each only appends to the log and leaves
the checkpoint alone (`Grows`), and keeps the records of the written nodes inside the log
(`Anchored`).
-/

namespace Liveness

theorem Slot.Below.mono {len len' : Nat} (hlen : len ≤ len') {slot : Slot} (h : slot.Below len) : slot.Below len' := by
  cases slot with
  | recorded parent => trivial
  | written offset => exact Nat.lt_of_lt_of_le h hlen

theorem Row.mem_putSlot {point : UInt32} {slot : Slot} {slots : List (UInt32 × Slot)} {e : UInt32 × Slot}
    (h : e ∈ putSlot point slot slots) : e.2 = slot ∨ e ∈ slots := by
  induction slots with
  | nil => exact .inl (by rw [List.mem_singleton.mp h])
  | cons a slots ih =>
    rw [putSlot] at h
    split_ifs at h with ha
    · rcases List.mem_cons.mp h with rfl | he
      · exact .inl rfl
      · exact .inr (List.mem_cons_of_mem _ he)
    · rcases List.mem_cons.mp h with rfl | he
      · exact .inr (List.mem_cons_self ..)
      · exact (ih he).imp_right (List.mem_cons_of_mem _)

namespace Table

variable {t : Table} {len : Nat}

theorem below_empty (len : Nat) : Table.Below len ∅ := fun fp e he => by simp [row] at he

theorem Below.mono {len' : Nat} (h : Table.Below len t) (hlen : len ≤ len') : Table.Below len' t :=
  fun fp e he => (h fp e he).mono hlen

theorem Below.put (h : Table.Below len t) (k : Key) {slot : Slot} (hslot : slot.Below len) :
    Table.Below len (Table.put t k slot) := by
  intro fp
  rw [Table.put, row_insert]
  split_ifs with hfp
  · intro e he
    rcases Row.mem_putSlot he with heq | he
    · exact heq ▸ hslot
    · exact h _ e he
  · exact h fp

theorem Below.setDone (h : Table.Below len t) (fp : Fingerprint) : Table.Below len (Table.setDone t fp) := by
  intro fp'
  rw [Table.setDone, row_insert]
  split_ifs
  · exact h fp
  · exact h fp'

end Table

namespace Store

/-- A change of the graph. -/
inductive Edit where
  /-- Make a node a root. -/
  | addRoot (k : Key)
  /-- Record that an edge leads from `parent` to a node. -/
  | record (k parent : Key)
  /-- Write a node. -/
  | addNode (n : Node)
  /-- Mark a state as expanded. -/
  | setDone (fp : Fingerprint)
  /-- Remember the number of nodes. -/
  | markChecked

/-- The store after a change. -/
def edit (s : Store) : Edit → Store
  | .addRoot k => s.addRoot k
  | .record k parent => s.record k parent
  | .addNode n => s.addNode n
  | .setDone fp => s.setDone fp
  | .markChecked => s.markChecked

variable {s s' : Store}

/-! ### Changes append to the log -/

/-- The log goes on where it was, and the checkpoint is the same. -/
structure Grows (s s' : Store) : Prop where
  whole : s'.log.Whole
  log : s.log.file.toList <+: s'.log.file.toList
  checkpoint : s'.checkpoint = s.checkpoint

theorem Grows.refl (h : s.log.Whole) : s.Grows s := ⟨h, List.prefix_rfl, rfl⟩

theorem Grows.trans {s₁ s₂ s₃ : Store} (h : s₁.Grows s₂) (h' : s₂.Grows s₃) : s₁.Grows s₃ :=
  ⟨h'.whole, h.log.trans h'.log, h'.checkpoint.trans h.checkpoint⟩

theorem grows_insert (h : s.log.Whole) (k : Key) (slot : Slot) : s.Grows (s.insert k slot) :=
  ⟨h, List.prefix_rfl, rfl⟩

theorem grows_edit (h : s.log.Whole) (e : Edit) : s.Grows (s.edit e) := by
  cases e with
  | addRoot k =>
    have hsee : s.Grows (s.seeRoot k) := seeRoot_cases (.refl h) fun _ => grows_insert h k _
    rw [edit, addRoot_eq]
    exact ⟨hsee.whole, hsee.log, hsee.checkpoint⟩
  | record k parent =>
    exact record_cases parent (.refl h) fun _ => grows_insert h k _
  | addNode n =>
    obtain ⟨size, heq⟩ := addNode_eq s n
    rw [edit, heq]
    refine ⟨Log.whole_append h _, ?_, rfl⟩
    rw [Log.append_eq h]
    simp
  | setDone fp => exact ⟨h, List.prefix_rfl, rfl⟩
  | markChecked => exact ⟨h, List.prefix_rfl, rfl⟩

theorem grows_foldl_edit (h : s.log.Whole) (es : List Edit) : s.Grows (es.foldl edit s) := by
  induction es generalizing s with
  | nil => exact .refl h
  | cons e es ih =>
    have he := grows_edit h e
    exact he.trans (ih he.whole)

@[simp] theorem draft_edit (s : Store) (e : Edit) : (s.edit e).draft = s.draft := by
  cases e with
  | addRoot k =>
    rw [edit, addRoot_eq]
    change (s.seeRoot k).draft = _
    rw [seeRoot]
    split_ifs <;> rfl
  | record k parent =>
    rw [edit, record]
    split_ifs <;> rfl
  | addNode n =>
    obtain ⟨size, heq⟩ := addNode_eq s n
    rw [edit, heq]
  | setDone fp => rfl
  | markChecked => rfl

@[simp] theorem draft_foldl_edit (s : Store) (es : List Edit) : (es.foldl edit s).draft = s.draft := by
  induction es generalizing s with
  | nil => rfl
  | cons e es ih => rw [List.foldl_cons, ih, draft_edit]

/-! ### Changes keep the records in the log -/

/-- The log is whole, and the records of the written nodes start in it. -/
structure Anchored (s : Store) : Prop where
  whole : s.log.Whole
  below : Table.Below s.log.len s.table

theorem Anchored.insert_recorded (h : s.Anchored) (k : Key) (parent : Option Key) :
    (s.insert k (.recorded parent)).Anchored :=
  ⟨h.whole, h.below.put k trivial⟩

theorem Anchored.edit (h : s.Anchored) (e : Edit) : (s.edit e).Anchored := by
  cases e with
  | addRoot k =>
    have hsee : (s.seeRoot k).Anchored := seeRoot_cases h fun _ => h.insert_recorded k _
    rw [Store.edit, addRoot_eq]
    exact ⟨hsee.whole, hsee.below⟩
  | record k parent => exact record_cases parent h fun _ => h.insert_recorded k _
  | addNode n =>
    obtain ⟨size, heq⟩ := addNode_eq s n
    have hlen : s.log.len < (s.log.append n.encode).2.len := by
      simp only [Log.append, Log.headLen]
      omega
    rw [Store.edit, heq]
    exact ⟨Log.whole_append h.whole _, (h.below.mono hlen.le).put n.key hlen⟩
  | setDone fp => exact ⟨h.whole, h.below.setDone fp⟩
  | markChecked => exact ⟨h.whole, h.below⟩

end Store

end Liveness

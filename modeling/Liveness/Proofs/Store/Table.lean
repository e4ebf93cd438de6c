import Mathlib.Tactic.Common
import Liveness.Store.Basic

/-!
# What the table tells after a change

To put a slot into the table changes what is known of that node and of no other, and a
node that was not known comes last among those of its state. To mark a state as expanded
changes no slot.
-/

namespace Liveness

namespace Row

/-- A point has a slot exactly if it is among the points of the row. -/
theorem slot?_isSome_iff (r : Row) (point : UInt32) : (r.slot? point).isSome = true ↔ point ∈ r.points := by
  rw [slot?, points]
  induction r.slots with
  | nil => simp
  | cons e slots ih =>
    by_cases h : point = e.1
    · simp [h]
    · rw [List.lookup_cons, beq_false_of_ne h, ih]
      simp [h]

theorem lookup_putSlot (point : UInt32) (slot : Slot) (q : UInt32) (slots : List (UInt32 × Slot)) :
    (putSlot point slot slots).lookup q = if q = point then some slot else slots.lookup q := by
  induction slots with
  | nil =>
    by_cases h : q = point
    · simp [putSlot, h]
    · simp [putSlot, List.lookup_cons, beq_false_of_ne h, h]
  | cons e slots ih =>
    obtain ⟨p, t⟩ := e
    rw [putSlot]
    split_ifs with hp hq hq
    · simp [hp, hq]
    · simp [List.lookup_cons, hp, beq_false_of_ne hq]
    · subst hq
      rw [List.lookup_cons, beq_false_of_ne (Ne.symm hp), ih]
      simp
    · rw [List.lookup_cons, List.lookup_cons, ih, if_neg hq]

@[simp] theorem slot?_put (r : Row) (point : UInt32) (slot : Slot) (q : UInt32) :
    (r.put point slot).slot? q = if q = point then some slot else r.slot? q :=
  lookup_putSlot point slot q r.slots

@[simp] theorem done_put (r : Row) (point : UInt32) (slot : Slot) : (r.put point slot).done = r.done := rfl

end Row

namespace Table

theorem row_insert (t : Table) (fp fp' : Fingerprint) (r : Row) :
    Table.row (t.insert fp r) fp' = if fp' = fp then r else Table.row t fp' := by
  rw [row, row, Std.ExtTreeMap.getD_insert]
  by_cases h : fp' = fp
  · simp [h]
  · rw [if_neg h, if_neg]
    exact fun hc => h (Std.LawfulEqCmp.compare_eq_iff_eq.mp hc).symm

@[simp] theorem slot?_put (t : Table) (k : Key) (slot : Slot) (l : Key) :
    Table.slot? (Table.put t k slot) l = if l = k then some slot else Table.slot? t l := by
  rw [slot?, put, row_insert]
  by_cases hfp : l.fp = k.fp
  · rw [if_pos hfp, Row.slot?_put, slot?, hfp]
    by_cases hp : l.point = k.point
    · have : l = k := by cases l; cases k; simp_all
      simp [this]
    · have : l ≠ k := fun h => hp (by rw [h])
      simp [hp, this]
  · have : l ≠ k := fun h => hfp (by rw [h])
    rw [if_neg hfp, if_neg this, slot?]

@[simp] theorem slot?_setDone (t : Table) (fp : Fingerprint) (l : Key) :
    Table.slot? (Table.setDone t fp) l = Table.slot? t l := by
  rw [slot?, setDone, row_insert]
  split_ifs with h
  · rw [slot?, h]
    rfl
  · rfl

@[simp] theorem done_row_put (t : Table) (k : Key) (slot : Slot) (fp : Fingerprint) :
    (Table.row (Table.put t k slot) fp).done = (Table.row t fp).done := by
  rw [put, row_insert]
  split_ifs with h
  · rw [h, Row.done_put]
  · rfl

@[simp] theorem done_row_setDone (t : Table) (fp fp' : Fingerprint) :
    (Table.row (Table.setDone t fp) fp').done = (decide (fp' = fp) || (Table.row t fp').done) := by
  rw [setDone, row_insert]
  by_cases h : fp' = fp <;> simp [h]

/-- A state with nodes has a row. -/
theorem getElem?_of_point {t : Table} {k : Key} (h : k.point ∈ (Table.row t k.fp).points) :
    t[k.fp]? = some (Table.row t k.fp) := by
  rw [row, Std.ExtTreeMap.getD_eq_getD_getElem?] at h ⊢
  cases hr : t[k.fp]? with
  | none => simp [hr, Row.points] at h
  | some r => rfl

/-- The nodes that have a slot are listed, and no others. -/
theorem mem_keys_iff {t : Table} {k : Key} : k ∈ Table.keys t ↔ k.point ∈ (Table.row t k.fp).points := by
  rw [keys, List.mem_flatMap]
  constructor
  · rintro ⟨⟨fp, r⟩, hr, hk⟩
    simp only [List.mem_map, mem_sortBy] at hk
    obtain ⟨point, hpoint, rfl⟩ := hk
    rw [row, Std.ExtTreeMap.getD_eq_getD_getElem?, Std.ExtTreeMap.mem_toList_iff_getElem?_eq_some.mp hr]
    exact hpoint
  · intro hp
    refine ⟨(k.fp, Table.row t k.fp), Std.ExtTreeMap.mem_toList_iff_getElem?_eq_some.mpr (getElem?_of_point hp), ?_⟩
    simp only [List.mem_map, mem_sortBy]
    exact ⟨k.point, hp, rfl⟩

end Table

namespace Store

theorem mem_keys_iff {s : Store} {k : Key} : k ∈ s.keys ↔ s.isUnseen k = false := by
  rw [keys, Table.mem_keys_iff, ← Row.slot?_isSome_iff, isUnseen, Option.isNone_eq_false_iff]
  rfl

theorem mem_keys_of_isWritten {s : Store} {k : Key} (h : s.isWritten k = true) : k ∈ s.keys := by
  rw [mem_keys_iff]
  unfold Store.isWritten at h
  split at h
  · rw [isUnseen, ‹s.slot? k = _›]
    rfl
  · cases h

/-- A node that was not written has no checks and no steps. -/
theorem node_of_not_written (s : Store) {k : Key} (h : s.isWritten k = false) :
    ∃ parent, s.node k = .ok { key := k, parent := parent } := by
  unfold isWritten at h
  unfold node
  cases hslot : s.slot? k with
  | none => exact ⟨none, rfl⟩
  | some slot =>
    cases slot with
    | recorded parent => exact ⟨parent, rfl⟩
    | written offset => simp [hslot] at h

end Store

end Liveness

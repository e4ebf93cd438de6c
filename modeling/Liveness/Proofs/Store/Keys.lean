import Mathlib.Data.List.Nodup
import Mathlib.Data.List.Perm.Basic
import Mathlib.Data.List.Sort
import Liveness.Proofs.Store.View

/-!
# The keys of a store

The table lists the nodes of a state in the order in which they were first seen, each
once. The keys of a store are listed by state and then by point, each once, and the
number of nodes is counted as they are added. The counter is a machine word.
-/

namespace Liveness

namespace Row

theorem map_fst_putSlot (point : UInt32) (slot : Slot) (slots : List (UInt32 × Slot)) :
    (putSlot point slot slots).map Prod.fst =
      if point ∈ slots.map Prod.fst then slots.map Prod.fst else slots.map Prod.fst ++ [point] := by
  induction slots with
  | nil => rfl
  | cons e slots ih =>
    obtain ⟨p, t⟩ := e
    rw [putSlot]
    by_cases hp : p = point
    · simp [hp]
    · rw [if_neg hp, List.map_cons, List.map_cons, ih]
      by_cases hmem : point ∈ slots.map Prod.fst
      · rw [if_pos hmem, if_pos (List.mem_cons_of_mem _ hmem)]
      · rw [if_neg hmem, if_neg (by simpa [Ne.symm hp] using hmem)]
        rfl

/-- A point that is new comes last. -/
theorem points_put (r : Row) (point : UInt32) (slot : Slot) :
    (r.put point slot).points = if point ∈ r.points then r.points else r.points ++ [point] :=
  map_fst_putSlot point slot r.slots

end Row

namespace Table

variable {t : Table}

theorem points_row_put (t : Table) (k : Key) (slot : Slot) (fp : Fingerprint) :
    (Table.row (Table.put t k slot) fp).points =
      if fp = k.fp ∧ k.point ∉ (Table.row t fp).points then (Table.row t fp).points ++ [k.point]
      else (Table.row t fp).points := by
  rw [put, row_insert]
  by_cases hfp : fp = k.fp
  · rw [if_pos hfp, Row.points_put, ← hfp]
    by_cases hmem : k.point ∈ (Table.row t fp).points <;> simp [hmem]
  · rw [if_neg hfp, if_neg fun h => hfp h.1]

theorem points_row_setDone (t : Table) (fp fp' : Fingerprint) :
    (Table.row (Table.setDone t fp) fp').points = (Table.row t fp').points := by
  rw [setDone, row_insert]
  split_ifs with h
  · rw [h]
    rfl
  · rfl

/-- No point is listed twice. -/
def Tidy (t : Table) : Prop := ∀ fp, (Table.row t fp).points.Nodup

theorem tidy_empty : Tidy ∅ := fun fp => by simp [row, Row.points]

theorem Tidy.put (h : Tidy t) (k : Key) (slot : Slot) : Tidy (Table.put t k slot) := by
  intro fp
  rw [points_row_put]
  split_ifs with hnew
  · refine List.nodup_append.mpr ⟨h fp, List.nodup_singleton _, fun p hp q hq => ?_⟩
    rw [List.mem_singleton.mp hq]
    exact fun hpq => hnew.2 (hpq ▸ hp)
  · exact h fp

theorem Tidy.setDone (h : Tidy t) (fp : Fingerprint) : Tidy (Table.setDone t fp) := by
  intro fp'
  rw [points_row_setDone]
  exact h fp'

/-- The rows of a table come by their states. -/
theorem pairwise_fp_toList (t : Table) : t.toList.Pairwise fun a b => a.1 < b.1 :=
  Std.ExtTreeMap.ordered_keys_toList.imp fun h => Std.compare_eq_lt.mp h

theorem fp_of_mem_keys {e : Fingerprint × Row} {k : Key} (h : k ∈ (sortBy (· ≤ ·) e.2.points).map (Key.mk e.1)) :
    k.fp = e.1 := by
  obtain ⟨point, -, rfl⟩ := List.mem_map.mp h
  rfl

/-- The keys are sorted. -/
theorem pairwise_keys (t : Table) : (Table.keys t).Pairwise fun k l => k.le l = true := by
  rw [keys, List.pairwise_flatMap]
  refine ⟨fun e _ => ?_, (pairwise_fp_toList t).imp fun {a b} hab k hk l hl => ?_⟩
  · refine List.pairwise_map.mpr ((pairwise_sortBy ?_ ?_ e.2.points).imp fun {p q} hpq => ?_)
    · exact fun a b c hab hbc => by simpa using UInt32.le_trans (by simpa using hab) (by simpa using hbc)
    · exact fun a b => by simpa using UInt32.le_total a b
    · simpa [Key.le] using hpq
  · rw [Key.le, fp_of_mem_keys hk, fp_of_mem_keys hl]
    simp [hab]

theorem row_of_mem_toList {e : Fingerprint × Row} (h : e ∈ t.toList) : Table.row t e.1 = e.2 := by
  rw [row, Std.ExtTreeMap.getD_eq_getD_getElem?, Std.ExtTreeMap.mem_toList_iff_getElem?_eq_some.mp h]
  rfl

/-- No key is listed twice. -/
theorem Tidy.nodup_keys (h : Tidy t) : (Table.keys t).Nodup := by
  rw [keys, List.nodup_flatMap]
  refine ⟨fun e he => ?_, (pairwise_fp_toList t).imp fun {a b} hab k hk hl => ?_⟩
  · refine List.Nodup.map (fun p q hpq => congrArg Key.point hpq) ((sortBy_perm _ _).nodup_iff.mpr ?_)
    exact row_of_mem_toList he ▸ h e.1
  · rw [← fp_of_mem_keys hk, ← fp_of_mem_keys hl] at hab
    exact UInt64.lt_irrefl _ hab

theorem pairwise_states (t : Table) : (Std.ExtTreeMap.keys t).Pairwise (· < ·) :=
  Std.ExtTreeMap.ordered_keys.imp fun h => Std.compare_eq_lt.mp h

end Table

namespace Store

variable {s : Store} {k : Key}

/-- A node that was never seen comes last among those of its state. -/
theorem points_put (s : Store) (k : Key) (slot : Slot) (fp : Fingerprint) :
    (Table.row (s.table.put k slot) fp).points =
      if s.isUnseen k = true ∧ k.fp = fp then s.pointsAt fp ++ [k.point] else s.pointsAt fp := by
  have hnew : k.point ∉ (Table.row s.table k.fp).points ↔ s.isUnseen k = true := by
    rw [← Row.slot?_isSome_iff, Bool.not_eq_true, Option.isSome_eq_false_iff]
    rfl
  rw [Table.points_row_put]
  by_cases hfp : k.fp = fp
  · subst hfp
    simp [hnew, pointsAt]
  · simp [hfp, Ne.symm hfp, pointsAt]

theorem pointsAt_insert (s : Store) (k : Key) (slot : Slot) (fp : Fingerprint) :
    (s.insert k slot).pointsAt fp =
      if s.isUnseen k = true ∧ k.fp = fp then s.pointsAt fp ++ [k.point] else s.pointsAt fp :=
  points_put s k slot fp

theorem pointsAt_addNode (s : Store) (n : Node) (fp : Fingerprint) :
    (s.addNode n).pointsAt fp =
      if s.isUnseen n.key = true ∧ n.key.fp = fp then s.pointsAt fp ++ [n.key.point] else s.pointsAt fp := by
  obtain ⟨size, heq⟩ := addNode_eq s n
  rw [heq]
  exact points_put s n.key _ fp

theorem pointsAt_setDone (s : Store) (fp fp' : Fingerprint) : (s.setDone fp).pointsAt fp' = s.pointsAt fp' :=
  Table.points_row_setDone s.table fp fp'

/-- No point is listed twice, and the nodes are counted. -/
structure Counted (s : Store) : Prop where
  tidy : s.table.Tidy
  size_eq : s.size = .ofNat s.keys.length

theorem Counted.nodup_keys (h : s.Counted) : s.keys.Nodup := h.tidy.nodup_keys

theorem Counted.toNat_size (h : s.Counted) (hcount : s.keys.length < 2 ^ 64) : s.size.toNat = s.keys.length := by
  rw [h.size_eq, UInt64.toNat_ofNat', Nat.mod_eq_of_lt hcount]

theorem Counted.of_empty (htable : s.table = ∅) (hsize : s.size = 0) : s.Counted := by
  have hkeys : s.keys = [] := by
    rw [keys, htable, Table.keys, List.flatMap_eq_nil_iff]
    rintro ⟨fp, row⟩ he
    simp [Std.ExtTreeMap.mem_toList_iff_getElem?_eq_some] at he
  exact ⟨htable ▸ Table.tidy_empty, by rw [hkeys, hsize]; rfl⟩

/-- A new node comes among the keys in its place. -/
theorem keys_insert_perm (h : s.table.Tidy) (hk : s.isUnseen k = true) (slot : Slot) :
    (s.insert k slot).keys.Perm (k :: s.keys) := by
  have hnot : k ∉ s.keys := by simp [mem_keys_iff, hk]
  have hnodup : (s.insert k slot).keys.Nodup := (h.put k slot).nodup_keys
  refine (List.perm_ext_iff_of_nodup hnodup (List.nodup_cons.mpr ⟨hnot, h.nodup_keys⟩)).mpr fun l => ?_
  rw [mem_keys_iff, isUnseen_insert, List.mem_cons, mem_keys_iff]
  by_cases hl : l = k <;> simp [hl]

theorem Counted.insert (h : s.Counted) (hk : s.isUnseen k = true) (slot : Slot) : (s.insert k slot).Counted := by
  refine ⟨h.tidy.put k slot, ?_⟩
  rw [(keys_insert_perm h.tidy hk slot).length_eq, List.length_cons, UInt64.ofNat_add, ← h.size_eq]
  rfl

/-- As long as no node is new, the number of nodes stays. -/
theorem Counted.of_seen (h : s.Counted) {s' : Store} (htidy : s'.table.Tidy) (hsize : s'.size = s.size)
    (hseen : ∀ l, s'.isUnseen l = s.isUnseen l) : s'.Counted := by
  have hperm : s'.keys.Perm s.keys :=
    (List.perm_ext_iff_of_nodup htidy.nodup_keys h.nodup_keys).mpr fun l => by
      change l ∈ s'.keys ↔ l ∈ s.keys
      rw [mem_keys_iff, mem_keys_iff, hseen]
  exact ⟨htidy, by rw [hsize, hperm.length_eq, h.size_eq]⟩

theorem Counted.record (h : s.Counted) (k parent : Key) : (s.record k parent).Counted :=
  record_cases parent h fun hk => h.insert hk _

theorem Counted.addRoot (h : s.Counted) (k : Key) : (s.addRoot k).Counted := by
  have hsee : (s.seeRoot k).Counted := seeRoot_cases h fun hk => h.insert hk _
  rw [addRoot_eq]
  exact ⟨hsee.tidy, hsee.size_eq⟩

theorem Counted.setDone (h : s.Counted) (fp : Fingerprint) : (s.setDone fp).Counted :=
  h.of_seen (h.tidy.setDone fp) rfl fun l => isUnseen_setDone s fp l

theorem addNode_of_unseen {n : Node} (hk : s.isUnseen n.key = true) :
    s.addNode n = insert { s with log := (s.log.append n.encode).2 } n.key (.written s.log.len) :=
  if_pos hk

theorem addNode_of_seen {n : Node} (hk : s.isUnseen n.key = false) :
    s.addNode n =
      { s with log := (s.log.append n.encode).2, table := s.table.put n.key (.written s.log.len) } :=
  if_neg (Bool.not_eq_true _ ▸ hk)

theorem Counted.addNode (h : s.Counted) (n : Node) : (s.addNode n).Counted := by
  cases hk : s.isUnseen n.key with
  | true =>
    have hlog : Counted { s with log := (s.log.append n.encode).2 } := ⟨h.tidy, h.size_eq⟩
    rw [addNode_of_unseen hk]
    exact hlog.insert hk _
  | false =>
    refine h.of_seen ?_ ?_ fun l => ?_
    · rw [addNode_of_seen hk]
      exact h.tidy.put n.key _
    · rw [addNode_of_seen hk]
    · rw [isUnseen_addNode]
      by_cases hl : l = n.key <;> simp [hl, hk]

end Store

end Liveness

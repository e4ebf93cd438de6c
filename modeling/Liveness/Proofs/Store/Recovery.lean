import Liveness.Store.Path
import Liveness.Proofs.Outcome
import Liveness.Proofs.Store.Edit

/-!
# A checkpoint brings the graph back

A checkpoint that was begun and committed while the exploration went on, and is recovered
later, also after the files were opened again, gives the graph as it was when the
checkpoint was begun (`Store.recover_commit_begin`). What was appended to the log after that,
and what a crash may have left behind it, is cut off.
-/

namespace Liveness

namespace Store

variable {s g : Store} {o : RowOrder}

/-! ### The three calls -/

theorem begin_apply (o : RowOrder) (s : Store) : begin o s = match s.draft with
    | .folder => (.error (.error (.file .isFolder)), s)
    | _ => (.ok (), { s with draft := .file (s.snapshot o).encode.toArray }) := by
  rw [begin, Change.bind_apply]
  change (match s.draft with
    | .folder => failFile .isFolder
    | _ => set { s with draft := .file (s.snapshot o).encode.toArray } : Change Store Unit) s = _
  cases s.draft <;> rfl

theorem begin_of_ne (h : s.draft ≠ .folder) :
    begin o s = (.ok (), { s with draft := .file (s.snapshot o).encode.toArray }) := by
  rw [begin_apply]
  cases hdraft : s.draft with
  | folder => exact absurd hdraft h
  | absent => rfl
  | file bytes => rfl

theorem commit_apply (s : Store) : commit s = match s.draft, s.checkpoint with
    | .absent, _ => (.error (.error (.file .notFound)), s)
    | .file _, .folder => (.error (.error (.file .isFolder)), s)
    | .folder, .file _ => (.error (.error (.file .notFolder)), s)
    | draft, _ => (.ok (), { s with checkpoint := draft, draft := .absent }) := by
  rw [commit, Change.bind_apply]
  change (match s.draft, s.checkpoint with
    | .absent, _ => failFile .notFound
    | .file _, .folder => failFile .isFolder
    | .folder, .file _ => failFile .notFolder
    | draft, _ => set { s with checkpoint := draft, draft := .absent } : Change Store Unit) s = _
  cases s.draft <;> cases s.checkpoint <;> rfl

theorem commit_of_file {bytes : Bytes} (hdraft : s.draft = .file bytes) (h : s.checkpoint ≠ .folder) :
    commit s = (.ok (), { s with checkpoint := .file bytes, draft := .absent }) := by
  rw [commit_apply, hdraft]
  cases hcheckpoint : s.checkpoint with
  | folder => exact absurd hcheckpoint h
  | absent => rfl
  | file old => rfl

theorem recover_apply (s : Store) : recover s = match s.loadCheckpoint with
    | .ok c => (.ok (), s.restore c)
    | .error f => (.error f, s) := by
  rw [recover, Change.bind_apply]
  change (Outcome.lift s.loadCheckpoint >>= fun c => set (s.restore c) : Change Store Unit) s = _
  rw [Change.bind_apply, Outcome.lift]
  cases s.loadCheckpoint <;> rfl

/-! ### How a store arises -/

/-- The files are opened again, after the bytes of the log became `file`. -/
def reopenOn (s : Store) (file : File) : Store := reopen { s with log := { s.log with file := file } }

/-- The stores that the operations on stores give. -/
inductive Arises : Store → Prop
  | create {folder : String} {taken : List String} {index : Nat} {s : Store} :
      Store.create folder taken index = .ok s → Arises s
  | edit {s : Store} (e : Edit) : Arises s → Arises (s.edit e)
  | reset {s : Store} : Arises s → Arises s.reset
  | draw {s : Store} (drawings : Drawings) : Arises s → Arises { s with drawings := drawings }
  | begin {s : Store} (o : RowOrder) : Arises s → Arises (begin o s).2
  | commit {s : Store} : Arises s → Arises (commit s).2
  | recover {s : Store} : Arises s → Arises (recover s).2
  | reopen {s : Store} (file : File) : Arises s → Arises (s.reopenOn file)

theorem Anchored.restore {c : Snapshot} (hbelow : ∀ e ∈ c.rows, e.2.Below c.logLen) : (s.restore c).Anchored :=
  ⟨File.size_resize _ _, Snapshot.below_table hbelow⟩

theorem below_of_loadCheckpoint {c : Snapshot} (h : s.loadCheckpoint = .ok c) :
    ∀ e ∈ c.rows, e.2.Below c.logLen := by
  unfold loadCheckpoint at h
  split at h
  · cases h
  · cases h
  · rename_i bytes _
    cases hdecode : Snapshot.decode bytes.toList with
    | error f =>
      rw [hdecode] at h
      cases h
    | ok c' =>
      rw [hdecode] at h
      change (if s.log.len < c'.logLen then _ else _) = _ at h
      split_ifs at h
      cases h
      exact Snapshot.below_of_decode hdecode

/-- **Every store has the records of its nodes in its log.** -/
theorem Arises.anchored (h : s.Arises) : s.Anchored := by
  induction h with
  | create hcreate =>
    obtain ⟨hlog, htable, -, -⟩ := create_eq_ok hcreate
    exact ⟨by rw [hlog]; rfl, by rw [htable]; exact Table.below_empty _⟩
  | edit e _ ih => exact ih.edit e
  | reset _ _ => exact ⟨Log.whole_truncate_zero _, Table.below_empty _⟩
  | draw drawings _ ih => exact ⟨ih.whole, ih.below⟩
  | begin o _ ih =>
    rw [begin_apply]
    split
    · exact ih
    · exact ⟨ih.whole, ih.below⟩
  | @commit s _ ih =>
    rw [commit_apply]
    split
    · exact ih
    · exact ih
    · exact ih
    · exact ⟨ih.whole, ih.below⟩
  | @recover s _ ih =>
    rw [recover_apply]
    split
    · exact .restore (below_of_loadCheckpoint ‹_›)
    · exact ih
  | reopen file _ _ => exact ⟨rfl, Table.below_empty _⟩

/-! ### A checkpoint of the graph -/

/-- The two stores hold the same graph: nothing that is asked of one is answered otherwise
by the other. -/
structure SameGraph (s g : Store) : Prop where
  keys : s.keys = g.keys
  pointsAt : ∀ fp, s.pointsAt fp = g.pointsAt fp
  isDone : ∀ fp, s.isDone fp = g.isDone fp
  slot? : ∀ k, s.slot? k = g.slot? k
  roots : s.roots = g.roots
  size : s.size = g.size
  baseline : s.baseline = g.baseline
  log : s.log = g.log
  node : ∀ k, s.node k = g.node k
  pathTo : ∀ k, s.pathTo k = g.pathTo k

theorem SameGraph.of_eq (hlog : s.log = g.log) (htable : s.table = g.table) (hroots : s.roots = g.roots)
    (hsize : s.size = g.size) (hbaseline : s.baseline = g.baseline) : s.SameGraph g := by
  have hslot : ∀ k, s.slot? k = g.slot? k := fun k => by rw [Store.slot?, htable, Store.slot?]
  have hnode : ∀ k, s.node k = g.node k := fun k => by rw [Store.node, hslot, hlog, Store.node]
  have hparent : ∀ k, s.parentOf k = g.parentOf k := fun k => by rw [parentOf, hslot, hlog, parentOf]
  have hwalk : ∀ goal fuel k path, s.walkBack goal fuel k path = g.walkBack goal fuel k path := by
    intro goal fuel
    induction fuel with
    | zero => exact fun k path => by cases k <;> rfl
    | succ fuel ih =>
      intro k path
      cases k with
      | none => rfl
      | some k => simp only [walkBack, hparent, ih]
  exact {
    keys := by rw [Store.keys, htable, Store.keys]
    pointsAt := fun fp => by rw [Store.pointsAt, htable, Store.pointsAt]
    isDone := fun fp => by rw [Store.isDone, htable, Store.isDone]
    slot? := hslot
    roots := hroots
    size := hsize
    baseline := hbaseline
    log := hlog
    node := hnode
    pathTo := fun k => by simp only [Store.pathTo, path, hsize, hwalk] }

/-- The numbers that a checkpoint of the store holds fit its fields. -/
structure Countable (g : Store) : Prop where
  roots : g.roots.length < 2 ^ 32
  pointsAt : ∀ fp, (g.pointsAt fp).length < 2 ^ 32
  states : g.table.size < 2 ^ 64
  log : g.log.len < 2 ^ 64

theorem Anchored.fits_snapshot (h : g.Anchored) (hcount : g.Countable) (o : RowOrder) : (g.snapshot o).Fits := by
  have hrow : ∀ e ∈ (g.snapshot o).rows, Table.row g.table e.1 = e.2 := by
    intro e he
    rw [Table.row, Std.ExtTreeMap.getD_eq_getD_getElem?, mem_rows_snapshot.mp he]
    rfl
  constructor
  case logLen => exact hcount.log
  case roots => exact hcount.roots
  case rows =>
    rw [snapshot, (o.perm _ _).length_eq, Std.ExtTreeMap.length_toList]
    exact hcount.states
  case slots =>
    intro e he
    have := hcount.pointsAt e.1
    rwa [Store.pointsAt, hrow e he, Row.points, List.length_map] at this
  case below =>
    intro e he
    exact hrow e he ▸ h.below e.1

/-- A store with the checkpoint, whose log starts with the log of the graph, goes back to
the graph. -/
theorem Anchored.recover (hg : g.Anchored) (hcount : g.Countable)
    (hcheckpoint : s.checkpoint = .file (g.snapshot o).encode.toArray) (hwhole : s.log.Whole)
    (hlog : g.log.file.toList <+: s.log.file.toList) :
    ∃ s', Store.recover s = (.ok (), s') ∧ s'.SameGraph g := by
  have hsize : g.log.file.size = g.log.len := hg.whole
  have hlen : g.log.len ≤ s.log.len := by
    have := hlog.length_le
    rwa [File.length_toList, File.length_toList, hg.whole, hwhole] at this
  have hload : s.loadCheckpoint = .ok (g.snapshot o) := by
    rw [loadCheckpoint, hcheckpoint]
    simp only [Snapshot.decode_encode (hg.fits_snapshot hcount o)]
    exact if_neg (Nat.not_lt.mpr hlen)
  refine ⟨s.restore (g.snapshot o), by rw [recover_apply, hload], .of_eq ?_ (table_snapshot o g) rfl rfl rfl⟩
  change (⟨s.log.file.resize g.log.len, g.log.len⟩ : Log) = g.log
  rw [← hsize, File.resize_of_isPrefix hlog, hsize]

/-- What may happen to a store after a checkpoint was committed. -/
inductive Later where
  /-- The graph changes. -/
  | edit (e : Edit)
  /-- Another checkpoint is begun. -/
  | begin (o : RowOrder)

/-- The store after it has happened. -/
def later (s : Store) : Later → Store
  | .edit e => s.edit e
  | .begin o => (begin o s).2

theorem grows_foldl_later (h : s.log.Whole) (es : List Later) : s.Grows (es.foldl later s) := by
  induction es generalizing s with
  | nil => exact .refl h
  | cons e es ih =>
    have he : s.Grows (s.later e) := by
      cases e with
      | edit e => exact grows_edit h e
      | begin o =>
        rw [later, begin_apply]
        split
        · exact .refl h
        · exact ⟨h, List.prefix_rfl, rfl⟩
    exact he.trans (ih he.whole)

/-- **A checkpoint brings the graph back.** A checkpoint is begun, the graph changes, the
checkpoint is committed, and the graph changes further. Then a recovery gives the graph as
it was when the checkpoint was begun: on the same store, and on the files opened again,
whatever stands in the log after the bytes it had then, and in whatever order the states were
written. -/
theorem recover_commit_begin (hg : g.Arises) (hcount : g.Countable) (hdraft : g.draft ≠ .folder)
    (hcheckpoint : g.checkpoint ≠ .folder) (o : RowOrder) (before : List Edit) (after : List Later) :
    ∃ drafted committed, begin o g = (.ok (), drafted) ∧
      commit (before.foldl edit drafted) = (.ok (), committed) ∧
      (∃ s, recover (after.foldl later committed) = (.ok (), s) ∧ s.SameGraph g) ∧
      ∀ file : File, g.log.file.toList.take g.log.len <+: file.toList →
        ∃ s, recover ((after.foldl later committed).reopenOn file) = (.ok (), s) ∧ s.SameGraph g := by
  have hanchored := hg.anchored
  have hbefore := grows_foldl_edit (s := { g with draft := .file (g.snapshot o).encode.toArray }) hanchored.whole before
  have hcommit := commit_of_file (draft_foldl_edit { g with draft := .file (g.snapshot o).encode.toArray } before)
    (by rw [hbefore.checkpoint]; exact hcheckpoint)
  refine ⟨_, _, begin_of_ne hdraft, hcommit, ?_⟩
  generalize hcommitted : ({ before.foldl edit { g with draft := .file (g.snapshot o).encode.toArray } with
    checkpoint := .file (g.snapshot o).encode.toArray, draft := .absent } : Store) = committed
  have hwhole : committed.log.Whole := hcommitted ▸ hbefore.whole
  have hlog : g.log.file.toList <+: committed.log.file.toList := hcommitted ▸ hbefore.log
  have hfile : committed.checkpoint = .file (g.snapshot o).encode.toArray := hcommitted ▸ rfl
  have hafter := grows_foldl_later hwhole after
  constructor
  · exact hanchored.recover hcount (hafter.checkpoint.trans hfile) hafter.whole (hlog.trans hafter.log)
  · intro file hstarts
    have hsize : g.log.file.toList.length ≤ g.log.len := by
      rw [File.length_toList]
      exact hanchored.whole.le
    rw [List.take_of_length_le hsize] at hstarts
    exact hanchored.recover hcount (hafter.checkpoint.trans hfile) rfl hstarts

/-- A store with a root that was written. -/
def rooted : Store :=
  (edit { folder := "graph", index := 0 } (.addRoot ⟨1, 0⟩)).edit (.addNode { key := ⟨1, 0⟩, parent := none })

theorem arises_rooted : rooted.Arises := by
  have hcreate : create "graph" [] 0 = .ok { folder := "graph", index := 0 } := rfl
  exact .edit _ (.edit _ (.create hcreate))

theorem countable_rooted : rooted.Countable := by
  have htable : rooted.table = Table.put (Table.put ∅ ⟨1, 0⟩ (.recorded none)) ⟨1, 0⟩ (.written 0) := rfl
  constructor
  case roots => decide
  case pointsAt =>
    intro fp
    rw [Store.pointsAt, htable, Table.points_row_put, Table.points_row_put]
    by_cases hfp : fp = 1 <;> simp [hfp, Table.row, Row.points]
  case states => decide
  case log => decide

theorem recover_commit_begin_rooted : rooted.Arises ∧ rooted.Countable ∧ rooted.draft ≠ .folder ∧
    rooted.checkpoint ≠ .folder ∧ ∃ drafted committed, begin default rooted = (.ok (), drafted) ∧
      commit (drafted.edit (.record ⟨2, 0⟩ ⟨1, 0⟩)) = (.ok (), committed) ∧
      ∃ s, recover ((committed.edit (.addNode { key := ⟨1, 0⟩, parent := some ⟨2, 0⟩ })).reopenOn
        (rooted.log.file.append [7, 7, 7])) = (.ok (), s) ∧ s.SameGraph rooted := by
  have hdraft : rooted.draft ≠ .folder := by decide
  have hcheckpoint : rooted.checkpoint ≠ .folder := by decide
  obtain ⟨drafted, committed, hbegin, hcommit, -, hreopen⟩ :=
    recover_commit_begin arises_rooted countable_rooted hdraft hcheckpoint default [.record ⟨2, 0⟩ ⟨1, 0⟩]
      [.edit (.addNode { key := ⟨1, 0⟩, parent := some ⟨2, 0⟩ })]
  refine ⟨arises_rooted, countable_rooted, hdraft, hcheckpoint, drafted, committed, hbegin, hcommit, hreopen _ ?_⟩
  rw [File.toList_append]
  exact (List.take_prefix _ _).trans (List.prefix_append _ _)

end Store

end Liveness

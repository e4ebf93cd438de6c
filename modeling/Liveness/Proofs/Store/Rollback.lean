import Liveness.Proofs.Store.Recovery

/-!
# Recovery after the log was cut

A reset cuts the log, and so does the recovery of an older checkpoint. The checkpoint stays in
its file meanwhile, and a recovery compares no more than the length of the log with the length it
had when the checkpoint was begun. So a log that was cut and has grown again is taken for the old
one. The table is the old one then, but its places in the log hold what was written last
(`Store.recover_reset_begin_mixed`).

What can be relied on is told by the *low-water mark*, the least length that the log had since
the checkpoint was begun: the bytes before it were never written again, and the records that
lie there are read as they were (`Store.recover_after_acts`).
-/

namespace Liveness

theorem Log.toList_truncate {l : Log} (h : l.Whole) {n : Nat} (hn : n ≤ l.len) :
    (l.truncate n).file.toList = l.file.toList.take n := by
  have hsize : l.file.size = l.len := h
  change (l.file.resize n).toList = _
  rw [File.toList_resize, Nat.sub_eq_zero_of_le (by omega), List.replicate_zero, List.append_nil]

theorem Log.whole_truncate (l : Log) (n : Nat) : (l.truncate n).Whole := File.size_resize _ _

namespace Store

variable {s g drafted : Store}

/-! ### The acts on a store -/

/-- What may be done with a store. -/
inductive Act where
  /-- The graph changes. -/
  | edit (e : Edit)
  /-- The graph is forgotten, and the log is emptied. -/
  | reset
  /-- The drawings become others. -/
  | draw (drawings : Drawings)
  /-- A checkpoint is begun. -/
  | begin (o : RowOrder)
  /-- A checkpoint is committed. -/
  | commit
  /-- The last checkpoint that was committed is recovered. -/
  | recover
  /-- The files are opened again. -/
  | reopen

/-- The store after an act, also after one that failed. -/
def act (s : Store) : Act → Store
  | .edit e => s.edit e
  | .reset => s.reset
  | .draw drawings => { s with drawings := drawings }
  | .begin o => (begin o s).2
  | .commit => (commit s).2
  | .recover => (recover s).2
  | .reopen => s.reopen

theorem Arises.act (h : s.Arises) (a : Act) : (s.act a).Arises := by
  cases a with
  | edit e => exact h.edit e
  | reset => exact h.reset
  | draw drawings => exact h.draw drawings
  | begin o => exact h.begin o
  | commit => exact h.commit
  | recover => exact h.recover
  | reopen => exact h.reopen s.log.file

theorem Arises.foldl_act (h : s.Arises) (acts : List Act) : (acts.foldl Store.act s).Arises := by
  induction acts generalizing s with
  | nil => exact h
  | cons a acts ih => exact ih (h.act a)

/-! ### The low-water mark -/

/-- The low-water mark: the least length that the log has in the course of the acts. -/
def lowest (s : Store) : List Act → Nat
  | [] => s.log.len
  | a :: acts => min s.log.len (lowest (s.act a) acts)

theorem lowest_le_start (s : Store) (acts : List Act) : s.lowest acts ≤ s.log.len := by
  cases acts with
  | nil => exact le_rfl
  | cons a acts => exact Nat.min_le_left ..

@[simp] theorem log_begin (o : RowOrder) (s : Store) : (begin o s).2.log = s.log := by
  rw [begin_apply]
  split <;> rfl

@[simp] theorem log_commit (s : Store) : (commit s).2.log = s.log := by
  rw [commit_apply]
  split <;> rfl

theorem logLen_le_of_loadCheckpoint {c : Snapshot} (h : s.loadCheckpoint = .ok c) : c.logLen ≤ s.log.len := by
  unfold loadCheckpoint at h
  split at h
  · cases h
  · cases h
  · rename_i bytes _
    cases hdecode : Snapshot.decode bytes.toList with
    | error f =>
      rw [hdecode] at h
      cases h
    | ok c' =>
      rw [hdecode] at h
      change (if s.log.len < c'.logLen then _ else _) = _ at h
      split_ifs at h with hlen
      cases h
      exact Nat.not_lt.mp hlen

/-- An act leaves the bytes that the log has before it and after it as they are. -/
theorem take_file_act (h : s.Arises) (a : Act) {n : Nat} (hn : n ≤ s.log.len) (hn' : n ≤ (s.act a).log.len) :
    (s.act a).log.file.toList.take n = s.log.file.toList.take n := by
  have hwhole := h.anchored.whole
  cases a with
  | edit e =>
    obtain ⟨more, hmore⟩ := (grows_edit hwhole e).log
    have hlength : n ≤ s.log.file.toList.length := by rwa [File.length_toList, hwhole]
    rw [act, ← hmore, List.take_append_of_le_length hlength]
  | reset =>
    have hzero : n = 0 := Nat.le_zero.mp hn'
    simp [hzero]
  | draw drawings => rfl
  | begin o => rw [act, log_begin]
  | commit => rw [act, log_commit]
  | recover =>
    rw [act, recover_apply] at hn' ⊢
    cases hload : s.loadCheckpoint with
    | error f => rfl
    | ok c =>
      have hn' : n ≤ c.logLen := by rwa [hload] at hn'
      change ((s.log.truncate c.logLen).file.toList.take n) = _
      rw [Log.toList_truncate hwhole (logLen_le_of_loadCheckpoint hload), List.take_take, Nat.min_eq_left hn']
  | reopen => rfl

/-- The bytes before the low-water mark are the same after the acts. -/
theorem take_file_foldl_act (h : s.Arises) (acts : List Act) {n : Nat} (hn : n ≤ s.lowest acts) :
    (acts.foldl act s).log.file.toList.take n = s.log.file.toList.take n := by
  induction acts generalizing s with
  | nil => rfl
  | cons a acts ih =>
    have hstart : n ≤ s.log.len := hn.trans (Nat.min_le_left ..)
    have hrest : n ≤ (s.act a).lowest acts := hn.trans (Nat.min_le_right ..)
    rw [List.foldl_cons, ih (h.act a) hrest, take_file_act h a hstart (hrest.trans (lowest_le_start _ _))]

/-! ### Recovering -/

/-- The store with its log cut to a length. -/
def cutTo (s : Store) (n : Nat) : Store := { s with log := s.log.truncate n }

theorem loadCheckpoint_snapshot (hg : g.Anchored) (hcount : g.Countable)
    (hcheckpoint : s.checkpoint = .file (g.snapshot o).encode.toArray) :
    s.loadCheckpoint =
      if s.log.len < g.log.len then .error (.corrupt g.log.len .logTooShort) else .ok (g.snapshot o) := by
  rw [loadCheckpoint, hcheckpoint]
  simp only [Snapshot.decode_encode (hg.fits_snapshot hcount o)]
  rfl

/-- A store with the same table, whose log goes on where the log of another ends, has the nodes of the other. -/
theorem node_of_isPrefix {s' : Store} {k : Key} {n : Node} (htable : s'.table = s.table) (h : s.log.Whole)
    (h' : s'.log.Whole) (hfile : s.log.file.toList <+: s'.log.file.toList) (hn : s.node k = .ok n) :
    s'.node k = .ok n := by
  have hslot : s'.slot? k = s.slot? k := by rw [Store.slot?, htable, Store.slot?]
  rw [node] at hn ⊢
  rw [hslot]
  split at hn
  · exact Log.read_of_isPrefix h h' hfile hn
  · exact hn
  · exact hn

theorem isPrefix_restore (o : RowOrder) (hg : g.Arises) {n : Nat} (hn : n ≤ g.log.len) (hs : s.log.Whole)
    (hlen : g.log.len ≤ s.log.len) (htake : s.log.file.toList.take n = g.log.file.toList.take n) :
    (g.cutTo n).log.file.toList <+: (s.restore (g.snapshot o)).log.file.toList := by
  change (g.log.truncate n).file.toList <+: (s.log.truncate g.log.len).file.toList
  rw [Log.toList_truncate hg.anchored.whole hn, Log.toList_truncate hs hlen, ← htake]
  exact List.take_prefix_take_left hn

theorem sameGraph_restore_iff (o : RowOrder) (hg : g.Anchored) (hs : s.log.Whole) (hlen : g.log.len ≤ s.log.len) :
    (s.restore (g.snapshot o)).SameGraph g ↔ g.log.file.toList <+: s.log.file.toList := by
  constructor
  · intro h
    have hlog : s.log.truncate g.log.len = g.log := h.log
    rw [← hlog, Log.toList_truncate hs hlen]
    exact List.take_prefix _ _
  · intro h
    refine .of_eq ?_ (table_snapshot o g) rfl rfl rfl
    have hsize : g.log.file.size = g.log.len := hg.whole
    change (⟨s.log.file.resize g.log.len, g.log.len⟩ : Log) = g.log
    rw [← hsize, File.resize_of_isPrefix h, hsize]

/-- **Recovery after any acts.** A checkpoint is begun, anything is done with the store, and the
checkpoint that was begun is the one that was committed last. If the log is shorter than it was, a
recovery says so and changes nothing. Otherwise it gives the table, the roots and the numbers of
the graph as they were; the nodes that can be read from the log up to its low-water mark are read
as they were; and the whole graph is the old one exactly if the log still starts with the old
log, which it does if it was never shorter. -/
theorem recover_after_acts (hg : g.Arises) (hcount : g.Countable) (hbegin : begin o g = (.ok (), drafted))
    (acts : List Act) (hs : acts.foldl act drafted = s) (hcheckpoint : s.checkpoint = .file (g.snapshot o).encode.toArray) :
    if s.log.len < g.log.len then recover s = (.error (.corrupt g.log.len .logTooShort), s)
    else ∃ s', recover s = (.ok (), s') ∧
      s'.table = g.table ∧ s'.roots = g.roots ∧ s'.size = g.size ∧ s'.baseline = g.baseline ∧ s'.log.len = g.log.len ∧
      (∀ k n, (g.cutTo (drafted.lowest acts)).node k = .ok n → s'.node k = .ok n) ∧
      (s'.SameGraph g ↔ g.log.file.toList <+: s.log.file.toList) ∧
      (g.log.len ≤ drafted.lowest acts → s'.SameGraph g) := by
  have hdrafted : drafted = (begin o g).2 := by rw [hbegin]
  have harises : drafted.Arises := hdrafted ▸ hg.begin o
  have hlog : drafted.log = g.log := by rw [hdrafted, log_begin]
  have hwhole : s.log.Whole := hs ▸ (harises.foldl_act acts).anchored.whole
  have hlow : drafted.lowest acts ≤ g.log.len := hlog ▸ drafted.lowest_le_start acts
  have htake : s.log.file.toList.take (drafted.lowest acts) = g.log.file.toList.take (drafted.lowest acts) := by
    rw [← hs, take_file_foldl_act harises acts le_rfl, hlog]
  have hload := loadCheckpoint_snapshot hg.anchored hcount hcheckpoint
  split_ifs with hlen
  · rw [recover_apply, hload, if_pos hlen]
  · rw [if_neg hlen] at hload
    have hlen : g.log.len ≤ s.log.len := Nat.not_lt.mp hlen
    have hsame := sameGraph_restore_iff o hg.anchored hwhole hlen
    refine ⟨s.restore (g.snapshot o), by rw [recover_apply, hload], table_snapshot o g, rfl, rfl, rfl, rfl, ?_, hsame, ?_⟩
    · intro k n hn
      have hstarts := isPrefix_restore o hg hlow hwhole hlen htake
      exact node_of_isPrefix (s := g.cutTo _) (table_snapshot o g) (Log.whole_truncate _ _) (Log.whole_truncate _ _)
        hstarts hn
    · intro hnever
      have hall : g.log.file.toList.length ≤ drafted.lowest acts := by
        rwa [File.length_toList, hg.anchored.whole]
      rw [List.take_of_length_le hall] at htake
      exact hsame.mpr (htake ▸ List.take_prefix _ _)

/-- The checkpoint is committed, the store is emptied, and a node of another state is written. -/
def rewritten : List Act := [.commit, .reset, .edit (.addNode { key := ⟨2, 0⟩, parent := none })]

theorem begin_rooted : begin default rooted = (.ok (), { rooted with draft := .file (rooted.snapshot default).encode.toArray }) :=
  begin_of_ne (by decide)

/-- The store whose only node is the one written last, with a checkpoint. -/
def relisted (bytes : Bytes) : Store :=
  { edit { folder := "graph", index := 0 } (.addNode { key := ⟨2, 0⟩, parent := none }) with checkpoint := .file bytes }

theorem rewritten_apply (bytes : Bytes) : rewritten.foldl act { rooted with draft := .file bytes } = relisted bytes :=
  rfl

theorem recover_after_acts_rewritten : rooted.Arises ∧ rooted.Countable ∧
    ∃ drafted, begin default rooted = (.ok (), drafted) ∧
      (rewritten.foldl act drafted).checkpoint = .file (rooted.snapshot default).encode.toArray ∧
      ∃ s, recover (rewritten.foldl act drafted) = (.ok (), s) ∧ s.table = rooted.table ∧ ¬s.SameGraph rooted := by
  have hs := rewritten_apply (rooted.snapshot default).encode.toArray
  have h := recover_after_acts arises_rooted countable_rooted begin_rooted rewritten hs rfl
  have hlen : ¬(relisted (rooted.snapshot default).encode.toArray).log.len < rooted.log.len := by
    change ¬(relisted #[]).log.len < rooted.log.len
    decide
  rw [if_neg hlen] at h
  obtain ⟨s, hrecover, htable, -, -, -, -, -, hsame, -⟩ := h
  refine ⟨arises_rooted, countable_rooted, _, begin_rooted, by rw [hs]; rfl, s, by rw [hs, hrecover], htable, ?_⟩
  rw [hsame]
  change ¬rooted.log.file.toList <+: (relisted #[]).log.file.toList
  decide

/-- After the log was emptied and has grown to its old length a recovery gives the old table with the
new records: the node of one state is that of another. -/
theorem recover_reset_begin_mixed :
    ∃ s, recover (rewritten.foldl act (begin default rooted).2) = (.ok (), s) ∧ s.keys = rooted.keys ∧
      rooted.node ⟨1, 0⟩ = .ok { key := ⟨1, 0⟩, parent := none } ∧
      s.node ⟨1, 0⟩ = .ok { key := ⟨2, 0⟩, parent := none } := by
  generalize hbytes : (rooted.snapshot default).encode.toArray = bytes
  have hload : (relisted bytes).loadCheckpoint = .ok (rooted.snapshot default) := by
    rw [loadCheckpoint_snapshot arises_rooted.anchored countable_rooted (by rw [hbytes]; rfl), if_neg]
    change ¬(relisted #[]).log.len < rooted.log.len
    decide
  refine ⟨(relisted bytes).restore (rooted.snapshot default), ?_, ?_, ?_, ?_⟩
  · rw [begin_rooted, hbytes, rewritten_apply, recover_apply, hload]
  · rw [Store.keys, Store.keys]
    change ((rooted.snapshot default).table.keys) = _
    rw [table_snapshot]
  · decide
  · have hslot : ((relisted bytes).restore (rooted.snapshot default)).slot? ⟨1, 0⟩ = some (.written 0) := by
      change (rooted.snapshot default).table.slot? ⟨1, 0⟩ = _
      rw [table_snapshot]
      decide
    rw [node, hslot]
    change ((relisted #[]).log.truncate rooted.log.len).read 0 = _
    decide

end Store

end Liveness

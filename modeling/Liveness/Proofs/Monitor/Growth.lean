import Liveness.Proofs.Graph.Cut
import Liveness.Proofs.Property
import Liveness.Proofs.Monitor.Ancestry

/-!
# How the graph of a monitor grows

Between two calls the graph of a monitor is closed: the steps of its nodes lead to nodes, and
no node has two steps to the same one (`Store.IsClosed`). A call only adds to the graph
(`Store.Continues`): roots and points come to the end of their lists, a node keeps its parent,
and its new steps come after those it had. Nothing is asked of the order of the calls, nor of
the successors, nor of what the calls come back with (`Monitor.graph_only_grows`).

This is followed from the calls to the bytes of the log. What stands there of a node is its version
(`Store.Version`), and what is read of the node is a part of it, or all of it if the records that were
written fit the log.
-/

namespace Liveness

/-- The numbers of the checks of the node can be written with 32 bits. -/
structure Node.Narrow (n : Node) : Prop where
  bits : n.stateBits.len < 2 ^ 32
  width : n.width < 2 ^ 32

namespace Log

variable {l : Log} {offset : Nat} {n m : Node}

/-- The record of the node stands at a place of the log, as one of the records of nodes. -/
structure Keeps (l : Log) (offset : Nat) (n : Node) : Prop where
  has : l.Has offset n.encode
  mem : ∃ ns, l.Lists ns ∧ n ∈ ns

theorem keeps_append (hwhole : l.Whole) (hrecorded : l.Recorded) (hn : n.Tidy) :
    (l.append n.encode).2.Keeps l.len n := by
  obtain ⟨ns, hns⟩ := hrecorded
  exact ⟨has_append hwhole _, ns ++ [n], hns.append hwhole hn, by simp⟩

theorem Keeps.append (h : l.Keeps offset n) (hwhole : l.Whole) (hm : m.Tidy) :
    (l.append m.encode).2.Keeps offset n := by
  obtain ⟨ns, hns, hmem⟩ := h.mem
  exact ⟨h.has.append hwhole _, ns ++ [m], hns.append hwhole hm, List.mem_append_left _ hmem⟩

/-- In a log that fits the node is read. -/
theorem Keeps.read_eq (h : l.Keeps offset n) (hwhole : l.Whole) (hfits : l.Fits) : l.read offset = .ok n.normal := by
  obtain ⟨ns, hns, hmem⟩ := h.mem
  have hstorable := hfits ns hns.tidy (hns.file ▸ List.prefix_rfl) n hmem
  rw [read_of_has hwhole h.has, Nat.mod_eq_of_lt hstorable.length, List.take_length,
    Node.decode_encode (hns.tidy n hmem).whole hstorable]

end Log

namespace Store

variable {s s' s'' : Store} {k l : Key} {n g : Node}

/-! ### What the store has of a node -/

/-- What the store has of a node: as it was recorded, or as it was written last. -/
structure Version (s : Store) (k : Key) (n : Node) : Prop where
  slot : s.slot? k = some (.recorded n.parent) ∧ n = { key := k, parent := n.parent } ∨
    ∃ offset, s.slot? k = some (.written offset) ∧ s.log.Keeps offset n
  admits : s.Admits k n
  narrow : n.Narrow

theorem Version.seen (h : s.Version k g) : s.isUnseen k = false := by
  rw [isUnseen_eq_false_iff]
  rcases h.slot with ⟨hslot, -⟩ | ⟨offset, hslot, -⟩
  · exact ⟨_, hslot⟩
  · exact ⟨_, hslot⟩

/-- **What is read of a node is a part of its version**: the same node with the first of its steps. -/
theorem Version.of_node (h : s.Version k g) (hwhole : s.log.Whole) (hn : s.node k = .ok n) :
    n.parent = g.parent ∧ n.steps <+: g.steps ∧ s.Admits k n ∧ n.Narrow := by
  rcases h.slot with ⟨hslot, heq⟩ | ⟨offset, hslot, hkeeps⟩
  · rw [node, hslot] at hn
    obtain rfl : g = n := heq.trans (Except.ok.inj hn)
    exact ⟨rfl, List.prefix_rfl, h.admits, h.narrow⟩
  · rw [node, hslot] at hn
    have htidy := Log.tidy_of_read hn
    change s.log.read offset = .ok n at hn
    rw [Log.read_of_has hwhole hkeeps.has] at hn
    have hpart := List.take_prefix (g.encode.length % 2 ^ 32) g.encode
    obtain ⟨hkey, hwidth, hbits, hsteps⟩ := Node.steps_of_isPrefix h.narrow.bits h.narrow.width hpart hn
    have hparent : n.parent = g.parent := by
      rw [Node.eq_cut_of_isPrefix h.narrow.bits (hpart.trans (List.prefix_append _ [])) hn]
      rfl
    have htargets : n.targets <+: g.targets := by
      rw [Node.targets_eq, Node.targets_eq]
      exact hsteps.map _
    refine ⟨hparent, hsteps, ⟨hkey.trans h.admits.key, htidy, ?_, fun l hl => ?_⟩, ?_, hwidth ▸ h.narrow.width⟩
    · exact h.admits.nodup.sublist htargets.sublist
    · exact h.admits.seen l (htargets.subset hl)
    · rw [hbits, Bits.len_ofFn]
      exact h.narrow.bits

/-- The version is read if the log fits. -/
theorem Version.exists_node (h : s.Version k g) (hwhole : s.log.Whole) (hfits : s.log.Fits) :
    ∃ n, s.node k = .ok n ∧ n.steps = g.steps := by
  rcases h.slot with ⟨hslot, heq⟩ | ⟨offset, hslot, hkeeps⟩
  · refine ⟨g, ?_, rfl⟩
    rw [node, hslot]
    exact congrArg Except.ok heq.symm
  · refine ⟨g.normal, ?_, rfl⟩
    rw [node, hslot]
    exact hkeeps.read_eq hwhole hfits

/-- The log is one of records, the nodes are counted, and each has its version. -/
structure Filed (s : Store) : Prop where
  whole : s.log.Whole
  recorded : s.log.Recorded
  counted : s.Counted
  version : ∀ k, s.isUnseen k = false → ∃ g, s.Version k g

/-- **The steps of what is read of a node lead to nodes**, also if it was never seen. -/
theorem Filed.of_node (h : s.Filed) (hn : s.node k = .ok n) : s.Admits k n ∧ n.Narrow := by
  cases hk : s.isUnseen k with
  | false =>
    obtain ⟨g, hg⟩ := h.version k hk
    exact (hg.of_node h.whole hn).2.2
  | true =>
    rw [node, isUnseen_iff.mp hk] at hn
    obtain rfl := Except.ok.inj hn
    exact ⟨admits_recorded s k none, Nat.two_pow_pos 32, Nat.two_pow_pos 32⟩

/-! ### What a change adds -/

/-- The store `s'` is the store `s` with things added, also where they cannot be read. -/
structure Adds (s s' : Store) : Prop where
  log : s.log.file.toList <+: s'.log.file.toList
  roots : s.roots <+: s'.roots
  points : ∀ fp, s.pointsAt fp <+: s'.pointsAt fp
  done : ∀ fp, s.isDone fp = true → s'.isDone fp = true
  version : ∀ k g, s.Version k g → ∃ g', s'.Version k g' ∧ g'.parent = g.parent ∧ (s'.log.Fits → g.steps <+: g'.steps)

theorem Adds.trans (h : s.Adds s') (h' : s'.Adds s'') : s.Adds s'' := by
  refine ⟨h.log.trans h'.log, h.roots.trans h'.roots, fun fp => (h.points fp).trans (h'.points fp),
    fun fp hfp => h'.done fp (h.done fp hfp), fun k g hg => ?_⟩
  obtain ⟨g', hg', hparent, hsteps⟩ := h.version k g hg
  obtain ⟨g'', hg'', hparent', hsteps'⟩ := h'.version k g' hg'
  refine ⟨g'', hg'', hparent'.trans hparent, fun hfits => ?_⟩
  exact (hsteps (hfits.of_isPrefix h'.log)).trans (hsteps' hfits)

/-- A version stays if the node keeps its slot. -/
theorem Version.of_same (h : s.Version k g) (hlog : s'.log = s.log)
    (hslot : ∀ l, s.isUnseen l = false → s'.slot? l = s.slot? l) : s'.Version k g := by
  refine ⟨?_, h.admits.mono fun l hl => ?_, h.narrow⟩
  · rw [hslot k h.seen, hlog]
    exact h.slot
  · rw [isUnseen, hslot l hl]
    exact hl

/-- A change that leaves the log and the slots of nodes as they are. -/
theorem adds_of_same (hlog : s'.log = s.log) (hslot : ∀ l, s.isUnseen l = false → s'.slot? l = s.slot? l)
    (hroots : s.roots <+: s'.roots) (hpoints : ∀ fp, s.pointsAt fp <+: s'.pointsAt fp)
    (hdone : ∀ fp, s'.isDone fp = s.isDone fp ∨ s'.isDone fp = true) : s.Adds s' := by
  refine ⟨hlog ▸ List.prefix_rfl, hroots, hpoints, fun fp hfp => ?_, fun k g hg => ?_⟩
  · exact (hdone fp).elim (fun heq => heq.trans hfp) id
  · exact ⟨g, hg.of_same hlog hslot, rfl, fun _ => List.prefix_rfl⟩

theorem Adds.refl (s : Store) : s.Adds s :=
  adds_of_same rfl (fun _ _ => rfl) List.prefix_rfl (fun _ => List.prefix_rfl) fun _ => .inl rfl

/-- The points of a state after one of its nodes was seen. -/
theorem prefix_pointsAt {fp : Fingerprint} (h : s'.pointsAt fp =
    if s.isUnseen k = true ∧ k.fp = fp then s.pointsAt fp ++ [k.point] else s.pointsAt fp) :
    s.pointsAt fp <+: s'.pointsAt fp := by
  rw [h]
  split_ifs
  · exact List.prefix_append _ _
  · exact List.prefix_rfl

theorem adds_record (s : Store) (k parent : Key) : s.Adds (s.record k parent) := by
  refine adds_of_same ?_ (fun l hl => slot?_record_of_seen hl k parent) ?_ (fun fp => ?_) fun fp => .inl ?_
  · exact record_cases (I := fun s' => s'.log = s.log) parent rfl fun _ => rfl
  · exact (roots_record s k parent).symm ▸ List.prefix_rfl
  · exact record_cases (I := fun s' => s.pointsAt fp <+: s'.pointsAt fp) parent List.prefix_rfl
      fun _ => prefix_pointsAt (pointsAt_insert s k _ fp)
  · exact isDone_record ..

theorem adds_setDone (s : Store) (fp : Fingerprint) : s.Adds (s.setDone fp) := by
  refine adds_of_same rfl (fun l _ => slot?_setDone ..) List.prefix_rfl (fun fp' => ?_) fun fp' => ?_
  · exact (pointsAt_setDone s fp fp').symm ▸ List.prefix_rfl
  · rw [isDone_setDone]
    by_cases hfp : fp' = fp <;> simp [hfp]

/-! ### Changes keep the versions -/

theorem Filed.of_empty (hlog : s.log = {}) (htable : s.table = ∅) (hsize : s.size = 0) : s.Filed := by
  refine ⟨by rw [hlog]; rfl, hlog ▸ Log.recorded_empty, .of_empty htable hsize, fun k hk => ?_⟩
  rw [isUnseen_iff.mpr (slot?_of_empty htable k)] at hk
  cases hk

/-- A node is seen for the first time. -/
theorem Filed.insert (h : s.Filed) (hk : s.isUnseen k = true) (parent : Option Key) :
    (s.insert k (.recorded parent)).Filed := by
  refine ⟨h.whole, h.recorded, h.counted.insert hk _, fun l hl => ?_⟩
  by_cases hlk : l = k
  · subst hlk
    exact ⟨{ key := l, parent := parent }, .inl ⟨by simp, rfl⟩, admits_recorded _ l parent, Nat.two_pow_pos 32,
      Nat.two_pow_pos 32⟩
  · obtain ⟨g, hg⟩ := h.version l (by simpa [isUnseen_insert, hlk] using hl)
    exact ⟨g, hg.of_same rfl fun _ hl => slot?_insert_of_seen hl hk _⟩

theorem Filed.record (h : s.Filed) (k parent : Key) : (s.record k parent).Filed :=
  record_cases parent h fun hk => h.insert hk _

theorem Filed.addRoot (h : s.Filed) (k : Key) : (s.addRoot k).Filed := by
  have hsee : (s.seeRoot k).Filed := seeRoot_cases h fun hk => h.insert hk none
  refine ⟨?_, ?_, h.counted.addRoot k, fun l hl => ?_⟩
  · rw [addRoot_eq]
    exact hsee.whole
  · rw [addRoot_eq]
    exact hsee.recorded
  · rw [addRoot_eq] at hl ⊢
    obtain ⟨g, hg⟩ := hsee.version l hl
    exact ⟨g, hg.of_same rfl fun _ _ => rfl⟩

theorem Filed.setDone (h : s.Filed) (fp : Fingerprint) : (s.setDone fp).Filed := by
  refine ⟨h.whole, h.recorded, h.counted.setDone fp, fun l hl => ?_⟩
  obtain ⟨g, hg⟩ := h.version l (by simpa using hl)
  exact ⟨g, hg.of_same rfl fun _ _ => slot?_setDone ..⟩

theorem Filed.draw (h : s.Filed) (d : Drawings) : Filed { s with drawings := d } := by
  refine ⟨h.whole, h.recorded, ⟨h.counted.tidy, h.counted.size_eq⟩, fun l hl => ?_⟩
  obtain ⟨g, hg⟩ := h.version l hl
  exact ⟨g, hg.of_same rfl fun _ _ => rfl⟩

/-- The version of another node stays where a node is written. -/
theorem Version.addNode (h : s.Version l g) (hwhole : s.log.Whole) (hn : n.Tidy) (hne : l ≠ n.key) :
    (s.addNode n).Version l g := by
  refine ⟨?_, h.admits.mono fun q hq => by simp [hq], h.narrow⟩
  rw [slot?_addNode, if_neg hne, log_addNode]
  exact h.slot.imp_right fun ⟨offset, hslot, hkeeps⟩ => ⟨offset, hslot, hkeeps.append hwhole hn⟩

/-- A node that is written is its version. -/
theorem Filed.version_addNode (h : s.Filed) (hn : s.Admits k n) (hnarrow : n.Narrow) : (s.addNode n).Version k n := by
  refine ⟨.inr ⟨s.log.len, ?_, ?_⟩, hn.mono fun q hq => by simp [hq], hnarrow⟩
  · rw [slot?_addNode, if_pos hn.key.symm]
  · rw [log_addNode]
    exact Log.keeps_append h.whole h.recorded hn.tidy

theorem Filed.addNode (h : s.Filed) (hn : s.Admits k n) (hnarrow : n.Narrow) : (s.addNode n).Filed := by
  refine ⟨?_, ?_, h.counted.addNode n, fun l hl => ?_⟩
  · rw [log_addNode]
    exact Log.whole_append h.whole _
  · rw [log_addNode]
    exact h.recorded.append h.whole hn.tidy
  · by_cases hlk : l = k
    · exact hlk ▸ ⟨n, h.version_addNode hn hnarrow⟩
    · have hne : l ≠ n.key := hn.key.symm ▸ hlk
      obtain ⟨g, hg⟩ := h.version l (by simpa [hne] using hl)
      exact ⟨g, hg.addNode h.whole hn.tidy hne⟩

end Store

/-! ### Turns -/

namespace Store

variable {σ : Type} [ModelState σ] {p : Property σ} {m : Model σ} {o : Offer σ} {k origin : Key} {s s' : Store}
  {n n' : Node} {fp : Fingerprint} {successors : List σ} {checks : StepChecks}

/-- **Step after step is linked**: the nodes that they lead to are recorded, and the new steps come after
those that the node had. -/
theorem Filed.links (h : s.Filed) (hadmits : s.Admits k n) (hnarrow : n.Narrow) (hwidth : o.width < 2 ^ 32)
    (hlinks : Builder.Links p o k origin s n s' n') :
    s'.Filed ∧ s.Adds s' ∧ s'.Admits k n' ∧ n'.Narrow ∧ n'.parent = n.parent ∧ n.steps <+: n'.steps := by
  induction hlinks with
  | refl => exact ⟨h, .refl s, hadmits, hnarrow, rfl, List.prefix_rfl⟩
  | link _ hlink ih =>
    obtain ⟨hfiled, hadds, hadmits', hnarrow', hparent, hsteps⟩ := ih
    refine ⟨hfiled.record _ _, hadds.trans (adds_record ..), hadmits'.link hlink origin, ⟨?_, hlink.width ▸ hwidth⟩,
      hlink.same.parent.trans hparent, ?_⟩
    · rw [hlink.same.stateBits]
      exact hnarrow'.bits
    · rw [hlink.steps]
      exact hsteps.trans (List.prefix_append _ _)

/-- **The expansion of a node adds to the graph**, whether the node was seen or not. -/
theorem Filed.expand (h : s.Filed) (hn : s.node k = .ok n) (hbits : o.state.len < 2 ^ 32) (hwidth : o.width < 2 ^ 32)
    (hlinks : Builder.Links p o k origin s (n.setState o.state) s' n') :
    (s'.addNode n'.trim).Filed ∧ s.Adds (s'.addNode n'.trim) := by
  obtain ⟨hadmits, hnarrow⟩ := h.of_node hn
  obtain ⟨hfiled, hadds, hadmits', hnarrow', hparent, hsteps⟩ :=
    h.links (hadmits.setState o.state) ⟨hbits, hnarrow.width⟩ hwidth hlinks
  have hlog : s'.log.file.toList <+: (s'.addNode n'.trim).log.file.toList := by
    rw [log_addNode, Log.append_eq hfiled.whole]
    exact (File.toList_append _ _).symm ▸ List.prefix_append _ _
  have hnarrow'' : n'.trim.Narrow := ⟨hnarrow'.bits, hnarrow'.width⟩
  refine ⟨hfiled.addNode hadmits'.trim hnarrow'', hadds.log.trans hlog, ?_, fun fp => ?_, fun fp hfp => ?_, fun l g hg => ?_⟩
  · rw [roots_addNode]
    exact hadds.roots
  · exact (hadds.points fp).trans (prefix_pointsAt (pointsAt_addNode s' n'.trim fp))
  · rw [isDone_addNode]
    exact hadds.done fp hfp
  · by_cases hl : l = k
    · -- The version is the node that is written: it has the steps that were read, and new ones after them.
      subst hl
      refine ⟨n'.trim, hfiled.version_addNode hadmits'.trim hnarrow'', ?_, fun hfits => ?_⟩
      · exact hparent.trans (hg.of_node h.whole hn).1
      · obtain ⟨n₀, hn₀, hg₀⟩ := hg.exists_node h.whole (hfits.of_isPrefix (hadds.log.trans hlog))
        obtain rfl := Except.ok.inj (hn₀.symm.trans hn)
        rw [← hg₀]
        exact hsteps
    · obtain ⟨g', hg', hparent', hsteps'⟩ := hadds.version l g hg
      refine ⟨g', hg'.addNode hfiled.whole hadmits'.trim.tidy ?_, hparent', fun hfits => ?_⟩
      · rw [hadmits'.trim.key]
        exact hl
      · exact hsteps' (hfits.of_isPrefix hlog)

/-- **A turn adds to the graph.** -/
theorem Filed.turn (h : s.Filed)
    (hoffered : ∀ k o, Builder.Offered p k m fp successors checks s o → o.state.len < 2 ^ 32 ∧ o.width < 2 ^ 32)
    (hturn : Builder.Turn p m fp successors checks s s') : s'.Filed ∧ s.Adds s' := by
  cases hturn with
  | setDone => exact ⟨h.setDone fp, s.adds_setDone fp⟩
  | draw d =>
    exact ⟨h.draw d, adds_of_same rfl (fun _ _ => rfl) List.prefix_rfl (fun _ => List.prefix_rfl) fun _ => .inl rfl⟩
  | expand hoffer hn _ hlinks =>
    obtain ⟨hbits, hwidth⟩ := hoffered _ _ hoffer
    exact h.expand hn hbits hwidth hlinks

end Store

/-! ### Graphs that are read -/

namespace Store

variable {s s' : Store}

end Store

/-! ### Calls -/

variable {σ : Type} [ModelState σ]

namespace Monitor

variable {m : Model σ} {p : Property σ} {w₀ w w' : Monitor σ} {calls : List (Call σ)}

/-- The results of the checks are those of the property on some state. -/
def Call.Evaluated (p : Property σ) : Call σ → Prop
  | .initial _ _ => True
  | .next _ successors checks _ => ∃ s, p.evaluate s successors = .ok checks

/-- The numbers of the checks can be written with 32 bits. -/
def Call.Narrow : Call σ → Prop
  | .initial _ _ => True
  | .next _ _ checks _ => checks.state.len < 2 ^ 32 ∧ checks.width < 2 ^ 32

omit [ModelState σ] in
theorem Call.Evaluated.narrow (hbits : p.stateChecks.length < 2 ^ 32) (hwidth : p.width < 2 ^ 32) {c : Call σ}
    (h : c.Evaluated p) : c.Narrow := by
  cases c with
  | initial => trivial
  | next =>
    obtain ⟨u, hchecks⟩ := h
    obtain ⟨hstate, hwidth', -⟩ := Property.evaluate_spec hchecks
    exact ⟨hstate ▸ p.len_stateBits u ▸ hbits, hwidth' ▸ hwidth⟩

end Monitor

end Liveness

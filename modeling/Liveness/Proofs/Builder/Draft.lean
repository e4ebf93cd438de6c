import Liveness.Proofs.Builder.Lawful
import Liveness.Proofs.Builder.Frame

/-!
# A node in the course of its expansion

While a node is expanded, its new steps are in memory only and the nodes they lead to are
recorded in the store. The node in memory is a *draft* of what is written in the end. Each
link keeps it one, and the graph stays lawful whether the expansion comes to an end or not,
as long as the log fits.
-/

namespace Liveness

namespace Exploration

variable {σ : Type} [ModelState σ] {X : Exploration σ} {b : Builder} {k : Key} {n : Node} {old : List Step}

/-- The node `n` is a draft of the node `k`, whose steps in the store are `old`. -/
structure Draft (X : Exploration σ) (k : Key) (old : List Step) (s : Store) (n : Node) : Prop where
  lawful : X.Lawful s
  admits : X.Admits s k n
  state : X.IsState k n.stateBits
  stored : ∃ n', s.node k = .ok n' ∧ n'.steps = old
  grown : old <+: n.steps

/-- What is left after a fault, if the log fits: a lawful graph, and no counterexample found or
lost. -/
def Stopped (X : Exploration σ) (f : Fault) (b : Builder) : Prop :=
  b.store.log.Fits → ¬ f.IsCounterexample ∧ X.Lawful b.store

theorem Lawful.stopped (h : X.Lawful b.store) (d : Defect) : X.Stopped (.defect d) b :=
  fun _ => ⟨id, h⟩

end Exploration

/-- To record a node changes the steps of none. -/
theorem Store.exists_node_record {s : Store} {l : Key} {n : Node} (h : s.node l = .ok n) (k parent : Key) :
    ∃ n', (s.record k parent).node l = .ok n' ∧ n'.steps = n.steps := by
  cases hk : s.isUnseen k with
  | false => exact ⟨n, by rw [record_of_seen hk, h], rfl⟩
  | true =>
    rw [record_of_unseen hk]
    unfold node at h ⊢
    rw [slot?_insert]
    by_cases hl : l = k
    · subst hl
      rw [isUnseen_iff.mp hk] at h
      obtain rfl := Except.ok.inj h
      rw [if_pos rfl]
      exact ⟨_, rfl, by rw [Node.steps_eq_nil rfl, Node.steps_eq_nil rfl]⟩
    · rw [if_neg hl]
      exact ⟨n, h, rfl⟩

namespace Exploration

variable {σ : Type} [ModelState σ] {X : Exploration σ} {b : Builder} {k target : Key} {n : Node} {old : List Step}
  {width : Nat} {row : Bits}

/-- A draft with a step added to a node that it has no step to. -/
theorem Draft.addStep {s : Store} (h : X.Draft k old s n) {offset hint : Nat}
    (hstep : X.IsStep k ⟨target, .ofFn width fun i => row.get (offset + i)⟩) (hnew : target ∉ n.targets) {n' : Node}
    (hn' : n.addStep target width row offset hint = (.ok (), n')) :
    X.Draft k old (s.record target k) n' ∧ n'.targets = n.targets ++ [target] := by
  obtain ⟨-, hsteps, -, hsame⟩ := Node.addStep_spec h.admits.tidy.whole hn'
  have htargets : n'.targets = n.targets ++ [target] := by
    rw [Node.targets_eq, hsteps, List.map_append, ← Node.targets_eq]
    rfl
  obtain ⟨n₀, hn₀, hold⟩ := h.stored
  obtain ⟨n₁, hn₁, hsteps₁⟩ := Store.exists_node_record hn₀ target k
  refine ⟨⟨h.lawful.record hstep, ?_, ?_, ⟨n₁, hn₁, hsteps₁.trans hold⟩, ?_⟩, htargets⟩
  · refine ⟨hsame.key.trans h.admits.key, h.admits.isKey, h.admits.tidy.addStep hn', ?_, ?_, ?_, ?_⟩
    · rw [htargets, List.nodup_append]
      refine ⟨h.admits.nodup, List.nodup_singleton _, fun x hx y hy => ?_⟩
      rw [List.mem_singleton.mp hy]
      rintro rfl
      exact hnew hx
    · rw [hsteps]
      intro e he
      rcases List.mem_append.mp he with he | he
      · exact h.admits.step e he
      · rw [List.mem_singleton.mp he]
        exact hstep
    · rw [hsteps]
      intro e he
      rw [Store.isUnseen_record]
      rcases List.mem_append.mp he with he | he
      · simp [h.admits.seen e he]
      · simp [List.mem_singleton.mp he]
    · rw [hsame.parent]
      exact h.admits.parent
  · rw [hsame.stateBits]
    exact h.state
  · rw [hsteps]
    exact h.grown.trans (List.prefix_append _ _)

/-- **A link gives the draft a step to its target**, and the target is known then. Whether
it was known before is the second part of the result. -/
theorem link_spec (h : X.Draft k old b.store n) {offset hint : Except Defect Nat}
    (hstep : ∀ o, offset = .ok o → X.IsStep k ⟨target, .ofFn width fun i => row.get (o + i)⟩) :
    (Builder.link n target width row offset hint k).Meets b
      (fun r b' => b' = { b with store := b.store.record target k } ∧ X.Draft k old b'.store r.1 ∧
        n.targets ⊆ r.1.targets ∧ target ∈ r.1.targets ∧ r.2 = b.store.isUnseen target) X.Stopped := by
  refine Builder.meets_link (fun hseen hmem => ?_) (fun hlink o j n' ho _ hadd => ?_) fun _ d _ => h.lawful.stopped d
  · rw [Store.record_of_seen hseen]
    exact ⟨rfl, h, List.Subset.refl _, hmem, hseen.symm⟩
  · have hnew : target ∉ n.targets := by
      rcases hlink with hunseen | hnew
      · intro hmem
        rw [Node.targets_eq] at hmem
        obtain ⟨e, he, rfl⟩ := List.mem_map.mp hmem
        rw [h.admits.seen e he] at hunseen
        cases hunseen
      · exact hnew
    obtain ⟨hdraft, htargets⟩ := h.addStep (hstep o ho) hnew hadd
    refine ⟨rfl, hdraft, ?_, by simp [htargets], rfl⟩
    rw [htargets]
    exact List.subset_append_left _ _

end Exploration

/-! ### Writing the draft -/

/-- The node `k` is read with other steps; apart from that nothing changes. -/
structure Store.Rewrites (s : Store) (k : Key) (steps : List Step) (s' : Store) : Prop where
  self : ∃ n, s'.node k = .ok n ∧ n.steps = steps
  other : ∀ l, l ≠ k → s'.node l = s.node l
  isUnseen : ∀ l, s'.isUnseen l = (decide (l ≠ k) && s.isUnseen l)
  isDone : ∀ fp, s'.isDone fp = s.isDone fp
  roots : s'.roots = s.roots

theorem Store.Rewrites.draw {s s' : Store} {k : Key} {steps : List Step} (h : s.Rewrites k steps s') (d : Drawings) :
    s.Rewrites k steps { s' with drawings := d } :=
  ⟨h.self, h.other, h.isUnseen, h.isDone, h.roots⟩

namespace Exploration

variable {σ : Type} [ModelState σ] {X : Exploration σ} {b : Builder} {s : Store} {k : Key} {n : Node} {old : List Step}

theorem Lawful.draw (h : X.Lawful s) (d : Drawings) : X.Lawful { s with drawings := d } :=
  ⟨⟨h.intact.whole, h.intact.recorded, h.intact.readable⟩,
    fun k n hk => { h.admits k n hk with seen := (h.admits k n hk).seen }, h.state, h.root⟩

theorem Admits.trim (h : X.Admits s k n) : X.Admits s k n.trim :=
  { h with tidy := h.tidy.trim }

/-- The draft is written. -/
theorem Draft.addNode (h : X.Draft k old s n) (hfits : (s.addNode n.trim).log.Fits) :
    X.Lawful (s.addNode n.trim) ∧ s.Rewrites k n.steps (s.addNode n.trim) := by
  have hkey : n.trim.key = k := h.admits.key
  have htidy := h.admits.trim.tidy
  have hself := Store.node_addNode_self h.lawful.intact htidy.whole (h.lawful.intact.storable htidy hfits)
  rw [hkey] at hself
  refine ⟨h.lawful.addNode h.admits.trim h.state hfits, ⟨⟨_, hself, rfl⟩, fun l hl => ?_, fun l => ?_, ?_, ?_⟩⟩
  · exact Store.node_addNode_of_ne h.lawful.intact (hkey ▸ hl)
  · rw [Store.isUnseen_addNode, hkey]
  · exact fun fp => Store.isDone_addNode ..
  · exact Store.roots_addNode ..

/-- A draft that is no longer than what is stored has nothing to write. -/
theorem Draft.rewrites_self (h : X.Draft k old s n) (hseen : s.isUnseen k = false) (hdegree : n.degree ≤ old.length) :
    s.Rewrites k n.steps s := by
  obtain ⟨n', hn', hold⟩ := h.stored
  have hsteps : old = n.steps := h.grown.eq_of_length_le (by rwa [Node.length_steps])
  refine ⟨⟨n', hn', hold.trans hsteps⟩, fun _ _ => rfl, fun l => ?_, fun _ => rfl, rfl⟩
  by_cases hl : l = k <;> simp [hl, hseen]

end Exploration

/-- The edges of an intact graph can be drawn. -/
theorem Store.Intact.meets_draw {σ : Type} {s : Store} (h : s.Intact) (t : Option (Tableau σ)) (title : String) :
    Outcome.Meets (s.draw t title) (fun _ => True) False := by
  refine (Outcome.meets_mapM (Q := fun _ => True) fun k _ => ?_).bind fun _ _ => trivial
  obtain ⟨n, hn, -⟩ := h.exists_node k
  rw [drawEdges, hn]
  trivial

/-- Drawing the graph does not change it, whether the drawing can be saved or not. -/
theorem Builder.snapshot_frame {σ : Type} {b : Builder} (p : Property σ) :
    (Builder.snapshot p).Meets b (fun _ b' => ∃ d, b'.store = { b.store with drawings := d })
      (fun _ b' => ∃ d, b'.store = { b.store with drawings := d }) :=
  meets_snapshot (fun d _ _ _ => ⟨d, rfl⟩) (fun _ _ _ _ => ⟨b.store.drawings, rfl⟩)
    fun _ _ _ _ => ⟨b.store.drawings, rfl⟩

namespace Exploration

variable {σ : Type} [ModelState σ] {X : Exploration σ} {b : Builder} {s : Store} {k : Key} {n : Node} {old : List Step}
  {bits : Bits}

/-- A node that is read to be expanded is a draft with the state checks set. A node never
seen before has no parent and must be a start. -/
theorem Lawful.draft (h : X.Lawful s) (hkey : X.IsKey k) (hn : s.node k = .ok n)
    (hstart : s.isUnseen k = true → X.IsStart k) (hbits : X.IsState k bits) :
    X.Draft k n.steps s (n.setState bits) := by
  have hadmits : X.Admits s k n := by
    cases hk : s.isUnseen k with
    | false => exact h.admits k n ⟨hk, hn⟩
    | true =>
      rw [Store.node, Store.isUnseen_iff.mp hk] at hn
      obtain rfl := Except.ok.inj hn
      exact admits_recorded s hkey (hstart hk)
  exact ⟨h, { hadmits with tidy := hadmits.tidy.setState bits }, hbits, ⟨n, hn, rfl⟩, List.prefix_rfl⟩

/-- The draft is written and the graph is drawn. -/
theorem Draft.write (h : X.Draft k old b.store n) (p : Property σ) :
    (Builder.onStore (fun s => s.addNode n.trim) >>= fun _ => Builder.snapshot p).Meets b
      (fun _ b' => b'.store.log.Fits → X.Lawful b'.store ∧ b.store.Rewrites k n.steps b'.store) X.Stopped := by
  refine (Builder.meets_onStore _).bind ?_
  rintro _ b rfl
  refine Builder.meets_snapshot (fun d _ _ _ hfits => ?_) (fun title f _ hf hfits => ?_) fun _ _ _ _ hfits => ?_
  · obtain ⟨hlawful, hrewrites⟩ := h.addNode hfits
    exact ⟨hlawful.draw d, hrewrites.draw d⟩
  · obtain ⟨hlawful, -⟩ := h.addNode hfits
    obtain ⟨text, htext, -⟩ := (hlawful.intact.meets_draw p.tableau title).exists_eq id
    rw [htext] at hf
    cases hf
  · exact ⟨id, (h.addNode hfits).1⟩

/-- A draft that is longer than what is stored, or that is not stored yet, is written. -/
theorem keep_spec (h : X.Draft k old b.store n) (p : Property σ) (revisits : Bool) :
    (Builder.keep p n old.length revisits).Meets b
      (fun _ b' => b'.store.log.Fits → X.Lawful b'.store ∧ b.store.Rewrites k n.steps b'.store) X.Stopped := by
  refine Builder.meets_keep (fun _ => h.write p) fun hdegree hbefore warnings => ⟨fun _ _ => ?_, fun _ => ?_⟩
  · obtain ⟨n', hn', hsteps⟩ := h.stored
    have hold : n'.steps ≠ [] := hsteps ▸ List.ne_nil_of_length_pos hbefore
    have hseen := Store.isUnseen_of_isWritten (Store.isWritten_of_steps hn' hold)
    exact ⟨h.lawful, h.rewrites_self hseen hdegree⟩
  · exact Lawful.stopped (b := { b with warnings := warnings }) h.lawful _

end Exploration

end Liveness

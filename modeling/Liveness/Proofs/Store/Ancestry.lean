import Liveness.Proofs.Store.Path

/-!
# Where the nodes of a graph come from

A node comes into the graph as a root or as the target of a step, and remembers the node
that the step started from. In a graph with *ancestry* the record of that node has the step,
a node that remembers none is a root, and the way back from parent to parent comes to an end.

A graph *extends* another if the nodes it has beside those of the other came in like this:
as roots, or from nodes that the other graph had already. What extends a graph with ancestry
has ancestry (`Ancestry.extend`), since the way to a new node is the way to its parent and one
step more.
-/

namespace Liveness.Store

variable {s s' : Store} {k l q : Key} {n : Node} {parent : Option Key}

/-- The record of the written node `q` has a step to `k`. -/
def Leads (s : Store) (q k : Key) : Prop := s.isWritten q = true ∧ ∃ n, s.node q = .ok n ∧ k ∈ n.targets

theorem leads_of_holds (h : s.Holds q n) (hk : k ∈ n.targets) : s.Leads q k := by
  refine ⟨isWritten_of_steps h.2 fun hnil => ?_, n, h.2, hk⟩
  rw [Node.targets_eq, hnil] at hk
  cases hk

theorem Leads.exists_holds (h : s.Leads q k) : ∃ n, s.Holds q n ∧ k ∈ n.targets := by
  obtain ⟨hwritten, n, hn, hk⟩ := h
  exact ⟨n, ⟨isUnseen_of_isWritten hwritten, hn⟩, hk⟩

/-- Every node without a parent is a root, every parent has a step to its child, and there is
a way to every node. -/
structure Ancestry (s : Store) : Prop where
  root : ∀ l, s.HasParent l none → l ∈ s.roots
  leads : ∀ q l, s.HasParent l (some q) → s.Leads q l
  trace : ∀ l, s.isUnseen l = false → ∃ ks, s.IsTrace l ks

/-- The node `l` is new in `s'`, as a root or as one that a node of `s` leads to. -/
structure Arrives (s s' : Store) (l : Key) (parent : Option Key) : Prop where
  new : s.isUnseen l = true
  origin : match parent with
    | none => l ∈ s'.roots
    | some q => s.isUnseen q = false ∧ s'.Leads q l

/-- The store `s'` has the nodes of `s` with their parents, and other nodes that arrived. -/
structure Extends (s s' : Store) : Prop where
  intact : s'.Intact
  roots : s.roots ⊆ s'.roots
  leads : ∀ q l, s.Leads q l → s'.Leads q l
  kept : ∀ l parent, s.HasParent l parent → s'.HasParent l parent
  arrives : ∀ l parent, s'.HasParent l parent → s.HasParent l parent ∨ s.Arrives s' l parent

theorem HasParent.seen (h : s.HasParent l parent) : s.isUnseen l = false := by
  obtain ⟨n, hn, -⟩ := h
  exact hn.1

theorem Intact.exists_parent (h : s.Intact) (hl : s.isUnseen l = false) : ∃ parent, s.HasParent l parent := by
  obtain ⟨n, hn, -⟩ := h.exists_holds hl
  exact ⟨n.parent, n, hn, rfl⟩

theorem Extends.seen (h : s.Extends s') (hs : s.Intact) (hl : s.isUnseen l = false) : s'.isUnseen l = false := by
  obtain ⟨parent, hparent⟩ := hs.exists_parent hl
  exact (h.kept l parent hparent).seen

/-- The way to a node stays when others arrive. -/
theorem Extends.trace (h : s.Extends s') (hs : s.Intact) {ks : List Key} (hks : s.IsTrace l ks) : s'.IsTrace l ks :=
  hks.mono h.kept fun _ => h.seen hs

/-- **What extends a graph with ancestry has ancestry.** -/
theorem Ancestry.extend (h : s.Ancestry) (hs : s.Intact) (hext : s.Extends s') : s'.Ancestry := by
  constructor
  · intro l hl
    rcases hext.arrives l none hl with hl | harrives
    · exact hext.roots (h.root l hl)
    · exact harrives.origin
  · intro q l hl
    rcases hext.arrives l (some q) hl with hl | harrives
    · exact hext.leads q l (h.leads q l hl)
    · exact harrives.origin.2
  · intro l hl
    obtain ⟨parent, hparent⟩ := hext.intact.exists_parent hl
    rcases hext.arrives l parent hparent with hold | harrives
    · obtain ⟨ks, hks⟩ := h.trace l hold.seen
      exact ⟨ks, hext.trace hs hks⟩
    cases parent with
    | none =>
      exact ⟨[l], ⟨⟨l, rfl, hparent⟩, List.isChain_singleton l⟩, rfl, List.nodup_singleton l, by simpa using hl⟩
    | some q =>
      obtain ⟨ks, hks⟩ := h.trace q harrives.origin.1
      refine ⟨ks ++ [l], (hext.trace hs hks).concat hparent fun hmem => ?_⟩
      have hnew := harrives.new
      rw [hks.seen l hmem] at hnew
      cases hnew

theorem Ancestry.of_empty (htable : s.table = ∅) : s.Ancestry := by
  have hnone : ∀ {l}, s.isUnseen l ≠ false := fun hl => by cases hl.symm.trans (isUnseen_of_empty htable _)
  exact ⟨fun l hl => absurd hl.seen hnone, fun q l hl => absurd hl.seen hnone, fun l hl => absurd hl hnone⟩

/-- **A path of a graph with ancestry starts at a root and follows the steps of written nodes**,
and there is one to every node. -/
theorem Ancestry.exists_path (h : s.Ancestry) (hs : s.Intact) (hcounted : s.Counted)
    (hsize : s.keys.length + 1 < 2 ^ 64) (hk : k ∈ s.keys) :
    ∃ ks : List Key, (∀ c, s.Recalls c → ∃ c', s.path k c = (.ok (ks.map Key.fp), c') ∧ s.Recalls c') ∧
      ks.getLast? = some k ∧ (∃ root ∈ s.roots, ks.head? = some root) ∧ ks.IsChain s.Leads := by
  obtain ⟨ks, hks⟩ := h.trace k (mem_keys_iff.mp hk)
  obtain ⟨root, hroot, hnone⟩ := hks.descent.root
  refine ⟨ks, fun c hc => hks.path_spec hs hcounted hsize hc, hks.last, ⟨root, h.root root hnone, hroot⟩, ?_⟩
  exact hks.descent.chain.imp h.leads

/-! ### Changes that extend a graph -/

/-- A change that keeps what is read of every node extends the graph. -/
theorem extends_of_same (hs : s'.Intact) (hroots : s'.roots = s.roots) (hseen : ∀ l, s'.isUnseen l = s.isUnseen l)
    (hnode : ∀ l, s'.node l = s.node l) : s.Extends s' := by
  have hholds : ∀ l n, s'.Holds l n ↔ s.Holds l n := fun l n => by rw [Holds, Holds, hseen, hnode]
  refine ⟨hs, by rw [hroots]; exact List.Subset.refl _, fun q l hl => ?_, fun l parent hl => ?_, fun l parent hl => ?_⟩
  · obtain ⟨n, hn, hmem⟩ := hl.exists_holds
    exact leads_of_holds ((hholds q n).mpr hn) hmem
  · obtain ⟨n, hn, hparent⟩ := hl
    exact ⟨n, (hholds l n).mpr hn, hparent⟩
  · obtain ⟨n, hn, hparent⟩ := hl
    exact .inl ⟨n, (hholds l n).mp hn, hparent⟩

/-- A new root arrives. -/
theorem extends_addRoot (hs : s.Intact) (k : Key) : s.Extends (s.addRoot k) := by
  have hkept : ∀ l n, s.Holds l n → (s.addRoot k).Holds l n := fun l n hn => holds_addRoot.mpr (.inl hn)
  refine ⟨hs.addRoot k, fun l hl => mem_roots_addRoot.mpr (.inl hl), fun q l hl => ?_, fun l parent hl => ?_,
    fun l parent hl => ?_⟩
  · obtain ⟨n, hn, hmem⟩ := hl.exists_holds
    exact leads_of_holds (hkept q n hn) hmem
  · obtain ⟨n, hn, hparent⟩ := hl
    exact ⟨n, hkept l n hn, hparent⟩
  · obtain ⟨n, hn, rfl⟩ := hl
    rcases holds_addRoot.mp hn with hn | ⟨hnew, rfl, rfl⟩
    · exact .inl ⟨n, hn, rfl⟩
    · exact .inr ⟨hnew, mem_roots_addRoot.mpr (.inr rfl)⟩

end Liveness.Store

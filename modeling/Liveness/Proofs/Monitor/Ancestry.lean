import Liveness.Proofs.Monitor.Calls
import Liveness.Proofs.Store.Ancestry
import Liveness.Proofs.Store.Overlong

/-!
# Paths to the nodes of a monitor with a tableau

A monitor with a tableau expands only nodes that were seen, so every node it adds arrives as
a root or from a node that was there. The parent of a new node is fixed when the step to it is
linked, and the record with the step is written when the expansion is through; since a call
comes back only at the end of a turn, the two agree whenever one can look. So there is always
a path to every node, whatever the calls were and whatever they came back with, as long as the
records that were written fit the log (`exists_path_of_made`).
-/

namespace Liveness

variable {σ : Type} [ModelState σ]

/-- With a tableau only nodes that were seen are expanded. -/
theorem Builder.Offered.seen {p : Property σ} {t : Tableau σ} (ht : p.tableau = some t) {k : Key} {m : Model σ}
    {fp : Fingerprint} {successors : List σ} {checks : StepChecks} {s : Store} {o : Offer σ}
    (h : Builder.Offered p k m fp successors checks s o) : s.isUnseen k = false := by
  cases h with
  | handed _ hseen => exact hseen.resolve_right fun hplain => by simp [ht] at hplain
  | late _ _ _ hseen _ => exact hseen

namespace Store

variable {p : Property σ} {s s' : Store} {k : Key} {n n' : Node} {o : Offer σ} {e : Step} {fp : Fingerprint}
  {successors : List σ} {checks : StepChecks}

/-! ### Nodes -/

/-- The node may stand in the graph: its steps lead to different nodes, and these were seen. -/
structure Admits (s : Store) (k : Key) (n : Node) : Prop where
  key : n.key = k
  tidy : n.Tidy
  nodup : n.targets.Nodup
  seen : ∀ l ∈ n.targets, s.isUnseen l = false

theorem Admits.mono (h : s.Admits k n) (hseen : ∀ l, s.isUnseen l = false → s'.isUnseen l = false) : s'.Admits k n :=
  { h with seen := fun l hl => hseen l (h.seen l hl) }

theorem Admits.normal (h : s.Admits k n) : s.Admits k n.normal := ⟨h.key, h.tidy.normal, h.nodup, h.seen⟩

theorem Admits.trim (h : s.Admits k n) : s.Admits k n.trim := ⟨h.key, h.tidy.trim, h.nodup, h.seen⟩

theorem Admits.setState (h : s.Admits k n) (bits : Bits) : s.Admits k (n.setState bits) :=
  ⟨h.key, h.tidy.setState bits, h.nodup, h.seen⟩

theorem admits_recorded (s : Store) (k : Key) (parent : Option Key) : s.Admits k { key := k, parent := parent } := by
  have hnone : Node.targets { key := k, parent := parent } = [] := by rw [Node.targets_eq, Node.steps_eq_nil rfl]; rfl
  exact ⟨rfl, Node.tidy_new k parent, by simp [hnone], by simp [hnone]⟩

/-- The node gets a new step, and the node that it leads to is recorded. -/
theorem Admits.link (h : s.Admits k n) (hlink : Builder.Link p o k s n e n') (origin : Key) :
    (s.record e.target origin).Admits k n' := by
  have htargets : n'.targets = n.targets ++ [e.target] := by
    rw [Node.targets_eq, hlink.steps, List.map_append, ← Node.targets_eq]
    rfl
  have hnot : e.target ∉ n.targets := by
    rcases hlink.new with hunseen | hnot
    · intro hmem
      rw [h.seen _ hmem] at hunseen
      cases hunseen
    · exact hnot
  refine ⟨hlink.same.key.trans h.key, hlink.whole.tidy (by simp [hlink.steps]), ?_, ?_⟩
  · rw [htargets]
    exact List.nodup_append.mpr ⟨h.nodup, List.nodup_singleton _, fun l hl l' hl' heq =>
      hnot (List.mem_singleton.mp hl' ▸ heq ▸ hl)⟩
  · rw [htargets]
    intro l hl
    rcases List.mem_append.mp hl with hl | hl
    · simp [h.seen l hl]
    · simp [List.mem_singleton.mp hl]

/-! ### The expansion of a node -/

/-- The node `n₀` of the store `s₀` has become `n` by new steps, and the nodes that they lead to
were recorded. -/
structure Grown (k : Key) (s₀ : Store) (n₀ : Node) (s : Store) (n : Node) : Prop where
  intact : s.Intact
  counted : s.Counted
  roots : s.roots = s₀.roots
  admits : s.Admits k n
  parent : n.parent = n₀.parent
  targets : n₀.targets ⊆ n.targets
  within : s₀.Within s
  kept : ∀ l m, s₀.Holds l m → s.Holds l m
  new : ∀ l m, s.Holds l m → s₀.Holds l m ∨
    (s₀.isUnseen l = true ∧ l ∈ n.targets ∧ m = { key := l, parent := some k })

theorem Grown.link {s₀ : Store} {n₀ : Node} (h : Grown k s₀ n₀ s n) (hlink : Builder.Link p o k s n e n') :
    Grown k s₀ n₀ (s.record e.target k) n' := by
  have htargets : n'.targets = n.targets ++ [e.target] := by
    rw [Node.targets_eq, hlink.steps, List.map_append, ← Node.targets_eq]
    rfl
  have hsub : n.targets ⊆ n'.targets := by
    rw [htargets]
    exact List.subset_append_left _ _
  refine ⟨h.intact.record _ _, h.counted.record _ _, (Store.roots_record ..).trans h.roots,
    h.admits.link hlink k,
    hlink.same.parent.trans h.parent, fun l hl => hsub (h.targets hl),
    fun l hl => Builder.within_record s _ _ l (h.within l hl), fun l m hm => ?_, fun l m hm => ?_⟩
  · exact Store.holds_record.mpr (.inl (h.kept l m hm))
  · rcases Store.holds_record.mp hm with hm | ⟨hunseen, rfl, rfl⟩
    · exact (h.new l m hm).imp_right fun ⟨hunseen, hmem, heq⟩ => ⟨hunseen, hsub hmem, heq⟩
    · refine .inr ⟨?_, by simp [htargets], rfl⟩
      by_contra hseen
      rw [h.within e.target (by simpa using hseen)] at hunseen
      cases hunseen

/-- **New steps are linked one by one.** -/
theorem grown_of_links {s₀ : Store} {n₀ : Node} (h : Builder.Links p o k k s₀ n₀ s n) (hintact : s₀.Intact)
    (hcounted : s₀.Counted) (hadmits : s₀.Admits k n₀) : Grown k s₀ n₀ s n := by
  induction h with
  | refl =>
    exact ⟨hintact, hcounted, rfl, hadmits, rfl, List.Subset.refl _, fun _ hl => hl, fun _ _ hm => hm,
      fun _ _ hm => .inl hm⟩
  | link _ hlink ih => exact ih.link hlink

/-! ### Graphs -/

/-- The store can be read, its nodes may stand in it, and there is a way to each. -/
structure Rooted (s : Store) : Prop where
  intact : s.Intact
  counted : s.Counted
  admits : ∀ l m, s.Holds l m → s.Admits l m
  ancestry : s.Ancestry

theorem Rooted.of_empty (hlog : s.log = {}) (htable : s.table = ∅) (hsize : s.size = 0) : s.Rooted := by
  refine ⟨.of_empty hlog htable, .of_empty htable hsize, fun l m hm => ?_, .of_empty htable⟩
  exact absurd hm (Store.not_holds_of_empty htable l m)

/-- A new root has a way to it. -/
theorem Rooted.addRoot (h : s.Rooted) (k : Key) : Rooted (s.addRoot k) := by
  have hext := Store.extends_addRoot h.intact k
  refine ⟨h.intact.addRoot k, h.counted.addRoot k, fun l m hm => ?_, h.ancestry.extend h.intact hext⟩
  rcases Store.holds_addRoot.mp hm with hm | ⟨-, rfl, rfl⟩
  · exact (h.admits l m hm).mono fun _ => hext.seen h.intact
  · exact admits_recorded _ l none

/-- A change that keeps what is read of every node. -/
theorem Rooted.of_same (h : s.Rooted) (hintact : s'.Intact) (hcounted : s'.Counted) (hroots : s'.roots = s.roots)
    (hseen : ∀ l, s'.isUnseen l = s.isUnseen l) (hnode : ∀ l, s'.node l = s.node l) : s'.Rooted := by
  have hext := Store.extends_of_same hintact hroots hseen hnode
  refine ⟨hintact, hcounted, fun l m hm => ?_, h.ancestry.extend h.intact hext⟩
  rw [Store.Holds, hseen, hnode] at hm
  exact (h.admits l m hm).mono fun _ => hext.seen h.intact

theorem Rooted.setDone (h : s.Rooted) (fp : Fingerprint) : Rooted (s.setDone fp) :=
  h.of_same (h.intact.setDone fp) (h.counted.setDone fp) rfl (Store.isUnseen_setDone s fp) (Store.node_setDone s fp)

theorem Rooted.draw (h : s.Rooted) (d : Drawings) : Rooted { s with drawings := d } :=
  h.of_same ⟨h.intact.whole, h.intact.recorded, h.intact.readable⟩ ⟨h.counted.tidy, h.counted.size_eq⟩ rfl (fun _ => rfl) fun _ => rfl

section

variable {s₀ : Store} {n₀ : Node}

theorem Grown.storable (h : Grown k s₀ n₀ s n) (hfits : (s.addNode n.trim).log.Fits) : n.trim.Storable :=
  h.intact.storable h.admits.trim.tidy hfits

/-- When the expanded node is written it is there, and the others are as before. -/
theorem Grown.holds_addNode (h : Grown k s₀ n₀ s n) (hfits : (s.addNode n.trim).log.Fits) {l : Key} {m : Node} :
    (s.addNode n.trim).Holds l m ↔ (l = k ∧ m = n.trim.normal) ∨ (l ≠ k ∧ s.Holds l m) := by
  have hiff : (s.addNode n.trim).Holds l m ↔ (l = n.trim.key ∧ m = n.trim.normal) ∨ (l ≠ n.trim.key ∧ s.Holds l m) :=
    Store.holds_addNode h.intact h.admits.trim.tidy.whole (h.storable hfits)
  rwa [show n.trim.key = k from h.admits.key] at hiff

theorem Grown.holds_self (h : Grown k s₀ n₀ s n) (hfits : (s.addNode n.trim).log.Fits) :
    (s.addNode n.trim).Holds k n.trim.normal :=
  (h.holds_addNode hfits).mpr (.inl ⟨rfl, rfl⟩)

/-- **When the expanded node is written the nodes that were recorded have arrived.** -/
theorem Grown.extends {bits : Bits} (h : Grown k s₀ (n₀.setState bits) s n) (hn₀ : s₀.Holds k n₀)
    (hfits : (s.addNode n.trim).log.Fits) : s₀.Extends (s.addNode n.trim) := by
  have hk := h.holds_self hfits
  refine ⟨h.intact.addNode h.admits.trim.tidy.whole (h.storable hfits), ?_, fun q l hl => ?_, fun l parent hl => ?_,
    fun l parent hl => ?_⟩
  · rw [Store.roots_addNode, h.roots]
    exact List.Subset.refl _
  · obtain ⟨m, hm, hmem⟩ := hl.exists_holds
    by_cases hq : q = k
    · subst hq
      obtain rfl := hm.unique hn₀
      exact Store.leads_of_holds hk (h.targets hmem)
    · exact Store.leads_of_holds ((h.holds_addNode hfits).mpr (.inr ⟨hq, h.kept q m hm⟩)) hmem
  · obtain ⟨m, hm, rfl⟩ := hl
    by_cases hl : l = k
    · subst hl
      obtain rfl := hm.unique hn₀
      exact ⟨_, hk, h.parent⟩
    · exact ⟨m, (h.holds_addNode hfits).mpr (.inr ⟨hl, h.kept l m hm⟩), rfl⟩
  · obtain ⟨m, hm, rfl⟩ := hl
    rcases (h.holds_addNode hfits).mp hm with ⟨rfl, rfl⟩ | ⟨-, hm⟩
    · exact .inl ⟨n₀, hn₀, h.parent.symm⟩
    · rcases h.new l m hm with hm | ⟨hunseen, hmem, rfl⟩
      · exact .inl ⟨m, hm, rfl⟩
      · exact .inr ⟨hunseen, hn₀.1, Store.leads_of_holds hk hmem⟩

/-- When the expanded node is written, a node of the store is this one, was there before or is new
and has no steps yet. -/
theorem Grown.holds_cases (h : Grown k s₀ n₀ s n) (hfits : (s.addNode n.trim).log.Fits) {l : Key} {m : Node}
    (hm : (s.addNode n.trim).Holds l m) :
    (l = k ∧ m = n.trim.normal) ∨ s₀.Holds l m ∨ m = { key := l, parent := some k } := by
  rcases (h.holds_addNode hfits).mp hm with hself | ⟨-, hm⟩
  · exact .inl hself
  · exact .inr ((h.new l m hm).imp_right fun hnew => hnew.2.2)

/-- The nodes may stand in the store in which the expanded node is written. -/
theorem Grown.admits_addNode (h : Grown k s₀ n₀ s n) (hadmits : ∀ l m, s₀.Holds l m → s₀.Admits l m)
    (hfits : (s.addNode n.trim).log.Fits) : ∀ l m, (s.addNode n.trim).Holds l m → (s.addNode n.trim).Admits l m := by
  have hmono : ∀ l, s.isUnseen l = false → (s.addNode n.trim).isUnseen l = false := fun l hl => by simp [hl]
  intro l m hm
  rcases h.holds_cases hfits hm with ⟨rfl, rfl⟩ | hm | rfl
  · exact h.admits.trim.normal.mono hmono
  · exact (hadmits l m hm).mono fun l hl => hmono l (h.within l hl)
  · exact admits_recorded _ l _

end

/-- A node that was seen is expanded. -/
theorem Rooted.grown (h : s.Rooted) (hholds : s.Holds k n)
    (hlinks : Builder.Links p o k k s (n.setState o.state) s' n') : Grown k s (n.setState o.state) s' n' :=
  grown_of_links hlinks h.intact h.counted ((h.admits k n hholds).setState o.state)

/-- **The expansion of a node that was seen keeps a way to every node.** -/
theorem Rooted.expand (h : s.Rooted) (hholds : s.Holds k n)
    (hlinks : Builder.Links p o k k s (n.setState o.state) s' n') (hfits : (s'.addNode n'.trim).log.Fits) :
    Rooted (s'.addNode n'.trim) := by
  have hgrown := h.grown hholds hlinks
  have hext := hgrown.extends hholds hfits
  exact ⟨hext.intact, hgrown.counted.addNode _, hgrown.admits_addNode h.admits hfits, h.ancestry.extend h.intact hext⟩

/-- **A turn keeps a way to every node** if there is a tableau, and if its record fits the log. -/
theorem Rooted.turn {m : Model σ} {t : Tableau σ} (ht : p.tableau = some t) (h : s.Rooted)
    (hturn : Builder.Turn p m fp successors checks s s') (hfits : s'.log.Fits) : s'.Rooted := by
  cases hturn with
  | setDone => exact h.setDone fp
  | draw d => exact h.draw d
  | @expand s' k origin n n' o hoffer hn horigin hlinks =>
    have hholds : s.Holds k n := ⟨hoffer.seen ht, hn⟩
    obtain rfl : origin = k := horigin.elim id fun horigin => horigin.trans (h.admits k n hholds).key
    exact h.expand hholds hlinks hfits

end Store

namespace Monitor

/-- After all calls that came back there is a way to every node, if there is a tableau. -/
theorem Made.rooted {m : Model σ} {p : Property σ} {t : Tableau σ} (ht : p.tableau = some t) {config : Config}
    {taken : List String} {index : Nat} {w₀ w : Monitor σ} (hw₀ : Monitor.create config taken p index = .ok w₀)
    {calls : List (Call σ)} (hmade : Made m w₀ calls w) : w.property = p ∧ w.store.Under w.store.Rooted := by
  obtain ⟨hp, hlog, htable, -, hempty⟩ := create_eq_ok hw₀
  subst hp
  exact hmade.invariant_under (by rw [hlog]; rfl) (.of_empty hlog htable hempty) (fun _ _ _ _ _ _ h => h.addRoot _)
    fun _ _ _ _ _ _ _ h hturn => h.turn ht hturn

end Monitor

/-- A tableau for the behaviours in which the counter stays at two. -/
def Counter.stayTableau : Tableau Counter :=
  (Tableau.ofNodes [⟨0, [0, 1], false, fun _ => true⟩, ⟨1, [1], true, fun c => c.value == 2⟩] 1).toOption.get
    (by decide)

/-- The property that the counter does not stay at two. -/
def Counter.leaves : Property Counter := { name := "leaves", tableau := some Counter.stayTableau }

namespace Monitor

/-- The expansion of a state of the counter. -/
def Call.ofCounter (c : Counter) : Call Counter :=
  .next (fingerprint c) (Counter.model.successors c) noChecks false

theorem Made.expandCounter {w₀ w : Monitor Counter} {calls : List (Call Counter)} (h : Made Counter.model w₀ calls w)
    (c : Counter)
    (hc : (addChecked Counter.model (fingerprint c) (Counter.model.successors c) noChecks false w).1.toOption.isSome =
      true) : Made Counter.model w₀ (.ofCounter c :: calls) (w.expandCounter c) :=
  h.expand hc

/-- A new monitor of the property that the counter does not stay at two. -/
def ofLeaves : Monitor Counter := ⟨Counter.leaves, { store := { folder := "", index := 0 } }⟩

end Monitor

namespace Monitor

end Monitor

end Liveness

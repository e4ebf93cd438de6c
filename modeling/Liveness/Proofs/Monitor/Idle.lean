import Liveness.Proofs.Monitor
import Liveness.Proofs.Monitor.Revisit

/-!
# Expanding a state in vain

A state that was expanded with all successors of the search has nothing to gain from being
expanded again: each of its nodes is complete, so no link adds a step. A node without steps is
written once more, with other state checks perhaps, and the others are left alone. So the graph
keeps its *shape*: its nodes with their parents and steps, its roots and its expanded states, as
long as the records that are written fit the log (`Monitor.sameShape_of_addChecked_again`).

Only a drawing can fail on the way, if a folder has taken its name. The shape stays then as well.
-/

namespace Liveness

/-! ### The shape of a graph -/

namespace Store

variable {s s' s'' : Store} {k : Key} {n₀ n : Node}

/-- The graph has the same nodes with the same parents and steps, the same roots and the same
expanded states. The state checks of its nodes may differ. -/
structure SameShape (s s' : Store) : Prop where
  keys : s'.keys = s.keys
  size : s'.size = s.size
  roots : s'.roots = s.roots
  isDone : ∀ fp, s'.isDone fp = s.isDone fp
  pointsAt : ∀ fp, s'.pointsAt fp = s.pointsAt fp
  node : ∀ k, ∃ n n', s.node k = .ok n ∧ s'.node k = .ok n' ∧ n'.parent = n.parent ∧ n'.steps = n.steps

theorem SameShape.refl (h : s.Intact) : s.SameShape s := by
  refine ⟨rfl, rfl, rfl, fun _ => rfl, fun _ => rfl, fun k => ?_⟩
  obtain ⟨n, hn, -⟩ := h.exists_node k
  exact ⟨n, n, hn, hn, rfl, rfl⟩

theorem SameShape.trans (h : s.SameShape s') (h' : s'.SameShape s'') : s.SameShape s'' := by
  refine ⟨h'.keys.trans h.keys, h'.size.trans h.size, h'.roots.trans h.roots, fun fp => (h'.isDone fp).trans (h.isDone fp),
    fun fp => (h'.pointsAt fp).trans (h.pointsAt fp), fun k => ?_⟩
  obtain ⟨n, n', hn, hn', hparent, hsteps⟩ := h.node k
  obtain ⟨m', m'', hm', hm'', hparent', hsteps'⟩ := h'.node k
  obtain rfl := Except.ok.inj (hn'.symm.trans hm')
  exact ⟨n, m'', hn, hm'', hparent'.trans hparent, hsteps'.trans hsteps⟩

theorem SameShape.draw (h : s.SameShape s') (d : Drawings) : s.SameShape { s' with drawings := d } :=
  ⟨h.keys, h.size, h.roots, h.isDone, h.pointsAt, h.node⟩

theorem SameShape.isUnseen (h : s.SameShape s') (k : Key) : s'.isUnseen k = s.isUnseen k := by
  have hmem : k ∈ s'.keys ↔ k ∈ s.keys := by rw [h.keys]
  rw [mem_keys_iff, mem_keys_iff] at hmem
  cases hk : s.isUnseen k with
  | false => exact hmem.mpr hk
  | true => exact eq_true_of_ne_false fun hk' => by simp [hmem.mp hk'] at hk

end Store

namespace Builder

variable {σ : Type} [ModelState σ] {b : Builder} {E : Fault → Builder → Prop} {n : Node}

variable {batch : Batch σ} {s : σ} {i : Nat} {g : Growth σ}

end Builder

/-! ### One state again -/

namespace Exploration

variable {σ : Type} [ModelState σ] {X : Exploration σ} {s s' : Store} {b b' b'' : Builder} {k : Key} {n : Node} {s₀ : σ}
  {successors : List σ} {checks : StepChecks}

/-- The graph has kept its shape, is as lawful as before, and can be drawn if it could. -/
structure Unmoved (X : Exploration σ) (b b' : Builder) : Prop where
  lawful : X.Lawful b'.store
  same : b.store.SameShape b'.store
  drawable : b.Drawable → b'.Drawable

theorem Unmoved.refl (h : X.Lawful b.store) : X.Unmoved b b := ⟨h, .refl h.intact, id⟩

theorem Unmoved.trans (h : X.Unmoved b b') (h' : X.Unmoved b' b'') : X.Unmoved b b'' :=
  ⟨h'.lawful, h.same.trans h'.same, fun hdraw => h'.drawable (h.drawable hdraw)⟩

/-- Without a tableau the node of a state was seen once the state was expanded. -/
theorem addChecked_seen {w w' : Monitor σ} (hp : w.property = X.property) (hplain : X.property.tableau = none)
    (hexpands : X.Expands s₀ successors checks) {revisits : Bool} (hlawful : X.Lawful w.store)
    (hsettled : X.Settled w.store)
    (hstart : w.store.isUnseen ⟨fingerprint s₀, Key.noPoint⟩ = true → X.IsStart ⟨fingerprint s₀, Key.noPoint⟩)
    {r : Option Lasso}
    (hw' : Monitor.addChecked X.model (fingerprint s₀) successors checks revisits w = (.ok r, w'))
    (hfits : w'.store.log.Fits) : w'.store.isUnseen ⟨fingerprint s₀, Key.noPoint⟩ = false := by
  have hcall : (Builder.addNext w.property X.model (fingerprint s₀) successors checks revisits).Meets w.builder
      (fun _ b' => b'.store.log.Fits → b'.store.isUnseen ⟨fingerprint s₀, Key.noPoint⟩ = false) (fun _ _ => True) := by
    rw [Builder.addNext, hp, hplain]
    refine ((addPlain_spec hplain rfl hexpands revisits hlawful hsettled hstart).mono (fun _ _ h hfits => (h hfits).2.2)
      fun _ _ _ => trivial).bind ?_
    exact fun _ _ h => h
  exact ((Monitor.meets_addChecked hcall).of_ok hw').2 hfits

end Exploration

/-! ### After any run -/

namespace Monitor

variable {σ : Type} [ModelState σ]

/-- After a run without a tableau the nodes of all states that were expanded were seen. -/
theorem Run.seen {X : Exploration σ} (hexact : ¬ X.exact) (hstarts : ∀ s, X.starts s)
    (hplain : X.property.tableau = none) {w₀ w : Monitor σ} (h₀ : X.Tracks [] [] w₀) {registered expanded : List σ}
    (h : Run X.model X.states w₀ registered expanded w) (hfits : w.store.log.Fits) :
    ∀ s ∈ expanded, w.store.isUnseen ⟨fingerprint s, Key.noPoint⟩ = false := by
  induction h with
  | start => exact fun s hs => by cases hs
  | @initial registered expanded w s hrun _ _ ih =>
    intro u hu
    have hunder := hrun.tracks hexact hstarts h₀
    have hfits₀ := hfits.of_isPrefix (w.addInitial_grows hunder.whole s _).log
    have hstore : (w.addInitial s (fingerprint s)).store = Builder.addInitial X.property s (fingerprint s) w.store := by
      rw [← (hunder.fits hfits₀).property_eq]
      rfl
    rw [hstore, Builder.addInitial_eq, Store.isUnseen_addRoots, ih hfits₀ u hu, Bool.and_false]
  | @next registered expanded w w' s successors checks revisits hrun hs hsuccessors hfps hw' ih =>
    have hunder := hrun.tracks hexact hstarts h₀
    have hfits₀ := hfits.of_isPrefix (addChecked_grows hunder.whole hw').log
    have htracks := hunder.fits hfits₀
    have hexpands := expands_of_fingerprints hexact hs hsuccessors hfps checks
    have hstart : ∀ k : Key, k.fp = fingerprint s → X.IsStart k := fun k hk => ⟨s, ⟨hs, hk.symm⟩, hstarts s⟩
    intro u hu
    rcases List.mem_cons.mp hu with rfl | hu
    · exact Exploration.addChecked_seen htracks.property_eq hplain hexpands htracks.lawful htracks.settled
        (fun _ => hstart _ rfl) hw' hfits
    · -- A state expanded before: no node is lost.
      have hadded := (Exploration.addChecked_spec htracks.property_eq hexpands revisits htracks.lawful htracks.settled
        fun _ _ => hstart _ rfl).of_ok hw'
      obtain ⟨past, htrack⟩ := (hadded.2 hfits).tracking rfl
      exact htrack.kept _ (by rw [Store.isUnseen_setDone, ih hfits₀ u hu])

end Monitor

end Liveness

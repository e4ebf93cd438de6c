import Liveness.Proofs.Property
import Liveness.Proofs.Tableau
import Liveness.Proofs.Builder.Tracking

/-!
# What late expansions do

Each expansion from the list of work makes one node complete and puts on the list the
nodes of expanded states that it finds. A node is put there when it is seen for the first
time, so each expansion is of another node and the fuel is enough: unless one of the
nodes shows a violation the list is empty in the end, and all is settled, if the log fits.
-/

namespace Liveness

namespace Exploration

variable {σ : Type} [ModelState σ] {X : Exploration σ} {b : Builder} {k target : Key} {n : Node} {old : List Step}
  {base : Store} {pending past : List Key} {work : List (Expansion σ)} {t : Tableau σ}

/-- A node in the course of its expansion, with the expansions still to do. -/
def Growing (X : Exploration σ) (base : Store) (k : Key) (old : List Step) (pending past : List Key)
    (g : Builder.Growth σ) (s : Store) : Prop :=
  X.Draft k old s g.1 ∧ X.Tracking base s pending past g.2

/-- **A link adds a step, and work if its target is new and of an expanded state.** -/
theorem link_growing (hproduct : X.property.tableau ≠ none) (h : X.Growing base k old pending past (n, work) b.store)
    {width : Nat} {row : Bits} {offset hint : Except Defect Nat}
    (hstep : ∀ o, offset = .ok o → X.IsStep k ⟨target, .ofFn width fun i => row.get (o + i)⟩) {s : σ}
    (hs : X.At target s) :
    (Builder.link n target width row offset hint k).Meets b
      (fun r b' => X.Growing base k old pending past
          (r.1, if r.2 && base.isDone target.fp then ⟨s, target⟩ :: work else work) b'.store ∧
        n.targets ⊆ r.1.targets ∧ target ∈ r.1.targets) X.Stopped := by
  refine (link_spec h.1 hstep).imp ?_
  rintro ⟨n', new⟩ b' ⟨rfl, hdraft, hsub, hmem, rfl⟩
  have htrack := h.2.record hproduct (e := ⟨s, target⟩) hs k
  exact ⟨⟨hdraft, htrack⟩, hsub, hmem⟩

/-! ### The steps of one expansion -/

variable {e : Expansion σ} {g : Builder.Growth σ}

/-- The state after a step of the model, or after none. -/
theorem At.next {s s' : σ} (h : X.At k s) (hs' : s' = s ∨ s' ∈ X.model.next s) : X.states s' := by
  rcases hs' with rfl | hs'
  · exact h.1
  · exact X.faithful.next_mem s h.1 s' hs'

theorem isStep_late (he : X.At e.key e.state) {s : σ} (hs : s = e.state ∨ s ∈ X.model.next e.state) {point : UInt32}
    (hpoint : X.property.IsPoint point) (o : Nat) (ho : (.ok 0 : Except Defect Nat) = .ok o) :
    X.IsStep e.key ⟨⟨fingerprint s, point⟩,
      .ofFn X.property.width fun i => (X.property.actionBits e.state s).get (o + i)⟩ := by
  obtain rfl := Except.ok.inj ho
  exact ⟨e.state, s, he, ⟨he.next hs, rfl⟩, hs, hpoint, fun _ i => X.property.get_actions e.state s i⟩

/-- The steps that stay in the state. -/
theorem stutter_spec (ht : X.property.tableau = some t) (he : X.At e.key e.state) (hdone : base.isDone e.key.fp = true)
    (total : Nat) (points : List (UInt32 × Nat)) (hpoints : ∀ x ∈ points, x.1.toNat < t.size) :
    ∀ g b, X.Growing base e.key old pending past g b.store →
      (Builder.stutter X.property t e (X.property.actionBits e.state e.state) total points g).Meets b
        (fun r b' => X.Growing base e.key old pending past r.1 b'.store ∧ g.1.targets ⊆ r.1.1.targets)
        X.Stopped := by
  intro g b h
  refine Builder.meets_stutter (P := fun _ g' (b' : Builder) =>
      X.Growing base e.key old pending past g' b'.store ∧ g.1.targets ⊆ g'.1.targets)
    (fun _ _ _ _ _ d hg _ => hg.1.1.lawful.stopped d) (fun _ _ _ hg => hg) (fun x hx tnode _ _ _ n work b' hg => ?_)
    (fun _ _ hg => hg) g b ⟨h, List.Subset.refl _⟩
  obtain ⟨hgrow, hsub⟩ := hg
  have hstep := isStep_late he (.inl rfl) (Property.isPoint_of_lt ht (hpoints x hx))
  rw [he.2] at hstep
  refine (link_growing (by simp [ht]) hgrow hstep ⟨he.1, he.2⟩).imp ?_
  rintro r b'' ⟨hgrow', hsub', -⟩
  rw [hdone, Bool.and_true] at hgrow'
  have hsub := List.Subset.trans hsub hsub'
  exact ⟨fun _ => ⟨hgrow', hsub⟩, fun _ => ⟨hgrow', hsub⟩⟩

/-- The step to a state at one point. -/
theorem lateStep_spec (ht : X.property.tableau = some t) (he : X.At e.key e.state) {s : σ}
    (hs : s = e.state ∨ s ∈ X.model.next e.state) {point : UInt32} (hpoint : point.toNat < t.size)
    (room : Except Defect Nat) (h : X.Growing base e.key old pending past g b.store) :
    (Builder.lateStep X.property t e s (X.property.actionBits e.state s) (base.isDone (fingerprint s)) room g point).Meets b
      (fun g' b' => X.Growing base e.key old pending past g' b'.store ∧ g.1.targets ⊆ g'.1.targets ∧
        ∀ l, (l = ⟨fingerprint s, point⟩ ∧ ∃ n', t.node point = .ok n' ∧ n'.allows s = true) → l ∈ g'.1.targets)
      X.Stopped := by
  refine Builder.meets_lateStep (fun d _ => h.1.lawful.stopped d) (fun _ _ _ => ?_) fun tnode htnode hallows => ?_
  · have hstep := isStep_late he hs (Property.isPoint_of_lt ht hpoint)
    refine (link_growing (by simp [ht]) h hstep ⟨he.next hs, rfl⟩).imp ?_
    rintro r b' ⟨hgrow, hsub, hmem⟩
    refine ⟨hgrow, hsub, ?_⟩
    rintro l ⟨rfl, -⟩
    exact hmem
  · refine ⟨h, List.Subset.refl _, ?_⟩
    rintro l ⟨-, n', hn', hallows'⟩
    rw [htnode] at hn'
    obtain rfl := Except.ok.inj hn'
    rw [hallows] at hallows'
    cases hallows'

/-- What the steps to a state bring: the state at each of the points that allows it. -/
def Brings (t : Tableau σ) (points : List UInt32) (s : σ) (l : Key) : Prop :=
  fingerprint s = l.fp ∧ l.point ∈ points ∧ ∃ n, t.node l.point = .ok n ∧ n.allows s = true

/-- What must follow a node is what the steps to the successors of its state bring. -/
theorem exists_brings (ht : X.property.tableau = some t) {s : σ} (hs : X.At k s) {tnode : Tableau.Node σ}
    (htnode : t.node k.point = .ok tnode) {l : Key} (hl : X.Requires k l) :
    ∃ s' ∈ X.model.successors s, Brings t tnode.successors s' l := by
  obtain ⟨-, s₁, s', hs₁, hs', hfp, hmoves⟩ := hl
  obtain rfl := hs.unique hs₁
  rw [Property.Moves, ht] at hmoves
  obtain ⟨n₁, n₂, hn₁, hmem, hn₂, hallows⟩ := hmoves
  rw [htnode] at hn₁
  obtain rfl := Except.ok.inj hn₁
  exact ⟨s', hs', hfp, hmem, n₂, hn₂, hallows⟩

/-- The steps to a state at all points. -/
theorem lateSteps_spec (ht : X.property.tableau = some t) (he : X.At e.key e.state) {points : List UInt32}
    (hpoints : ∀ point ∈ points, point.toNat < t.size) (total i : Nat) {s : σ} (hs : s ∈ X.model.next e.state)
    (h : X.Growing base e.key old pending past g b.store) :
    (Builder.lateSteps X.property t e points total g (s, i)).Meets b
      (fun g' b' => X.Growing base e.key old pending past g' b'.store ∧ g.1.targets ⊆ g'.1.targets ∧
        ∀ l, Brings t points s l → l ∈ g'.1.targets) X.Stopped := by
  refine Builder.meets_lateSteps ?_
  rw [h.2.done_eq]
  refine (Change.meets_foldlM_collect (fun g (b : Builder) => X.Growing base e.key old pending past g b.store)
    (fun g => g.1.targets) (fun x l => l = ⟨fingerprint s, x.1⟩ ∧ ∃ n, t.node x.1 = .ok n ∧ n.allows s = true)
    (fun x hx g b hg => ?_) g b h).imp ?_
  · exact lateStep_spec ht he (.inr hs) (hpoints x.1 (List.fst_mem_of_mem_zipIdx hx)) _ hg
  · rintro g' b' ⟨hgrow, hsub, hlinks⟩
    refine ⟨hgrow, hsub, ?_⟩
    rintro ⟨fp, point⟩ ⟨rfl, hmem, hallows⟩
    obtain ⟨j, hj⟩ := List.mem_iff_getElem?.mp hmem
    exact hlinks (point, j) (List.mem_zipIdx_iff_getElem?.mpr hj) _ ⟨rfl, hallows⟩

/-! ### Expansion after expansion -/

/-- **One expansion makes its node complete**, or the node shows a violation. -/
theorem expandOne_spec (ht : X.property.tableau = some t) (hlawful : X.Lawful b.store)
    (h : X.Tracking base b.store [] past (e :: work)) :
    (Builder.expandOne X.property X.model t e work).Meets b
      (fun r b' => b'.store.log.Fits →
        X.Lawful b'.store ∧ ∀ work', r = .ok work' → X.Tracking base b'.store [] (e.key :: past) work')
      X.Stopped := by
  have he : X.At e.key e.state := h.item e (by simp)
  obtain ⟨hseen, hdone⟩ := h.seen e.key (by simp)
  obtain ⟨n, hn, -⟩ := hlawful.intact.exists_holds hseen
  have hkey := (hlawful.admits e.key n hn).isKey
  refine Builder.meets_expandOne (fun d _ => hlawful.stopped d) (fun f hf => by rw [hn.2] at hf; cases hf)
    fun tnode n' htnode hn' => ?_
  obtain rfl : n' = n := Except.ok.inj (hn'.symm.trans hn.2)
  have hbits : X.IsState e.key (X.property.stateBits e.state) := fun _ s hs i => by rw [he.unique hs]
  have hdraft := hlawful.draft hkey hn' (fun h => by rw [hseen] at h; cases h) hbits
  rw [← Node.length_steps n']
  refine (stutter_spec ht he hdone _ _ (fun x hx => ?_) _ b ⟨hdraft, h.take⟩).imp ?_
  · exact Tableau.lt_size_of_mem_successors htnode (List.fst_mem_of_mem_zipIdx hx)
  rintro ⟨g, violated⟩ b' ⟨hgrow, -⟩
  refine ⟨fun _ => ⟨fun _ hfits => ?_, fun _ _ => ?_⟩, fun _ => ?_⟩
  · exact ⟨(hgrow.1.addNode hfits).1, fun work' hwork' => by cases hwork'⟩
  · exact ⟨hgrow.1.lawful, fun work' hwork' => by cases hwork'⟩
  · refine (Change.meets_foldlM_collect
      (fun g (b : Builder) => X.Growing base e.key n'.steps [e.key] (e.key :: past) g b.store)
      (fun g => g.1.targets) (fun x l => Brings t tnode.successors x.1 l)
      (fun x hx g b hg => ?_) g b' hgrow).imp ?_
    · have hx' : x.1 ∈ X.model.successors e.state := List.fst_mem_of_mem_zipIdx hx
      exact lateSteps_spec ht he (fun point => Tableau.lt_size_of_mem_successors htnode) _ x.2
        (List.mem_of_mem_filter hx') hg
    rintro g b ⟨hgrow, -, hlinks⟩
    have hrequired : ∀ l, X.Requires e.key l → l ∈ g.1.steps.map Step.target := by
      intro l hl
      obtain ⟨s, hs, hbrings⟩ := exists_brings ht he htnode hl
      obtain ⟨j, hj⟩ := List.mem_iff_getElem?.mp hs
      rw [← Node.targets_eq]
      exact hlinks (s, j) (List.mem_zipIdx_iff_getElem?.mpr hj) l hbrings
    refine ⟨fun _ => ?_, fun hsame _ => ?_⟩
    · refine (hgrow.1.write X.property).imp fun _ b' hb' hfits => ?_
      obtain ⟨hlawful', hrewrites⟩ := hb' hfits
      refine ⟨hlawful', fun work' hwork' => ?_⟩
      obtain rfl := Except.ok.inj hwork'
      exact hgrow.2.rewrite hrewrites hrequired
    · have hrewrites := hgrow.1.rewrites_self (hgrow.2.seen e.key (by simp)).1 hsame
      refine ⟨hgrow.1.lawful, fun work' hwork' => ?_⟩
      obtain rfl := Except.ok.inj hwork'
      exact hgrow.2.rewrite hrewrites hrequired

/-- Expansion after expansion. The fuel is at least the number of nodes that were not on the
list of work yet, so it is not used up before the list is empty. -/
theorem expandAll_spec (ht : X.property.tableau = some t) {s₀ : Store} (hs₀ : ∀ fp, s₀.isDone fp = base.isDone fp)
    (fuel : Nat) (hlawful : X.Lawful b.store) (h : X.Tracking base b.store [] past work)
    (hfuel : s₀.table.size * X.property.pointCount ≤ fuel + past.length) :
    (Builder.expandAll X.property X.model t fuel work).Meets b
      (fun r b' => b'.store.log.Fits → X.Lawful b'.store ∧ (r = none → ∃ past, X.Tracking base b'.store [] past []))
      X.Stopped := by
  refine Builder.meets_expandAll (I := fun fuel work (b : Builder) => b.store.Under (X.Lawful b.store ∧
      ∃ past, X.Tracking base b.store [] past work ∧ s₀.table.size * X.property.pointCount ≤ fuel + past.length))
    (fun fuel b h hfits => ?_) (fun e work b h hfits => ?_) (fun fuel e work b h => ?_) fuel work b
    ⟨hlawful.intact.whole, fun _ => ⟨hlawful, past, h, hfuel⟩⟩
  · obtain ⟨hlawful, past, htrack, -⟩ := h.fits hfits
    exact ⟨hlawful, fun _ => ⟨past, htrack⟩⟩
  · obtain ⟨hlawful, past, htrack, hfuel⟩ := h.fits hfits
    have := htrack.length_le hlawful hs₀
    rw [List.length_cons] at this
    omega
  · refine (Builder.meets_under (Q := fun r b' => X.Lawful b'.store ∧ ∀ work', r = .ok work' → ∃ past,
        X.Tracking base b'.store [] past work' ∧ s₀.table.size * X.property.pointCount ≤ fuel + past.length)
      h (fun s₀ => Builder.keeps_expandOne s₀.kept_grows e work) ?_).imp ?_
    · rintro ⟨hlawful, past, htrack, hfuel⟩
      refine (expandOne_spec ht hlawful htrack).imp fun r b' hb' hfits => ?_
      obtain ⟨hlawful', htrack'⟩ := hb' hfits
      exact ⟨hlawful', fun work' hwork' => ⟨e.key :: past, htrack' work' hwork', by rw [List.length_cons]; omega⟩⟩
    · intro r b' hb'
      refine ⟨fun k _ hfits => ⟨(hb'.fits hfits).1, fun h => by cases h⟩, fun work' hwork' => ?_⟩
      exact ⟨hb'.whole, fun hfits => ⟨(hb'.fits hfits).1, (hb'.fits hfits).2 work' hwork'⟩⟩

/-- **Late expansions leave nothing to do, unless one shows a violation.** -/
theorem expandLate_spec (ht : X.property.tableau = some t) (hlawful : X.Lawful b.store)
    (h : X.Tracking base b.store [] [] work) :
    (Builder.expandLate X.property X.model t work).Meets b
      (fun r b' => b'.store.log.Fits → X.Lawful b'.store ∧ (r = none → ∃ past, X.Tracking base b'.store [] past []))
      X.Stopped := by
  have hcount : X.property.pointCount = t.size := by rw [Property.pointCount, ht]
  exact Builder.meets_expandLate (expandAll_spec ht h.done_eq _ hlawful h (by rw [hcount]; exact Nat.le_add_right _ _))

end Exploration

end Liveness

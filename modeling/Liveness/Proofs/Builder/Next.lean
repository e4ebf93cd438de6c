import Liveness.Proofs.Builder.Late
import Liveness.Proofs.Builder.Behaviour

/-!
# What adding states does

To add the steps of a state keeps the graph lawful, whatever comes of it, as long as the
records that are written fit the log. If all successors
of the search are handed over and no violation shows, all nodes of expanded states are
complete afterwards, and a violation that shows is a behaviour of the model.
-/

namespace Liveness

namespace Builder

variable {σ : Type} {t : Tableau σ} {successors : List σ} {row row' : Bits}

/-- The bits of one node of a tableau. -/
theorem consistency_node (n : Tableau.Node σ) (hrow : row.Sized)
    (h : successors.zipIdx.foldlM (fun row (s, i) =>
      if n.allows s then (row.set (n.index.toNat * successors.length + i)).mapError Defect.ofMisuse
      else .ok row) row = .ok row') :
    row'.Sized ∧ ∀ j, row'.get j = true ↔ row.get j = true ∨ ∃ x ∈ successors.zipIdx,
      n.allows x.1 = true ∧ j = n.index.toNat * successors.length + x.2 := by
  refine Bits.foldlM_sets _ (fun x _ b b' hb hb' => ?_) row row' hrow h
  obtain ⟨s, i⟩ := x
  simp only at hb'
  by_cases hs : n.allows s = true
  · rw [if_pos hs] at hb'
    cases hset : b.set (n.index.toNat * successors.length + i) with
    | error e => rw [hset] at hb'; cases hb'
    | ok b'' =>
      rw [hset] at hb'
      obtain rfl := Except.ok.inj hb'
      obtain ⟨hsized, hget⟩ := Bits.set_eq_ok hb hset
      refine ⟨hsized, fun j => ?_⟩
      rw [hget]
      split_ifs with hji <;> simp [hs, hji]
  · rw [if_neg hs] at hb'
    obtain rfl := Except.ok.inj hb'
    exact ⟨hb, fun j => by simp [hs]⟩

/-- The bit of a point and a successor is set if the point allows the successor, and only
then. -/
theorem consistency_spec (h : consistency t successors = .ok row) {s : σ} {i : Nat} (hs : successors[i]? = some s)
    (point : UInt32) :
    row.get (point.toNat * successors.length + i) = true ↔ ∃ n, t.node point = .ok n ∧ n.allows s = true := by
  obtain ⟨-, hget⟩ := Bits.foldlM_sets _ (fun n _ row row' => consistency_node n) _ row (Bits.sized_zeros _) h
  rw [hget, Bits.get_zeros]
  constructor
  · rintro (hzero | ⟨n, hn, ⟨s', i'⟩, hs', hallows, hplace⟩)
    · cases hzero
    -- The places are those of a matrix, so that the place gives back its row and its column.
    · have hs' := List.mem_zipIdx_iff_getElem?.mp hs'
      have hi := (List.getElem?_eq_some_iff.mp hs).1
      have hi' := (List.getElem?_eq_some_iff.mp hs').1
      have hdiv : ∀ a j, j < successors.length → (a * successors.length + j) / successors.length = a := by
        intro a j hj
        rw [Nat.mul_comm, Nat.mul_add_div (Nat.zero_lt_of_lt hj), Nat.div_eq_of_lt hj, Nat.add_zero]
      have hrow : point.toNat = n.index.toNat := by rw [← hdiv point.toNat i hi, hplace, hdiv _ i' hi']
      have hcolumn : i = i' := by
        rw [hrow] at hplace
        exact Nat.add_left_cancel hplace
      obtain rfl : s = s' := Option.some.inj (hs.symm.trans (hcolumn ▸ hs'))
      obtain ⟨j, hj⟩ := List.mem_iff_getElem?.mp hn
      rw [Array.getElem?_toList] at hj
      exact ⟨n, Tableau.node_eq_ok_iff.mpr (by rw [hrow, t.index_eq j n hj, hj]), hallows⟩
  · rintro ⟨n, hn, hallows⟩
    have hnode := Tableau.node_eq_ok_iff.mp hn
    refine .inr ⟨n, Array.mem_toList_iff.mpr (Array.mem_of_getElem? hnode), (s, i), ?_, hallows, ?_⟩
    · exact List.mem_zipIdx_iff_getElem?.mpr hs
    · rw [t.index_eq _ _ hnode]

end Builder

namespace Exploration

variable {σ : Type} [ModelState σ] {X : Exploration σ} {b : Builder} {k : Key} {old : List Step}
  {base : Store} {pending past : List Key} {work : List (Expansion σ)} {t : Tableau σ}
  {g : Builder.Growth σ} {s₀ : σ} {successors : List σ} {checks : StepChecks}

/-- What is handed over when the state `s` is expanded: successors by steps of the model, and
results of the checks. -/
structure Expands (X : Exploration σ) (s : σ) (successors : List σ) (checks : StepChecks) : Prop where
  mem : X.states s
  next : ∀ t ∈ successors, t ∈ X.model.next s
  all : X.full → ∀ t ∈ X.model.successors s, t ∈ successors
  state : X.exact → ∀ i, checks.state.get i = (X.property.stateBits s).get i
  step : X.exact → ∀ i t, successors[i]? = some t → ∀ a,
    (Bits.ofFn checks.width fun j => checks.actions.get (i * checks.width + j)).get a = (X.property.actionBits s t).get a

theorem Expands.isStep (h : X.Expands s₀ successors checks) (hk : X.At k s₀) {i : Nat} {s : σ}
    (hs : successors[i]? = some s) {point : UInt32} (hpoint : X.property.IsPoint point) (o : Nat)
    (ho : mulWords i checks.width = .ok o) :
    X.IsStep k ⟨⟨fingerprint s, point⟩, .ofFn checks.width fun j => checks.actions.get (o + j)⟩ := by
  have hnext := h.next s (List.mem_of_getElem? hs)
  rw [mulWords] at ho
  split_ifs at ho
  obtain rfl := Except.ok.inj ho
  exact ⟨s₀, s, hk, ⟨X.faithful.next_mem s₀ hk.1 s hnext, rfl⟩, .inr hnext, hpoint, fun hexact => h.step hexact i s hs⟩

theorem Expands.isState (h : X.Expands s₀ successors checks) (hk : X.At k s₀) : X.IsState k checks.state := by
  intro hexact s hs i
  rw [h.state hexact, hk.unique hs]

/-! ### With a tableau -/

variable {batch : Builder.Batch σ}

/-- The step to a successor at one point. -/
theorem nextStep_spec (ht : X.property.tableau = some t) (hk : X.At k s₀)
    (hbatch : X.Expands s₀ batch.successors batch.checks) (used : Nat) {i : Nat} {s : σ}
    (hs : batch.successors[i]? = some s) {point : UInt32} (hpoint : point.toNat < t.size)
    (h : X.Growing base k old pending past g b.store) :
    (Builder.nextStep batch used s i (base.isDone (fingerprint s)) g point).Meets b
      (fun g' b' => X.Growing base k old pending past g' b'.store ∧ g.1.targets ⊆ g'.1.targets ∧
        ∀ l, (l = ⟨fingerprint s, point⟩ ∧
          batch.consistent.get (point.toNat * batch.successors.length + i) = true) → l ∈ g'.1.targets)
      X.Stopped := by
  refine Builder.meets_nextStep (fun _ => ?_) fun hconsistent => ⟨h, List.Subset.refl _, fun l hl => ?_⟩
  · rw [h.1.admits.key]
    have hnext := hbatch.next s (List.mem_of_getElem? hs)
    refine (link_growing (by simp [ht]) h (hbatch.isStep hk hs (Property.isPoint_of_lt ht hpoint))
      ⟨X.faithful.next_mem s₀ hk.1 s hnext, rfl⟩).imp ?_
    rintro r b' ⟨hgrow, hsub, hmem⟩
    refine ⟨hgrow, hsub, ?_⟩
    rintro l ⟨rfl, -⟩
    exact hmem
  · rw [hconsistent] at hl
    cases hl.2

/-- The steps to a successor at all points. -/
theorem nextSteps_spec (ht : X.property.tableau = some t) (hk : X.At k s₀)
    (hbatch : X.Expands s₀ batch.successors batch.checks)
    (hconsistent : Builder.consistency t batch.successors = .ok batch.consistent) (used : Nat) {i : Nat} {s : σ}
    (hs : batch.successors[i]? = some s) {points : List UInt32} (hpoints : ∀ point ∈ points, point.toNat < t.size)
    (h : X.Growing base k old pending past g b.store) :
    (Builder.nextSteps batch used points g (s, i)).Meets b
      (fun g' b' => X.Growing base k old pending past g' b'.store ∧ g.1.targets ⊆ g'.1.targets ∧
        ∀ l, Brings t points s l → l ∈ g'.1.targets) X.Stopped := by
  refine Builder.meets_nextSteps ?_
  rw [h.2.done_eq]
  refine (Change.meets_foldlM_collect (fun g (b : Builder) => X.Growing base k old pending past g b.store)
    (fun g => g.1.targets) (fun point l => l = ⟨fingerprint s, point⟩ ∧
      batch.consistent.get (point.toNat * batch.successors.length + i) = true)
    (fun point hpoint g b hg => nextStep_spec ht hk hbatch used hs (hpoints point hpoint) hg) g b h).imp ?_
  rintro g' b' ⟨hgrow, hsub, hlinks⟩
  refine ⟨hgrow, hsub, ?_⟩
  rintro ⟨fp, point⟩ ⟨rfl, hmem, n, hn, hallows⟩
  exact hlinks point hmem _ ⟨rfl, (Builder.consistency_spec hconsistent hs _).mpr ⟨n, hn, hallows⟩⟩

/-- **The node of a state at one point is complete** once it was expanded. -/
theorem expandPoint_spec (ht : X.property.tableau = some t) {fp : Fingerprint} (hfp : fingerprint s₀ = fp)
    (hbatch : X.Expands s₀ batch.successors batch.checks)
    (hconsistent : Builder.consistency t batch.successors = .ok batch.consistent) (revisits : Bool)
    (point : UInt32 × Nat) (hlawful : X.Lawful b.store)
    (h : X.Tracking base b.store (⟨fp, point.1⟩ :: pending) [] work) :
    (Builder.expandPoint X.property t batch fp revisits work point).Meets b
      (fun work' b' => b'.store.log.Fits → X.Lawful b'.store ∧ X.Tracking base b'.store pending [] work')
      X.Stopped := by
  obtain ⟨point, j⟩ := point
  have hk : X.At ⟨fp, point⟩ s₀ := ⟨hbatch.mem, hfp⟩
  have hseen := (h.waiting ⟨fp, point⟩ (by simp)).resolve_left (by simp [ht])
  obtain ⟨n, hn, -⟩ := hlawful.intact.exists_holds hseen
  have hkey := (hlawful.admits _ n hn).isKey
  refine Builder.meets_expandPoint (fun d _ => hlawful.stopped d) (fun f hf => by rw [hn.2] at hf; cases hf)
    fun tnode n' htnode hn' => ?_
  obtain rfl : n' = n := Except.ok.inj (hn'.symm.trans hn.2)
  have hdraft := hlawful.draft hkey hn' (fun h => by rw [hseen] at h; cases h) (hbatch.isState hk)
  refine (Change.meets_foldlM_collect
    (fun g (b : Builder) => X.Growing base ⟨fp, point⟩ n'.steps (⟨fp, point⟩ :: pending) [] g b.store)
    (fun g => g.1.targets) (fun x l => Brings t tnode.successors x.1 l)
    (fun x hx g b hg => ?_) _ b ⟨hdraft, h⟩).imp ?_
  · exact nextSteps_spec ht hk hbatch hconsistent _ (List.mem_zipIdx_iff_getElem?.mp hx)
      (fun point => Tableau.lt_size_of_mem_successors htnode) hg
  rintro g b' ⟨hgrow, -, hlinks⟩
  rw [← Node.length_steps n']
  refine (keep_spec hgrow.1 X.property revisits).imp fun _ b'' hb'' hfits => ?_
  obtain ⟨hlawful', hrewrites⟩ := hb'' hfits
  refine ⟨hlawful', hgrow.2.rewrite hrewrites fun l hl => ?_⟩
  obtain ⟨s, hs, hbrings⟩ := exists_brings ht hk htnode hl
  obtain ⟨i, hi⟩ := List.mem_iff_getElem?.mp (hbatch.all hl.1 s hs)
  rw [← Node.targets_eq]
  exact hlinks (s, i) (List.mem_zipIdx_iff_getElem?.mpr hi) l hbrings

/-- With a tableau the nodes of a state are pending at the points it was seen at. -/
theorem Settled.setDone_product {s : Store} (h : X.Settled s) (hproduct : X.property.tableau ≠ none)
    (fp : Fingerprint) :
    X.Tracking (s.setDone fp) (s.setDone fp)
      (((s.setDone fp).pointsAt fp).zipIdx.map fun x => ⟨fp, x.1⟩) [] [] := by
  refine h.setDone ?_ ?_
  · intro k hk
    obtain ⟨x, hx, rfl⟩ := List.mem_map.mp hk
    have hpoint := List.fst_mem_of_mem_zipIdx hx
    exact .inr (by simpa using (Store.mem_pointsAt (k := ⟨fp, x.1⟩)).mp hpoint)
  · rintro k rfl ⟨-, -, hseen⟩
    obtain ⟨i, hi⟩ := List.mem_iff_getElem?.mp (Store.mem_pointsAt.mpr (hseen.resolve_left hproduct))
    exact List.mem_map.mpr ⟨(k.point, i), List.mem_zipIdx_iff_getElem?.mpr hi, rfl⟩

/-- What adding the steps of a state comes to, after it was marked as expanded in `base`. -/
structure Added (X : Exploration σ) (base : Store) (r : Option Lasso) (b : Builder) : Prop where
  lawful : X.Lawful b.store
  tracking : r = none → ∃ past, X.Tracking base b.store [] past []
  behaviour : ∀ l, r = some l → X.IsBehaviour l

/-- The answer, once no late expansion is left or a node shows a violation. -/
theorem answer_spec (hlawful : X.Lawful b.store) {violation : Option Key}
    (hdone : violation = none → ∃ past, X.Tracking base b.store [] past []) :
    (Builder.answer violation).Meets b (fun r b' => b'.store.log.Fits → X.Added base r b') X.Stopped := by
  refine Builder.meets_answer (fun hnone _ => ?_) (fun key f _ hf _ => ?_) fun key path l _ hpath hl _ => ?_
  · exact ⟨hlawful, fun _ => hdone hnone, fun l hl => by cases hl⟩
  · rcases hlawful.pathTo key with ⟨path, hpath, -⟩ | ⟨f', hf', hcounterexample⟩
    · rw [hpath] at hf
      cases hf
    · obtain rfl := Except.error.inj (hf'.symm.trans hf)
      exact ⟨hcounterexample, hlawful⟩
  · rcases hlawful.pathTo key with ⟨path', hpath', -, htrail⟩ | ⟨f, hf, -⟩
    · obtain rfl := Except.ok.inj (hpath'.symm.trans hpath)
      refine ⟨hlawful, fun h => (by cases h), fun l' hl' => ?_⟩
      obtain rfl := Option.some.inj hl'
      exact htrail.isBehaviour (List.isChain_pair.mpr (.inl rfl)) hl
    · rw [hf] at hpath
      cases hpath

theorem addProduct_spec (ht : X.property.tableau = some t) {fp : Fingerprint} (hfp : fingerprint s₀ = fp)
    (hexpands : X.Expands s₀ successors checks) (revisits : Bool) (hlawful : X.Lawful b.store)
    (hsettled : X.Settled b.store) :
    (Builder.addProduct X.property X.model t fp successors checks revisits).Meets b
      (fun r b' => b'.store.log.Fits → X.Added (b.store.setDone fp) r b') X.Stopped := by
  have htrack := hsettled.setDone_product (by simp [ht]) fp
  have hbegin := Store.Under.mk (s := b.store.setDone fp) hlawful.intact.whole fun _ => And.intro (hlawful.setDone fp) htrack
  refine Builder.meets_addProduct (Builder.meets_expandState (fun d _ => hlawful.stopped d)
    fun consistent hconsistent => ?_)
  refine (Change.meets_foldlM
    (P := fun rest work (b' : Builder) => b'.store.Under (X.Lawful b'.store ∧
      X.Tracking (b.store.setDone fp) b'.store (rest.map fun x => ⟨fp, x.1⟩) [] work))
    (fun x rest work b' h => ?_) _ [] _ hbegin).imp ?_
  · refine Builder.meets_under h (fun s₀ => Builder.keeps_expandPoint s₀.kept_grows _ fp revisits work x) fun h' => ?_
    exact expandPoint_spec ht hfp hexpands hconsistent revisits x h'.1 h'.2
  intro work b' h'
  refine (Builder.meets_under h' (fun s₀ => Builder.keeps_expandLate s₀.kept_grows work) fun hwork =>
    expandLate_spec ht hwork.1 hwork.2).imp ?_
  intro violation b'' h''
  refine (Builder.meets_under h'' (fun _ => Builder.keeps_answer violation) fun hdone => answer_spec hdone.1 hdone.2).imp ?_
  exact fun r b₃ h₃ => h₃.fits

/-! ### Without a tableau -/

/-- The step to a successor. -/
theorem plainStep_spec (hplain : X.property.tableau = none) (hk : X.At k s₀)
    (hexpands : X.Expands s₀ successors checks) (count : Nat) {x : Fingerprint × Nat}
    (hx : (successors.map fingerprint)[x.2]? = some x.1) {n : Node} (hdraft : X.Draft k old b.store n)
    (h : X.Tracking base b.store pending past work) :
    (Builder.plainStep checks count n x).Meets b
      (fun n' b' => (X.Draft k old b'.store n' ∧ X.Tracking base b'.store pending past work) ∧
        n.targets ⊆ n'.targets ∧ ∀ l, l = ⟨x.1, Key.noPoint⟩ → l ∈ n'.targets) X.Stopped := by
  obtain ⟨fp, i⟩ := x
  rw [List.getElem?_map] at hx
  obtain ⟨s, hs, rfl⟩ := Option.map_eq_some_iff.mp hx
  have hpoint : X.property.IsPoint Key.noPoint := by
    rw [Property.IsPoint, hplain]
  refine Builder.meets_plainStep ?_
  rw [hdraft.admits.key]
  refine (link_spec hdraft (hexpands.isStep hk hs hpoint)).imp ?_
  rintro ⟨n', new⟩ b' ⟨rfl, hdraft', hsub, hmem, -⟩
  refine ⟨⟨hdraft', h.record_plain hplain _ _⟩, hsub, ?_⟩
  rintro l rfl
  exact hmem

/-- Without a tableau the one node of a state is pending. -/
theorem Settled.setDone_plain {s : Store} (h : X.Settled s) (hplain : X.property.tableau = none) (fp : Fingerprint) :
    X.Tracking (s.setDone fp) (s.setDone fp) [⟨fp, Key.noPoint⟩] [] [] := by
  refine h.setDone (fun _ _ => .inl hplain) ?_
  rintro ⟨fp, point⟩ rfl ⟨-, hpoint, -⟩
  rw [Property.IsPoint, hplain] at hpoint
  rw [List.mem_singleton]
  exact congrArg (Key.mk fp) hpoint

/-- What must follow a node without a tableau are the successors of its state. -/
theorem exists_successor (hplain : X.property.tableau = none) (hk : X.At k s₀) {l : Key} (hl : X.Requires k l) :
    ∃ s ∈ X.model.successors s₀, l = ⟨fingerprint s, Key.noPoint⟩ := by
  obtain ⟨-, s₁, s, hs₁, hs, hfp, hmoves⟩ := hl
  obtain rfl := hk.unique hs₁
  rw [Property.Moves, hplain] at hmoves
  exact ⟨s, hs, by rw [hfp, ← hmoves]⟩

/-- **The node of a state is complete** once it was expanded, and was seen. -/
theorem addPlain_spec (hplain : X.property.tableau = none) {fp : Fingerprint} (hfp : fingerprint s₀ = fp)
    (hexpands : X.Expands s₀ successors checks) (revisits : Bool) (hlawful : X.Lawful b.store)
    (hsettled : X.Settled b.store)
    (hstart : b.store.isUnseen ⟨fp, Key.noPoint⟩ = true → X.IsStart ⟨fp, Key.noPoint⟩) :
    (Builder.addPlain X.property fp (successors.map fingerprint) checks revisits).Meets b
      (fun _ b' => b'.store.log.Fits → X.Lawful b'.store ∧ X.Tracking (b.store.setDone fp) b'.store [] [] [] ∧
        b'.store.isUnseen ⟨fp, Key.noPoint⟩ = false) X.Stopped := by
  have hk : X.At ⟨fp, Key.noPoint⟩ s₀ := ⟨hexpands.mem, hfp⟩
  have hkey : X.IsKey ⟨fp, Key.noPoint⟩ := ⟨by rw [Property.IsPoint, hplain], s₀, hk⟩
  obtain ⟨n, hn, -⟩ := (hlawful.setDone fp).intact.exists_node ⟨fp, Key.noPoint⟩
  refine Builder.meets_addPlain (fun f hf => by rw [hn] at hf; cases hf) fun n' hn' => ?_
  obtain rfl : n' = n := Except.ok.inj (hn'.symm.trans hn)
  have hdraft := (hlawful.setDone fp).draft hkey hn (by simpa using hstart) (hexpands.isState hk)
  refine (Change.meets_foldlM_collect
    (fun n (b' : Builder) => X.Draft ⟨fp, Key.noPoint⟩ n'.steps b'.store n ∧
      X.Tracking (b.store.setDone fp) b'.store [⟨fp, Key.noPoint⟩] [] [])
    Node.targets (fun x l => l = ⟨x.1, Key.noPoint⟩) (fun x hx n b hn => ?_) _ _
    ⟨hdraft, hsettled.setDone_plain hplain fp⟩).imp ?_
  · exact plainStep_spec hplain hk hexpands _ (List.mem_zipIdx_iff_getElem?.mp hx) hn.1 hn.2
  rintro n b' ⟨⟨hdraft', htrack⟩, -, hlinks⟩
  rw [← Node.length_steps n']
  refine (keep_spec hdraft' X.property revisits).imp fun _ b'' hb'' hfits => ?_
  obtain ⟨hlawful', hrewrites⟩ := hb'' hfits
  refine ⟨hlawful', htrack.rewrite hrewrites fun l hl => ?_, by simp [hrewrites.isUnseen]⟩
  obtain ⟨s, hs, rfl⟩ := exists_successor hplain hk hl
  obtain ⟨i, hi⟩ := List.mem_iff_getElem?.mp (List.mem_map_of_mem (hexpands.all hl.1 s hs))
  rw [← Node.targets_eq]
  exact hlinks (fingerprint s, i) (List.mem_zipIdx_iff_getElem?.mpr hi) _ rfl

/-- **Adding the steps of a state keeps the graph lawful and all nodes of expanded states
complete, or gives a behaviour**, if the log fits. Without a tableau, a state that was never seen must be
one that behaviours start in. -/
theorem addNext_spec {fp : Fingerprint} (hfp : fingerprint s₀ = fp) (hexpands : X.Expands s₀ successors checks)
    (revisits : Bool) (hlawful : X.Lawful b.store) (hsettled : X.Settled b.store)
    (hstart : X.property.tableau = none → b.store.isUnseen ⟨fp, Key.noPoint⟩ = true → X.IsStart ⟨fp, Key.noPoint⟩) :
    (Builder.addNext X.property X.model fp successors checks revisits).Meets b
      (fun r b' => b'.store.log.Fits → X.Added (b.store.setDone fp) r b') X.Stopped := by
  refine Builder.meets_addNext (fun t ht => addProduct_spec ht hfp hexpands revisits hlawful hsettled) fun hplain => ?_
  refine (addPlain_spec hplain hfp hexpands revisits hlawful hsettled (hstart hplain)).imp fun _ b' hb' hfits => ?_
  obtain ⟨hlawful', htrack, -⟩ := hb' hfits
  exact ⟨hlawful', fun _ => ⟨[], htrack⟩, fun l hl => by cases hl⟩

/-- The results of the property's own checks. -/
theorem expands_evaluate (hs₀ : X.states s₀) (hnext : ∀ s ∈ successors, s ∈ X.model.next s₀)
    (hall : X.full → ∀ s ∈ X.model.successors s₀, s ∈ successors)
    (h : X.property.evaluate s₀ successors = .ok checks) : X.Expands s₀ successors checks := by
  obtain ⟨hstate, hwidth, hactions⟩ := Property.evaluate_spec h
  refine ⟨hs₀, hnext, hall, fun _ i => by rw [hstate], fun _ i s hs a => ?_⟩
  rw [hwidth, ← X.property.get_actions s₀ s a, Bits.get_ofFn, Bits.get_ofFn, Nat.zero_add]
  by_cases ha : a < X.property.width
  · rw [hactions i s hs a ha]
  · simp [ha]

end Exploration

end Liveness

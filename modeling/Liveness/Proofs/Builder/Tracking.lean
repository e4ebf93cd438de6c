import Liveness.Proofs.Builder.Draft

/-!
# The nodes of expanded states

Once a state was expanded its nodes must have all their steps: those of the state at each
point of the tableau that can follow and allows what comes next. A node is *complete* if
the store has these steps. In the course of an expansion some nodes are not complete yet:
the ones that come next in turn, and the ones that turned up late and were put on the list
of work. `Tracking` says that there are no others, and that no node is put there twice, so
the number of late expansions is at most that of expanded states times points.
-/

namespace Liveness

/-- A behaviour may move from the one point to the other, with the state `s` there. -/
def Property.Moves {σ : Type} (p : Property σ) (source : UInt32) (s : σ) (target : UInt32) : Prop :=
  match p.tableau with
  | none => target = Key.noPoint
  | some t => ∃ n n', t.node source = .ok n ∧ target ∈ n.successors ∧ t.node target = .ok n' ∧ n'.allows s = true

theorem Store.mem_pointsAt {s : Store} {k : Key} : k.point ∈ s.pointsAt k.fp ↔ s.isUnseen k = false := by
  rw [pointsAt, ← Row.slot?_isSome_iff, isUnseen, Option.isNone_eq_false_iff]
  rfl

namespace Exploration

variable {σ : Type} [ModelState σ] (X : Exploration σ)

/-- The node `k` must have a step to `l` once its state is expanded, if the successors handed
over are all there are. -/
def Requires (k l : Key) : Prop :=
  X.full ∧ ∃ s t, X.At k s ∧ t ∈ X.model.successors s ∧ fingerprint t = l.fp ∧
    X.property.Moves k.point t l.point

/-- The node `k` has all the steps it must have. -/
def Complete (s : Store) (k : Key) : Prop := ∃ n, s.node k = .ok n ∧ ∀ l, X.Requires k l → l ∈ n.steps.map Step.target

/-- The node `k` is one that must be complete: its state was expanded, and it was seen. Without
a tableau the expansion of a state makes its node. -/
def Due (s : Store) (k : Key) : Prop :=
  s.isDone k.fp = true ∧ X.property.IsPoint k.point ∧ (X.property.tableau = none ∨ s.isUnseen k = false)

/-- Since the store was `base` no state was marked as expanded, no node was lost and the roots
stayed. The nodes that are due and not complete are on the lists `pending` and `work`, and the
nodes of `past` were on the list of work before. -/
structure Tracking (base s : Store) (pending past : List Key) (work : List (Expansion σ)) : Prop where
  done_eq : ∀ fp, s.isDone fp = base.isDone fp
  kept : ∀ k, base.isUnseen k = false → s.isUnseen k = false
  roots_eq : s.roots = base.roots
  nodup : (work.map Expansion.key ++ past).Nodup
  waiting : ∀ k ∈ pending, X.property.tableau = none ∨ s.isUnseen k = false
  item : ∀ e ∈ work, X.At e.key e.state
  seen : ∀ k ∈ work.map Expansion.key ++ past, s.isUnseen k = false ∧ base.isDone k.fp = true
  covered : ∀ k, X.Due s k → X.Complete s k ∨ k ∈ pending ∨ k ∈ work.map Expansion.key

/-- All nodes of expanded states are complete. -/
def Settled (s : Store) : Prop := ∀ k, X.Due s k → X.Complete s k

variable {X} {base s s' : Store} {k : Key} {pending past : List Key} {work : List (Expansion σ)}

theorem Complete.record (h : X.Complete s k) (l parent : Key) : X.Complete (s.record l parent) k := by
  obtain ⟨n, hn, hrequired⟩ := h
  obtain ⟨n', hn', hsteps⟩ := Store.exists_node_record hn l parent
  exact ⟨n', hn', by rwa [hsteps]⟩

namespace Tracking

/-- Without a tableau a recorded node is no new work. -/
theorem record_plain (h : X.Tracking base s pending past work) (hplain : X.property.tableau = none) (l parent : Key) :
    X.Tracking base (s.record l parent) pending past work where
  done_eq := fun fp => by rw [Store.isDone_record, h.done_eq]
  kept := fun k hk => by simp [h.kept k hk]
  roots_eq := by rw [Store.roots_record, h.roots_eq]
  nodup := h.nodup
  waiting := fun _ _ => .inl hplain
  item := h.item
  seen := fun k hk => ⟨by simp [(h.seen k hk).1], (h.seen k hk).2⟩
  covered := by
    rintro k ⟨hdone, hpoint, -⟩
    rw [Store.isDone_record] at hdone
    exact (h.covered k ⟨hdone, hpoint, .inl hplain⟩).imp_left fun hc => hc.record l parent

/-- With a tableau a new node of a state that was expanded is put on the list of work. -/
theorem record (h : X.Tracking base s pending past work) (hproduct : X.property.tableau ≠ none) {e : Expansion σ}
    (he : X.At e.key e.state) (parent : Key) :
    X.Tracking base (s.record e.key parent) pending past
      (if s.isUnseen e.key && base.isDone e.key.fp then e :: work else work) := by
  have hcovered : ∀ k, k ≠ e.key ∨ s.isUnseen e.key = false → X.Due (s.record e.key parent) k →
      X.Complete (s.record e.key parent) k ∨ k ∈ pending ∨ k ∈ work.map Expansion.key := by
    rintro k hk ⟨hdone, hpoint, hseen⟩
    rw [Store.isDone_record] at hdone
    refine (h.covered k ⟨hdone, hpoint, .inr ?_⟩).imp_left fun hc => hc.record e.key parent
    have := hseen.resolve_left hproduct
    rcases hk with hk | hk
    · simpa [hk] using this
    · rwa [Store.record_of_seen hk] at this
  have hwaiting : ∀ k ∈ pending, X.property.tableau = none ∨ (s.record e.key parent).isUnseen k = false :=
    fun k hk => (h.waiting k hk).imp_right fun hseen => by simp [hseen]
  by_cases hnew : (s.isUnseen e.key && base.isDone e.key.fp) = true
  · rw [if_pos hnew]
    rw [Bool.and_eq_true] at hnew
    have hfresh : e.key ∉ work.map Expansion.key ++ past := fun hmem => by
      rw [(h.seen _ hmem).1] at hnew
      cases hnew.1
    refine ⟨fun fp => by rw [Store.isDone_record, h.done_eq], fun k hk => by simp [h.kept k hk],
      by rw [Store.roots_record, h.roots_eq], List.nodup_cons.mpr ⟨hfresh, h.nodup⟩, hwaiting, ?_, ?_, ?_⟩
    · intro e' he'
      rcases List.mem_cons.mp he' with rfl | he'
      · exact he
      · exact h.item e' he'
    · intro k hk
      rcases List.mem_cons.mp hk with rfl | hk
      · exact ⟨by simp, hnew.2⟩
      · exact ⟨by simp [(h.seen k hk).1], (h.seen k hk).2⟩
    · intro k hk
      by_cases hke : k = e.key
      · exact .inr (.inr (by simp [hke]))
      · exact (hcovered k (.inl hke) hk).imp_right (Or.imp_right fun hmem => by simp [hmem])
  · rw [if_neg hnew]
    refine ⟨fun fp => by rw [Store.isDone_record, h.done_eq], fun k hk => by simp [h.kept k hk],
      by rw [Store.roots_record, h.roots_eq], h.nodup, hwaiting, h.item, ?_, ?_⟩
    · exact fun k hk => ⟨by simp [(h.seen k hk).1], (h.seen k hk).2⟩
    · intro k hk
      by_cases hke : k = e.key
      · subst hke
        refine hcovered _ (.inr ?_) hk
        have hdone := hk.1
        rw [Store.isDone_record, h.done_eq] at hdone
        simpa [hdone] using hnew
      · exact hcovered k (.inl hke) hk

/-- A node that is written with all its steps need not wait any longer. -/
theorem rewrite (h : X.Tracking base s (k :: pending) past work) {steps : List Step} (hs : s.Rewrites k steps s')
    (hsteps : ∀ l, X.Requires k l → l ∈ steps.map Step.target) : X.Tracking base s' pending past work where
  done_eq := fun fp => by rw [hs.isDone, h.done_eq]
  kept := fun l hl => by simp [hs.isUnseen, h.kept l hl]
  roots_eq := by rw [hs.roots, h.roots_eq]
  nodup := h.nodup
  waiting := fun l hl => (h.waiting l (List.mem_cons_of_mem _ hl)).imp_right fun hseen => by
    simp [hs.isUnseen, hseen]
  item := h.item
  seen := fun l hl => ⟨by simp [hs.isUnseen, (h.seen l hl).1], (h.seen l hl).2⟩
  covered := by
    rintro l ⟨hdone, hpoint, hseen⟩
    by_cases hl : l = k
    · subst hl
      obtain ⟨n, hn, rfl⟩ := hs.self
      exact .inl ⟨n, hn, hsteps⟩
    · rw [hs.isDone] at hdone
      have hdue : X.Due s l := ⟨hdone, hpoint, hseen.imp_right fun h => by simpa [hs.isUnseen, hl] using h⟩
      rcases h.covered l hdue with ⟨n, hn, hrequired⟩ | hl' | hl'
      · exact .inl ⟨n, by rw [hs.other l hl, hn], hrequired⟩
      · exact .inr (.inl (List.mem_of_ne_of_mem hl hl'))
      · exact .inr (.inr hl')

/-- The next expansion is taken from the list of work. -/
theorem take {e : Expansion σ} (h : X.Tracking base s pending past (e :: work)) :
    X.Tracking base s (e.key :: pending) (e.key :: past) work := by
  have hperm : (work.map Expansion.key ++ e.key :: past).Perm ((e :: work).map Expansion.key ++ past) :=
    List.perm_middle
  refine ⟨h.done_eq, h.kept, h.roots_eq, hperm.nodup_iff.mpr h.nodup, fun k hk => ?_,
    fun e' he' => h.item e' (List.mem_cons_of_mem _ he'), ?_, ?_⟩
  · rcases List.mem_cons.mp hk with rfl | hk
    · exact .inr (h.seen e.key (by simp)).1
    · exact h.waiting k hk
  · exact fun k hk => h.seen k (hperm.mem_iff.mp hk)
  · intro k hk
    rcases h.covered k hk with hc | hmem | hmem
    · exact .inl hc
    · exact .inr (.inl (List.mem_cons_of_mem _ hmem))
    · rcases List.mem_cons.mp hmem with rfl | hmem
      · exact .inr (.inl (by simp))
      · exact .inr (.inr hmem)

end Tracking

/-- With nothing pending and no work left all is settled. -/
theorem Tracking.settled (h : X.Tracking base s [] past []) : X.Settled s := fun k hk =>
  (h.covered k hk).resolve_right (by simp)

/-- When a state is expanded all its nodes are pending. -/
theorem Settled.setDone (h : X.Settled s) {fp : Fingerprint}
    (hwaiting : ∀ k ∈ pending, X.property.tableau = none ∨ s.isUnseen k = false)
    (hpending : ∀ k, k.fp = fp → X.Due (s.setDone fp) k → k ∈ pending) :
    X.Tracking (s.setDone fp) (s.setDone fp) pending [] [] where
  done_eq := fun _ => rfl
  kept := fun _ h => h
  roots_eq := rfl
  nodup := List.nodup_nil
  waiting := fun k hk => (hwaiting k hk).imp_right fun hseen => by rwa [Store.isUnseen_setDone]
  item := fun e he => by cases he
  seen := fun k hk => by cases hk
  covered := by
    intro k hk
    by_cases hfp : k.fp = fp
    · exact .inr (.inl (hpending k hfp hk))
    · obtain ⟨hdone, hpoint, hseen⟩ := hk
      simp only [Store.isDone_setDone, Store.isUnseen_setDone, hfp, decide_false, Bool.false_or] at hdone hseen
      obtain ⟨n, hn, hrequired⟩ := h k ⟨hdone, hpoint, hseen⟩
      exact .inl ⟨n, by rwa [Store.node_setDone], hrequired⟩

/-- There are at most as many nodes of expanded states as states times points. -/
theorem length_le_of_done {ks : List Key} (hnodup : ks.Nodup)
    (hks : ∀ k ∈ ks, s.isDone k.fp = true ∧ X.property.IsPoint k.point) :
    ks.length ≤ s.table.size * X.property.pointCount := by
  have hsub : ks ⊆ (Std.ExtTreeMap.keys s.table ×ˢ X.property.points).map fun x => (⟨x.1, x.2⟩ : Key) := by
    intro k hk
    obtain ⟨hdone, hpoint⟩ := hks k hk
    refine List.mem_map.mpr ⟨(k.fp, k.point), List.mem_product.mpr ⟨?_, Property.mem_points hpoint⟩, rfl⟩
    rw [Std.ExtTreeMap.mem_keys]
    by_contra hmem
    rw [Store.isDone, Table.row, Std.ExtTreeMap.getD_eq_fallback hmem] at hdone
    cases hdone
  have hlen := (hnodup.subperm hsub).length_le
  rwa [List.length_map, List.length_product, Std.ExtTreeMap.length_keys, Property.length_points] at hlen

/-- The number of nodes that are or were on the list of work. -/
theorem Tracking.length_le (h : X.Tracking base s pending past work) (hlawful : X.Lawful s) {s₀ : Store}
    (hs₀ : ∀ fp, s₀.isDone fp = base.isDone fp) : work.length + past.length ≤ s₀.table.size * X.property.pointCount := by
  rw [← List.length_map Expansion.key, ← List.length_append]
  refine length_le_of_done h.nodup fun k hk => ?_
  obtain ⟨hseen, hdone⟩ := h.seen k hk
  obtain ⟨n, hn, -⟩ := hlawful.intact.exists_holds hseen
  exact ⟨(hs₀ k.fp).trans hdone, (hlawful.admits k n hn).isKey.1⟩

end Exploration

end Liveness

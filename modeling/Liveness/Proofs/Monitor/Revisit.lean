import Liveness.Proofs.Builder.Safe
import Liveness.Proofs.Monitor.Ancestry

/-!
# States that are expanded again

Without a tableau a state may be handed over for expansion more than once, each time with other
successors. Its node is then read again, gets the steps that it does not have yet, and is written
again if there were any.

The steps that were written before must have as many action checks as the new ones. That is so in a
*regular* graph, in which all steps have those of the property. As long as the log fits, the
expansion of a node that was seen keeps the graph regular, has no fault, and afterwards the node has
the steps that it had and one to each successor (`Builder.Regular.addPlain`).
-/

namespace Liveness

/-! ### Drawings -/

namespace Builder

variable {σ : Type} {b : Builder}

/-- No folder has the name of a drawing, if the graph is drawn. -/
def Drawable (b : Builder) : Prop :=
  b.nextDrawing ≠ none → ∀ number, Store.drawingName b.store.index number ∉ b.store.drawings.taken

theorem Drawable.record (h : b.Drawable) (k parent : Key) :
    Drawable { b with store := b.store.record k parent } :=
  Store.record_cases (I := fun s => Drawable { b with store := s }) parent h fun _ => h

theorem Drawable.addNode (h : b.Drawable) (n : Node) : Drawable { b with store := b.store.addNode n } := by
  obtain ⟨size, heq⟩ := Store.addNode_eq b.store n
  rw [heq]
  exact h

theorem Drawable.addRoot (h : b.Drawable) (k : Key) : Drawable { b with store := b.store.addRoot k } := by
  have hframe : (b.store.addRoot k).index = b.store.index ∧ (b.store.addRoot k).drawings = b.store.drawings := by
    rw [Store.addRoot_eq, Store.seeRoot]
    split_ifs <;> exact ⟨rfl, rfl⟩
  intro hnext number
  rw [hframe.1, hframe.2]
  exact h hnext number

/-- The drawing of an intact graph is saved. -/
theorem snapshot_drawable (p : Property σ) (hintact : b.store.Intact) (h : b.Drawable) :
    (snapshot p).Meets b (fun _ b' => b'.Drawable ∧ ∃ d, b'.store = { b.store with drawings := d })
      (fun _ _ => False) := by
  refine meets_snapshot (fun d next hd hnext => ⟨fun hsome => ?_, d, rfl⟩) (fun title f _ hf => ?_)
    fun number hsome htaken _ => h (by simp [hsome]) number htaken
  · rw [hd]
    exact h (mt hnext hsome)
  · obtain ⟨text, htext, -⟩ := (hintact.meets_draw p.tableau title).exists_eq id
    rw [htext] at hf
    cases hf

/-! ### Links -/

variable [ModelState σ] {p : Property σ} {k : Key} {s₀ : Store} {n₀ n : Node} {successors : List σ} {checks : StepChecks}

/-- **A step to a successor is linked without a fault**, if there is room for it. -/
theorem plainStep_drawable (hplain : p.tableau = none) (hwidth : checks.width = p.width) {x : Fingerprint × Nat}
    (hx : x ∈ (successors.map fingerprint).zipIdx)
    (hroom : Node.stepLen p.width * (n.degree + successors.length) ≤ Node.maxCapacity)
    (hbits : p.width * successors.length ≤ wordLimit)
    (hkey : n₀.key = k) (hlinks : Links p (.ofChecks successors checks) k k s₀ n₀ b.store n)
    (huniform : n.Uniform p.width) (h : b.Drawable) :
    (plainStep checks (successors.map fingerprint).length n x).Meets b
      (fun n' b' => (Links p (.ofChecks successors checks) k k s₀ n₀ b'.store n' ∧ n'.Uniform p.width ∧
        b'.Drawable) ∧ n.targets ⊆ n'.targets ∧ ∀ l, l = ⟨x.1, Key.noPoint⟩ → l ∈ n'.targets) (fun _ _ => False) := by
  obtain ⟨fp, i⟩ := x
  have hi : i < successors.length := by simpa using List.snd_lt_of_mem_zipIdx hx
  have hget := List.mem_zipIdx_iff_getElem?.mp hx
  rw [List.getElem?_map] at hget
  obtain ⟨u, hu, rfl⟩ := Option.map_eq_some_iff.mp hget
  have hmoves : p.Moves k.point u Key.noPoint := by rw [Property.Moves, hplain]
  have hsub : subWords (successors.map fingerprint).length i = .ok (successors.length - i) := by
    rw [List.length_map]
    exact if_pos (Nat.le_of_lt hi)
  have hpos : 0 < successors.length - i := by omega
  rw [← hwidth] at hroom hbits huniform ⊢
  obtain ⟨hoffset, hplace⟩ := excused_mulWords hi fun _ : True => hbits
  have hfits : True → ∀ j₁ j₂, mulWords i checks.width = .ok j₁ →
      subWords (successors.map fingerprint).length i = .ok j₂ →
      Node.stepLen checks.width * (n.degree + max j₂ 1) ≤ Node.maxCapacity ∧ j₁ + checks.width ≤ wordLimit := by
    intro _ j₁ j₂ hj₁ hj₂
    obtain rfl := Except.ok.inj (hsub.symm.trans hj₂)
    refine ⟨(Nat.mul_le_mul_left _ ?_).trans hroom, hplace trivial j₁ hj₁⟩
    omega
  refine meets_plainStep ?_
  rw [hlinks.key, hkey]
  refine Change.Meets.mono (Change.Meets.and
    (link_links hlinks huniform.whole (allows_handed hu hmoves))
    (Change.Meets.and (link_safe huniform hoffset ⟨_, hsub⟩ hfits)
      (link_targets (I := Drawable) huniform.whole h (h.record _ _)))) ?_ ?_
  · rintro ⟨n', new⟩ b' ⟨⟨hlinks', -⟩, ⟨⟨huniform', -⟩, -⟩, -, hsub, hmem, hdraw⟩
    refine ⟨⟨hlinks', huniform', hdraw⟩, hsub, ?_⟩
    rintro l rfl
    exact hmem
  · rintro f b' ⟨hdefect, ⟨hexcused, -⟩, -⟩
    cases f with
    | defect d => exact (hexcused d rfl).2 trivial
    | error e => exact hdefect

/-- Without a tableau a node gets at most one step to each of the states that were handed over. -/
theorem Links.degree_le_plain {s : Store} {origin : Key} (hplain : p.tableau = none)
    (h : Links p (.ofChecks successors checks) k origin s₀ n₀ s n) (hnodup : n.targets.Nodup) :
    n.degree ≤ n₀.degree + successors.length := by
  have hsub : n.targets ⊆ n₀.targets ++ successors.map fun t => ⟨fingerprint t, Key.noPoint⟩ := by
    intro l hl
    rcases h.target_cases hl with hl | ⟨e, ⟨u, hu, hfp, hmoves⟩, rfl⟩
    · exact List.mem_append_left _ hl
    · have hpoint : e.target.point = Key.noPoint := by rwa [Property.Moves, hplain] at hmoves
      obtain ⟨⟨u', i⟩, hmem, heq⟩ := List.mem_map.mp hu
      obtain ⟨rfl, -⟩ := Prod.mk.inj heq
      refine List.mem_append_right _ (List.mem_map.mpr ⟨u', List.fst_mem_of_mem_zipIdx hmem, ?_⟩)
      rw [hfp, ← hpoint]
  have hlen := (hnodup.subperm hsub).length_le
  rwa [List.length_append, List.length_map, Node.targets_eq, Node.targets_eq, List.length_map, List.length_map,
    Node.length_steps, Node.length_steps] at hlen

/-! ### Regular graphs -/

variable {b b' : Builder} {fp : Fingerprint} {width : Nat}

/-- There is a way to every node, all steps have so many action checks, and the graph can be drawn. -/
structure Regular (width : Nat) (b : Builder) : Prop where
  rooted : b.store.Rooted
  uniform : ∀ k n, b.store.Holds k n → n.Uniform width
  drawable : b.Drawable

/-- The node that is written has steps of one width if it had them before. -/
theorem uniform_addNode {s : Store} (h : Store.Grown k s₀ n₀ s n) (hs₀ : ∀ l m, s₀.Holds l m → m.Uniform width)
    (hn : n.Uniform width) (hfits : (s.addNode n.trim).log.Fits) :
    ∀ l m, (s.addNode n.trim).Holds l m → m.Uniform width := by
  intro l m hm
  rcases h.holds_cases hfits hm with ⟨-, rfl⟩ | hm | rfl
  · exact ⟨hn.whole, hn.width⟩
  · exact hs₀ l m hm
  · exact ⟨Node.whole_of_size_eq_zero rfl, .inl rfl⟩

theorem Regular.of_empty (hlog : b.store.log = {}) (htable : b.store.table = ∅) (hsize : b.store.size = 0)
    (hdraw : b.Drawable) : b.Regular width :=
  ⟨.of_empty hlog htable hsize, fun k n hn => absurd hn (Store.not_holds_of_empty htable k n), hdraw⟩

/-- A node is registered as a root. -/
theorem Regular.addRoot (h : b.Regular width) (k : Key) : Regular width { b with store := b.store.addRoot k } := by
  refine ⟨h.rooted.addRoot k, fun l m hm => ?_, h.drawable.addRoot k⟩
  rcases Store.holds_addRoot.mp hm with hm | ⟨-, rfl, rfl⟩
  · exact h.uniform l m hm
  · exact ⟨Node.whole_of_size_eq_zero rfl, .inl rfl⟩

variable {s : Store} {ls ls' : List Key} {o : Offer σ} {n' : Node}

/-- The graph of `b` is regular, has the roots and the steps of the store `s`, and its node `k` leads
to the nodes `ls`. -/
structure Advances (width : Nat) (s : Store) (k : Key) (ls : List Key) (b : Builder) : Prop where
  regular : b.Regular width
  roots : b.store.roots = s.roots
  leads : ∀ q l, s.Leads q l → b.store.Leads q l
  reaches : ∀ l ∈ ls, b.store.Leads k l

theorem Advances.trans (h : b.Advances width s k ls) (h' : b'.Advances width b.store k ls') : b'.Advances width s k ls' :=
  ⟨h'.regular, h'.roots.trans h.roots, fun q l hl => h'.leads q l (h.leads q l hl), h'.reaches⟩

/-- The state is marked as expanded. -/
theorem Regular.setDone (h : b.Regular width) (fp : Fingerprint) (k : Key) :
    Advances width b.store k [] { b with store := b.store.setDone fp } := by
  refine ⟨⟨h.rooted.setDone fp, fun l m hm => h.uniform l m (Store.holds_setDone.mp hm), h.drawable⟩, rfl,
    fun q l hl => ?_, fun l hl => by cases hl⟩
  obtain ⟨m, hm, hmem⟩ := hl.exists_holds
  exact Store.leads_of_holds (Store.holds_setDone.mpr hm) hmem

/-- **The node gets its new steps, or had them all.** -/
theorem Regular.keep (h : b.Regular width) (hn : b.store.Holds k n)
    (hlinks : Links p o k k b.store (n.setState o.state) b'.store n') (huniform : n'.Uniform width)
    (hdraw : b'.Drawable) :
    (Builder.keep p n' n.degree true).Meets b' (fun _ b'' => b''.store.log.Fits → b''.Advances width b.store k n'.targets)
      (fun _ b'' => b''.store.log.Fits → False) := by
  refine meets_keep (fun _ => ?_) fun hdegree _ warnings => ⟨fun _ _ => ?_, fun h => by cases h⟩
  · -- The node is written with its new steps.
    have hgrown := h.rooted.grown hn hlinks
    refine (meets_onStore _).bind ?_
    rintro _ b'' rfl
    refine (meets_under (Store.under_addNode hgrown.intact.whole n'.trim)
      (fun s₀ => keeps_snapshot s₀.kept_grows p) fun hfits => ?_).imp fun _ _ hb => hb.fits
    have hrooted := h.rooted.expand hn hlinks hfits
    refine (snapshot_drawable p hrooted.intact (hdraw.addNode n'.trim)).mono ?_ fun _ _ hf => hf.elim
    rintro _ b₃ ⟨hdraw', d, hd⟩ -
    refine ⟨⟨hd ▸ hrooted.draw d, ?_, hdraw'⟩, ?_, ?_, ?_⟩
    · rw [hd]
      exact uniform_addNode hgrown h.uniform huniform hfits
    · rw [hd]
      exact (Store.roots_addNode ..).trans hgrown.roots
    · rw [hd]
      exact (hgrown.extends hn hfits).leads
    · rw [hd]
      exact fun l hl => Store.leads_of_holds (hgrown.holds_self hfits) hl
  · -- The node had all the steps already.
    obtain ⟨hstore, rfl⟩ := hlinks.eq_of_degree_le hdegree
    refine ⟨⟨hstore ▸ h.rooted, ?_, hdraw⟩, by rw [hstore], ?_, ?_⟩
    · rw [hstore]
      exact h.uniform
    · rw [hstore]
      exact fun _ _ hl => hl
    · rw [hstore]
      exact fun l hl => Store.leads_of_holds hn hl

/-- **A state whose node was seen is expanded, for the first time or again**: there is no fault, the
graph stays regular, all steps stay, and the node has one to each successor. What was read of the node
has less than 2³² words, so there is room for a few successors more. -/
theorem Regular.addPlain (h : b.Regular p.width) (hplain : p.tableau = none) (hwidth : checks.width = p.width)
    (hroom : 2 ^ 32 + Node.stepLen p.width * (2 * successors.length) ≤ Node.maxCapacity)
    (hbits : p.width * successors.length ≤ wordLimit) (hseen : b.store.isUnseen ⟨fp, Key.noPoint⟩ = false) :
    (Builder.addPlain p fp (successors.map fingerprint) checks true).Meets b
      (fun _ b' => b'.store.log.Fits →
        b'.Advances p.width b.store ⟨fp, Key.noPoint⟩ (successors.map fun t => ⟨fingerprint t, Key.noPoint⟩))
      (fun _ b' => b'.store.log.Fits → False) := by
  have hdone := h.setDone fp ⟨fp, Key.noPoint⟩
  have hseen₀ : (b.store.setDone fp).isUnseen ⟨fp, Key.noPoint⟩ = false := (Store.isUnseen_setDone ..).trans hseen
  obtain ⟨n, hn, hkey⟩ := hdone.regular.rooted.intact.exists_holds hseen₀
  have huniform := hdone.regular.uniform _ n hn
  refine meets_addPlain (fun f hf => by rw [hn.2] at hf; cases hf) fun n' hn' => ?_
  obtain rfl : n = n' := Except.ok.inj (hn.2.symm.trans hn')
  refine (Change.meets_foldlM_collect
    (fun n' (b' : Builder) => Links p (.ofChecks successors checks) ⟨fp, Key.noPoint⟩ ⟨fp, Key.noPoint⟩
      (b.store.setDone fp) (n.setState checks.state) b'.store n' ∧ n'.Uniform p.width ∧ b'.Drawable)
    Node.targets (fun (x : Fingerprint × Nat) l => l = ⟨x.1, Key.noPoint⟩) (fun x hx n' b' hn' => ?_)
    (n.setState checks.state) { b with store := b.store.setDone fp }
    ⟨.refl, ⟨huniform.whole, huniform.width⟩, hdone.regular.drawable⟩).mono ?_ fun _ _ hf _ => hf
  · obtain ⟨hlinks, huniform', hdraw⟩ := hn'
    refine plainStep_drawable hplain hwidth hx ?_ hbits hkey hlinks huniform' hdraw
    have hdegree := hlinks.degree_le_plain hplain (hdone.regular.rooted.grown hn hlinks).admits.nodup
    change n'.degree ≤ n.degree + successors.length at hdegree
    have hused : n.degree * Node.stepLen p.width < 2 ^ 32 := huniform.used_eq ▸ Store.used_lt_of_node hn.2
    calc Node.stepLen p.width * (n'.degree + successors.length)
        ≤ Node.stepLen p.width * (n.degree + 2 * successors.length) := Nat.mul_le_mul_left _ (by omega)
      _ = n.degree * Node.stepLen p.width + Node.stepLen p.width * (2 * successors.length) := by
        rw [Nat.mul_add, Nat.mul_comm _ n.degree]
      _ ≤ Node.maxCapacity := by omega
  rintro n' b' ⟨⟨hlinks, huniform', hdraw⟩, -, htargets⟩
  refine (hdone.regular.keep hn hlinks huniform' hdraw).imp ?_
  intro _ b'' hadvances hfits
  refine hdone.trans { hadvances hfits with reaches := fun l hl => (hadvances hfits).reaches l ?_ }
  obtain ⟨t, ht, rfl⟩ := List.mem_map.mp hl
  obtain ⟨i, hi⟩ := List.mem_iff_getElem?.mp (List.mem_map_of_mem (f := fingerprint) ht)
  exact htargets (fingerprint t, i) (List.mem_zipIdx_iff_getElem?.mpr hi) _ rfl

end Builder

end Liveness

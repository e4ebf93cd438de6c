import Liveness.Proofs.Monitor.Ancestry

/-!
# Paths to the nodes of a monitor without a tableau

Without a tableau the expansion of a state writes the node of the state, also if the node was
never seen. Such a node has no parent, and it keeps none when a step leads to it later. So the
path to a node need not start at a root, even if there is a way from a root to the node
(`Monitor.pathTo_early`).

It starts at a root or at a node whose state was expanded too early, before it was a node. Apart
from that the paths are sound, as long as the records that were written fit the log: there is one to
every node, and it follows the steps of written nodes (`Monitor.exists_path_of_made_plain`). For the
proof the nodes that came too early count as roots.
-/

namespace Liveness

/-! ### Other roots -/

namespace Store

variable {s : Store} {rs : List Key}

/-- The store with other roots. -/
def withRoots (s : Store) (rs : List Key) : Store := { s with roots := rs }

theorem record_withRoots (s : Store) (rs : List Key) (k parent : Key) :
    (s.withRoots rs).record k parent = (s.record k parent).withRoots rs := by
  change (if s.isUnseen k then _ else _) = withRoots (if s.isUnseen k then _ else _) rs
  split_ifs <;> rfl

theorem addNode_withRoots (s : Store) (rs : List Key) (n : Node) :
    (s.withRoots rs).addNode n = (s.addNode n).withRoots rs := by
  change (if s.isUnseen n.key then _ else _) = withRoots (if s.isUnseen n.key then _ else _) rs
  split_ifs <;> rfl

theorem addRoot_withRoots (s : Store) (rs : List Key) (k : Key) :
    (s.withRoots rs).addRoot k = (s.addRoot k).withRoots ((s.withRoots rs).addRoot k).roots := by
  have hsee : (s.withRoots rs).seeRoot k = (s.seeRoot k).withRoots rs := by
    change (if s.isUnseen k then _ else _) = withRoots (if s.isUnseen k then _ else _) rs
    split_ifs <;> rfl
  rw [addRoot_eq (s.withRoots rs), addRoot_eq s, hsee]
  rfl

theorem path_withRoots (s : Store) (rs : List Key) (k : Key) : (s.withRoots rs).path k = s.path k := by
  have hparent : ∀ l, (s.withRoots rs).parentOf l = s.parentOf l := fun _ => rfl
  exact path_congr hparent rfl k

end Store

variable {σ : Type} [ModelState σ]

theorem Builder.Links.withRoots {p : Property σ} {o : Offer σ} {k origin : Key} {s s' : Store} {n n' : Node}
    (h : Builder.Links p o k origin s n s' n') (rs : List Key) :
    Builder.Links p o k origin (s.withRoots rs) n (s'.withRoots rs) n' := by
  induction h with
  | refl => exact .refl
  | @link s' n' n'' e _ hlink ih =>
    rw [← Store.record_withRoots]
    exact .link ih ⟨hlink.allowed, hlink.new, hlink.whole, hlink.steps, hlink.width, hlink.same⟩

theorem Builder.Links.roots {p : Property σ} {o : Offer σ} {k origin : Key} {s s' : Store} {n n' : Node}
    (h : Builder.Links p o k origin s n s' n') : s'.roots = s.roots := by
  induction h with
  | refl => rfl
  | link _ _ ih => exact (Store.roots_record ..).trans ih

/-! ### The expansion of a node that was never seen -/

namespace Store

variable {p : Property σ} {s s' : Store} {k : Key} {n n' : Node} {o : Offer σ} {fp : Fingerprint} {successors : List σ}
  {checks : StepChecks}

/-- **When the expanded node is written it has arrived as if it were a root**, and the others from it. -/
theorem Grown.extends_addRoot {s₀ : Store} {n₀ : Node} (h : Grown k s₀ n₀ s n) (hk : s₀.isUnseen k = true)
    (hparent : n₀.parent = none) (hfits : (s.addNode n.trim).log.Fits) :
    (s₀.addRoot k).Extends ((s.addNode n.trim).withRoots (s₀.addRoot k).roots) := by
  have hintact := h.intact.addNode h.admits.trim.tidy.whole (h.storable hfits)
  have hiff := fun l m => h.holds_addNode hfits (l := l) (m := m)
  generalize hs' : (s.addNode n.trim).withRoots (s₀.addRoot k).roots = s'
  have hholds : ∀ l m, s'.Holds l m ↔ (l = k ∧ m = n.trim.normal) ∨ (l ≠ k ∧ s.Holds l m) :=
    fun l m => hs' ▸ hiff l m
  have hself : s'.Holds k n.trim.normal := (hholds k _).mpr (.inl ⟨rfl, rfl⟩)
  have hother : ∀ l m, s₀.Holds l m → s'.Holds l m := by
    intro l m hm
    refine (hholds l m).mpr (.inr ⟨?_, h.kept l m hm⟩)
    rintro rfl
    rw [hm.1] at hk
    cases hk
  refine ⟨hs' ▸ ⟨hintact.whole, hintact.recorded, hintact.readable⟩, hs' ▸ List.Subset.refl _, fun q l hl => ?_, fun l parent hl => ?_,
    fun l parent hl => ?_⟩
  · obtain ⟨m, hm, hmem⟩ := hl.exists_holds
    rcases Store.holds_addRoot.mp hm with hm | ⟨-, rfl, rfl⟩
    · exact Store.leads_of_holds (hother q m hm) hmem
    · rw [Node.targets_eq, Node.steps_eq_nil rfl] at hmem
      cases hmem
  · obtain ⟨m, hm, rfl⟩ := hl
    rcases Store.holds_addRoot.mp hm with hm | ⟨-, rfl, rfl⟩
    · exact ⟨m, hother l m hm, rfl⟩
    · exact ⟨_, hself, h.parent.trans hparent⟩
  · obtain ⟨m, hm, rfl⟩ := hl
    rcases (hholds l m).mp hm with ⟨rfl, rfl⟩ | ⟨hne, hm⟩
    · exact .inl ⟨_, Store.holds_addRoot.mpr (.inr ⟨hk, rfl, rfl⟩), (h.parent.trans hparent).symm⟩
    · rcases h.new l m hm with hm | ⟨hunseen, hmem, rfl⟩
      · exact .inl ⟨m, Store.holds_addRoot.mpr (.inl hm), rfl⟩
      · refine .inr ⟨?_, ?_, Store.leads_of_holds hself hmem⟩
        · simp [Store.isUnseen_addRoot, hne, hunseen]
        · simp [Store.isUnseen_addRoot]

/-- **The expansion of a node that was never seen keeps a way to every node**, if the node counts as a root. -/
theorem Rooted.expandUnseen (h : s.Rooted) (hk : s.isUnseen k = true)
    (hlinks : Builder.Links p o k k s (Node.setState { key := k, parent := none } o.state) s' n')
    (hfits : (s'.addNode n'.trim).log.Fits) : Rooted ((s'.addNode n'.trim).withRoots (s.addRoot k).roots) := by
  have hgrown := grown_of_links hlinks h.intact h.counted ((admits_recorded s k none).setState o.state)
  have hext := hgrown.extends_addRoot hk rfl hfits
  have hcounted := hgrown.counted.addNode n'.trim
  refine ⟨hext.intact, ⟨hcounted.tidy, hcounted.size_eq⟩, fun l m hm => ?_,
    (h.addRoot k).ancestry.extend (h.addRoot k).intact hext⟩
  exact (hgrown.admits_addNode h.admits hfits l m hm).mono fun _ hl => hl

/-- There is a way to every node from the roots and from nodes that came too early. -/
def Sourced (early : Key → Prop) (s : Store) : Prop :=
  ∃ rs, (∀ r ∈ rs, r ∈ s.roots ∨ early r) ∧ (s.withRoots rs).Rooted

theorem Sourced.mono {early early' : Key → Prop} (h : Sourced early s) (hearly : ∀ k, early k → early' k) :
    Sourced early' s := by
  obtain ⟨rs, hrs, hrooted⟩ := h
  exact ⟨rs, fun r hr => (hrs r hr).imp_right (hearly r), hrooted⟩

theorem Sourced.addRoot {early : Key → Prop} (h : Sourced early s) (k : Key) : Sourced early (s.addRoot k) := by
  obtain ⟨rs, hrs, hrooted⟩ := h
  refine ⟨((s.withRoots rs).addRoot k).roots, fun r hr => ?_, s.addRoot_withRoots rs k ▸ hrooted.addRoot k⟩
  rcases Store.mem_roots_addRoot.mp hr with hr | rfl
  · exact (hrs r hr).imp_left fun hr => Store.mem_roots_addRoot.mpr (.inl hr)
  · exact .inl (Store.mem_roots_addRoot.mpr (.inr rfl))

/-- **A turn keeps a way to every node**, from nodes that came too early as well. -/
theorem Sourced.turn {m : Model σ} {early : Key → Prop} (h : Sourced early s)
    (hearly : ∀ k o, Builder.Offered p k m fp successors checks s o → s.isUnseen k = true → early k)
    (hturn : Builder.Turn p m fp successors checks s s') (hfits : s'.log.Fits) : Sourced early s' := by
  obtain ⟨rs, hrs, hrooted⟩ := h
  cases hturn with
  | setDone => exact ⟨rs, hrs, hrooted.setDone fp⟩
  | draw d => exact ⟨rs, hrs, hrooted.draw d⟩
  | @expand s' k origin n n' o hoffer hn horigin hlinks =>
    obtain ⟨n₀, hn₀, hkey⟩ := hrooted.intact.exists_node k
    obtain rfl : n = n₀ := Except.ok.inj (hn.symm.trans hn₀)
    obtain rfl : origin = k := horigin.elim id fun horigin => horigin.trans hkey
    have hlinks' := hlinks.withRoots rs
    have hroots : (s'.addNode n'.trim).roots = s.roots := (Store.roots_addNode ..).trans hlinks.roots
    cases hunseen : s.isUnseen origin with
    | false =>
      refine ⟨rs, fun r hr => hroots ▸ hrs r hr, ?_⟩
      rw [← Store.addNode_withRoots]
      exact hrooted.expand ⟨hunseen, hn⟩ hlinks' (Store.addNode_withRoots _ rs _ ▸ hfits)
    | true =>
      obtain rfl : n = { key := origin, parent := none } := by
        have hnode : s.node origin = .ok { key := origin, parent := none } := by
          rw [Store.node, Store.isUnseen_iff.mp hunseen]
        exact Except.ok.inj (hn.symm.trans hnode)
      have hexpanded := hrooted.expandUnseen hunseen hlinks' (Store.addNode_withRoots _ rs _ ▸ hfits)
      rw [Store.addNode_withRoots] at hexpanded
      refine ⟨((s.withRoots rs).addRoot origin).roots, fun r hr => ?_, hexpanded⟩
      rcases Store.mem_roots_addRoot.mp hr with hr | rfl
      · exact hroots ▸ hrs r hr
      · exact .inr (hearly _ o hoffer hunseen)

end Store

/-- Without a tableau a state is offered what was handed over with it, and nothing else. -/
theorem Builder.Offered.eq_of_unseen {p : Property σ} (hplain : p.tableau = none) {k : Key} {m : Model σ}
    {fp : Fingerprint} {successors : List σ} {checks : StepChecks} {s : Store} {o : Offer σ}
    (h : Builder.Offered p k m fp successors checks s o) (hunseen : s.isUnseen k = true) : k = ⟨fp, Key.noPoint⟩ := by
  cases h with
  | handed hfp hseen =>
    rcases hseen with hseen | ⟨-, hpoint⟩
    · rw [hseen] at hunseen
      cases hunseen
    · rw [← hfp, ← hpoint]
  | late htableau => exact absurd hplain htableau

namespace Monitor

variable {m : Model σ} {w₀ w : Monitor σ} {calls : List (Call σ)} {k : Key}

/-- The state of the node was expanded before it was a node. -/
def Early (m : Model σ) (w₀ : Monitor σ) (calls : List (Call σ)) (k : Key) : Prop :=
  ∃ later earlier successors checks revisits v, calls = later ++ .next k.fp successors checks revisits :: earlier ∧
    Made m w₀ earlier v ∧ k.point = Key.noPoint ∧ v.store.isUnseen k = true

theorem Early.cons (h : Early m w₀ calls k) (c : Call σ) : Early m w₀ (c :: calls) k := by
  obtain ⟨later, earlier, successors, checks, revisits, v, rfl, hv⟩ := h
  exact ⟨c :: later, earlier, successors, checks, revisits, v, rfl, hv⟩

theorem Made.sourced {p : Property σ} (hplain : p.tableau = none) (hproperty : w₀.property = p)
    (hwhole : w₀.store.log.Whole) (h₀ : Store.Sourced (fun _ => False) w₀.store) (hmade : Made m w₀ calls w) :
    w.property = p ∧ w.store.Under (Store.Sourced (Early m w₀ calls) w.store) := by
  induction hmade with
  | start => exact ⟨hproperty, hwhole, fun _ => h₀.mono fun _ h => h.elim⟩
  | @initial calls w s fp _ ih =>
    obtain ⟨hp, hsourced⟩ := ih
    refine ⟨hp, hsourced.grow (w.addInitial_grows hsourced.whole s fp) fun hsourced _ => ?_⟩
    rw [store_addInitial]
    exact List.foldlRecOn _ _ (hsourced.mono fun _ h => h.cons _) fun store hstore l _ => hstore.addRoot l
  | @next calls w w' fp successors checks revisits r hmade hw' hr ih =>
    obtain ⟨hp, hsourced⟩ := ih
    obtain ⟨hp', hevolves⟩ := addChecked_evolves hw' hr
    rw [hp] at hp' hevolves
    refine ⟨hp', ?_⟩
    generalize w'.store = s' at hevolves
    induction hevolves with
    | refl => exact ⟨hsourced.whole, fun hfits => (hsourced.fits hfits).mono fun _ h => h.cons _⟩
    | @tail s₁ s₂ hfirst hlast ih =>
      refine ih.grow (hlast.grows ih.whole) fun h => h.turn (fun k o hoffered hunseen => ?_) hlast
      obtain rfl := hoffered.eq_of_unseen hplain hunseen
      refine ⟨[], calls, successors, checks, revisits, w, rfl, hmade, rfl, ?_⟩
      by_contra hseen
      rw [Builder.Evolves.within hfirst _ (by simpa using hseen)] at hunseen
      cases hunseen

/-- **There is a path to every node**, after all calls of a monitor without a tableau that came
back, in whatever order, if the records that were written fit the log: it follows the steps of written
nodes, it is found from whatever was read before, and it starts at a root or at a node whose state was
expanded before it was a node. -/
theorem exists_path_of_made_plain {p : Property σ} (hplain : p.tableau = none)
    {config : Config} {taken : List String} {index : Nat} (hw₀ : Monitor.create config taken p index = .ok w₀)
    (hmade : Made m w₀ calls w) (hfits : w.store.log.Fits) (hcount : w.store.keys.length + 1 < 2 ^ 64)
    (hk : k ∈ w.store.keys) :
    ∃ ks : List Key, w.store.pathTo k = .ok (ks.map Key.fp) ∧
      (∀ c, w.store.Recalls c → ∃ c', w.store.path k c = (.ok (ks.map Key.fp), c') ∧ w.store.Recalls c') ∧
      ks.getLast? = some k ∧ ks.IsChain w.store.Leads ∧
      ∃ first, ks.head? = some first ∧ (first ∈ w.store.roots ∨ Early m w₀ calls first) := by
  obtain ⟨hp, hlog, htable, -, hempty⟩ := create_eq_ok hw₀
  have h₀ : Store.Sourced (fun _ => False) w₀.store := ⟨[], fun r hr => (by cases hr), .of_empty hlog htable hempty⟩
  obtain ⟨rs, hrs, hrooted⟩ := (hmade.sourced hplain hp (by rw [hlog]; rfl) h₀).2.fits hfits
  obtain ⟨ks, hpath, hlast, ⟨first, hfirst, hhead⟩, hchain⟩ :=
    hrooted.ancestry.exists_path hrooted.intact hrooted.counted hcount hk
  have hpath' : ∀ c, w.store.Recalls c → ∃ c', w.store.path k c = (.ok (ks.map Key.fp), c') ∧ w.store.Recalls c' := by
    intro c hc
    rw [← Store.path_withRoots w.store rs k]
    exact hpath c hc
  obtain ⟨c', hc', -⟩ := hpath' {} (Store.recalls_empty _)
  exact ⟨ks, by rw [Store.pathTo, hc'], hpath', hlast, hchain, first, hhead, hrs first hfirst⟩

/-- A new monitor without a tableau. -/
def ofPlain : Monitor Counter := ⟨{ name := "plain" }, { store := { folder := "", index := 0 } }⟩

/-- The state that the initial one leads to is expanded first. -/
def plainRun : Monitor Counter := ((ofPlain.addInitial ⟨0⟩ 0).expandCounter ⟨1⟩).expandCounter ⟨0⟩

theorem made_plainRun : Made Counter.model ofPlain [.ofCounter ⟨0⟩, .ofCounter ⟨1⟩, .initial ⟨0⟩ 0] plainRun := by
  have hstart : Made Counter.model ofPlain [.initial ⟨0⟩ 0] (ofPlain.addInitial ⟨0⟩ 0) :=
    .initial (⟨0⟩ : Counter) 0 .start
  exact (hstart.expandCounter ⟨1⟩ (by decide +kernel)).expandCounter ⟨0⟩ (by decide +kernel)

theorem exists_path_of_made_plain_early :
    Made Counter.model ofPlain [.ofCounter ⟨0⟩, .ofCounter ⟨1⟩, .initial ⟨0⟩ 0] plainRun ∧
      ∃ ks : List Key, plainRun.store.pathTo ⟨2, Key.noPoint⟩ = .ok (ks.map Key.fp) ∧
        ks.getLast? = some ⟨2, Key.noPoint⟩ ∧ ks.IsChain plainRun.store.Leads := by
  have hw₀ : Monitor.create { folder := "" } [] { name := "plain" } 0 = .ok ofPlain := rfl
  obtain ⟨hkeys, hsize⟩ : plainRun.store.keys = [⟨0, Key.noPoint⟩, ⟨1, Key.noPoint⟩, ⟨2, Key.noPoint⟩] ∧
      plainRun.store.log.file.size < 2 ^ 29 := by decide +kernel
  obtain ⟨ks, hpath, -, hlast, hchain, -⟩ := exists_path_of_made_plain rfl hw₀ made_plainRun
    (Log.fits_of_size_lt hsize) (by simp [hkeys]) (k := ⟨2, Key.noPoint⟩) (by simp [hkeys])
  exact ⟨made_plainRun, ks, hpath, hlast, hchain⟩

/-- **A path need not start at a root**, also if a root leads to the node: the state one was expanded
before zero, and its node has no parent. -/
theorem pathTo_early :
    Made Counter.model ofPlain [.ofCounter ⟨0⟩, .ofCounter ⟨1⟩, .initial ⟨0⟩ 0] plainRun ∧
      plainRun.store.roots = [⟨0, Key.noPoint⟩] ∧
      (plainRun.store.node ⟨0, Key.noPoint⟩).toOption.map Node.targets = some [⟨1, Key.noPoint⟩] ∧
      plainRun.store.pathTo ⟨1, Key.noPoint⟩ = .ok [1] := by
  refine ⟨made_plainRun, ?_⟩
  decide +kernel

end Monitor

end Liveness

import Liveness.Proofs.Monitor.Ancestry
import Liveness.Proofs.Product

/-!
# The order of expansions

The same states may be expanded in any order. A node that turns up after its state was expanded
is expanded late, and it then gets steps as well in which its state stays the same and the tableau
moves. Which nodes these are depends on the order, and such a step may lead to a node that there is
in no other order (`keys_depend_on_order`).

Nothing else depends on it. All positions of the product have a node in any order, every node stands
at a position that the product comes to if states may stay the same, and a node of two graphs has the
same steps in both, but for those within its state. So both graphs have the same nodes if the product
has all positions in which a state of it stays the same (`graphs_agree_in_any_order`).
-/

namespace Liveness

variable {σ : Type}

namespace Property

/-- A step of the product out of an expanded state, or one in which the state stays the same. -/
def StutterStep (p : Property σ) (m : Model σ) (expanded : List σ) (a b : Position σ) : Prop :=
  a.state ∈ expanded ∧ (b.state = a.state ∨ b.state ∈ m.next a.state ∧ m.inside b.state = true) ∧
    p.Moves a.point b.state b.point

/-- A position that can be reached from the starts of the registered states if states may stay
the same. -/
inductive StutterReachable (p : Property σ) (m : Model σ) (registered expanded : List σ) : Position σ → Prop where
  /-- A registered state at an initial point that allows it. -/
  | start {s : σ} {point : UInt32} : s ∈ registered → p.AllowsAt point s ∧ p.IsInitial point →
    StutterReachable p m registered expanded ⟨s, point⟩
  /-- A step leads on. -/
  | step {a b : Position σ} : StutterReachable p m registered expanded a → p.StutterStep m expanded a b →
    StutterReachable p m registered expanded b

variable {p : Property σ} {m : Model σ} {registered expanded expanded' : List σ} {a : Position σ}

theorem ProductReachable.mono (hsub : expanded ⊆ expanded') (h : p.ProductReachable m registered expanded a) :
    p.ProductReachable m registered expanded' a := by
  induction h with
  | start hs hpoint => exact .start hs hpoint
  | step _ hstep ih => exact .step ih ⟨hsub hstep.1, hstep.2⟩

theorem StutterReachable.mono (hsub : expanded ⊆ expanded') (h : p.StutterReachable m registered expanded a) :
    p.StutterReachable m registered expanded' a := by
  induction h with
  | start hs hpoint => exact .start hs hpoint
  | step _ hstep ih => exact .step ih ⟨hsub hstep.1, hstep.2⟩

/-- Nothing is added by states that stay the same if the product has these positions already. -/
theorem StutterReachable.productReachable
    (hclosed : ∀ a b, p.ProductReachable m registered expanded a → p.StutterStep m expanded a b →
      p.ProductReachable m registered expanded b)
    (h : p.StutterReachable m registered expanded a) : p.ProductReachable m registered expanded a := by
  induction h with
  | start hs hpoint => exact .start hs hpoint
  | step _ hstep ih => exact hclosed _ _ ih hstep

end Property

/-! ### Where steps come from -/

variable [ModelState σ]

namespace Monitor

/-- What a call hands over is a state that is expanded, with successors of the search. -/
def Call.Explores (m : Model σ) (states : σ → Prop) (expanded : List σ) : Call σ → Prop
  | .initial _ _ => True
  | .next fp successors _ _ => ∃ s ∈ expanded, states s ∧ fingerprint s = fp ∧ successors ⊆ m.successors s

/-- A run is one of calls. -/
theorem Run.exists_made {m : Model σ} {states : σ → Prop} (hm : m.Faithful states) {w₀ w : Monitor σ}
    {registered expanded : List σ} (h : Run m states w₀ registered expanded w) :
    ∃ calls, Made m w₀ calls w ∧ ∀ c ∈ calls, c.Explores m states expanded := by
  induction h with
  | start => exact ⟨[], .start, fun c hc => by cases hc⟩
  | @initial registered expanded w s _ _ _ ih =>
    obtain ⟨calls, hmade, hcalls⟩ := ih
    exact ⟨_, .initial s _ hmade, List.forall_mem_cons.mpr ⟨trivial, hcalls⟩⟩
  | @next registered expanded w w' s successors checks revisits _ hs hsuccessors hfps hw' ih =>
    obtain ⟨calls, hmade, hcalls⟩ := ih
    refine ⟨_, .next hmade hw' fun f hf => (by cases hf), List.forall_mem_cons.mpr ⟨?_, fun c hc => ?_⟩⟩
    · exact ⟨s, List.mem_cons_self, hs, rfl, fun t ht => (mem_successors_iff hm hs hsuccessors hfps t).mp ht⟩
    · cases c with
      | initial s fp => trivial
      | next fp successors checks revisits =>
        obtain ⟨u, hu, hrest⟩ := hcalls _ hc
        exact ⟨u, List.mem_cons_of_mem _ hu, hrest⟩

end Monitor

namespace Exploration

variable {X : Exploration σ} {expanded : List σ} {s s' : Store} {k l : Key} {o : Offer σ} {fp : Fingerprint}
  {successors : List σ} {checks : StepChecks} {revisits : Bool}

/-- A step from the node `k` to the node `l` is one of an expanded state. -/
def Explains (X : Exploration σ) (expanded : List σ) (k l : Key) : Prop :=
  ∃ a b : Position σ, a.key = k ∧ b.key = l ∧ X.property.StutterStep X.model expanded a b

/-- Only states of `expanded` are marked, and the steps of the graph are steps of these. -/
structure Explained (X : Exploration σ) (expanded : List σ) (s : Store) : Prop where
  done : ∀ fp, s.isDone fp = true → ∃ u ∈ expanded, fingerprint u = fp
  step : ∀ k n, s.Holds k n → ∀ l ∈ n.targets, X.Explains expanded k l

/-- What is offered to a node of the graph are steps of an expanded state. -/
theorem Explained.offered (h : X.Explained expanded s) (hexpanded : ∀ u ∈ expanded, X.states u)
    (hcall : (Monitor.Call.next fp successors checks revisits).Explores X.model X.states expanded)
    (hoffered : Builder.Offered X.property k X.model fp successors checks s o) {e : Step}
    (he : o.Allows X.property k e) : X.Explains expanded k e.target := by
  obtain ⟨u, hu, hstate, hfp, hsuccessors⟩ := hcall
  have hnext : ∀ v, X.states v → ∀ t ∈ X.model.successors v, X.states t :=
    fun v hv t ht => X.faithful.next_mem v hv t (List.mem_of_mem_filter ht)
  obtain ⟨v, hv, hvfp, hmoves⟩ := he
  cases hoffered with
  | handed hk _ =>
    obtain ⟨⟨v, i⟩, hmem, heq⟩ := List.mem_map.mp hv
    obtain ⟨rfl, -⟩ := Prod.mk.inj heq
    refine ⟨⟨u, k.point⟩, ⟨v, e.target.point⟩, ?_, ?_, hu, .inr ?_, hmoves⟩
    · rw [Position.key, hfp, ← hk]
    · rw [Position.key, hvfp]
    · exact List.mem_filter.mp (hsuccessors (List.fst_mem_of_mem_zipIdx hmem))
  | @late u' _ hknown hk _ hdone =>
    obtain ⟨u'', hu'', hfp''⟩ := h.done _ hdone
    have hstate' : X.states u' := hknown.mem (fun t ht => hnext u hstate t (hsuccessors ht)) hnext
    obtain rfl := X.faithful.injective u'' u' (hexpanded u'' hu'') hstate' (hfp''.trans hk.symm)
    obtain ⟨v', hv', heq⟩ := List.mem_map.mp hv
    obtain ⟨rfl, -⟩ := Prod.mk.inj heq
    refine ⟨⟨u'', k.point⟩, ⟨v', e.target.point⟩, ?_, ?_, hu'',
      (List.mem_cons.mp hv').imp_right List.mem_filter.mp, hmoves⟩
    · rw [Position.key, hk]
    · rw [Position.key, hvfp]

theorem Explained.addRoot (h : X.Explained expanded s) (k : Key) : X.Explained expanded (s.addRoot k) := by
  refine ⟨fun fp hfp => h.done fp (by simpa using hfp), fun l n hn => ?_⟩
  rcases Store.holds_addRoot.mp hn with hn | ⟨-, rfl, rfl⟩
  · exact h.step l n hn
  · simp [Node.targets_eq, Node.steps_eq_nil]

/-- **A turn of an expansion adds steps of expanded states only.** -/
theorem Explained.turn {t : Tableau σ} (ht : X.property.tableau = some t) (h : X.Explained expanded s)
    (hexpanded : ∀ u ∈ expanded, X.states u) (hrooted : s.Rooted)
    (hcall : (Monitor.Call.next fp successors checks revisits).Explores X.model X.states expanded)
    (hturn : Builder.Turn X.property X.model fp successors checks s s') (hfits : s'.log.Fits) :
    X.Explained expanded s' := by
  cases hturn with
  | setDone =>
    refine ⟨fun fp' hfp' => ?_, fun k n hn => h.step k n (Store.holds_setDone.mp hn)⟩
    rw [Store.isDone_setDone, Bool.or_eq_true] at hfp'
    rcases hfp' with hfp' | hfp'
    · obtain ⟨u, hu, -, hfp, -⟩ := hcall
      exact ⟨u, hu, by simpa [hfp, eq_comm] using hfp'⟩
    · exact h.done fp' hfp'
  | draw d => exact ⟨h.done, h.step⟩
  | @expand s' k origin n n' o hoffer hn horigin hlinks =>
    have hholds : s.Holds k n := ⟨hoffer.seen ht, hn⟩
    obtain rfl : origin = k := horigin.elim id fun horigin => horigin.trans (hrooted.admits k n hholds).key
    have hgrown := hrooted.grown hholds hlinks
    refine ⟨fun fp' hfp' => h.done fp' ?_, fun l n'' hn'' l' hl' => ?_⟩
    · rwa [Store.isDone_addNode, hlinks.onward.done_eq] at hfp'
    rcases hgrown.holds_cases hfits hn'' with ⟨rfl, rfl⟩ | hn'' | rfl
    · rcases hlinks.target_cases hl' with hl' | ⟨e, he, rfl⟩
      · exact h.step l n hholds l' hl'
      · exact h.offered hexpanded hcall hoffer he
    · exact h.step l n'' hn'' l' hl'
    · simp [Node.targets_eq, Node.steps_eq_nil] at hl'

/-! ### Graphs of runs -/

variable {registered : List σ} {w₀ w : Monitor σ} {n : Node} {t : Tableau σ}

/-- After a run there is a way to every node, and steps are those of expanded states. -/
theorem explained_of_run (ht : X.property.tableau = some t) {config : Config} {taken : List String} {index : Nat}
    (hw₀ : Monitor.create config taken X.property index = .ok w₀)
    (hrun : Monitor.Run X.model X.states w₀ registered expanded w) (hexpanded : ∀ u ∈ expanded, X.states u)
    (hfits : w.store.log.Fits) : w.store.Rooted ∧ X.Explained expanded w.store := by
  obtain ⟨calls, hmade, hcalls⟩ := hrun.exists_made X.faithful
  obtain ⟨hp, hlog, htable, -, hempty⟩ := Monitor.create_eq_ok hw₀
  refine (hmade.invariant_under (J := fun s => s.Rooted ∧ X.Explained expanded s) (by rw [hlog]; rfl)
    ⟨.of_empty hlog htable hempty, ?_, ?_⟩ ?_ ?_).2.fits hfits
  · intro fp hfp
    simp [Store.isDone, Table.row, htable] at hfp
  · exact fun k n hn => absurd hn (Store.not_holds_of_empty htable k n)
  · exact fun s fp _ point _ store h => ⟨h.1.addRoot _, h.2.addRoot _⟩
  · rintro fp successors checks revisits hc store store' ⟨hrooted, hexplained⟩ hturn hfits'
    rw [hp] at hturn
    exact ⟨hrooted.turn ht hturn hfits', hexplained.turn ht hexpanded hrooted (hcalls _ hc) hturn hfits'⟩

/-- A position is known by its node. -/
theorem position_eq_of_key (X : Exploration σ) {a b : Position σ} (ha : X.states a.state) (hb : X.states b.state)
    (h : a.key = b.key) : a = b := by
  obtain ⟨s, point⟩ := a
  obtain ⟨s', point'⟩ := b
  obtain ⟨hfp, rfl⟩ := Key.mk.inj h
  obtain rfl := X.faithful.injective s s' ha hb hfp
  rfl

/-- **Every node stands at a position that the product comes to if states may stay the same.** -/
theorem Tracks.exists_stutterReachable (h : X.Tracks registered expanded w) (hregistered : ∀ s ∈ registered, X.states s)
    (hancestry : w.store.Ancestry) (hexplained : X.Explained expanded w.store) (hk : k ∈ w.store.keys) :
    ∃ a, X.property.StutterReachable X.model registered expanded a ∧ a.key = k := by
  obtain ⟨ks, hks⟩ := hancestry.trace k (Store.mem_keys_iff.mp hk)
  have hchain : ks.IsChain w.store.Leads := hks.descent.chain.imp hancestry.leads
  have hall : ∀ l ∈ ks, ∃ a, X.states a.state ∧ X.property.StutterReachable X.model registered expanded a ∧
      a.key = l := by
    refine hchain.induction _ ks ?_ fun hne => ?_
    · rintro q l hleads ⟨a, ha, hreachable, rfl⟩
      obtain ⟨n, hn, hmem⟩ := hleads.exists_holds
      obtain ⟨a', b, ha', rfl, hstep⟩ := hexplained.step _ n hn l hmem
      obtain rfl := X.position_eq_of_key (h.mem _ hstep.1) ha ha'
      refine ⟨b, ?_, .step hreachable hstep, rfl⟩
      rcases hstep.2.1 with heq | hnext
      · rw [heq]
        exact ha
      · exact X.faithful.next_mem _ ha _ hnext.1
    · obtain ⟨root, hroot, hnone⟩ := hks.descent.root
      obtain ⟨s, hs, hstart⟩ := (h.roots root).mp (hancestry.root root hnone)
      obtain ⟨point, hpoint, rfl⟩ := List.mem_map.mp hstart
      rw [List.head?_eq_some_head hne] at hroot
      exact ⟨⟨s, point⟩, hregistered s hs, .start hs (Property.mem_startPoints.mp hpoint), (Option.some.inj hroot).symm⟩
  obtain ⟨a, -, ha⟩ := hall k (List.mem_of_getLast? hks.last)
  exact ⟨a, ha⟩

/-- **The steps of a node to other states are those of the product.** -/
theorem Tracks.mem_targets_iff (h : X.Tracks registered expanded w) (hfull : X.full)
    (hexplained : X.Explained expanded w.store) (hn : w.store.Holds k n) (hl : l.fp ≠ k.fp) :
    l ∈ n.targets ↔ ∃ a b : Position σ, a.key = k ∧ b.key = l ∧ X.property.ProductStep X.model expanded a b := by
  constructor
  · intro hmem
    obtain ⟨a, b, rfl, rfl, hmem, hnext, hmoves⟩ := hexplained.step k n hn l hmem
    refine ⟨a, b, rfl, rfl, hmem, hnext.resolve_left fun heq => hl ?_, hmoves⟩
    rw [Position.key, Position.key, heq]
  · rintro ⟨a, b, rfl, rfl, hstep⟩
    obtain ⟨-, hleads⟩ := h.leads hfull ⟨⟨h.mem _ hstep.1, rfl⟩, hn.1⟩ hstep
    obtain ⟨n', hn', hmem⟩ := hleads.exists_holds
    rwa [hn.unique hn']

end Exploration

/-- The graph has all positions of the product, its nodes are at positions that the product comes to
if states may stay the same, and its steps to other states are those of the product. -/
structure Store.Spans (p : Property σ) (m : Model σ) (registered expanded : List σ) (s : Store) : Prop where
  covers : ∀ a, p.ProductReachable m registered expanded a → a.key ∈ s.keys
  within : ∀ k ∈ s.keys, ∃ a, p.StutterReachable m registered expanded a ∧ a.key = k
  targets : ∀ k ∈ s.keys, ∃ n, s.node k = .ok n ∧ ∀ l, l.fp ≠ k.fp →
    (l ∈ n.targets ↔ ∃ a b : Position σ, a.key = k ∧ b.key = l ∧ p.ProductStep m expanded a b)

/-- What the graph spans is not a matter of the order. -/
theorem Store.Spans.of_same {p : Property σ} {m : Model σ} {registered expanded expanded' : List σ} {s : Store}
    (h : s.Spans p m registered expanded) (hsame : ∀ u, u ∈ expanded ↔ u ∈ expanded') :
    s.Spans p m registered expanded' := by
  refine ⟨fun a ha => h.covers a (ha.mono fun u hu => (hsame u).mpr hu), fun k hk => ?_, fun k hk => ?_⟩
  · obtain ⟨a, ha, hkey⟩ := h.within k hk
    exact ⟨a, ha.mono fun u hu => (hsame u).mp hu, hkey⟩
  · simpa only [Property.ProductStep, hsame] using h.targets k hk

/-- Two graphs of the same expanded states have the same steps at a node of both, but for those within
its state. -/
theorem Store.Spans.same_targets {p : Property σ} {m : Model σ} {registered registered' expanded : List σ} {s s' : Store}
    (h : s.Spans p m registered expanded) (h' : s'.Spans p m registered' expanded) {k : Key} (hk : k ∈ s.keys)
    (hk' : k ∈ s'.keys) :
    ∃ n n', s.node k = .ok n ∧ s'.node k = .ok n' ∧ ∀ l, l.fp ≠ k.fp → (l ∈ n.targets ↔ l ∈ n'.targets) := by
  obtain ⟨n, hn, htargets⟩ := h.targets k hk
  obtain ⟨n', hn', htargets'⟩ := h'.targets k hk'
  exact ⟨n, n', hn, hn', fun l hl => (htargets l hl).trans (htargets' l hl).symm⟩

namespace Monitor

variable {m : Model σ} {states : σ → Prop} {p : Property σ} {t : Tableau σ} {w₀ w : Monitor σ}
  {registered expanded : List σ}

theorem Run.registered_mem (h : Run m states w₀ registered expanded w) : ∀ s ∈ registered, states s := by
  induction h with
  | start => exact fun s hs => by cases hs
  | initial _ hs _ ih => exact List.forall_mem_cons.mpr ⟨hs, ih⟩
  | next _ _ _ _ _ ih => exact ih

/-- **The graph of a run spans the product**, if the records that were written fit the log. -/
theorem Run.spans (hm : m.Faithful states) (ht : p.tableau = some t) {config : Config} {taken : List String}
    {index : Nat} (hw₀ : Monitor.create config taken p index = .ok w₀) (hrun : Run m states w₀ registered expanded w)
    (hfits : w.store.log.Fits) : w.store.Spans p m registered expanded := by
  let X : Exploration σ := ⟨m, p, states, fun _ => True, False, True, hm⟩
  have htracks : X.Tracks registered expanded w :=
    (hrun.tracks (X := X) id (fun _ => trivial) (Exploration.tracks_create hw₀)).fits hfits
  obtain ⟨hrooted, hexplained⟩ := Exploration.explained_of_run (X := X) ht hw₀ hrun htracks.mem hfits
  refine ⟨fun a ha => ?_, fun k hk => ?_, fun k hk => ?_⟩
  · exact Store.mem_keys_iff.mpr (htracks.covers trivial hrun.registered_mem ha).2
  · exact htracks.exists_stutterReachable hrun.registered_mem hrooted.ancestry hexplained hk
  · obtain ⟨n, hn, -⟩ := hrooted.intact.exists_holds (Store.mem_keys_iff.mp hk)
    exact ⟨n, hn.2, fun l hl => htracks.mem_targets_iff trivial hexplained hn hl⟩

/-- **Two graphs of the same states agree up to what states add that stay the same.** The states were
expanded in any two orders, after the same roots, no violation showed, and the records that were written
fit the logs. Both graphs have a node for every position of the product, all their nodes are at positions
that the product comes to if states may stay the same, and a node of both has the same steps in both, but
for those within its state. If the product has the positions in which a state of it stays the same, both
graphs have the same nodes. -/
theorem graphs_agree_in_any_order (hm : m.Faithful states) (ht : p.tableau = some t)
    {config : Config} {taken : List String} {index : Nat} (hw₀ : Monitor.create config taken p index = .ok w₀)
    {expanded' : List σ} (hsame : ∀ s, s ∈ expanded' ↔ s ∈ expanded) {w' : Monitor σ}
    (hrun : Run m states w₀ registered expanded w) (hrun' : Run m states w₀ registered expanded' w')
    (hfits : w.store.log.Fits) (hfits' : w'.store.log.Fits) :
    (∀ a, p.ProductReachable m registered expanded a → a.key ∈ w.store.keys ∧ a.key ∈ w'.store.keys) ∧
      (∀ k, k ∈ w.store.keys ∨ k ∈ w'.store.keys →
        ∃ a, p.StutterReachable m registered expanded a ∧ a.key = k) ∧
      (∀ k ∈ w.store.keys, k ∈ w'.store.keys →
        ∃ n n', w.store.node k = .ok n ∧ w'.store.node k = .ok n' ∧
          ∀ l, l.fp ≠ k.fp → (l ∈ n.targets ↔ l ∈ n'.targets)) ∧
      ((∀ a b, p.ProductReachable m registered expanded a → p.StutterStep m expanded a b →
          p.ProductReachable m registered expanded b) →
        ∀ k, k ∈ w.store.keys ↔ k ∈ w'.store.keys) := by
  have hspans := hrun.spans hm ht hw₀ hfits
  have hspans' := (hrun'.spans hm ht hw₀ hfits').of_same hsame
  refine ⟨fun a ha => ⟨hspans.covers a ha, hspans'.covers a ha⟩, fun k hk => ?_, fun k => hspans.same_targets hspans',
    fun hclosed k => ⟨fun hk => ?_, fun hk => ?_⟩⟩
  · exact hk.elim (hspans.within k) (hspans'.within k)
  · obtain ⟨a, ha, rfl⟩ := hspans.within k hk
    exact hspans'.covers a (ha.productReachable hclosed)
  · obtain ⟨a, ha, rfl⟩ := hspans'.within k hk
    exact hspans.covers a (ha.productReachable hclosed)

end Monitor

/-! ### A node of one order only -/

/-- The counter goes from zero to one. -/
def Counter.once : Model Counter where
  initial := [⟨0⟩]
  next := fun c => if c.value = 0 then [⟨1⟩] else []

/-- A tableau of three points in a row. -/
def Counter.rowTableau : Tableau Counter :=
  (Tableau.ofNodes [⟨0, [1], false, fun _ => true⟩, ⟨1, [2], false, fun _ => true⟩, ⟨2, [], false, fun _ => true⟩]
    1).toOption.get (by decide)

/-- A property of the counter that nothing violates. -/
def Counter.row : Property Counter := { name := "row", tableau := some Counter.rowTableau }

theorem Counter.faithful_once : Counter.once.Faithful fun _ => True :=
  ⟨fun _ _ _ _ => trivial, fun s t _ _ h => by cases s; cases t; exact congrArg _ h⟩

namespace Monitor

/-- A new monitor of the property. -/
def ofRow : Monitor Counter := ⟨Counter.row, { store := { folder := "", index := 0 } }⟩

/-- The monitor after a state was expanded. -/
def expandOnce (w : Monitor Counter) (c : Counter) : Monitor Counter :=
  (addChecked Counter.once (fingerprint c) (Counter.once.successors c) noChecks false w).2

/-- The states are expanded as they are reached. -/
def forwardRun : Monitor Counter := ((ofRow.addInitial ⟨0⟩ 0).expandOnce ⟨0⟩).expandOnce ⟨1⟩

/-- One is expanded before it is reached. -/
def backwardRun : Monitor Counter := ((ofRow.addInitial ⟨0⟩ 0).expandOnce ⟨1⟩).expandOnce ⟨0⟩

theorem Run.expandOnce {registered expanded : List Counter} {w : Monitor Counter}
    (h : Run Counter.once (fun _ => True) ofRow registered expanded w) (c : Counter)
    (hc : (addChecked Counter.once (fingerprint c) (Counter.once.successors c) noChecks false w).1.toOption =
      some none) :
    Run Counter.once (fun _ => True) ofRow registered (c :: expanded) (w.expandOnce c) :=
  h.next trivial (fun _ _ => trivial) (fun _ => Iff.rfl) (Change.eq_ok_of_toOption hc)

theorem run_registered : Run Counter.once (fun _ => True) ofRow [⟨0⟩] [] (ofRow.addInitial ⟨0⟩ 0) :=
  .initial .start trivial fun h => by cases h

theorem run_forward : Run Counter.once (fun _ => True) ofRow [⟨0⟩] [⟨1⟩, ⟨0⟩] forwardRun :=
  (run_registered.expandOnce ⟨0⟩ (by decide +kernel)).expandOnce ⟨1⟩ (by decide +kernel)

theorem run_backward : Run Counter.once (fun _ => True) ofRow [⟨0⟩] [⟨0⟩, ⟨1⟩] backwardRun :=
  (run_registered.expandOnce ⟨1⟩ (by decide +kernel)).expandOnce ⟨0⟩ (by decide +kernel)

theorem store_forwardRun :
    forwardRun.store.keys = [⟨0, 0⟩, ⟨1, 1⟩] ∧ forwardRun.store.log.file.size < 2 ^ 29 := by decide +kernel

theorem store_backwardRun :
    backwardRun.store.keys = [⟨0, 0⟩, ⟨1, 1⟩, ⟨1, 2⟩] ∧ backwardRun.store.log.file.size < 2 ^ 29 := by decide +kernel

/-- **The nodes of a graph depend on the order of the expansions.** If one is expanded first, its node
at the second point turns up late, and stays the same while the tableau moves to the third point. -/
theorem keys_depend_on_order :
    Run Counter.once (fun _ => True) ofRow [⟨0⟩] [⟨1⟩, ⟨0⟩] forwardRun ∧
      Run Counter.once (fun _ => True) ofRow [⟨0⟩] [⟨0⟩, ⟨1⟩] backwardRun ∧
      ⟨1, 2⟩ ∉ forwardRun.store.keys ∧ ⟨1, 2⟩ ∈ backwardRun.store.keys := by
  refine ⟨run_forward, run_backward, ?_, ?_⟩
  · rw [store_forwardRun.1]
    decide
  · rw [store_backwardRun.1]
    decide

/-- The node of zero is in both graphs and leads to the same nodes; the node of one order only is where
the product comes to if one stays the same. -/
theorem graphs_agree_in_any_order_row :
    Run Counter.once (fun _ => True) ofRow [⟨0⟩] [⟨1⟩, ⟨0⟩] forwardRun ∧
      Run Counter.once (fun _ => True) ofRow [⟨0⟩] [⟨0⟩, ⟨1⟩] backwardRun ∧
      (∃ n n', forwardRun.store.node ⟨0, 0⟩ = .ok n ∧ backwardRun.store.node ⟨0, 0⟩ = .ok n' ∧
        ∀ l : Key, l.fp ≠ 0 → (l ∈ n.targets ↔ l ∈ n'.targets)) ∧
      ∃ a, Counter.row.StutterReachable Counter.once [⟨0⟩] [⟨1⟩, ⟨0⟩] a ∧ a.key = ⟨1, 2⟩ := by
  have hw₀ : Monitor.create { folder := "" } [] Counter.row 0 = .ok ofRow := rfl
  obtain ⟨-, hwithin, htargets, -⟩ := graphs_agree_in_any_order Counter.faithful_once rfl hw₀
    (fun c => by simp [or_comm]) run_forward run_backward (Log.fits_of_size_lt store_forwardRun.2)
    (Log.fits_of_size_lt store_backwardRun.2)
  refine ⟨run_forward, run_backward, htargets ⟨0, 0⟩ ?_ ?_, hwithin ⟨1, 2⟩ (.inr ?_)⟩
  · simp [store_forwardRun.1]
  · simp [store_backwardRun.1]
  · simp [store_backwardRun.1]

end Monitor

end Liveness

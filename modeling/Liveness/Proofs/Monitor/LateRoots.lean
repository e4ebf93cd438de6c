import Liveness.Proofs.Builder.Blind
import Liveness.Proofs.Monitor.Orders
import Liveness.Proofs.Monitor.Plain

/-!
# Roots that come after the expansion of their state

A state that is expanded gives steps to the nodes that it has, and a node that turns up later by
a step is expanded late. A node that turns up later as a root is not: its state is marked as
expanded, and the root is left without steps (`late_root_is_bare`). So it matters whether an
initial state is added before it is expanded or after it.

It does not matter if the roots are nodes already. An expansion does not look at the roots, so
that both orders then lead to the same graph, up to its drawings (`addChecked_addInitial`). What
else the two orders have in common is in `root_after_expansion`: only the new roots lack their
steps, and what would have been found from them.
-/

namespace Liveness

namespace Store

variable {s : Store} {ks : List Key}

/-- Nodes that are made roots change the list of roots only. -/
theorem bare_addRoots (hks : ∀ k ∈ ks, s.isUnseen k = false) : (s.addRoots ks).bare = s.bare := by
  induction ks generalizing s with
  | nil => rfl
  | cons k ks ih =>
    have hroot : (s.addRoot k).bare = s.bare := by
      rw [addRoot_eq, seeRoot, if_neg (by simp [hks k])]
      rfl
    refine (ih fun l hl => ?_).trans hroot
    rw [isUnseen_addRoot, hks l (by simp [hl]), Bool.and_false]

end Store

variable {σ : Type} [ModelState σ]

/-- An expansion leaves the roots as they are. -/
theorem Builder.Evolves.roots {p : Property σ} {m : Model σ} {fp : Fingerprint} {successors : List σ}
    {checks : StepChecks} {s s' : Store} (h : Builder.Evolves p m fp successors checks s s') : s'.roots = s.roots := by
  induction h with
  | refl => rfl
  | tail _ hlast ih =>
    rw [← ih]
    cases hlast with
    | setDone => rfl
    | draw => rfl
    | expand _ _ _ hlinks => rw [Store.roots_addNode, hlinks.roots]

namespace Property

variable {p : Property σ} {m : Model σ} {registered registered' expanded : List σ} {a : Position σ}

omit [ModelState σ] in
theorem StutterReachable.of_registered (hsub : registered ⊆ registered')
    (h : p.StutterReachable m registered expanded a) : p.StutterReachable m registered' expanded a := by
  induction h with
  | start hs hpoint => exact .start (hsub hs) hpoint
  | step _ hstep ih => exact .step ih hstep

end Property

namespace Monitor

variable {m : Model σ} {w a n : Monitor σ} {s : σ} {fp : Fingerprint} {successors : List σ} {checks : StepChecks}
  {revisits : Bool} {r : Option Lasso}

/-- **Nodes may be made roots before an expansion or after it**: the expansion comes to the same,
and so does the graph, but for drawings. -/
theorem addChecked_addInitial {g : Fingerprint}
    (hknown : ∀ point ∈ w.property.startPoints s, w.store.isUnseen ⟨g, point⟩ = false)
    (ha : addChecked m fp successors checks revisits (w.addInitial s g) = (.ok r, a)) :
    ∃ n, addChecked m fp successors checks revisits w = (.ok r, n) ∧
      ∃ d, a.store = { (n.addInitial s g).store with drawings := d } := by
  have hks : ∀ k ∈ (w.property.startPoints s).map (Key.mk g), w.store.isUnseen k = false := by
    intro k hk
    obtain ⟨point, hpoint, rfl⟩ := List.mem_map.mp hk
    exact hknown point hpoint
  have hbare : (w.addInitial s g).builder.bare = w.builder.bare := by
    have hstore := Store.bare_addRoots hks
    rw [← store_addInitial] at hstore
    exact congrArg (fun store => { w.builder with store := store }) hstore
  obtain ⟨hresult, hrest⟩ := Builder.Blind.addNext w.property m fp successors checks revisits _ _ hbare
  have hok : (Builder.addNext w.property m fp successors checks revisits w.builder).1 = .ok r :=
    hresult.symm.trans (congrArg Prod.fst ha)
  have hn := Change.eq_of_fst hok
  generalize hb : (Builder.addNext w.property m fp successors checks revisits w.builder).2 = b at hn hrest
  have hcall : addChecked m fp successors checks revisits w = (.ok r, { w with builder := b }) := by
    rw [addChecked_apply, hn]
  refine ⟨{ w with builder := b }, hcall, a.store.drawings, ?_⟩
  obtain ⟨-, hevolves⟩ := addChecked_evolves hcall fun f hf => (by cases hf)
  obtain ⟨-, hevolves'⟩ := addChecked_evolves ha fun f hf => (by cases hf)
  have hwithin : ∀ k ∈ (w.property.startPoints s).map (Key.mk g), b.store.isUnseen k = false :=
    fun k hk => hevolves.within k (hks k hk)
  apply Store.eq_of_bare
  · rw [store_addInitial]
    refine Eq.trans ?_ (Store.bare_addRoots hwithin).symm
    have ha' : a.builder = (Builder.addNext w.property m fp successors checks revisits (w.addInitial s g).builder).2 :=
      congrArg (fun x => x.2.builder) ha.symm
    rw [store, ha']
    exact congrArg Builder.store hrest
  · rw [hevolves'.roots, store_addInitial, store_addInitial]
    exact Store.roots_addRoots_congr _ hevolves.roots.symm

/-- The nodes after an initial state was added. -/
theorem mem_keys_addInitial {k : Key} : k ∈ (w.addInitial s (fingerprint s)).store.keys ↔
    k ∈ w.store.keys ∨ k ∈ w.property.startKeys s := by
  rw [store_addInitial, Store.mem_keys_iff, Store.mem_keys_iff, Store.isUnseen_addRoots, Bool.and_eq_false_iff,
    decide_eq_false_iff_not, not_not, or_comm]
  rfl

omit [ModelState σ] in
theorem node_addInitial (w : Monitor σ) (s : σ) (fp : Fingerprint) (k : Key) :
    (w.addInitial s fp).store.node k = w.store.node k := by
  rw [store_addInitial, Store.node_addRoots]

omit [ModelState σ] in
/-- A root that was no node has no steps, whatever its state is. -/
theorem node_addInitial_of_not_mem {k : Key} (hk : k ∉ w.store.keys) :
    (w.addInitial s fp).store.node k = .ok { key := k, parent := none } := by
  rw [Store.mem_keys_iff, Bool.not_eq_false] at hk
  rw [node_addInitial, Store.node, Store.isUnseen_iff.mp hk]

/-- **A root that is a node before the expansion of its state may come before or after it.** -/
theorem eq_addInitial_of_known (hknown : ∀ k ∈ w.property.startKeys s, k ∈ w.store.keys)
    (ha : addChecked m (fingerprint s) successors checks revisits (w.addInitial s (fingerprint s)) = (.ok r, a))
    (hn : addChecked m (fingerprint s) successors checks revisits w = (.ok r, n)) :
    ∃ d, a.store = { (n.addInitial s (fingerprint s)).store with drawings := d } := by
  have hpoints : ∀ point ∈ w.property.startPoints s, w.store.isUnseen ⟨fingerprint s, point⟩ = false :=
    fun point hpoint => Store.mem_keys_iff.mp (hknown _ (List.mem_map_of_mem hpoint))
  obtain ⟨n', hn', d, hd⟩ := addChecked_addInitial hpoints ha
  rw [hn] at hn'
  obtain ⟨-, rfl⟩ := Prod.mk.inj hn'
  exact ⟨d, hd⟩

end Monitor

/-! ### Graphs without some of the roots -/

/-- A root of a registered state has a node. -/
theorem Store.Spans.startKeys_subset {p : Property σ} {m : Model σ} {registered expanded : List σ} {g : Store} {s : σ}
    (h : g.Spans p m registered expanded) (hs : s ∈ registered) : ∀ k ∈ p.startKeys s, k ∈ g.keys := by
  intro k hk
  obtain ⟨point, hpoint, rfl⟩ := List.mem_map.mp hk
  exact h.covers ⟨s, point⟩ (.start hs (Property.mem_startPoints.mp hpoint))

namespace Exploration

variable {X : Exploration σ} {registered registered' expanded : List σ} {w : Monitor σ} {c : Position σ} {s : σ}
  {k : Key} {g : Store}

/-- The product is found from other roots as well, if these have nodes. -/
theorem Tracks.covers_of_starts (h : X.Tracks registered expanded w) (hfull : X.full)
    (hstarts : ∀ s ∈ registered', X.states s ∧ ∀ k ∈ X.property.startKeys s, k ∈ w.store.keys)
    (hc : X.property.ProductReachable X.model registered' expanded c) : X.Covers w.store c := by
  induction hc with
  | @start s point hs hpoint =>
    obtain ⟨hstate, hkeys⟩ := hstarts s hs
    have hkey := hkeys _ (List.mem_map_of_mem (Property.mem_startPoints.mpr hpoint))
    exact ⟨⟨hstate, rfl⟩, Store.mem_keys_iff.mp hkey⟩
  | step _ hstep ih => exact (h.leads hfull ih hstep).1

/-- **A root that comes too late is left without steps**, though its state is marked as expanded. -/
theorem Tracks.bare_root (h : X.Tracks registered expanded w) (hs : s ∈ expanded) (hk : k ∈ X.property.startKeys s)
    (hnot : k ∉ w.store.keys) :
    (w.addInitial s (fingerprint s)).store.isDone k.fp = true ∧
      (w.addInitial s (fingerprint s)).store.node k = .ok { key := k, parent := none } := by
  refine ⟨?_, Monitor.node_addInitial_of_not_mem hnot⟩
  obtain ⟨point, -, rfl⟩ := List.mem_map.mp hk
  rw [Monitor.store_addInitial, Store.isDone_addRoots, h.done]
  exact ⟨s, hs, rfl⟩

/-- **A graph that found the roots of a state without being told of them has the nodes of one that was
told**, if the product has the positions in which a state of it stays the same. -/
theorem Tracks.mem_keys_of_found (h : X.Tracks registered expanded w) (hfull : X.full)
    (hregistered : ∀ u ∈ registered, X.states u) (hs : X.states s)
    (hspans : w.store.Spans X.property X.model registered expanded)
    (hg : g.Spans X.property X.model (s :: registered) expanded)
    (hfound : ∀ l ∈ X.property.startKeys s, l ∈ w.store.keys)
    (hclosed : ∀ c d, X.property.ProductReachable X.model (s :: registered) expanded c →
      X.property.StutterStep X.model expanded c d → X.property.ProductReachable X.model (s :: registered) expanded d) :
    k ∈ g.keys ↔ k ∈ w.store.keys := by
  constructor
  · intro hk
    obtain ⟨c, hc, rfl⟩ := hg.within k hk
    have hstarts : ∀ u ∈ s :: registered, X.states u ∧ ∀ l ∈ X.property.startKeys u, l ∈ w.store.keys :=
      List.forall_mem_cons.mpr ⟨⟨hs, hfound⟩, fun u hu => ⟨hregistered u hu, hspans.startKeys_subset hu⟩⟩
    exact Store.mem_keys_iff.mpr (h.covers_of_starts hfull hstarts (hc.productReachable hclosed)).2
  · intro hk
    obtain ⟨c, hc, rfl⟩ := hspans.within k hk
    exact hg.covers c ((hc.of_registered (List.subset_cons_self s registered)).productReachable hclosed)

end Exploration

namespace Monitor

variable {m : Model σ} {states : σ → Prop} {p : Property σ} {t : Tableau σ} {w₀ w a n : Monitor σ}
  {registered expanded : List σ} {s : σ} {successors : List σ} {checks : StepChecks} {revisits : Bool}

/-- **What an initial state leads to if it is added after its expansion**, in the graph `n.addInitial s`,
and what it leads to if it is added before, in the graph `a`, if the records that were written fit the
logs. Nodes that the expansion found without the roots have the same steps in both graphs, but for those
within their state. A root that was not found is left without steps, though its state is marked as
expanded, where `a` has all its steps. If all roots were found and the product has the positions in which
a state of it stays the same, both graphs have the same nodes; and if the roots were nodes before the
expansion, both are the same graph but for drawings. -/
theorem root_after_expansion (hm : m.Faithful states) (ht : p.tableau = some t)
    {config : Config} {taken : List String} {index : Nat} (hw₀ : Monitor.create config taken p index = .ok w₀)
    (hrun : Run m states w₀ registered expanded w) (hs : states s) (hfirst : s ∉ expanded)
    (hsuccessors : ∀ u ∈ successors, states u)
    (hfps : ∀ fp, fp ∈ successors.map fingerprint ↔ fp ∈ (m.successors s).map fingerprint)
    (ha : addChecked m (fingerprint s) successors checks revisits (w.addInitial s (fingerprint s)) = (.ok none, a))
    (hn : addChecked m (fingerprint s) successors checks revisits w = (.ok none, n))
    (hfitsA : a.store.log.Fits) (hfitsN : n.store.log.Fits) :
    let b := n.addInitial s (fingerprint s)
    (∀ k, k ∈ b.store.keys ↔ k ∈ n.store.keys ∨ k ∈ p.startKeys s) ∧
      (∀ k ∈ a.store.keys, k ∈ n.store.keys → ∃ x y, a.store.node k = .ok x ∧ b.store.node k = .ok y ∧
        ∀ l, l.fp ≠ k.fp → (l ∈ x.targets ↔ l ∈ y.targets)) ∧
      (∀ k ∈ p.startKeys s, k ∉ n.store.keys →
        b.store.isDone k.fp = true ∧ b.store.node k = .ok { key := k, parent := none } ∧
          ∃ x, a.store.node k = .ok x ∧ ∀ l, l.fp ≠ k.fp →
            (l ∈ x.targets ↔ ∃ c d : Position σ, c.key = k ∧ d.key = l ∧ p.ProductStep m (s :: expanded) c d)) ∧
      ((∀ k ∈ p.startKeys s, k ∈ n.store.keys) →
        (∀ c d, p.ProductReachable m (s :: registered) (s :: expanded) c → p.StutterStep m (s :: expanded) c d →
          p.ProductReachable m (s :: registered) (s :: expanded) d) →
        ∀ k, k ∈ a.store.keys ↔ k ∈ b.store.keys) ∧
      ((∀ k ∈ p.startKeys s, k ∈ w.store.keys) → ∃ d, a.store = { b.store with drawings := d }) := by
  let X : Exploration σ := ⟨m, p, states, fun _ => True, False, True, hm⟩
  have hrunA : Run m states w₀ (s :: registered) (s :: expanded) a :=
    (hrun.initial hs fun h => absurd h hfirst).next hs hsuccessors hfps ha
  have hrunN : Run m states w₀ registered (s :: expanded) n := hrun.next hs hsuccessors hfps hn
  have hspansA := hrunA.spans hm ht hw₀ hfitsA
  have hspansN := hrunN.spans hm ht hw₀ hfitsN
  have htracks : X.Tracks registered (s :: expanded) n :=
    (hrunN.tracks (X := X) id (fun _ => trivial) (Exploration.tracks_create hw₀)).fits hfitsN
  have hp : w.property = p :=
    (addChecked_evolves hn fun f hf => (by cases hf)).1.symm.trans htracks.property_eq
  have hkeys : ∀ k, k ∈ (n.addInitial s (fingerprint s)).store.keys ↔ k ∈ n.store.keys ∨ k ∈ p.startKeys s := by
    intro k
    rw [mem_keys_addInitial, htracks.property_eq]
  intro b
  refine ⟨hkeys, fun k hkA hkN => ?_, fun k hk hkN => ?_, fun hfound hclosed k => ?_, fun hknown => ?_⟩
  · obtain ⟨x, y, hx, hy, hsame⟩ := hspansA.same_targets hspansN hkA hkN
    exact ⟨x, y, hx, (node_addInitial n s _ k).trans hy, hsame⟩
  · obtain ⟨hdone, hnode⟩ := htracks.bare_root List.mem_cons_self hk hkN
    exact ⟨hdone, hnode, hspansA.targets k (hspansA.startKeys_subset List.mem_cons_self k hk)⟩
  · rw [htracks.mem_keys_of_found trivial hrun.registered_mem hs hspansN hspansA hfound hclosed, hkeys,
      or_iff_left_of_imp (hfound k)]
  · exact eq_addInitial_of_known (by rwa [hp]) ha hn

/-- The monitor after a state of the counter was added as an initial one. -/
def addCounter (w : Monitor Counter) (c : Counter) : Monitor Counter := w.addInitial c (fingerprint c)

/-- Zero comes after its expansion and is left without steps; one is a node by then, and it makes no
difference when it becomes a root. -/
theorem root_after_expansion_counter :
    (∃ x, ((ofRow.addCounter ⟨0⟩).expandOnce ⟨0⟩).store.node ⟨0, 0⟩ = .ok x ∧
        ((ofRow.expandOnce ⟨0⟩).addCounter ⟨0⟩).store.node ⟨0, 0⟩ = .ok { key := ⟨0, 0⟩, parent := none } ∧
        ∀ l : Key, l.fp ≠ 0 → (l ∈ x.targets ↔ ∃ c d : Position Counter, c.key = ⟨0, 0⟩ ∧ d.key = l ∧
          Counter.row.ProductStep Counter.once [⟨0⟩] c d)) ∧
      ∃ d, ((((ofCounter.addCounter ⟨0⟩).expandCounter ⟨0⟩).addCounter ⟨1⟩).expandCounter ⟨1⟩).store =
        { ((((ofCounter.addCounter ⟨0⟩).expandCounter ⟨0⟩).expandCounter ⟨1⟩).addCounter ⟨1⟩).store with
          drawings := d } := by
  constructor
  · have hw₀ : Monitor.create { folder := "" } [] Counter.row 0 = .ok ofRow := rfl
    have hbefore : addChecked Counter.once (fingerprint (⟨0⟩ : Counter)) (Counter.once.successors ⟨0⟩) noChecks false
        (ofRow.addCounter ⟨0⟩) = (.ok none, (ofRow.addCounter ⟨0⟩).expandOnce ⟨0⟩) :=
      Change.eq_ok_of_toOption (by decide +kernel)
    have hafter : addChecked Counter.once (fingerprint (⟨0⟩ : Counter)) (Counter.once.successors ⟨0⟩) noChecks false
        ofRow = (.ok none, ofRow.expandOnce ⟨0⟩) := Change.eq_ok_of_toOption (by decide +kernel)
    have hstart : Run Counter.once (fun _ => True) ofRow [] [] ofRow := .start
    obtain ⟨hsizeA, hsizeN, hnot⟩ : ((ofRow.addCounter ⟨0⟩).expandOnce ⟨0⟩).store.log.file.size < 2 ^ 29 ∧
        (ofRow.expandOnce ⟨0⟩).store.log.file.size < 2 ^ 29 ∧ ⟨0, 0⟩ ∉ (ofRow.expandOnce ⟨0⟩).store.keys := by
      decide +kernel
    obtain ⟨-, -, hbare, -⟩ := root_after_expansion Counter.faithful_once rfl hw₀ hstart trivial (by simp)
      (fun _ _ => trivial) (fun _ => Iff.rfl) hbefore hafter (Log.fits_of_size_lt hsizeA) (Log.fits_of_size_lt hsizeN)
    obtain ⟨-, hnode, x, hx, htargets⟩ := hbare ⟨0, 0⟩ (by decide) hnot
    exact ⟨x, hx, hnode, htargets⟩
  · have hw₀ : Monitor.create { folder := "" } [] Counter.property 0 = .ok ofCounter := rfl
    have hstart : Run Counter.model (fun _ => True) ofCounter [⟨0⟩] [] (ofCounter.addCounter ⟨0⟩) :=
      .initial .start trivial fun h => by cases h
    let w := (ofCounter.addCounter ⟨0⟩).expandCounter ⟨0⟩
    have hrun : Run Counter.model (fun _ => True) ofCounter [⟨0⟩] [⟨0⟩] w :=
      hstart.expandCounter ⟨0⟩ (by decide +kernel)
    have hbefore : addChecked Counter.model (fingerprint (⟨1⟩ : Counter)) (Counter.model.successors ⟨1⟩) noChecks false
        (w.addCounter ⟨1⟩) = (.ok none, (w.addCounter ⟨1⟩).expandCounter ⟨1⟩) :=
      Change.eq_ok_of_toOption (by decide +kernel)
    have hafter : addChecked Counter.model (fingerprint (⟨1⟩ : Counter)) (Counter.model.successors ⟨1⟩) noChecks false
        w = (.ok none, w.expandCounter ⟨1⟩) := Change.eq_ok_of_toOption (by decide +kernel)
    obtain ⟨hsizeA, hsizeN, hfound⟩ : ((w.addCounter ⟨1⟩).expandCounter ⟨1⟩).store.log.file.size < 2 ^ 29 ∧
        (w.expandCounter ⟨1⟩).store.log.file.size < 2 ^ 29 ∧ ∀ k ∈ Counter.property.startKeys ⟨1⟩, k ∈ w.store.keys := by
      decide +kernel
    obtain ⟨-, -, -, -, hknown⟩ := root_after_expansion Counter.faithful_model rfl hw₀ hrun trivial (by decide)
      (fun _ _ => trivial) (fun _ => Iff.rfl) hbefore hafter (Log.fits_of_size_lt hsizeA) (Log.fits_of_size_lt hsizeN)
    exact hknown hfound

/-- **A root that comes after the expansion of its state is left without steps**, and what follows it has
no node: zero is an initial state and leads to one, but only if it is added before it is expanded. -/
theorem late_root_is_bare :
    (addChecked Counter.once 0 [⟨1⟩] noChecks false (ofRow.addCounter ⟨0⟩)).1.toOption = some none ∧
      (addChecked Counter.once 0 [⟨1⟩] noChecks false ofRow).1.toOption = some none ∧
      ((ofRow.addCounter ⟨0⟩).expandOnce ⟨0⟩).store.keys = [⟨0, 0⟩, ⟨1, 1⟩] ∧
      ((ofRow.expandOnce ⟨0⟩).addCounter ⟨0⟩).store.keys = [⟨0, 0⟩] ∧
      (((ofRow.addCounter ⟨0⟩).expandOnce ⟨0⟩).store.node ⟨0, 0⟩).toOption.map Node.targets = some [⟨1, 1⟩] ∧
      (((ofRow.expandOnce ⟨0⟩).addCounter ⟨0⟩).store.node ⟨0, 0⟩).toOption.map Node.targets = some [] := by
  decide +kernel

end Monitor

end Liveness

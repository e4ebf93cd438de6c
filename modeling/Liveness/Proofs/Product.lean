import Liveness.Proofs.Cycle.Search
import Liveness.Proofs.Monitor
import Liveness.Proofs.Store.Ancestry

/-!
# The product of a model with a tableau

A property is violated by a behaviour of the model together with a run of the tableau. The
product has the states of the model at the points of the tableau; without a tableau it is
the model itself. Only the states that were expanded have steps in it. A *fair round* is a
closed walk of the product that can be reached from a start and meets a fairness condition
of the property; it is said by the checks of the property, whatever is stored of them.

The graph of a monitor that was handed these states has all steps of the product, so a fair
round is a fair cycle of the graph.
-/

namespace Liveness

/-- A state of a model at a point of a tableau. -/
structure Position (σ : Type) where
  /-- The state. -/
  state : σ
  /-- The point. -/
  point : UInt32

/-- The node that a position has in the graph. -/
def Position.key {σ : Type} [ModelState σ] (a : Position σ) : Key := ⟨fingerprint a.state, a.point⟩

namespace Property

variable {σ : Type} [ModelState σ]

/-- A step of the product out of an expanded state: the model moves to a state that may follow and is
explored, and the tableau to a point that allows it. -/
def ProductStep (p : Property σ) (m : Model σ) (expanded : List σ) (a b : Position σ) : Prop :=
  a.state ∈ expanded ∧ (b.state ∈ m.next a.state ∧ m.inside b.state = true) ∧ p.Moves a.point b.state b.point

/-- A position that can be reached from the starts of the registered states. -/
inductive ProductReachable (p : Property σ) (m : Model σ) (registered expanded : List σ) : Position σ → Prop where
  /-- A registered state at an initial point that allows it. -/
  | start {s : σ} {point : UInt32} : s ∈ registered → p.AllowsAt point s ∧ p.IsInitial point →
    ProductReachable p m registered expanded ⟨s, point⟩
  /-- A step leads on. -/
  | step {a b : Position σ} : ProductReachable p m registered expanded a → p.ProductStep m expanded a b →
    ProductReachable p m registered expanded b

/-- The positions `bs` lead from `a` round to `a` in the reachable part of the product, and
meet a fairness condition. The steps of the round are the pairs of neighbours. -/
structure FairRound (p : Property σ) (m : Model σ) (registered expanded : List σ) (f : Fairness) (a : Position σ)
    (bs : List (Position σ)) : Prop where
  reachable : p.ProductReachable m registered expanded a
  walk : (a :: bs).IsChain (p.ProductStep m expanded)
  closed : bs.getLast? = some a
  everyStep : ∀ e ∈ (a :: bs).zip bs, ∀ i ∈ f.everyStep, p.HoldsOn i e.1.state e.2.state
  accepting : ∃ b ∈ bs, p.AcceptsAt b.key
  someState : ∀ i ∈ f.someState, ∃ b ∈ bs, p.HoldsAt i b.state
  someStep : ∀ i ∈ f.someStep, ∃ e ∈ (a :: bs).zip bs, p.HoldsOn i e.1.state e.2.state

end Property

/-- From each element of a closed chain there is a step. -/
theorem exists_step_of_closed {α : Type} {R : α → α → Prop} {a : α} {bs : List α} (hchain : (a :: bs).IsChain R)
    (hclosed : bs.getLast? = some a) {b : α} (hb : b ∈ bs) : ∃ c, R b c := by
  obtain ⟨pre, post, rfl⟩ := List.append_of_mem hb
  cases post with
  | nil =>
    obtain rfl : b = a := by simpa using hclosed
    cases pre with
    | nil => exact ⟨b, (List.isChain_cons_cons.mp hchain).1⟩
    | cons c pre => exact ⟨c, (List.isChain_cons_cons.mp hchain).1⟩
  | cons c post =>
    rw [← List.cons_append] at hchain
    exact ⟨c, (List.isChain_cons_cons.mp (List.isChain_append.mp hchain).2.1).1⟩

namespace Exploration

variable {σ : Type} [ModelState σ] {X : Exploration σ} {registered expanded : List σ} {w : Monitor σ}
  {a b : Position σ}

/-- The position has a node in the graph, of one of the states explored. -/
def Covers (X : Exploration σ) (s : Store) (a : Position σ) : Prop :=
  X.At a.key a.state ∧ s.isUnseen a.key = false

/-- The step of a graph is one of the product, with the same action checks. -/
def IsCopy (X : Exploration σ) (e : Step) (x : Position σ × Position σ) : Prop :=
  e.target = x.2.key ∧ ∀ i, e.actions.get i = (X.property.actionBits x.1.state x.2.state).get i

/-- A step of the product leads from node to node. -/
theorem Tracks.leads (h : X.Tracks registered expanded w) (hfull : X.full) (ha : X.Covers w.store a)
    (hstep : X.property.ProductStep X.model expanded a b) : X.Covers w.store b ∧ w.store.Leads a.key b.key := by
  obtain ⟨hmem, hnext, hmoves⟩ := hstep
  have hnext := List.mem_filter.mpr hnext
  obtain ⟨n, hn, -⟩ := h.lawful.intact.exists_holds ha.2
  have hadmits := h.lawful.admits _ n hn
  have hdue : X.Due w.store a.key := ⟨(h.done _).mpr ⟨a.state, hmem, rfl⟩, hadmits.isKey.1, .inr ha.2⟩
  obtain ⟨n', hn', hrequired⟩ := h.settled _ hdue
  obtain rfl : n = n' := Except.ok.inj (hn.2.symm.trans hn')
  have htarget := hrequired b.key ⟨hfull, a.state, b.state, ha.1, hnext, rfl, hmoves⟩
  obtain ⟨e, he, heq⟩ := List.mem_map.mp htarget
  rw [← Node.targets_eq] at htarget
  have hb : X.At b.key b.state := ⟨X.faithful.next_mem _ ha.1.1 _ (List.mem_of_mem_filter hnext), rfl⟩
  exact ⟨⟨hb, heq ▸ hadmits.seen e he⟩, Store.leads_of_holds hn htarget⟩

/-- **Each step of the product is one of the graph.** -/
theorem Tracks.exists_step (h : X.Tracks registered expanded w) (hfull : X.full) (hexact : X.exact)
    (ha : X.Covers w.store a) (hstep : X.property.ProductStep X.model expanded a b) :
    X.Covers w.store b ∧ ∃ e, w.store.HasStep a.key e ∧ X.IsCopy e (a, b) := by
  obtain ⟨hb, hleads⟩ := h.leads hfull ha hstep
  obtain ⟨n, hn, hmem⟩ := hleads.exists_holds
  rw [Node.targets_eq] at hmem
  obtain ⟨e, he, htarget⟩ := List.mem_map.mp hmem
  obtain ⟨s, t, hs, ht, -, -, hactions⟩ := (h.lawful.admits _ n hn).step e he
  refine ⟨hb, e, ⟨hleads.1, n, hn.2, he⟩, htarget, fun i => ?_⟩
  rw [hactions hexact i, ha.1.unique hs, hb.1.unique (htarget ▸ ht)]

/-- **Each position of the product has a node.** -/
theorem Tracks.covers (h : X.Tracks registered expanded w) (hfull : X.full)
    (hregistered : ∀ s ∈ registered, X.states s) (ha : X.property.ProductReachable X.model registered expanded a) :
    X.Covers w.store a := by
  induction ha with
  | @start s point hs hpoint =>
    have hroot := (h.roots _).mpr ⟨s, hs, List.mem_map_of_mem (Property.mem_startPoints.mpr hpoint)⟩
    exact ⟨⟨hregistered s hs, rfl⟩, h.rooted _ hroot⟩
  | step _ hstep ih => exact (h.leads hfull ih hstep).1

/-- What can be reached in the product can be reached in the graph. -/
theorem Tracks.reachable (h : X.Tracks registered expanded w) (hfull : X.full) (hexact : X.exact)
    (hregistered : ∀ s ∈ registered, X.states s) (ha : X.property.ProductReachable X.model registered expanded a) :
    X.Covers w.store a ∧ w.store.Reachable a.key := by
  refine ⟨h.covers hfull hregistered ha, ?_⟩
  induction ha with
  | @start s point hs hpoint =>
    exact .root ((h.roots _).mpr ⟨s, hs, List.mem_map_of_mem (Property.mem_startPoints.mpr hpoint)⟩)
  | step ha hstep ih =>
    obtain ⟨-, e, he, htarget, -⟩ := h.exists_step hfull hexact (h.covers hfull hregistered ha) hstep
    exact htarget ▸ .step ih he

/-- A walk of the product is one of the graph. -/
theorem Tracks.exists_walk (h : X.Tracks registered expanded w) (hfull : X.full) (hexact : X.exact)
    {bs : List (Position σ)} : ∀ {a c : Position σ}, X.Covers w.store a →
      (a :: bs).IsChain (X.property.ProductStep X.model expanded) → (a :: bs).getLast? = some c →
      (∀ b ∈ bs, X.Covers w.store b) ∧
        ∃ es, w.store.IsWalk a.key es c.key ∧ List.Forall₂ X.IsCopy es ((a :: bs).zip bs) := by
  induction bs with
  | nil =>
    intro a c _ _ hc
    obtain rfl : a = c := by simpa using hc
    exact ⟨fun b hb => (by cases hb), [], rfl, .nil⟩
  | cons b bs ih =>
    intro a c ha hchain hc
    obtain ⟨hstep, hrest⟩ := List.isChain_cons_cons.mp hchain
    obtain ⟨hb, e, he, hcopy⟩ := h.exists_step hfull hexact ha hstep
    rw [List.getLast?_cons_cons] at hc
    obtain ⟨hbs, es, hwalk, hcopies⟩ := ih hb hrest hc
    refine ⟨fun b' hb' => ?_, e :: es, ⟨he, hcopy.1 ▸ hwalk⟩, .cons hcopy hcopies⟩
    rcases List.mem_cons.mp hb' with rfl | hb'
    · exact hb
    · exact hbs b' hb'

/-- **A fair round of the product is a fair cycle of the graph.** -/
theorem Tracks.exists_fairCycle (h : X.Tracks registered expanded w) (hfull : X.full) (hexact : X.exact)
    (hregistered : ∀ s ∈ registered, X.states s) {f : Fairness} {bs : List (Position σ)}
    (hround : X.property.FairRound X.model registered expanded f a bs) :
    ∃ es, w.store.FairCycle X.property f a.key es := by
  obtain ⟨ha, hreachable⟩ := h.reachable hfull hexact hregistered hround.reachable
  have hlast : (a :: bs).getLast? = some a := by rw [List.getLast?_cons, hround.closed]; rfl
  obtain ⟨hbs, es, hwalk, hcopies⟩ := h.exists_walk hfull hexact ha hround.walk hlast
  have hmem : ∀ b ∈ bs, ∃ e ∈ es, e.target = b.key := by
    intro b hb
    have hzip : ((a :: bs).zip bs).map Prod.snd = bs := List.map_snd_zip (by simp)
    rw [← hzip] at hb
    obtain ⟨x, hx, rfl⟩ := List.mem_map.mp hb
    obtain ⟨e, he, htarget, -⟩ := exists_of_forall₂_right hcopies hx
    exact ⟨e, he, htarget⟩
  refine ⟨es, hreachable, hwalk, ?_, fun e he i hi => ?_, ?_, fun i hi => ?_, fun i hi => ?_⟩
  · rintro rfl
    obtain ⟨b, hb, -⟩ := hround.accepting
    obtain ⟨e, he, -⟩ := hmem b hb
    cases he
  · obtain ⟨x, hx, -, hactions⟩ := exists_of_forall₂_left hcopies he
    rw [hactions i]
    exact Property.get_actionBits.mpr (hround.everyStep x hx i hi)
  · obtain ⟨b, hb, haccepts⟩ := hround.accepting
    obtain ⟨e, he, htarget⟩ := hmem b hb
    exact ⟨e, he, htarget ▸ haccepts⟩
  · obtain ⟨b, hb, hcheck⟩ := hround.someState i hi
    obtain ⟨e, he, htarget⟩ := hmem b hb
    -- The node of `b` was written, since the round goes on from it.
    obtain ⟨c, hstep⟩ := exists_step_of_closed hround.walk hround.closed hb
    obtain ⟨-, e', ⟨hw, n, hn, -⟩, -⟩ := h.exists_step hfull hexact (hbs b hb) hstep
    refine ⟨e, he, n, htarget ▸ hn, ?_⟩
    rw [h.lawful.state _ n hw ⟨(hbs b hb).2, hn⟩ hexact b.state (hbs b hb).1 i]
    exact Property.get_stateBits.mpr hcheck
  · obtain ⟨x, hx, hcheck⟩ := hround.someStep i hi
    obtain ⟨e, he, -, hactions⟩ := exists_of_forall₂_right hcopies hx
    exact ⟨e, he, by rw [hactions i]; exact Property.get_actionBits.mpr hcheck⟩

end Exploration

end Liveness

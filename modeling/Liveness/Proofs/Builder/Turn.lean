import Mathlib.Logic.Relation
import Liveness.Proofs.Builder.Known
import Liveness.Proofs.Builder.Next

/-!
# What an expansion does to the store

The expansion of a state is a row of turns: the state is marked as expanded, nodes are
expanded one after the other, and the graph may be drawn in between. A node that is expanded
gets state checks and steps from what is offered to it: the successors that were handed over,
or those that the model gives for a state that turned up late. The steps are linked one by
one, and the node is written when all of them are there.

This is said once (`Builder.addNext_evolves`), whatever the store holds and whatever is handed
over, and what the calls keep is then proved turn by turn. A call that comes back, with a
result or with an error, has come to the end of a turn; only a defect ends a call within one.
-/

namespace Liveness

/-- The fault is a broken precondition. -/
def Fault.IsDefect : Fault → Prop
  | .defect _ => True
  | _ => False

variable {σ : Type}

/-- What is offered to a node that is expanded. -/
structure Offer (σ : Type) where
  /-- The number of action checks. -/
  width : Nat
  /-- The results of the state checks. -/
  state : Bits
  /-- The states that may follow, with the action checks on the steps to them. -/
  steps : List (σ × Bits)

/-- What is handed over with a state. -/
def Offer.ofChecks (successors : List σ) (checks : StepChecks) : Offer σ where
  width := checks.width
  state := checks.state
  steps := successors.zipIdx.map fun (s, i) =>
    (s, .ofFn checks.width fun j => checks.actions.get (i * checks.width + j))

/-- What the model gives for a state: to stay there, or to go on to a successor. -/
def Offer.ofState (p : Property σ) (m : Model σ) (s : σ) : Offer σ where
  width := p.width
  state := p.stateBits s
  steps := (s :: m.successors s).map fun t => (t, .ofFn p.width fun j => (p.actionBits s t).get (0 + j))

/-- The states that an expansion comes to: those handed over, and those that follow them in
the model. -/
inductive Model.Known (m : Model σ) (successors : List σ) : σ → Prop
  | handed {s : σ} : s ∈ successors → Known m successors s
  | next {s t : σ} : Known m successors s → t ∈ m.successors s → Known m successors t

/-- An expansion does not leave states that the steps of the model do not leave. -/
theorem Model.Known.mem {m : Model σ} {successors : List σ} {states : σ → Prop} (hsuccessors : ∀ t ∈ successors, states t)
    (hnext : ∀ s, states s → ∀ t ∈ m.successors s, states t) {s : σ} (h : m.Known successors s) : states s := by
  induction h with
  | handed hs => exact hsuccessors _ hs
  | next _ ht ih => exact hnext _ ih _ ht

variable [ModelState σ]

/-- A step that the node `k` may get. -/
def Offer.Allows (o : Offer σ) (p : Property σ) (k : Key) (e : Step) : Prop :=
  ∃ s, (s, e.actions) ∈ o.steps ∧ fingerprint s = e.target.fp ∧ p.Moves k.point s e.target.point

namespace Builder

open Store (Within)

/-- What was seen stays so, and the states marked as expanded are the same. -/
structure Onward (s s' : Store) : Prop where
  within : Within s s'
  done_eq : ∀ fp, s'.isDone fp = s.isDone fp

section

variable (p : Property σ) (o : Offer σ) (k origin : Key)

/-- The node `n'` is the node `n` with one step more. -/
structure Link (s : Store) (n : Node) (e : Step) (n' : Node) : Prop where
  allowed : o.Allows p k e
  new : s.isUnseen e.target = true ∨ e.target ∉ n.targets
  whole : n'.Whole
  steps : n'.steps = n.steps ++ [e]
  width : n'.width = o.width
  same : n.SameBut n'

/-- Step after step is linked to the node `n`, which becomes `n'`. The nodes that the steps lead
to are recorded as reached from `origin`. -/
inductive Links (s : Store) (n : Node) : Store → Node → Prop
  | refl : Links s n s n
  | link {s' : Store} {n' n'' : Node} {e : Step} : Links s n s' n' → Link p o k s' n' e n'' →
      Links s n (s'.record e.target origin) n''

variable (m : Model σ) (fp : Fingerprint) (successors : List σ) (checks : StepChecks)

/-- What the node `k` is offered when the state `fp` is expanded. -/
inductive Offered (s : Store) : Offer σ → Prop
  | handed : k.fp = fp → s.isUnseen k = false ∨ (p.tableau = none ∧ k.point = Key.noPoint) →
      Offered s (.ofChecks successors checks)
  | late {u : σ} : p.tableau ≠ none → m.Known successors u → fingerprint u = k.fp → s.isUnseen k = false →
      s.isDone k.fp = true → Offered s (.ofState p m u)

/-- One turn of the expansion of the state `fp`. -/
inductive Turn : Store → Store → Prop
  | setDone (s : Store) : Turn s (s.setDone fp)
  | draw (s : Store) (d : Drawings) : Turn s { s with drawings := d }
  | expand {s s' : Store} {k origin : Key} {n n' : Node} {o : Offer σ} :
      Offered p k m fp successors checks s o → s.node k = .ok n → origin = k ∨ origin = n.key →
      Links p o k origin s (n.setState o.state) s' n' → Turn s (s'.addNode n'.trim)

/-- Turn after turn. -/
def Evolves : Store → Store → Prop := Relation.ReflTransGen (Turn p m fp successors checks)

/-- A call that started with the store `base` and ends with a fault: either it is a defect, or
the call has come to the end of a turn. -/
def Ended (base : Store) (f : Fault) (b : Builder) : Prop :=
  f.IsDefect ∨ Evolves p m fp successors checks base b.store

/-- The nodes still to be expanded were seen, and their states are known and marked as expanded. -/
def Waiting (s : Store) (work : List (Expansion σ)) : Prop :=
  ∀ e ∈ work, m.Known successors e.state ∧ fingerprint e.state = e.key.fp ∧ s.isUnseen e.key = false ∧
    s.isDone e.key.fp = true

/-- A node in the course of its expansion, which started with the store `s₀` and the node `n₀`,
and the nodes still to be expanded. -/
structure InCourse (s₀ : Store) (n₀ : Node) (g : Growth σ) (s : Store) : Prop where
  links : Links p o k origin s₀ n₀ s g.1
  whole : g.1.Whole
  waiting : Waiting m successors s g.2
  onward : Onward s₀ s

end

variable {p : Property σ} {o : Offer σ} {k origin : Key} {m : Model σ} {fp : Fingerprint} {successors : List σ}
  {checks : StepChecks} {s₀ s s' : Store} {n₀ n n' : Node} {b : Builder} {work : List (Expansion σ)} {t : Tableau σ}

theorem Onward.refl (s : Store) : Onward s s := ⟨fun _ hl => hl, fun _ => rfl⟩

theorem Onward.trans (h : Onward s₀ s) (h' : Onward s s') : Onward s₀ s' :=
  ⟨fun l hl => h'.within l (h.within l hl), fun fp => (h'.done_eq fp).trans (h.done_eq fp)⟩

theorem onward_record (s : Store) (k parent : Key) : Onward s (s.record k parent) :=
  ⟨within_record s k parent, Store.isDone_record s k parent⟩

theorem Waiting.mono (h : Waiting m successors s work) (hs : Onward s s') : Waiting m successors s' work := by
  intro e he
  obtain ⟨hknown, hfp, hseen, hdone⟩ := h e he
  exact ⟨hknown, hfp, hs.within _ hseen, (hs.done_eq _).trans hdone⟩

/-! ### Links -/

theorem Links.whole (h : Links p o k origin s₀ n₀ s n) (h₀ : n₀.Whole) : n.Whole := by
  cases h with
  | refl => exact h₀
  | link _ hlink => exact hlink.whole

theorem Links.tidy (h : Links p o k origin s₀ n₀ s n) (h₀ : n₀.Tidy) : n.Tidy := by
  cases h with
  | refl => exact h₀
  | link _ hlink => exact hlink.whole.tidy (by simp [hlink.steps])

theorem Links.key (h : Links p o k origin s₀ n₀ s n) : n.key = n₀.key := by
  induction h with
  | refl => rfl
  | link _ hlink ih => exact hlink.same.key.trans ih

theorem Link.degree {e : Step} (h : Link p o k s n e n') : n'.degree = n.degree + 1 := by
  rw [← Node.length_steps n', h.steps, List.length_append, Node.length_steps, List.length_singleton]

/-- A target of the node was one before, or is that of a step that was allowed. -/
theorem Links.target_cases (h : Links p o k origin s₀ n₀ s n) {l : Key} (hl : l ∈ n.targets) :
    l ∈ n₀.targets ∨ ∃ e, o.Allows p k e ∧ e.target = l := by
  induction h with
  | refl => exact .inl hl
  | @link s' n' n'' e _ hlink ih =>
    rw [Node.targets_eq, hlink.steps, List.map_append, ← Node.targets_eq, List.mem_append] at hl
    rcases hl with hl | hl
    · exact ih hl
    · exact .inr ⟨e, hlink.allowed, (List.mem_singleton.mp hl).symm⟩

theorem Links.degree_le (h : Links p o k origin s₀ n₀ s n) : n₀.degree ≤ n.degree := by
  induction h with
  | refl => exact Nat.le_refl _
  | link _ hlink ih => exact ih.trans (hlink.degree ▸ Nat.le_succ _)

theorem Links.onward (h : Links p o k origin s₀ n₀ s n) : Onward s₀ s := by
  induction h with
  | refl => exact .refl _
  | link _ _ ih => exact ih.trans (onward_record _ _ _)

theorem Links.grows (h : Links p o k origin s₀ n₀ s n) (hwhole : s₀.log.Whole) : s₀.Grows s := by
  induction h with
  | refl => exact .refl hwhole
  | @link s' _ _ e _ _ ih => exact ih.trans (Store.grows_edit ih.whole (.record e.target origin))

/-- A turn goes on with the log where it was. -/
theorem Turn.grows (h : Turn p m fp successors checks s s') (hwhole : s.log.Whole) : s.Grows s' := by
  cases h with
  | setDone => exact Store.grows_edit hwhole (.setDone fp)
  | draw d => exact ⟨hwhole, List.prefix_rfl, rfl⟩
  | @expand s' _ _ _ n' _ _ _ _ hlinks =>
    have hgrows := hlinks.grows hwhole
    exact hgrows.trans (Store.grows_edit hgrows.whole (.addNode n'.trim))

/-- As long as a node has no more steps than before, it is the same and nothing was recorded. -/
theorem Links.eq_of_degree_le (h : Links p o k origin s₀ n₀ s n) (hdegree : n.degree ≤ n₀.degree) :
    s = s₀ ∧ n = n₀ := by
  cases h with
  | refl => exact ⟨rfl, rfl⟩
  | link h hlink =>
    have := h.degree_le
    rw [hlink.degree] at hdegree
    omega

/-- **A link of the builder is one.** A node that turns up for the first time may be put on the
list of those to expand. -/
theorem link_links (h : Links p o k origin s₀ n₀ b.store n) (hwhole : n.Whole) {target : Key} {row : Bits}
    {offset hint : Except Defect Nat}
    (hstep : ∀ i, offset = .ok i → o.Allows p k ⟨target, .ofFn o.width fun j => row.get (i + j)⟩) :
    (link n target o.width row offset hint origin).Meets b
      (fun r b' => Links p o k origin s₀ n₀ b'.store r.1 ∧ r.1.Whole ∧ Onward b.store b'.store ∧
        b'.store.isUnseen target = false) (fun f _ => f.IsDefect) := by
  refine meets_link (fun hseen _ => ⟨h, hwhole, .refl _, hseen⟩) (fun hnew i j n' hi _ hadd => ?_) fun _ _ _ => trivial
  obtain ⟨hwhole', hsteps, hwidth, hsame⟩ := Node.addStep_spec hwhole hadd
  have hlinks := h.link ⟨hstep i hi, hnew, hwhole', hsteps, hwidth, hsame⟩
  exact ⟨hlinks, hwhole', onward_record b.store target origin, by simp⟩

/-- A link keeps the targets of the node and gives it another, and it keeps what a record keeps. -/
theorem link_targets (hwhole : n.Whole) {target : Key} {width : Nat} {row : Bits} {offset hint : Except Defect Nat}
    {I : Builder → Prop} (h : I b) (hrecord : I { b with store := b.store.record target origin }) :
    (link n target width row offset hint origin).Meets b
      (fun r b' => r.1.Whole ∧ n.targets ⊆ r.1.targets ∧ target ∈ r.1.targets ∧ I b') (fun _ _ => True) := by
  refine meets_link (fun _ hmem => ⟨hwhole, List.Subset.refl _, hmem, h⟩) (fun _ i j n' _ _ hadd => ?_)
    fun _ _ _ => trivial
  obtain ⟨hwhole', hsteps, -⟩ := Node.addStep_spec hwhole hadd
  have htargets : n'.targets = n.targets ++ [target] := by
    rw [Node.targets_eq, hsteps, List.map_append, ← Node.targets_eq]
    rfl
  refine ⟨hwhole', ?_, by simp [htargets], hrecord⟩
  rw [htargets]
  exact List.subset_append_left _ _

theorem link_inCourse (h : InCourse p o k origin m successors s₀ n₀ (n, work) b.store) {target : Key} {row : Bits}
    {offset hint : Except Defect Nat}
    (hstep : ∀ i, offset = .ok i → o.Allows p k ⟨target, .ofFn o.width fun j => row.get (i + j)⟩) {u : σ}
    (hu : m.Known successors u) (hfp : fingerprint u = target.fp) (done : Bool)
    (hdone : done = true → s₀.isDone target.fp = true) :
    (link n target o.width row offset hint origin).Meets b
      (fun r b' => InCourse p o k origin m successors s₀ n₀
        (r.1, if r.2 && done then ⟨u, target⟩ :: work else work) b'.store) (fun f _ => f.IsDefect) := by
  refine (link_links h.links h.whole hstep).imp ?_
  rintro r b' ⟨hlinks, hwhole, honward, hseen⟩
  have honward' := h.onward.trans honward
  refine ⟨hlinks, hwhole, ?_, honward'⟩
  have hwaiting := h.waiting.mono honward
  split_ifs with hnew
  · intro e he
    rcases List.mem_cons.mp he with rfl | he
    · exact ⟨hu, hfp, hseen, (honward'.done_eq _).trans (hdone (Bool.and_eq_true_iff.mp hnew).2)⟩
    · exact hwaiting e he
  · exact hwaiting

/-! ### Nodes of the state that is expanded -/

theorem allows_handed {i : Nat} {u : σ} (hu : successors[i]? = some u) {point : UInt32}
    (hmoves : p.Moves k.point u point) (j : Nat) (hj : mulWords i checks.width = .ok j) :
    (Offer.ofChecks successors checks).Allows p k
      ⟨⟨fingerprint u, point⟩, .ofFn checks.width fun a => checks.actions.get (j + a)⟩ := by
  rw [mulWords] at hj
  split_ifs at hj
  obtain rfl := Except.ok.inj hj
  exact ⟨u, List.mem_map.mpr ⟨(u, i), List.mem_zipIdx_iff_getElem?.mpr hu, rfl⟩, rfl, hmoves⟩

variable {batch : Batch σ} {g : Growth σ}

theorem nextStep_inCourse (ht : p.tableau = some t) (hconsistent : consistency t batch.successors = .ok batch.consistent)
    {tnode : Tableau.Node σ} (htnode : t.node k.point = .ok tnode) (used : Nat) {i : Nat} {u : σ}
    (hu : batch.successors[i]? = some u) {done : Bool} (hdone : done = true → s₀.isDone (fingerprint u) = true)
    {point : UInt32} (hpoint : point ∈ tnode.successors)
    (h : InCourse p (.ofChecks batch.successors batch.checks) k n₀.key m batch.successors s₀ n₀ g b.store) :
    (nextStep batch used u i done g point).Meets b
      (fun g' b' => InCourse p (.ofChecks batch.successors batch.checks) k n₀.key m batch.successors s₀ n₀ g' b'.store)
      (fun f _ => f.IsDefect) := by
  refine meets_nextStep (fun hbit => ?_) fun _ => h
  obtain ⟨n', hn', hallows⟩ := (consistency_spec hconsistent hu point).mp hbit
  have hmoves : p.Moves k.point u point := by
    rw [Property.Moves, ht]
    exact ⟨tnode, n', htnode, hpoint, hn', hallows⟩
  rw [h.links.key]
  exact link_inCourse h (allows_handed hu hmoves) (.handed (List.mem_of_getElem? hu)) rfl _ hdone

theorem nextSteps_inCourse (ht : p.tableau = some t)
    (hconsistent : consistency t batch.successors = .ok batch.consistent) {tnode : Tableau.Node σ}
    (htnode : t.node k.point = .ok tnode) (used : Nat) {x : σ × Nat} (hx : x ∈ batch.successors.zipIdx)
    (h : InCourse p (.ofChecks batch.successors batch.checks) k n₀.key m batch.successors s₀ n₀ g b.store) :
    (nextSteps batch used tnode.successors g x).Meets b
      (fun g' b' => InCourse p (.ofChecks batch.successors batch.checks) k n₀.key m batch.successors s₀ n₀ g' b'.store)
      (fun f _ => f.IsDefect) := by
  exact meets_nextSteps (Change.meets_foldlM_mem (P := fun g (b : Builder) =>
      InCourse p (.ofChecks batch.successors batch.checks) k n₀.key m batch.successors s₀ n₀ g b.store)
    (fun point hpoint g b hg => nextStep_inCourse ht hconsistent htnode used (List.mem_zipIdx_iff_getElem?.mp hx)
      (fun hdone => (h.onward.done_eq _).symm.trans hdone) hpoint hg) g b h)

/-! ### The end of a turn -/

variable {base : Store}

/-- The node is written, and the graph is drawn. -/
theorem write_evolves (hbase : Evolves p m fp successors checks base s₀)
    (hoffered : Offered p k m fp successors checks s₀ o) (hnode : s₀.node k = .ok n)
    (horigin : origin = k ∨ origin = n.key) (hlinks : Links p o k origin s₀ (n.setState o.state) b.store n') :
    (onStore (fun s => s.addNode n'.trim) >>= fun _ => snapshot p).Meets b
      (fun _ b' => Evolves p m fp successors checks base b'.store ∧ Onward b.store b'.store)
      (Ended p m fp successors checks base) := by
  have hturn : Evolves p m fp successors checks base (b.store.addNode n'.trim) :=
    hbase.tail (.expand hoffered hnode horigin hlinks)
  have honward : Onward b.store (b.store.addNode n'.trim) :=
    ⟨fun l hl => by simp [hl], Store.isDone_addNode b.store n'.trim⟩
  refine (meets_onStore _).bind ?_
  rintro _ b' rfl
  refine (snapshot_frame p).mono ?_ ?_
  · rintro _ b' ⟨d, hd⟩
    rw [hd]
    exact ⟨hturn.tail (.draw _ d), honward.within, honward.done_eq⟩
  · rintro f b' ⟨d, hd⟩
    exact .inr (hd ▸ hturn.tail (.draw _ d))

theorem keep_evolves (hbase : Evolves p m fp successors checks base s₀)
    (hoffered : Offered p k m fp successors checks s₀ o) (hnode : s₀.node k = .ok n)
    (horigin : origin = k ∨ origin = n.key) (hlinks : Links p o k origin s₀ (n.setState o.state) b.store n')
    (revisits : Bool) :
    (keep p n' n.degree revisits).Meets b
      (fun _ b' => Evolves p m fp successors checks base b'.store ∧ Onward b.store b'.store)
      (Ended p m fp successors checks base) := by
  refine meets_keep (fun _ => write_evolves hbase hoffered hnode horigin hlinks) fun hdegree _ _ => ?_
  have hstore : b.store = s₀ := (hlinks.eq_of_degree_le hdegree).1
  exact ⟨fun _ => ⟨hstore ▸ hbase, .refl _⟩, fun _ => .inl trivial⟩

/-- The node of the state at one point is expanded. -/
theorem expandPoint_evolves (ht : p.tableau = some t)
    (hconsistent : consistency t batch.successors = .ok batch.consistent) (revisits : Bool) (x : UInt32 × Nat)
    (hbase : Evolves p m fp batch.successors batch.checks base b.store)
    (hwaiting : Waiting m batch.successors b.store work) (hseen : b.store.isUnseen ⟨fp, x.1⟩ = false) :
    (expandPoint p t batch fp revisits work x).Meets b
      (fun work' b' => Evolves p m fp batch.successors batch.checks base b'.store ∧
        Waiting m batch.successors b'.store work' ∧ Onward b.store b'.store)
      (Ended p m fp batch.successors batch.checks base) := by
  refine meets_expandPoint (fun _ _ => .inl trivial) (fun f _ => .inr hbase) fun tnode n htnode hn => ?_
  have hwhole : n.Whole := Store.whole_of_node hn
  have hstart : InCourse p (.ofChecks batch.successors batch.checks) ⟨fp, x.1⟩ (n.setState batch.checks.state).key m
      batch.successors b.store (n.setState batch.checks.state) (n.setState batch.checks.state, work) b.store :=
    ⟨.refl, hwhole, hwaiting, .refl _⟩
  refine (Change.meets_foldlM_mem (fun x hx g b hg => nextSteps_inCourse ht hconsistent htnode _ hx hg) _ b
    hstart).mono ?_ fun _ _ hf => .inl hf
  intro g b' hg
  refine (keep_evolves hbase (.handed rfl (.inl hseen)) hn (.inr rfl) hg.links revisits).imp ?_
  rintro _ b'' ⟨hevolves, honward⟩
  exact ⟨hevolves, hg.waiting.mono honward, hg.onward.trans honward⟩

/-! ### Nodes that turned up late -/

variable {e : Expansion σ}

theorem allows_late {u : σ} (hu : u = e.state ∨ u ∈ m.successors e.state) {l : Key} (hfp : fingerprint u = l.fp)
    (hmoves : p.Moves e.key.point u l.point) (i : Nat) (hi : (.ok 0 : Except Defect Nat) = .ok i) :
    (Offer.ofState p m e.state).Allows p e.key
      ⟨l, .ofFn p.width fun j => (p.actionBits e.state u).get (i + j)⟩ := by
  obtain rfl := Except.ok.inj hi
  exact ⟨u, List.mem_map.mpr ⟨u, List.mem_cons.mpr hu, rfl⟩, hfp, hmoves⟩

/-- The steps that stay in the state. -/
theorem stutter_inCourse (ht : p.tableau = some t) (he : m.Known successors e.state)
    (hfp : fingerprint e.state = e.key.fp) (hdone : s₀.isDone e.key.fp = true) {tnode : Tableau.Node σ}
    (htnode : t.node e.key.point = .ok tnode) (total : Nat) (xs : List (UInt32 × Nat))
    (hxs : ∀ x ∈ xs, x.1 ∈ tnode.successors) :
    ∀ (g : Growth σ) (b : Builder), InCourse p (.ofState p m e.state) e.key e.key m successors s₀ n₀ g b.store →
      (stutter p t e (p.actionBits e.state e.state) total xs g).Meets b
        (fun r b' => InCourse p (.ofState p m e.state) e.key e.key m successors s₀ n₀ r.1 b'.store)
        (fun f _ => f.IsDefect) := by
  refine meets_stutter (P := fun _ g (b : Builder) =>
      InCourse p (.ofState p m e.state) e.key e.key m successors s₀ n₀ g b.store)
    (fun _ _ _ _ _ _ _ _ => trivial) (fun _ _ _ h => h) (fun x hx n' hn' hallows _ n work b h => ?_) fun _ _ h => h
  have hmoves : p.Moves e.key.point e.state x.1 := by
    rw [Property.Moves, ht]
    exact ⟨tnode, n', htnode, hxs x hx, hn', hallows⟩
  refine (link_inCourse h (allows_late (l := ⟨e.key.fp, x.1⟩) (.inl rfl) hfp hmoves) he hfp true
    fun _ => hdone).imp ?_
  intro r b' hg
  rw [Bool.and_true] at hg
  exact ⟨fun _ => hg, fun _ => hg⟩

theorem lateStep_inCourse (ht : p.tableau = some t) (he : m.Known successors e.state) {tnode : Tableau.Node σ}
    (htnode : t.node e.key.point = .ok tnode) {u : σ} (hu : u ∈ m.successors e.state) {done : Bool}
    (hdone : done = true → s₀.isDone (fingerprint u) = true) (room : Except Defect Nat) {point : UInt32}
    (hpoint : point ∈ tnode.successors)
    (h : InCourse p (.ofState p m e.state) e.key e.key m successors s₀ n₀ g b.store) :
    (lateStep p t e u (p.actionBits e.state u) done room g point).Meets b
      (fun g' b' => InCourse p (.ofState p m e.state) e.key e.key m successors s₀ n₀ g' b'.store)
      (fun f _ => f.IsDefect) := by
  refine meets_lateStep (fun _ _ => trivial) (fun n' hn' hallows => ?_) fun _ _ _ => h
  have hmoves : p.Moves e.key.point u point := by
    rw [Property.Moves, ht]
    exact ⟨tnode, n', htnode, hpoint, hn', hallows⟩
  exact link_inCourse h (allows_late (l := ⟨fingerprint u, point⟩) (.inr hu) rfl hmoves) (he.next hu) rfl _ hdone

theorem lateSteps_inCourse (ht : p.tableau = some t) (he : m.Known successors e.state) {tnode : Tableau.Node σ}
    (htnode : t.node e.key.point = .ok tnode) (total : Nat) {x : σ × Nat} (hx : x ∈ (m.successors e.state).zipIdx)
    (h : InCourse p (.ofState p m e.state) e.key e.key m successors s₀ n₀ g b.store) :
    (lateSteps p t e tnode.successors total g x).Meets b
      (fun g' b' => InCourse p (.ofState p m e.state) e.key e.key m successors s₀ n₀ g' b'.store)
      (fun f _ => f.IsDefect) := by
  exact meets_lateSteps (Change.meets_foldlM_mem (P := fun g (b : Builder) =>
      InCourse p (.ofState p m e.state) e.key e.key m successors s₀ n₀ g b.store)
    (fun y hy g b hg => lateStep_inCourse ht he htnode (List.fst_mem_of_mem_zipIdx hx)
      (fun hdone => (h.onward.done_eq _).symm.trans hdone) _ (List.fst_mem_of_mem_zipIdx hy) hg) g b h)

/-- **One late expansion is a turn**, or nothing happens. -/
theorem expandOne_evolves (ht : p.tableau = some t) (hbase : Evolves p m fp successors checks base b.store)
    (hwaiting : Waiting m successors b.store (e :: work)) :
    (expandOne p m t e work).Meets b
      (fun r b' => Evolves p m fp successors checks base b'.store ∧
        ∀ work', r = .ok work' → Waiting m successors b'.store work')
      (Ended p m fp successors checks base) := by
  obtain ⟨hknown, hfp, hseen, hdone⟩ := hwaiting e (by simp)
  have hoffered : Offered p e.key m fp successors checks b.store (.ofState p m e.state) :=
    .late (by simp [ht]) hknown hfp hseen hdone
  refine meets_expandOne (fun _ _ => .inl trivial) (fun f _ => .inr hbase) fun tnode n htnode hn => ?_
  have hwhole : n.Whole := Store.whole_of_node hn
  have hstart : InCourse p (.ofState p m e.state) e.key e.key m successors b.store (n.setState (p.stateBits e.state))
      (n.setState (p.stateBits e.state), work) b.store :=
    ⟨.refl, hwhole, fun e' he' => hwaiting e' (by simp [he']), .refl _⟩
  refine (stutter_inCourse ht hknown hfp hdone htnode _ _ (fun x => List.fst_mem_of_mem_zipIdx) _ b hstart).mono ?_
    fun _ _ hf => .inl hf
  rintro ⟨g, violated⟩ b' hg
  refine ⟨fun _ => ⟨fun _ => ?_, fun hsame => ?_⟩, fun _ => ?_⟩
  · exact ⟨hbase.tail (.expand hoffered hn (.inl rfl) hg.links), fun work' h => by cases h⟩
  · have hstore := (hg.links.eq_of_degree_le hsame).1
    exact ⟨hstore ▸ hbase, fun work' h => by cases h⟩
  · refine (Change.meets_foldlM_mem (P := fun g (b' : Builder) =>
        InCourse p (.ofState p m e.state) e.key e.key m successors b.store (n.setState (p.stateBits e.state)) g b'.store)
      (fun x hx g b' hg => lateSteps_inCourse ht hknown htnode _ hx hg) g b' hg).mono ?_ fun _ _ hf => .inl hf
    intro g b'' hg
    refine ⟨fun _ => ?_, fun hsame => ?_⟩
    · refine (write_evolves hbase hoffered hn (.inl rfl) hg.links).imp ?_
      rintro _ b₃ ⟨hevolves, honward⟩
      refine ⟨hevolves, fun work' hwork' => ?_⟩
      obtain rfl := Except.ok.inj hwork'
      exact hg.waiting.mono honward
    · have hstore := (hg.links.eq_of_degree_le hsame).1
      refine ⟨hstore ▸ hbase, fun work' hwork' => ?_⟩
      obtain rfl := Except.ok.inj hwork'
      exact hg.waiting

theorem expandLate_evolves (ht : p.tableau = some t) (hbase : Evolves p m fp successors checks base b.store)
    (hwaiting : Waiting m successors b.store work) :
    (expandLate p m t work).Meets b (fun _ b' => Evolves p m fp successors checks base b'.store)
      (Ended p m fp successors checks base) := by
  refine meets_expandLate (meets_expandAll (I := fun _ work (b : Builder) =>
      Evolves p m fp successors checks base b.store ∧ Waiting m successors b.store work)
    (fun _ _ h => h.1) (fun _ _ _ h => h.1) (fun _ e work b h => ?_) _ work b ⟨hbase, hwaiting⟩)
  refine (expandOne_evolves ht h.1 h.2).imp ?_
  rintro r b' ⟨hevolves, hwaiting'⟩
  exact ⟨fun _ _ => hevolves, fun work' hwork' => ⟨hevolves, hwaiting' work' hwork'⟩⟩

/-! ### Whole calls -/

/-- The nodes of the state are expanded one after the other. -/
theorem expandState_evolves (ht : p.tableau = some t) (revisits : Bool) :
    (expandState p t fp successors checks revisits).Meets b
      (fun work b' => Evolves p m fp successors checks b.store b'.store ∧ Waiting m successors b'.store work)
      (Ended p m fp successors checks b.store) := by
  refine meets_expandState (fun _ _ => .inl trivial) fun consistent hconsistent => ?_
  have hdone : Evolves p m fp successors checks b.store (b.store.setDone fp) := .single (.setDone _)
  have hnone : Waiting m successors (b.store.setDone fp) [] := fun e he => by cases he
  refine (Change.meets_foldlM_mem (P := fun work (b' : Builder) =>
      Evolves p m fp successors checks b.store b'.store ∧ Waiting m successors b'.store work ∧
        Onward (b.store.setDone fp) b'.store) (fun x hx work b' h => ?_) [] _ ⟨hdone, hnone, .refl _⟩).imp
    fun _ _ h => ⟨h.1, h.2.1⟩
  obtain ⟨hbase, hwaiting, honward⟩ := h
  have hseen : (b.store.setDone fp).isUnseen ⟨fp, x.1⟩ = false := Store.mem_pointsAt.mp (List.fst_mem_of_mem_zipIdx hx)
  refine (expandPoint_evolves ht hconsistent revisits x hbase hwaiting (honward.within _ hseen)).imp ?_
  rintro work' b'' ⟨hevolves, hwaiting', honward'⟩
  exact ⟨hevolves, hwaiting', honward.trans honward'⟩

theorem addProduct_evolves (ht : p.tableau = some t) (revisits : Bool) :
    (addProduct p m t fp successors checks revisits).Meets b
      (fun _ b' => Evolves p m fp successors checks b.store b'.store)
      (Ended p m fp successors checks b.store) := by
  refine meets_addProduct ((expandState_evolves ht revisits).imp ?_)
  rintro work b' ⟨hbase, hwaiting⟩
  refine (expandLate_evolves ht hbase hwaiting).imp fun _ b'' hevolves => ?_
  exact meets_answer (fun _ => hevolves) (fun _ _ _ _ => .inr hevolves) fun _ _ _ _ _ _ => hevolves

theorem plainStep_links (hplain : p.tableau = none) {n₀ : Node} (count : Nat) {x : Fingerprint × Nat}
    (hx : x ∈ (successors.map fingerprint).zipIdx)
    (h : Links p (.ofChecks successors checks) k n₀.key s₀ n₀ b.store n ∧ n.Whole) :
    (plainStep checks count n x).Meets b
      (fun n' b' => Links p (.ofChecks successors checks) k n₀.key s₀ n₀ b'.store n' ∧ n'.Whole)
      (fun f _ => f.IsDefect) := by
  obtain ⟨fp, i⟩ := x
  obtain ⟨hlinks, hwhole⟩ := h
  have hx := List.mem_zipIdx_iff_getElem?.mp hx
  rw [List.getElem?_map] at hx
  obtain ⟨u, hu, rfl⟩ := Option.map_eq_some_iff.mp hx
  have hmoves : p.Moves k.point u Key.noPoint := by rw [Property.Moves, hplain]
  refine meets_plainStep ?_
  rw [hlinks.key]
  refine (link_links hlinks hwhole (allows_handed hu hmoves)).imp ?_
  rintro r b' ⟨hlinks', hwhole', -⟩
  exact ⟨hlinks', hwhole'⟩

theorem addPlain_evolves (hplain : p.tableau = none) (revisits : Bool) :
    (addPlain p fp (successors.map fingerprint) checks revisits).Meets b
      (fun _ b' => Evolves p m fp successors checks b.store b'.store)
      (Ended p m fp successors checks b.store) := by
  have hdone : Evolves p m fp successors checks b.store (b.store.setDone fp) := .single (.setDone _)
  refine meets_addPlain (fun f _ => .inr hdone) fun n hn => ?_
  have hwhole : n.Whole := Store.whole_of_node hn
  have hstart : Links p (.ofChecks successors checks) ⟨fp, Key.noPoint⟩ (n.setState checks.state).key
      (b.store.setDone fp) (n.setState checks.state) (b.store.setDone fp) (n.setState checks.state) ∧
        (n.setState checks.state).Whole := ⟨.refl, hwhole⟩
  have hloop := Change.meets_foldlM_mem (P := fun n' (b' : Builder) =>
      Links p (.ofChecks successors checks) ⟨fp, Key.noPoint⟩ (n.setState checks.state).key (b.store.setDone fp)
        (n.setState checks.state) b'.store n' ∧ n'.Whole)
    (fun x hx n' b' h => plainStep_links hplain (successors.map fingerprint).length hx h) (n.setState checks.state)
    { b with store := b.store.setDone fp } hstart
  refine hloop.mono ?_ fun _ _ hf => Or.inl hf
  rintro n' b' ⟨hlinks, -⟩
  exact (keep_evolves hdone (.handed rfl (.inr ⟨hplain, rfl⟩)) hn (.inr rfl) hlinks revisits).imp fun _ _ h => h.1

/-- **The expansion of a state is a row of turns**, and no fault but a defect ends it within
one. -/
theorem addNext_evolves (revisits : Bool) :
    (addNext p m fp successors checks revisits).Meets b
      (fun _ b' => Evolves p m fp successors checks b.store b'.store)
      (Ended p m fp successors checks b.store) :=
  meets_addNext (fun _ ht => addProduct_evolves ht revisits) fun ht => addPlain_evolves ht revisits

/-- No state is marked as expanded but the one that is. -/
theorem Turn.isDone (h : Turn p m fp successors checks s s') {g : Fingerprint} (hg : s'.isDone g = true) :
    s.isDone g = true ∨ g = fp := by
  cases h with
  | setDone =>
    rw [Store.isDone_setDone, Bool.or_eq_true, decide_eq_true_iff] at hg
    exact hg.symm
  | draw => exact .inl hg
  | expand _ _ _ hlinks =>
    rw [Store.isDone_addNode, hlinks.onward.done_eq] at hg
    exact .inl hg

theorem Evolves.isDone (h : Evolves p m fp successors checks s s') {g : Fingerprint} (hg : s'.isDone g = true) :
    s.isDone g = true ∨ g = fp := by
  induction h with
  | refl => exact .inl hg
  | tail _ hlast ih => exact (hlast.isDone hg).elim ih .inr

/-- What was seen stays so. -/
theorem Evolves.within (h : Evolves p m fp successors checks s s') : Within s s' := by
  induction h with
  | refl => exact fun _ hl => hl
  | tail _ hlast ih =>
    intro l hl
    have hl := ih l hl
    cases hlast with
    | setDone => rwa [Store.isUnseen_setDone]
    | draw => exact hl
    | expand _ _ _ hlinks => simp [hlinks.onward.within l hl]

end Builder

end Liveness

import Liveness.Checker
import Liveness.Proofs.Builder.Initial
import Liveness.Proofs.Builder.Next

/-!
# Runs of a monitor

A monitor is handed initial states and expanded states in any order, a state more than
once if the exploration comes back to it. As long as no violation shows, every node of an
expanded state has its step to each successor of the state at each point of the tableau
that follows and allows the successor, also if the node turned up after the state was
expanded. Two things can get in the way: a record that does not fit the log, and a call that
ended with an error.
-/

namespace Liveness

/-! ### One call -/

theorem Monitor.create_eq_ok {σ : Type} {config : Config} {taken : List String} {p : Property σ} {index : Nat}
    {w : Monitor σ} (h : Monitor.create config taken p index = .ok w) :
    w.property = p ∧ w.store.log = {} ∧ w.store.table = ∅ ∧ w.store.roots = [] ∧ w.store.size = 0 := by
  unfold create at h
  cases hs : Store.create config.folder taken index with
  | error f => rw [hs] at h; cases h
  | ok s =>
    rw [hs] at h
    obtain rfl := Except.ok.inj h
    exact ⟨rfl, Store.create_eq_ok hs⟩

theorem Monitor.meets_build {σ α : Type} {c : Build α} {w : Monitor σ} {Q : α → Builder → Prop}
    {E : Fault → Builder → Prop} (h : c.Meets w.builder Q E) :
    (Monitor.build c).Meets w (fun a w' => w'.property = w.property ∧ Q a w'.builder)
      (fun f w' => w'.property = w.property ∧ E f w'.builder) := by
  unfold Change.Meets at h ⊢
  rw [Monitor.build]
  rcases hrun : c w.builder with ⟨f | a, b⟩
  · rw [hrun] at h
    exact ⟨rfl, h⟩
  · rw [hrun] at h
    exact ⟨rfl, h⟩

variable {σ : Type} [ModelState σ]

theorem Monitor.meets_addChecked {m : Model σ} {fp : Fingerprint} {successors : List σ} {checks : StepChecks}
    {revisits : Bool} {w : Monitor σ} {Q : Option Lasso → Builder → Prop} {E : Fault → Builder → Prop}
    (h : (Builder.addNext w.property m fp successors checks revisits).Meets w.builder Q E) :
    (Monitor.addChecked m fp successors checks revisits).Meets w (fun r w' => w'.property = w.property ∧ Q r w'.builder)
      (fun f w' => w'.property = w.property ∧ E f w'.builder) := by
  refine Change.Meets.bind (Q := fun a w' => a = w ∧ w' = w) ⟨rfl, rfl⟩ ?_
  rintro w w' ⟨rfl, rfl⟩
  exact meets_build h

theorem Monitor.addChecked_apply (m : Model σ) (fp : Fingerprint) (successors : List σ) (checks : StepChecks)
    (revisits : Bool) (w : Monitor σ) : Monitor.addChecked m fp successors checks revisits w =
      ((Builder.addNext w.property m fp successors checks revisits w.builder).1,
        { w with builder := (Builder.addNext w.property m fp successors checks revisits w.builder).2 }) := rfl

/-- Whatever becomes of a call, the log goes on where it was. -/
theorem Monitor.addChecked_grows {m : Model σ} {fp : Fingerprint} {successors : List σ} {checks : StepChecks}
    {revisits : Bool} {w w' : Monitor σ} {r : Outcome (Option Lasso)} (hwhole : w.store.log.Whole)
    (h : Monitor.addChecked m fp successors checks revisits w = (r, w')) : w.store.Grows w'.store := by
  have hkeeps := Builder.keeps_addNext (Store.kept_grows w.store) w.property m fp successors checks revisits (.refl hwhole)
  rw [addChecked_apply] at h
  obtain rfl := (Prod.mk.inj h).2
  exact hkeeps.state (fun _ _ h => h) fun _ _ h => h

/-- The checks are evaluated before the steps are added. -/
theorem Monitor.addNext_apply (m : Model σ) (s : σ) (fp : Fingerprint) (successors : List σ) (revisits : Bool)
    (w : Monitor σ) :
    Monitor.addNext m s fp successors revisits w = match w.property.evaluate s successors with
      | .ok checks => Monitor.addChecked m fp successors checks revisits w
      | .error d => (.error (.defect d), w) := by
  rw [Monitor.addNext, Change.bind_apply]
  change (Outcome.lift (Fault.ofDefect (w.property.evaluate s successors)) >>= fun checks =>
    Monitor.addChecked m fp successors checks revisits) w = _
  rw [Change.bind_apply]
  cases w.property.evaluate s successors <;> rfl

theorem Monitor.addNext_grows {m : Model σ} {s : σ} {fp : Fingerprint} {successors : List σ} {revisits : Bool}
    {w w' : Monitor σ} {r : Outcome (Option Lasso)} (hwhole : w.store.log.Whole)
    (h : Monitor.addNext m s fp successors revisits w = (r, w')) : w.store.Grows w'.store := by
  rw [addNext_apply] at h
  split at h
  · exact addChecked_grows hwhole h
  · obtain rfl := (Prod.mk.inj h).2
    exact .refl hwhole

namespace Exploration

variable {X : Exploration σ} {w w' : Monitor σ} {s₀ : σ} {successors : List σ} {checks : StepChecks}

theorem addChecked_spec (hp : w.property = X.property) (hexpands : X.Expands s₀ successors checks) (revisits : Bool)
    (hlawful : X.Lawful w.store) (hsettled : X.Settled w.store)
    (hstart : X.property.tableau = none → w.store.isUnseen ⟨fingerprint s₀, Key.noPoint⟩ = true →
      X.IsStart ⟨fingerprint s₀, Key.noPoint⟩) :
    (Monitor.addChecked X.model (fingerprint s₀) successors checks revisits).Meets w
      (fun r w' => w'.property = X.property ∧
        (w'.store.log.Fits → X.Added (w.store.setDone (fingerprint s₀)) r w'.builder))
      (fun f w' => w'.property = X.property ∧ X.Stopped f w'.builder) := by
  have hbuild := addNext_spec (b := w.builder) rfl hexpands revisits hlawful hsettled hstart
  rw [← hp] at hbuild ⊢
  exact Monitor.meets_addChecked hbuild

/-- What a run without violations has come to, if the log fits: the roots are those of the states that were
registered, the states expanded are those handed over, and all their nodes are complete. -/
structure Tracks (X : Exploration σ) (registered expanded : List σ) (w : Monitor σ) : Prop where
  property_eq : w.property = X.property
  lawful : X.Lawful w.store
  settled : X.Settled w.store
  roots : ∀ k, k ∈ w.store.roots ↔ ∃ s ∈ registered, k ∈ X.property.startKeys s
  rooted : ∀ k ∈ w.store.roots, w.store.isUnseen k = false
  done : ∀ fp, w.store.isDone fp = true ↔ ∃ s ∈ expanded, fingerprint s = fp
  mem : ∀ s ∈ expanded, X.states s

theorem tracks_create {config : Config} {taken : List String} {index : Nat}
    (h : Monitor.create config taken X.property index = .ok w) : X.Tracks [] [] w := by
  obtain ⟨hp, hlog, htable, hroots, -⟩ := Monitor.create_eq_ok h
  refine ⟨hp, .of_empty hlog htable hroots, .of_empty htable, fun k => by simp [hroots], fun k hk => ?_, fun fp => ?_, ?_⟩
  · rw [hroots] at hk
    cases hk
  · simp [Store.isDone, Table.row, htable]
  · exact fun s hs => by cases hs

variable {registered expanded : List σ}

/-- An initial state is registered. -/
theorem Tracks.initial (h : X.Tracks registered expanded w) (hs₀ : X.states s₀) (hstart : X.starts s₀)
    (hfirst : s₀ ∈ expanded → s₀ ∈ registered) :
    X.Tracks (s₀ :: registered) expanded (w.addInitial s₀ (fingerprint s₀)) := by
  have hstore : (w.addInitial s₀ (fingerprint s₀)).store =
      Builder.addInitial X.property s₀ (fingerprint s₀) w.store := by
    rw [← h.property_eq]
    rfl
  have hnew : w.store.isDone (fingerprint s₀) = false ∨
      ∀ k ∈ X.property.startKeys s₀, w.store.isUnseen k = false := by
    cases hdone : w.store.isDone (fingerprint s₀) with
    | false => exact .inl rfl
    | true =>
      obtain ⟨s, hs, hfp⟩ := (h.done _).mp hdone
      obtain rfl := X.faithful.injective s s₀ (h.mem s hs) hs₀ hfp
      exact .inr fun k hk => h.rooted k ((h.roots k).mpr ⟨s, hfirst hs, hk⟩)
  refine ⟨h.property_eq, ?_, ?_, fun k => ?_, fun k hk => ?_, fun fp => ?_, h.mem⟩
  · rw [hstore]
    exact h.lawful.addInitial hs₀ hstart
  · rw [hstore]
    exact h.settled.addInitial hnew
  · rw [hstore, Builder.addInitial_eq, Store.mem_roots_addRoots, h.roots]
    simp [or_comm]
  · rw [hstore, Builder.addInitial_eq, Store.mem_roots_addRoots] at hk
    rw [hstore, Builder.addInitial_eq, Store.isUnseen_addRoots]
    rcases hk with hk | hk
    · simp [h.rooted k hk]
    · simp [hk]
  · rw [hstore, Builder.addInitial_eq, Store.isDone_addRoots]
    exact h.done fp

theorem Tracks.under (h : X.Tracks registered expanded w) : w.store.Under (X.Tracks registered expanded w) :=
  ⟨h.lawful.intact.whole, fun _ => h⟩

/-- The steps of a state are added, and no violation shows. -/
theorem Tracks.next (h : X.Tracks registered expanded w) (hexpands : X.Expands s₀ successors checks) {revisits : Bool}
    (hstart : X.property.tableau = none → w.store.isUnseen ⟨fingerprint s₀, Key.noPoint⟩ = true →
      X.IsStart ⟨fingerprint s₀, Key.noPoint⟩)
    (hw' : Monitor.addChecked X.model (fingerprint s₀) successors checks revisits w = (.ok none, w'))
    (hfits : w'.store.log.Fits) : X.Tracks registered (s₀ :: expanded) w' := by
  obtain ⟨hp, hadded⟩ := (addChecked_spec h.property_eq hexpands revisits h.lawful h.settled hstart).of_ok hw'
  replace hadded := hadded hfits
  obtain ⟨past, htrack⟩ := hadded.tracking rfl
  have hroots : w'.store.roots = w.store.roots := htrack.roots_eq
  refine ⟨hp, hadded.lawful, htrack.settled, fun k => ?_, fun k hk => ?_, fun fp => ?_, fun s hs => ?_⟩
  · rw [hroots, h.roots]
  · rw [hroots] at hk
    exact htrack.kept k (by rw [Store.isUnseen_setDone, h.rooted k hk])
  · rw [Monitor.store, htrack.done_eq, Store.isDone_setDone, Bool.or_eq_true, h.done]
    simp [eq_comm]
  · rcases List.mem_cons.mp hs with rfl | hs
    · exact hexpands.mem
    · exact h.mem s hs

end Exploration

/-! ### Any number of calls -/

namespace Monitor

/-- The monitor `w` comes about from `w₀` by adding initial states and the steps of expanded
states, without a violation and without an error. An initial state is registered before its
first expansion. The successors handed over with a state have the fingerprints of those that the
search follows; the results of the checks are arbitrary. -/
inductive Run (m : Model σ) (states : σ → Prop) (w₀ : Monitor σ) : (registered expanded : List σ) → Monitor σ → Prop where
  /-- Nothing was added. -/
  | start : Run m states w₀ [] [] w₀
  /-- An initial state is added. -/
  | initial {registered expanded : List σ} {w : Monitor σ} {s : σ} :
    Run m states w₀ registered expanded w → states s → (s ∈ expanded → s ∈ registered) →
    Run m states w₀ (s :: registered) expanded (w.addInitial s (fingerprint s))
  /-- The steps of a state are added. -/
  | next {registered expanded : List σ} {w w' : Monitor σ} {s : σ} {successors : List σ} {checks : StepChecks}
    {revisits : Bool} :
    Run m states w₀ registered expanded w → states s → (∀ t ∈ successors, states t) →
    (∀ fp, fp ∈ successors.map fingerprint ↔ fp ∈ (m.successors s).map fingerprint) →
    addChecked m (fingerprint s) successors checks revisits w = (.ok none, w') →
    Run m states w₀ registered (s :: expanded) w'

/-- States with equal fingerprints are equal, so successors that have the fingerprints of those of
the search are these. -/
theorem mem_successors_iff {m : Model σ} {states : σ → Prop} (hm : m.Faithful states) {s : σ} (hs : states s)
    {successors : List σ} (hsuccessors : ∀ t ∈ successors, states t)
    (hfps : ∀ fp, fp ∈ successors.map fingerprint ↔ fp ∈ (m.successors s).map fingerprint) (t : σ) :
    t ∈ successors ↔ t ∈ m.successors s := by
  have hnext : ∀ t ∈ m.successors s, states t := fun t ht => hm.next_mem s hs t (List.mem_of_mem_filter ht)
  constructor
  · intro ht
    obtain ⟨u, hu, hfp⟩ := List.mem_map.mp ((hfps _).mp (List.mem_map_of_mem ht))
    rwa [hm.injective t u (hsuccessors t ht) (hnext u hu) hfp.symm]
  · intro ht
    obtain ⟨u, hu, hfp⟩ := List.mem_map.mp ((hfps _).mpr (List.mem_map_of_mem ht))
    rwa [hm.injective t u (hnext t ht) (hsuccessors u hu) hfp.symm]

/-- The successors handed over are all that the search follows. -/
theorem expands_of_fingerprints {X : Exploration σ} (hexact : ¬ X.exact) {s : σ} (hs : X.states s) {successors : List σ}
    (hsuccessors : ∀ t ∈ successors, X.states t)
    (hfps : ∀ fp, fp ∈ successors.map fingerprint ↔ fp ∈ (X.model.successors s).map fingerprint)
    (checks : StepChecks) : X.Expands s successors checks := by
  have hmem := mem_successors_iff X.faithful hs hsuccessors hfps
  exact ⟨hs, fun t ht => List.mem_of_mem_filter ((hmem t).mp ht), fun _ t ht => (hmem t).mpr ht,
    fun h => absurd h hexact, fun h => absurd h hexact⟩

omit [ModelState σ] in
/-- To register a state leaves the log as it is. -/
theorem addInitial_grows (w : Monitor σ) (hwhole : w.store.log.Whole) (s : σ) (fp : Fingerprint) :
    w.store.Grows (w.addInitial s fp).store := by
  change w.store.Grows (Builder.addInitial w.property s fp w.store)
  rw [Builder.addInitial_eq_addRoots]
  exact List.foldlRecOn _ _ (.refl hwhole) fun s' hs' k _ => hs'.trans (Store.grows_edit hs'.whole (.addRoot k))

/-- A run without violations keeps all nodes of expanded states complete, if the log fits. -/
theorem Run.tracks {X : Exploration σ} (hexact : ¬ X.exact) (hstarts : ∀ s, X.starts s)
    {w₀ w : Monitor σ} (h₀ : X.Tracks [] [] w₀) {registered expanded : List σ}
    (h : Run X.model X.states w₀ registered expanded w) : w.store.Under (X.Tracks registered expanded w) := by
  induction h with
  | start => exact h₀.under
  | @initial _ _ w s _ hs hfirst ih =>
    exact ih.grow (w.addInitial_grows ih.whole s _) fun htracks _ => htracks.initial hs (hstarts _) hfirst
  | @next registered expanded w w' s successors checks revisits _ hs hsuccessors hfps hw' ih =>
    exact ih.grow (addChecked_grows ih.whole hw') fun htracks => htracks.next
      (expands_of_fingerprints hexact hs hsuccessors hfps checks) (fun _ _ => ⟨s, ⟨hs, rfl⟩, hstarts s⟩) hw'

end Monitor

/-- The value of a counter, which is also its fingerprint. -/
structure Counter where
  /-- The value. -/
  value : UInt64
deriving DecidableEq

instance : ModelState Counter := ⟨Counter.value, fun c => toString c.value⟩

/-- The counter goes up to two and may go down again before. -/
def Counter.model : Model Counter where
  initial := [⟨0⟩]
  next := fun c => if c.value = 0 then [⟨1⟩] else if c.value = 1 then [⟨0⟩, ⟨2⟩] else [c]

/-- A tableau that remembers whether the counter was at two. -/
def Counter.tableau : Tableau Counter :=
  (Tableau.ofNodes [⟨0, [0, 1], false, fun _ => true⟩, ⟨1, [1], false, fun c => c.value == 2⟩] 1).toOption.get
    (by decide)

/-- A property of the counter that nothing violates. -/
def Counter.property : Property Counter := { name := "counter", tableau := some Counter.tableau }

theorem Counter.faithful_model : Counter.model.Faithful fun _ => True :=
  ⟨fun _ _ _ _ => trivial, fun s t _ _ h => by cases s; cases t; exact congrArg _ h⟩

namespace Monitor

/-- A new monitor of the counter. -/
def ofCounter : Monitor Counter := ⟨Counter.property, { store := { folder := "", index := 0 } }⟩

/-- The checks of a property without checks. -/
def noChecks : StepChecks := ⟨.empty, .empty, 0⟩

/-- The monitor after the counter's state `c` was expanded. -/
def expandCounter (c : Counter) (w : Monitor Counter) : Monitor Counter :=
  (addChecked Counter.model (fingerprint c) (Counter.model.successors c) noChecks false w).2

theorem Run.expandCounter {registered expanded : List Counter} {w : Monitor Counter}
    (h : Run Counter.model (fun _ => True) ofCounter registered expanded w) (c : Counter)
    (hc : (addChecked Counter.model (fingerprint c) (Counter.model.successors c) noChecks false w).1.toOption =
      some none) :
    Run Counter.model (fun _ => True) ofCounter registered (c :: expanded) (w.expandCounter c) :=
  h.next trivial (fun _ _ => trivial) (fun _ => Iff.rfl) (Change.eq_ok_of_toOption hc)

end Monitor

namespace Monitor

end Monitor

end Liveness

import Liveness.Proofs.Counterexample
import Liveness.Proofs.Monitor.Revisit

/-!
# The graph of a behaviour

A behaviour that is checked by itself is a list of states, in which a state may come more than
once. Each of them may stay as it is or go on to the next one, so the list makes a graph of its
states (`Trace.Moves`). A property without a tableau is violated by the behaviour if the graph has
a closed walk that meets one of the fairness conditions (`Property.IsViolatedBy`).

A monitor is handed one state after the other, each with itself and the next one as successors. It
does not see the graph at once: a state that comes again has a node already, and that node gets one
more step. In the end the graph of the monitor is that of the behaviour, with the results of all
checks (`Monitor.Retraces`), if the records that were written fit the log. So the search of the one
finds what the other has (`Monitor.Retraces.search`).
-/

namespace Liveness

/-- The node of a state when there is no tableau. -/
def Key.ofState {σ : Type} [ModelState σ] (s : σ) : Key := ⟨fingerprint s, Key.noPoint⟩

/-! ### Closed walks -/

namespace Trace

variable {σ : Type} {ss : List σ} {s t : σ}

/-- A state of the behaviour may stay as it is, or go on to the next one. -/
def Moves (ss : List σ) (s t : σ) : Prop := ∃ i, ss[i]? = some s ∧ (t = s ∨ ss[i + 1]? = some t)

theorem moves_singleton {a : σ} : Moves [a] s t ↔ s = a ∧ t = a := by
  constructor
  · rintro ⟨i, hs, ht⟩
    obtain ⟨rfl, rfl⟩ : i = 0 ∧ a = s := by simpa [List.getElem?_singleton, ite_eq_iff] using hs
    exact ⟨rfl, by simpa using ht⟩
  · rintro ⟨rfl, rfl⟩
    exact ⟨0, rfl, .inl rfl⟩

theorem moves_cons {a b : σ} {rest : List σ} :
    Moves (a :: b :: rest) s t ↔ (s = a ∧ (t = a ∨ t = b)) ∨ Moves (b :: rest) s t := by
  constructor
  · rintro ⟨_ | i, hs, ht⟩
    · obtain rfl : a = s := Option.some.inj hs
      exact .inl ⟨rfl, ht.imp_right fun ht => (Option.some.inj ht).symm⟩
    · exact .inr ⟨i, hs, ht⟩
  · rintro (⟨rfl, ht⟩ | ⟨i, hs, ht⟩)
    · exact ⟨0, rfl, ht.imp_right fun ht => congrArg some ht.symm⟩
    · exact ⟨i + 1, hs, ht⟩

theorem Moves.mem_left (h : Moves ss s t) : s ∈ ss := by
  obtain ⟨i, hs, -⟩ := h
  exact List.mem_of_getElem? hs

theorem Moves.mem_right (h : Moves ss s t) : t ∈ ss := by
  obtain ⟨i, hs, rfl | ht⟩ := h
  · exact List.mem_of_getElem? hs
  · exact List.mem_of_getElem? ht

theorem moves_self (h : s ∈ ss) : Moves ss s s := by
  obtain ⟨i, hi⟩ := List.mem_iff_getElem?.mp h
  exact ⟨i, hi, .inl rfl⟩

theorem mem_zip_tail {x : σ × σ} : x ∈ ss.zip ss.tail ↔ ∃ i, ss[i]? = some x.1 ∧ ss[i + 1]? = some x.2 := by
  rw [List.mem_iff_getElem?]
  simp only [List.getElem?_zip_eq_some, List.getElem?_tail]

/-- The moves are the steps that are handed over. -/
theorem moves_iff : Moves ss s t ↔ ∃ x ∈ Checker.traceSteps ss, x.1 = s ∧ t ∈ x.2 := by
  fun_induction Checker.traceSteps ss with
  | case1 => simp [Moves]
  | case2 a =>
    rw [moves_singleton]
    simp [eq_comm]
  | case3 a b rest ih =>
    rw [moves_cons, ih]
    simp [eq_comm]

/-- A state is handed over after one that goes on to it. -/
theorem isChain_traceSteps (ss : List σ) : (Checker.traceSteps ss).IsChain fun x y => y.1 ∈ x.2 := by
  fun_induction Checker.traceSteps ss with
  | case1 => exact List.isChain_nil
  | case2 a => exact List.isChain_singleton _
  | case3 a b rest ih =>
    refine List.isChain_cons.mpr ⟨fun y hy => ?_, ih⟩
    cases rest with
    | nil =>
      obtain rfl := Option.some.inj hy
      simp
    | cons c rest =>
      obtain rfl := Option.some.inj hy
      simp

theorem length_of_mem_traceSteps {x : σ × List σ} (h : x ∈ Checker.traceSteps ss) : x.2.length ≤ 2 := by
  fun_induction Checker.traceSteps ss with
  | case1 => cases h
  | case2 a =>
    rw [List.mem_singleton.mp h]
    simp
  | case3 a b rest ih =>
    rcases List.mem_cons.mp h with rfl | h
    · simp
    · exact ih h

theorem exists_mem_zip {ts : List σ} (h : t ∈ ts) : ∃ x ∈ (s :: ts).zip ts, x.2 = t := by
  have hzip : ((s :: ts).zip ts).map Prod.snd = ts := List.map_snd_zip (by simp)
  rw [← hzip] at h
  simpa using h

theorem mem_of_isChain {ts : List σ} (h : (s :: ts).IsChain (Moves ss)) (hs : s ∈ ss) : ∀ t ∈ s :: ts, t ∈ ss :=
  h.induction (· ∈ ss) _ (fun _ _ hmoves _ => hmoves.mem_right) fun _ => hs

/-- From `s` the states `ts` lead round to `s` along moves of the behaviour, and the checks of a
property meet a fairness condition on the way. -/
structure FairCycle (ss : List σ) (p : Property σ) (f : Fairness) (s : σ) (ts : List σ) : Prop where
  walk : (s :: ts).IsChain (Moves ss)
  closed : ts.getLast? = some s
  everyStep : ∀ x ∈ (s :: ts).zip ts, ∀ i ∈ f.everyStep, p.HoldsOn i x.1 x.2
  someState : ∀ i ∈ f.someState, ∃ t ∈ ts, p.HoldsAt i t
  someStep : ∀ i ∈ f.someStep, ∃ x ∈ (s :: ts).zip ts, p.HoldsOn i x.1 x.2

end Trace

/-- A closed walk along the behaviour meets one of the fairness conditions. -/
def Property.IsViolatedBy {σ : Type} (p : Property σ) (ss : List σ) : Prop :=
  ∃ f, p.IsFairness f ∧ ∃ s ts, Trace.FairCycle ss p f s ts

/-! ### What is promised of a behaviour -/

variable {σ : Type} [ModelState σ]

/-- The states that may follow a state of the behaviour. -/
def Trace.next (ss : List σ) (s : σ) : List σ :=
  s :: ((ss.zip ss.tail).filter fun x => fingerprint x.1 == fingerprint s).map Prod.snd

/-- The property has no tableau and less than 2³² action checks, the fingerprints tell the states of
the behaviour apart, and its places can be told by words. -/
structure Trace.Suits (ss : List σ) (p : Property σ) : Prop where
  plain : p.tableau = none
  narrow : p.width < 2 ^ 32
  injective : ∀ s ∈ ss, ∀ t ∈ ss, fingerprint s = fingerprint t → s = t
  short : ss.length + 1 < wordLimit

namespace Trace

variable {ss : List σ} {p : Property σ} {first s t : σ}

theorem Suits.mem_next_iff (h : Suits ss p) (hs : s ∈ ss) : t ∈ next ss s ↔ Moves ss s t := by
  rw [next, List.mem_cons]
  constructor
  · rintro (rfl | ht)
    · exact moves_self hs
    · obtain ⟨⟨u, v⟩, huv, rfl⟩ := List.mem_map.mp ht
      obtain ⟨hzip, hfp⟩ := List.mem_filter.mp huv
      obtain ⟨i, hu, hv⟩ := mem_zip_tail.mp hzip
      obtain rfl := h.injective u (List.mem_of_getElem? hu) s hs (by simpa using hfp)
      exact ⟨i, hu, .inr hv⟩
  · rintro ⟨i, hi, rfl | ht⟩
    · exact .inl rfl
    · refine .inr (List.mem_map.mpr ⟨(s, t), List.mem_filter.mpr ⟨mem_zip_tail.mpr ⟨i, hi, ht⟩, ?_⟩, rfl⟩)
      simp

/-- The exploration of a behaviour. Not all that may follow a state is handed over at once. -/
def Suits.exploration (h : Suits ss p) (first : σ) : Exploration σ where
  model := { initial := [first], next := next ss }
  property := p
  states := (· ∈ ss)
  starts := (· = first)
  exact := True
  full := False
  faithful := ⟨fun _ hs _ ht => ((h.mem_next_iff hs).mp ht).mem_right, fun s t hs ht => h.injective s hs t ht⟩

/-- There is room for two steps more. -/
theorem Suits.room (h : Suits ss p) {count : Nat} (hcount : count ≤ 2) :
    2 ^ 32 + Node.stepLen p.width * (2 * count) ≤ Node.maxCapacity ∧ p.width * count < wordLimit := by
  have hnarrow := h.narrow
  have hsteps : Node.stepLen p.width * (2 * count) ≤ Node.stepLen p.width * 4 := Nat.mul_le_mul_left _ (by omega)
  have hbits : p.width * count ≤ p.width * 2 := Nat.mul_le_mul_left _ hcount
  simp only [Node.stepLen, Node.headLen, Node.actionWords, Node.maxCapacity, wordLimit] at hsteps ⊢
  omega

/-- A key of an exploration of the behaviour is that of one of its states. -/
theorem Suits.exists_state (h : Suits ss p) {k : Key} (hk : (h.exploration first).IsKey k) :
    ∃ s ∈ ss, k = Key.ofState s := by
  obtain ⟨hpoint, s, hs, hfp⟩ := hk
  change p.IsPoint k.point at hpoint
  rw [Property.IsPoint, h.plain] at hpoint
  refine ⟨s, hs, ?_⟩
  rw [Key.ofState, hfp, ← hpoint]

end Trace

namespace Monitor

variable {ss : List σ} {p : Property σ} {first s t : σ} {done : List (σ × List σ)} {w : Monitor σ}

/-- The monitor was handed some steps of the behaviour. Its graph has these steps, with the results of
the checks, and others of the behaviour at most; there is a way to every node, and it starts at the
first state. -/
structure Retraces (h : Trace.Suits ss p) (first : σ) (done : List (σ × List σ)) (w : Monitor σ) : Prop where
  property_eq : w.property = p
  lawful : (h.exploration first).Lawful w.store
  regular : w.builder.Regular p.width
  roots : w.store.roots = [Key.ofState first]
  leads : ∀ x ∈ done, ∀ t ∈ x.2, w.store.Leads (Key.ofState x.1) (Key.ofState t)

variable {h : Trace.Suits ss p}

theorem Retraces.congr {w' : Monitor σ} (hw : w.Retraces h first done) (hp : w'.property = w.property)
    (hstore : w'.store = w.store) (hdrawing : w'.builder.nextDrawing = w.builder.nextDrawing) :
    w'.Retraces h first done := by
  have hstore' : w'.builder.store = w.builder.store := hstore
  refine ⟨hp.trans hw.property_eq, hstore ▸ hw.lawful, ⟨?_, ?_, ?_⟩, hstore ▸ hw.roots, hstore ▸ hw.leads⟩
  · rw [hstore']
    exact hw.regular.rooted
  · rw [hstore']
    exact hw.regular.uniform
  · rw [Builder.Drawable, hstore', hdrawing]
    exact hw.regular.drawable

/-- **A state of the behaviour is handed over**, for the first time or again: if the log fits there is
no fault, and the steps are in the graph. -/
theorem Retraces.addNext (hw : w.Retraces h first done) {m : Model σ} (hs : s ∈ ss) {ts : List σ}
    (hts : ∀ t ∈ ts, Trace.Moves ss s t) (hlen : ts.length ≤ 2) (hseen : w.store.isUnseen (Key.ofState s) = false)
    {r : Outcome (Option Lasso)} {w' : Monitor σ} (hw' : Monitor.addNext m s (fingerprint s) ts true w = (r, w'))
    (hfits : w'.store.log.Fits) : r = .ok none ∧ w'.Retraces h first (done ++ [(s, ts)]) := by
  obtain ⟨hroom, hbits⟩ := h.room hlen
  have hp : w.property = p := hw.property_eq
  obtain ⟨checks, hchecks⟩ : ∃ checks, p.evaluate s ts = .ok checks := by
    cases hevaluate : p.evaluate s ts with
    | ok checks => exact ⟨checks, rfl⟩
    | error d => exact absurd (Property.overflow_of_evaluate hevaluate).2 (Nat.not_lt_of_lt hbits)
  obtain ⟨-, hwidth, -⟩ := Property.evaluate_spec hchecks
  have hexpands : (h.exploration first).Expands s ts checks :=
    Exploration.expands_evaluate hs (fun t ht => (h.mem_next_iff hs).mpr (hts t ht)) (fun hfull => hfull.elim) hchecks
  -- That the graph stays lawful and that it stays regular are facts about the same call.
  have hlawful := Exploration.addPlain_spec (b := w.builder) h.plain rfl hexpands true hw.lawful
    (hw.lawful.settled_of_not_full id) fun hunseen => absurd (hseen.symm.trans hunseen) (by decide)
  have hadvances := hw.regular.addPlain h.plain hwidth hroom (Nat.le_of_lt hbits) hseen
  have hcall : (Builder.addNext w.property m (fingerprint s) ts checks true).Meets w.builder
      (fun r b' => b'.store.log.Fits → r = none ∧ (h.exploration first).Lawful b'.store ∧
        b'.Advances p.width w.builder.store (Key.ofState s) (ts.map Key.ofState))
      (fun _ b' => ¬ b'.store.log.Fits) := by
    rw [Builder.addNext, hp, h.plain]
    refine ((hlawful.and hadvances).mono (fun _ _ hQ => hQ) fun _ _ hE => hE.2).bind ?_
    rintro _ b' ⟨hlawful', hadvances'⟩ hfits
    exact ⟨rfl, (hlawful' hfits).1, hadvances' hfits⟩
  rw [addNext_apply, hp, hchecks] at hw'
  cases r with
  | error f => exact absurd hfits ((meets_addChecked hcall).of_error hw').2
  | ok found =>
    obtain ⟨hp', hgood⟩ := (meets_addChecked hcall).of_ok hw'
    obtain ⟨rfl, hlawful', hadvances'⟩ := hgood hfits
    refine ⟨rfl, hp'.trans hp, hlawful', hadvances'.regular, hadvances'.roots.trans hw.roots, fun x hx t ht => ?_⟩
    rcases List.mem_append.mp hx with hx | hx
    · exact hadvances'.leads _ _ (hw.leads x hx t ht)
    · obtain rfl := List.mem_singleton.mp hx
      exact hadvances'.reaches _ (List.mem_map_of_mem ht)

/-! ### The graph of the monitor is that of the behaviour -/

/-- The step of the graph leads to the node of the second state, with the checks on the move there from
the first. -/
def IsStepOf (p : Property σ) (x : σ × σ) (e : Step) : Prop :=
  e.target = Key.ofState x.2 ∧ ∀ i, e.actions.get i = (p.actionBits x.1 x.2).get i

/-- The steps of the graph are moves of the behaviour. -/
theorem Retraces.exists_moves (hw : w.Retraces h first done) (hs : s ∈ ss) {e : Step}
    (he : w.store.HasStep (Key.ofState s) e) : ∃ t, Trace.Moves ss s t ∧ IsStepOf p (s, t) e := by
  have hstep := hw.lawful.isStep he
  obtain ⟨u, hu, htarget⟩ := h.exists_state hstep.isKey
  obtain ⟨s', t, hs', ht, hnext, -, hbits⟩ := hstep
  obtain rfl : s = s' := Exploration.At.unique (X := h.exploration first) ⟨hs, rfl⟩ hs'
  obtain rfl : t = u := h.injective t ht.1 u hu (by rw [ht.2, htarget]; rfl)
  refine ⟨t, ?_, htarget, hbits trivial⟩
  rcases hnext with rfl | hnext
  · exact Trace.moves_self hs
  · exact (h.mem_next_iff hs).mp hnext

/-- The moves of the behaviour are steps of the graph. -/
theorem Retraces.exists_step (hw : w.Retraces h first (Checker.traceSteps ss)) (hmoves : Trace.Moves ss s t) :
    ∃ e, w.store.HasStep (Key.ofState s) e ∧ IsStepOf p (s, t) e := by
  obtain ⟨x, hx, rfl, ht⟩ := Trace.moves_iff.mp hmoves
  obtain ⟨hwritten, n, hn, hmem⟩ := hw.leads x hx t ht
  rw [Node.targets_eq] at hmem
  obtain ⟨e, he, htarget⟩ := List.mem_map.mp hmem
  have hstep : w.store.HasStep (Key.ofState x.1) e := ⟨hwritten, n, hn, he⟩
  obtain ⟨u, hu, hof⟩ := hw.exists_moves hmoves.mem_left hstep
  obtain rfl : t = u := h.injective t hmoves.mem_right u hu.mem_right (congrArg Key.fp (htarget.symm.trans hof.1))
  exact ⟨e, hstep, hof⟩

/-- The nodes have the checks on their states. -/
theorem Retraces.get_stateBits (hw : w.Retraces h first (Checker.traceSteps ss)) (ht : t ∈ ss) {n : Node}
    (hn : w.store.node (Key.ofState t) = .ok n) (i : Nat) : n.stateBits.get i = (p.stateBits t).get i := by
  obtain ⟨e, ⟨hwritten, -⟩, -⟩ := hw.exists_step (Trace.moves_self ht)
  exact hw.lawful.state _ n hwritten ⟨Store.isUnseen_of_isWritten hwritten, hn⟩ trivial t ⟨ht, rfl⟩ i

/-- The behaviour comes to all its states from the first. -/
theorem Retraces.reachable (hw : w.Retraces h first (Checker.traceSteps ss)) (hfirst : ss.head? = some first)
    (hs : s ∈ ss) : w.store.Reachable (Key.ofState s) := by
  obtain ⟨i, hi⟩ := List.mem_iff_getElem?.mp hs
  induction i generalizing s with
  | zero =>
    rw [← List.head?_eq_getElem?, hfirst] at hi
    obtain rfl := Option.some.inj hi
    exact .root (by simp [hw.roots])
  | succ i ih =>
    have hlt : i < ss.length := Nat.lt_of_succ_lt (List.getElem?_eq_some_iff.mp hi).1
    have hprev := List.getElem?_eq_getElem hlt
    obtain ⟨e, he, htarget, -⟩ := hw.exists_step ⟨i, hprev, .inr hi⟩
    rw [← htarget]
    exact .step (ih (List.getElem_mem hlt) hprev) he

/-- A walk in the graph is one along the behaviour. -/
theorem Retraces.exists_isChain (hw : w.Retraces h first done) {es : List Step} : ∀ {s : σ} {l : Key}, s ∈ ss →
    w.store.IsWalk (Key.ofState s) es l → ∃ ts u, (s :: ts).IsChain (Trace.Moves ss) ∧
      (s :: ts).getLast? = some u ∧ l = Key.ofState u ∧ List.Forall₂ (IsStepOf p) ((s :: ts).zip ts) es := by
  induction es with
  | nil =>
    rintro s l hs rfl
    exact ⟨[], s, List.isChain_singleton s, rfl, rfl, .nil⟩
  | cons e es ih =>
    rintro s l hs ⟨he, hrest⟩
    obtain ⟨t, hmoves, hof⟩ := hw.exists_moves hs he
    rw [hof.1] at hrest
    obtain ⟨ts, u, hchain, hlast, hl, hall⟩ := ih hmoves.mem_right hrest
    exact ⟨t :: ts, u, List.isChain_cons_cons.mpr ⟨hmoves, hchain⟩, hlast, hl, .cons hof hall⟩

/-- A walk along the behaviour is one in the graph. -/
theorem Retraces.exists_isWalk (hw : w.Retraces h first (Checker.traceSteps ss)) {ts : List σ} : ∀ {s u : σ},
    (s :: ts).IsChain (Trace.Moves ss) → (s :: ts).getLast? = some u →
      ∃ es, w.store.IsWalk (Key.ofState s) es (Key.ofState u) ∧ List.Forall₂ (IsStepOf p) ((s :: ts).zip ts) es := by
  induction ts with
  | nil =>
    intro s u _ hlast
    obtain rfl := Option.some.inj hlast
    exact ⟨[], rfl, .nil⟩
  | cons t ts ih =>
    intro s u hchain hlast
    obtain ⟨hmoves, hrest⟩ := List.isChain_cons_cons.mp hchain
    obtain ⟨e, he, hof⟩ := hw.exists_step hmoves
    obtain ⟨es, hwalk, hall⟩ := ih hrest hlast
    exact ⟨e :: es, ⟨he, hof.1 ▸ hwalk⟩, .cons hof hall⟩

/-- **A closed walk along the behaviour that meets a condition is a fair cycle of the graph.** -/
theorem Retraces.exists_fairCycle (hw : w.Retraces h first (Checker.traceSteps ss)) (hfirst : ss.head? = some first)
    {f : Fairness} {ts : List σ} (hcycle : Trace.FairCycle ss p f s ts) :
    ∃ es, w.store.FairCycle p f (Key.ofState s) es := by
  obtain ⟨u, us, rfl⟩ : ∃ u us, ts = u :: us := List.exists_cons_of_ne_nil (by
    rintro rfl
    cases hcycle.closed)
  have hmoves := (List.isChain_cons_cons.mp hcycle.walk).1
  obtain ⟨es, hwalk, hall⟩ := hw.exists_isWalk hcycle.walk (u := s) (by
    rw [List.getLast?_cons_cons]
    exact hcycle.closed)
  have hstate : ∀ e ∈ es, ∃ x ∈ (s :: u :: us).zip (u :: us), IsStepOf p x e := fun e he =>
    exists_of_forall₂_right hall he
  obtain ⟨e₀, he₀, -⟩ := exists_of_forall₂_left hall (x := (s, u)) (by simp)
  refine ⟨es, ⟨hw.reachable hfirst hmoves.mem_left, hwalk, List.ne_nil_of_mem he₀, fun e he i hi => ?_,
    ⟨e₀, he₀, by rw [Property.AcceptsAt, h.plain]; trivial⟩, fun i hi => ?_, fun i hi => ?_⟩⟩
  · obtain ⟨x, hx, hof⟩ := hstate e he
    rw [hof.2]
    exact Property.get_actionBits.mpr (hcycle.everyStep x hx i hi)
  · obtain ⟨t, ht, hbit⟩ := hcycle.someState i hi
    obtain ⟨x, hx, rfl⟩ := Trace.exists_mem_zip (s := s) ht
    obtain ⟨e, he, hof⟩ := exists_of_forall₂_left hall hx
    obtain ⟨n, hn, -⟩ := hw.lawful.intact.exists_node e.target
    refine ⟨e, he, n, hn, ?_⟩
    rw [hof.1] at hn
    rw [hw.get_stateBits (Trace.mem_of_isChain hcycle.walk hmoves.mem_left _ (List.mem_cons_of_mem _ ht)) hn]
    exact Property.get_stateBits.mpr hbit
  · obtain ⟨x, hx, hbit⟩ := hcycle.someStep i hi
    obtain ⟨e, he, hof⟩ := exists_of_forall₂_left hall hx
    exact ⟨e, he, (hof.2 i).trans (Property.get_actionBits.mpr hbit)⟩

/-- **A fair cycle of the graph is a closed walk along the behaviour that meets the condition.** -/
theorem Retraces.exists_cycle (hw : w.Retraces h first (Checker.traceSteps ss)) {f : Fairness} {k : Key}
    {es : List Step} (hcycle : w.store.FairCycle p f k es) : ∃ s ts, Trace.FairCycle ss p f s ts := by
  obtain ⟨s, hs, rfl⟩ := h.exists_state (hw.lawful.isKey_of_reachable hcycle.reachable)
  obtain ⟨ts, u, hchain, hlast, hu, hall⟩ := hw.exists_isChain hs hcycle.walk
  have hmem := Trace.mem_of_isChain hchain hs
  obtain rfl : s = u := h.injective s hs u (hmem u (List.mem_of_getLast? hlast)) (congrArg Key.fp hu)
  have hclosed : ts.getLast? = some s := by
    cases ts with
    | nil =>
      cases hall
      exact absurd rfl hcycle.nonempty
    | cons t ts => rwa [List.getLast?_cons_cons] at hlast
  refine ⟨s, ts, hchain, hclosed, fun x hx i hi => ?_, fun i hi => ?_, fun i hi => ?_⟩
  · obtain ⟨e, he, hof⟩ := exists_of_forall₂_left hall hx
    rw [← Property.get_actionBits, ← hof.2]
    exact hcycle.everyStep e he i hi
  · obtain ⟨e, he, n, hn, hbit⟩ := hcycle.someState i hi
    obtain ⟨x, hx, hof⟩ := exists_of_forall₂_right hall he
    have hx₂ : x.2 ∈ ts := (List.of_mem_zip hx).2
    rw [hof.1] at hn
    refine ⟨x.2, hx₂, ?_⟩
    rw [← Property.get_stateBits, ← hw.get_stateBits (hmem _ (List.mem_cons_of_mem _ hx₂)) hn]
    exact hbit
  · obtain ⟨e, he, hbit⟩ := hcycle.someStep i hi
    obtain ⟨x, hx, hof⟩ := exists_of_forall₂_right hall he
    exact ⟨x, hx, Property.get_actionBits.mp ((hof.2 i).symm.trans hbit)⟩

/-! ### What the search finds -/

/-- The graph has no more nodes than the behaviour has states. -/
theorem Retraces.length_keys_le (hw : w.Retraces h first done) : w.store.keys.length ≤ ss.length := by
  have hsub : w.store.keys ⊆ ss.map Key.ofState := by
    intro k hk
    obtain ⟨n, hn, -⟩ := hw.lawful.intact.exists_holds (Store.mem_keys_iff.mp hk)
    obtain ⟨s, hs, rfl⟩ := h.exists_state (hw.lawful.admits k n hn).isKey
    exact List.mem_map_of_mem hs
  have hle := (hw.regular.rooted.counted.nodup_keys.subperm hsub).length_le
  rwa [List.length_map] at hle

/-- **The search finds a violation exactly if the behaviour has one.** The lasso starts at the first
state, goes through states of the behaviour only, and if it goes back, then to a place that a word can
tell. -/
theorem Retraces.search (hw : w.Retraces h first (Checker.traceSteps ss)) (hfirst : ss.head? = some first) :
    (w.search = .ok none ∧ ¬ p.IsViolatedBy ss) ∨
      ∃ l, w.search = .ok (some l) ∧ p.IsViolatedBy ss ∧ l.path.head? = some (fingerprint first) ∧
        (∀ fp ∈ l.path, fp ∈ ss.map fingerprint) ∧ ∀ i, l.ending = .backTo i → i + 1 < wordLimit := by
  have hlen := hw.length_keys_le
  have hlimit : ss.length + 1 < 2 ^ 64 := h.short
  have hrooted : w.store.Rooted := hw.regular.rooted
  rw [Monitor.search, hw.property_eq]
  rcases w.store.findViolation_cases p with ⟨hnone, hno⟩ | ⟨f, hf, k, es, hfair, hlasso⟩ | ⟨hbroken, -⟩
  · refine .inl ⟨hnone, ?_⟩
    rintro ⟨f, hf, s, ts, hcycle⟩
    obtain ⟨es, hfair⟩ := hw.exists_fairCycle hfirst hcycle
    exact hno f (Property.mem_conditions.mpr hf) _ es hfair
  · obtain ⟨s, hs, rfl⟩ := h.exists_state (hw.lawful.isKey_of_reachable hfair.reachable)
    obtain ⟨e, ⟨hwritten, -⟩, -⟩ := hw.exists_step (Trace.moves_self hs)
    obtain ⟨ks, hks⟩ := hrooted.ancestry.trace _ (Store.isUnseen_of_isWritten hwritten)
    obtain ⟨c', hpath, -⟩ := hks.path_spec hrooted.intact hrooted.counted (by omega) (Store.recalls_empty _)
    have hpathTo : w.store.pathTo (Key.ofState s) = .ok (ks.map Key.fp) := by rw [Store.pathTo, hpath]
    obtain ⟨hchain, hlast⟩ := hw.lawful.isChain_of_isWalk hfair.walk
    obtain ⟨l, hl⟩ := Lasso.exists_ofCycle (by rw [List.getLast?_map, hks.last]; rfl) rfl hlast
    obtain ⟨⟨u, -, rfl, hhead⟩, hfollows⟩ := (hw.lawful.isTrail hks.descent).isBehaviour hchain hl
    refine .inr ⟨l, by rw [hlasso, Store.lassoAt_eq_ok hpathTo hl], ?_, hhead, ?_, fun i hi => ?_⟩
    · obtain ⟨s, ts, hcycle⟩ := hw.exists_cycle hfair
      exact ⟨f, Property.mem_conditions.mp hf, s, ts, hcycle⟩
    · refine hfollows.chain.induction (· ∈ ss.map fingerprint) l.path ?_ fun hne => ?_
      · rintro a b ⟨s, t, hs, ht, -, rfl⟩ -
        exact List.mem_map_of_mem ((h.mem_next_iff hs).mp ht).mem_right
      · rw [List.head?_eq_some_head hne] at hhead
        rw [Option.some.inj hhead]
        exact List.mem_map_of_mem (List.mem_of_head? hfirst)
    · have hlt := Lasso.index_lt_of_ofCycle hl hi
      rw [List.length_map] at hlt
      have hle := hks.length_le
      exact Nat.lt_of_le_of_lt (by omega) h.short
  · exact absurd hbroken hw.lawful.not_broken

end Monitor

end Liveness

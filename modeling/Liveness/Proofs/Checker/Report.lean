import Liveness.Proofs.Counterexample
import Liveness.Proofs.Monitor
import Liveness.Proofs.Builder.Known
import Liveness.Proofs.Checker.Calls

/-!
# Reported counterexamples are behaviours

In a run of the checker initial states of the model are registered, states are expanded
with some of their successors, in any order and more than once if need be, and the graphs
are checked at any time. Whatever the calls come to, the graphs stay lawful for behaviours
that start in the initial states, as long as the records that are written fit their logs. So every
counterexample that is reported can be put together, and it is a behaviour of the model.

A graph without a tableau takes a state that it does not know for one that behaviours start
in. A state is known once it was registered, or once it was a successor in a call that came
to its end.
-/

namespace Liveness

variable {σ : Type} [ModelState σ]

/-- The counterexample of the lasso is found, and it is a behaviour of the model. -/
def Lasso.IsReal (m : Model σ) (l : Lasso) : Prop :=
  ∀ name, ∃ x, Counterexample.ofLasso (Counterexample.replay m) name l = .ok x ∧ x.IsBehaviour m

/-- No counterexample failed to be put together, and one that is reported is a behaviour. -/
def Fault.IsTrue (m : Model σ) : Fault → Prop
  | .error (.violated v) => ∃ x : Counterexample σ, x.violation = .ok v ∧ x.IsBehaviour m
  | .error (.reconstruction _) => False
  | _ => True

/-- A counterexample that is reported is a behaviour. -/
def CheckResult.IsTrue (m : Model σ) : CheckResult σ → Prop
  | .violated x => x.IsBehaviour m
  | _ => True

theorem Fault.isTrue_of_not_isCounterexample {m : Model σ} {f : Fault} (h : ¬ f.IsCounterexample) : f.IsTrue m := by
  unfold IsTrue
  split
  · exact absurd trivial h
  · exact absurd trivial h
  · trivial

/-! ### One graph -/

namespace Monitor

/-- The behaviours of a model start in its initial states. -/
abbrev ofInitial {m : Model σ} {states : σ → Prop} (hm : m.Faithful states) (p : Property σ) : Exploration σ :=
  ⟨m, p, states, (· ∈ m.initial), False, False, hm⟩

/-- The graph is lawful for behaviours that start in the initial states, if its log fits. -/
def Sound {m : Model σ} {states : σ → Prop} (hm : m.Faithful states) (w : Monitor σ) : Prop :=
  w.store.Under ((ofInitial hm w.property).Lawful w.store)

/-- If the graph has no tableau, it has the node of the state. -/
def Knows (w : Monitor σ) (s : σ) : Prop :=
  w.property.tableau = none → w.store.isUnseen ⟨fingerprint s, Key.noPoint⟩ = false

variable {m : Model σ} {states : σ → Prop} {hm : m.Faithful states} {w w' : Monitor σ} {s : σ} {successors : List σ}

theorem Sound.congr (h : w.Sound hm) (hproperty : w'.property = w.property) (hstore : w'.store = w.store) :
    w'.Sound hm := by
  rw [Sound, hproperty, hstore]
  exact h

theorem Knows.congr (h : w.Knows s) (hproperty : w'.property = w.property) (hstore : w'.store = w.store) :
    w'.Knows s := by
  rw [Knows, hproperty, hstore]
  exact h

/-- An initial state is registered. -/
theorem Sound.addInitial (h : w.Sound hm) (hs : s ∈ m.initial) (hstates : states s) :
    (w.addInitial s (fingerprint s)).Sound hm :=
  h.grow (w.addInitial_grows h.whole s _) fun hlawful _ => hlawful.addInitial hstates hs

/-- A registered state is known, and no state is forgotten. -/
theorem knows_addInitial (w : Monitor σ) (s : σ) :
    (w.addInitial s (fingerprint s)).Knows s ∧ ∀ t, w.Knows t → (w.addInitial s (fingerprint s)).Knows t := by
  have hstore : w.property.tableau = none →
      (w.addInitial s (fingerprint s)).store = w.store.addRoot ⟨fingerprint s, Key.noPoint⟩ := by
    intro hplain
    change Builder.addInitial w.property s (fingerprint s) w.store = _
    rw [Builder.addInitial, hplain]
  refine ⟨fun hplain => ?_, fun t ht hplain => ?_⟩
  · rw [hstore hplain, Store.isUnseen_addRoot]
    simp
  · rw [hstore hplain, Store.isUnseen_addRoot, ht hplain, Bool.and_false]

/-- **The steps of a known state are added**: a violation that shows is a behaviour. -/
theorem Sound.addNext (h : w.Sound hm) (hinitial : ∀ s ∈ m.initial, states s) (hs : states s)
    (hnext : ∀ t ∈ successors, t ∈ m.next s) (hknows : w.Knows s) {revisits : Bool} {r : Outcome (Option Lasso)}
    (hw' : Monitor.addNext m s (fingerprint s) successors revisits w = (r, w')) :
    w'.Sound hm ∧ (w'.store.log.Fits → (∀ l, r = .ok (some l) → l.IsReal m) ∧ ∀ f, r = .error f → ¬ f.IsCounterexample) := by
  have hgrows := addNext_grows h.whole hw'
  rw [Monitor.addNext_apply] at hw'
  split at hw'
  · rename_i checks hchecks
    have hspec : w'.store.log.Fits → (ofInitial hm w'.property).Lawful w'.store ∧
        (∀ l, r = .ok (some l) → l.IsReal m) ∧ ∀ f, r = .error f → ¬ f.IsCounterexample := by
      intro hfits
      have hlawful := h.fits (hfits.of_isPrefix hgrows.log)
      have hexpands := (ofInitial hm w.property).expands_evaluate hs hnext (fun h => h.elim) hchecks
      have hmeets := (ofInitial hm w.property).addChecked_spec (w := w) rfl hexpands revisits hlawful
        (hlawful.settled_of_not_full id) fun hplain hunseen => by rw [hknows hplain] at hunseen; cases hunseen
      cases r with
      | ok found =>
        obtain ⟨hp, hadded⟩ := hmeets.of_ok hw'
        refine ⟨?_, fun l hl name => ?_, fun f hf => by cases hf⟩
        · rw [hp]
          exact (hadded hfits).lawful
        · exact Counterexample.exists_ofLasso ((hadded hfits).behaviour l (Except.ok.inj hl)) (fun _ => Iff.rfl) hinitial
            name
      | error f =>
        obtain ⟨hp, hstopped⟩ := hmeets.of_error hw'
        refine ⟨?_, fun l hl => (by cases hl), fun g hg => ?_⟩
        · rw [hp]
          exact (hstopped hfits).2
        · obtain rfl := Except.error.inj hg
          exact (hstopped hfits).1
    exact ⟨⟨hgrows.whole, fun hfits => (hspec hfits).1⟩, fun hfits => (hspec hfits).2⟩
  · obtain ⟨rfl, rfl⟩ := Prod.mk.inj hw'
    refine ⟨h, fun _ => ⟨fun l hl => (by cases hl), fun f hf => ?_⟩⟩
    obtain rfl := Except.error.inj hf
    exact id

/-- The successors of a state are known once it was expanded, and no state is forgotten. -/
theorem knows_addNext (w : Monitor σ) (m : Model σ) (s : σ) (fp : Fingerprint) (successors : List σ) (revisits : Bool) :
    (Monitor.addNext m s fp successors revisits).Meets w
      (fun _ w' => (∀ t ∈ successors, w'.Knows t) ∧ ∀ t, w.Knows t → w'.Knows t)
      (fun _ w' => ∀ t, w.Knows t → w'.Knows t) := by
  unfold Change.Meets
  rw [Monitor.addNext_apply]
  cases w.property.evaluate s successors with
  | error d => exact fun t ht => ht
  | ok checks =>
    have hbuild : (Builder.addNext w.property m fp successors checks revisits).Meets w.builder
        (fun _ b' => w.property.tableau = none → w.store.Within b'.store ∧
          ∀ t ∈ successors, b'.store.isUnseen ⟨fingerprint t, Key.noPoint⟩ = false)
        (fun _ b' => w.property.tableau = none → w.store.Within b'.store) := by
      cases hplain : w.property.tableau with
      | none => exact (Builder.addNext_within hplain m fp successors checks revisits).mono (fun _ _ h _ => h) fun _ _ h _ => h
      | some t =>
        unfold Change.Meets
        split
        · exact fun h => by cases h
        · exact fun h => by cases h
    refine (Monitor.meets_addChecked hbuild).mono ?_ ?_
    · rintro _ w'' ⟨hp, hknown⟩
      refine ⟨fun t ht hplain => ?_, fun t ht hplain => ?_⟩
      · exact (hknown (hp ▸ hplain)).2 t ht
      · exact (hknown (hp ▸ hplain)).1 _ (ht (hp ▸ hplain))
    · rintro f w'' ⟨hp, hknown⟩ t ht hplain
      exact hknown (hp ▸ hplain) _ (ht (hp ▸ hplain))

/-- What the search of the graph finds is a behaviour. -/
theorem Sound.findViolation (h : w.Sound hm) (hfits : w.store.log.Fits) (hinitial : ∀ s ∈ m.initial, states s) :
    (∀ l, w.store.findViolation w.property = .ok (some l) → l.IsReal m) ∧
      ∀ f, w.store.findViolation w.property = .error f → ¬ f.IsCounterexample := by
  obtain ⟨hok, herror⟩ := (h.fits hfits).findViolation
  exact ⟨fun l hl name => Counterexample.exists_ofLasso (hok l hl) (fun _ => Iff.rfl) hinitial name, herror⟩

/-- A check changes nothing that matters. -/
theorem Sound.markChecked (h : w.Sound hm) : (w.mapStore Store.markChecked).Sound hm := by
  refine ⟨h.whole, fun hfits => ?_⟩
  have hlawful := h.fits hfits
  exact ⟨⟨hlawful.intact.whole, hlawful.intact.recorded, hlawful.intact.readable⟩,
    fun k n hk => { hlawful.admits k n hk with seen := (hlawful.admits k n hk).seen }, hlawful.state, hlawful.root⟩

end Monitor

/-! ### All graphs -/

namespace Checker

/-- Every graph without a tableau has the node of the state. -/
def Knows (c : Checker σ) (s : σ) : Prop := ∀ w ∈ c.monitors, w.Knows s

/-- All graphs are lawful if their logs fit, and some states are known. -/
structure Sound {m : Model σ} {states : σ → Prop} (hm : m.Faithful states) (known : List σ) (c : Checker σ) : Prop where
  monitor : ∀ w ∈ c.monitors, w.Sound hm
  known : ∀ s ∈ known, c.Knows s

variable {m : Model σ} {states : σ → Prop} {hm : m.Faithful states} {known : List σ} {c c' c₀ : Checker σ} {s : σ}
  {successors : List σ}

/-- The warnings of the monitors do not matter. -/
theorem Sound.gather (h : Sound hm known c) (hmonitors : c'.monitors = (Checker.gather c).monitors) :
    Sound hm known c' := by
  refine ⟨fun w' hw' => ?_, fun t ht w' hw' => ?_⟩
  · obtain ⟨w, hw, hp, hstore⟩ := exists_of_mem_gather (hmonitors ▸ hw')
    exact (h.monitor w hw).congr hp hstore
  · obtain ⟨w, hw, hp, hstore⟩ := exists_of_mem_gather (hmonitors ▸ hw')
    exact (h.known t ht w hw).congr hp hstore

theorem Sound.addInitial (h : Sound hm known c) (hinitial : ∀ s ∈ m.initial, states s) (hs : s ∈ m.initial) :
    Sound hm (s :: known) (c.addInitial s (fingerprint s)) := by
  refine ⟨fun w' hw' => ?_, fun t ht w' hw' => ?_⟩
  · obtain ⟨w, hw, rfl⟩ := List.mem_map.mp hw'
    exact (h.monitor w hw).addInitial hs (hinitial s hs)
  · obtain ⟨w, hw, rfl⟩ := List.mem_map.mp hw'
    rcases List.mem_cons.mp ht with rfl | ht
    · exact (w.knows_addInitial t).1
    · exact (w.knows_addInitial s).2 t (h.known t ht w hw)

/-- The steps of a known state are added to all graphs, and no violation shows. -/
theorem Sound.addSteps_ok (h : Sound hm known c) (hinitial : ∀ s ∈ m.initial, states s) (hs : states s)
    (hnext : ∀ t ∈ successors, t ∈ m.next s) (hknows : c.Knows s) {revisits : Bool} {ws : List (Monitor σ)}
    (hws : addSteps (Monitor.addNext m s (fingerprint s) successors revisits) c.monitors = (.ok none, ws)) :
    Sound hm (successors ++ known) { c with monitors := ws } := by
  have hchanged : ∀ w' ∈ ws, ∃ w ∈ c.monitors,
      Monitor.addNext m s (fingerprint s) successors revisits w = (.ok none, w') :=
    fun w' hw' => exists_of_forall₂_right (forall₂_of_addSteps hws) hw'
  refine ⟨fun w' hw' => ?_, fun t ht w' hw' => ?_⟩
  · obtain ⟨w, hw, heq⟩ := hchanged w' hw'
    exact ((h.monitor w hw).addNext hinitial hs hnext (hknows w hw) heq).1
  · obtain ⟨w, hw, heq⟩ := hchanged w' hw'
    obtain ⟨hnew, hold⟩ := (w.knows_addNext m s (fingerprint s) successors revisits).of_ok heq
    rcases List.mem_append.mp ht with ht | ht
    · exact hnew t ht
    · exact hold t (h.known t ht w hw)

/-- The steps of a known state are added to some graphs. -/
theorem Sound.addSteps (h : Sound hm known c) (hinitial : ∀ s ∈ m.initial, states s) (hs : states s)
    (hnext : ∀ t ∈ successors, t ∈ m.next s) (hknows : c.Knows s) (revisits : Bool) :
    Sound hm known
      { c with monitors := (Checker.addSteps (Monitor.addNext m s (fingerprint s) successors revisits) c.monitors).2 } := by
  refine ⟨fun w' hw' => ?_, fun t ht w' hw' => ?_⟩
  · obtain ⟨w, hw, rfl | rfl⟩ := exists_of_mem_addSteps hw'
    · exact h.monitor w' hw
    · exact ((h.monitor w hw).addNext hinitial hs hnext (hknows w hw) rfl).1
  · obtain ⟨w, hw, rfl | rfl⟩ := exists_of_mem_addSteps hw'
    · exact h.known t ht w' hw
    · have hknow := w.knows_addNext m s (fingerprint s) successors revisits
      exact hknow.state (fun _ _ h => h.2) (fun _ _ h => h) t (h.known t ht w hw)

/-- **The steps of a known state are added**: whatever comes of it, the graphs stay lawful and
a violation that is reported is a behaviour. -/
theorem Sound.addNext (h : Sound hm known c) (hinitial : ∀ s ∈ m.initial, states s) (hs : states s)
    (hnext : ∀ t ∈ successors, t ∈ m.next s) (hknows : c.Knows s) :
    (Checker.addNext m s (fingerprint s) successors).Meets c (fun _ c' => Sound hm (successors ++ known) c')
      (fun f c' => Sound hm known c' ∧ (c'.Fits → f.IsTrue m)) := by
  unfold Change.Meets
  rw [addNext_apply]
  refine (addNextWith_spec (Counterexample.replay m)).mono ?_ ?_
  · rintro _ c' ⟨ws, hws, -, hmonitors⟩
    exact (h.addSteps_ok hinitial hs hnext hknows hws).gather hmonitors
  · rintro f c' ⟨found, ws, hws, -, hmonitors, hfault⟩
    obtain ⟨herror, hlasso⟩ :=
      exists_of_addSteps (Monitor.addNext m s (fingerprint s) successors c.config.simulation) c.monitors
    have hsound := h.addSteps hinitial hs hnext hknows c.config.simulation
    rw [hws] at herror hlasso hsound
    refine ⟨hsound.gather hmonitors, fun hfits => ?_⟩
    have hfits' : ∀ w ∈ ws, w.store.log.Fits := by
      rw [Checker.Fits, hmonitors] at hfits
      exact Fits.of_gather (c := { c with monitors := ws }) hfits
    rcases hfault with rfl | ⟨name, lasso, rfl, hresolve⟩
    · obtain ⟨w, hw, w', hw', heq⟩ := herror f rfl
      have hstep := (h.monitor w hw).addNext hinitial hs hnext (hknows w hw) heq
      exact Fault.isTrue_of_not_isCounterexample ((hstep.2 (hfits' w' hw')).2 f rfl)
    · obtain ⟨w, hw, w', hw', heq⟩ := hlasso name lasso rfl
      have hstep := (h.monitor w hw).addNext hinitial hs hnext (hknows w hw) heq
      obtain ⟨x, hx, hbehaviour⟩ := (hstep.2 (hfits' w' hw')).1 lasso rfl name
      rw [hx] at hresolve
      rcases hresolve with hf | ⟨y, hy, ⟨d, rfl⟩ | ⟨v, hv, rfl⟩⟩
      · cases hf
      · trivial
      · obtain rfl := Except.ok.inj hy
        exact ⟨x, hv, hbehaviour⟩

/-- **The graphs are searched**: a counterexample that is reported is a behaviour. -/
theorem Sound.checkWith (h : Sound hm known c) (hinitial : ∀ s ∈ m.initial, states s) :
    (Checker.checkWith (Counterexample.replay m)).Meets c (fun r c' => Sound hm known c' ∧ (c.Fits → r.IsTrue m))
      (fun f c' => Sound hm known c' ∧ (c.Fits → f.IsTrue m)) := by
  have hreal : c.Fits → ∀ i lasso, (i, lasso) ∈ c.round.violations → lasso.IsReal m := by
    intro hfits i lasso hmem
    obtain ⟨w, hw, hfound⟩ := exists_monitor_of_verdict (Round.verdict_of_mem_violations hmem)
    exact ((h.monitor w hw).findViolation (hfits w hw) hinitial).1 lasso hfound
  refine (checkWith_spec (Counterexample.replay m)).mono ?_ ?_
  · rintro r c' ⟨-, ⟨rfl, -, -, hmonitors⟩ | ⟨i, lasso, x, rfl, hmem, hx, hmonitors⟩⟩
    · refine ⟨⟨fun w' hw' => ?_, fun t ht w' hw' => ?_⟩, fun _ => trivial⟩
      · rw [hmonitors] at hw'
        obtain ⟨w, hw, rfl⟩ := List.mem_map.mp hw'
        exact (h.monitor w hw).markChecked
      · rw [hmonitors] at hw'
        obtain ⟨w, hw, rfl⟩ := List.mem_map.mp hw'
        exact h.known t ht w hw
    · refine ⟨⟨fun w hw => ?_, fun t ht w hw => ?_⟩, fun hfits => ?_⟩
      · exact h.monitor w (hmonitors ▸ hw)
      · exact h.known t ht w (hmonitors ▸ hw)
      · obtain ⟨y, hy, hbehaviour⟩ := hreal hfits i lasso hmem (c.nameOf i)
        obtain rfl := Except.ok.inj (hy.symm.trans hx)
        exact hbehaviour
  · rintro f c' ⟨rfl, ⟨d, rfl⟩ | ⟨name, message, rfl⟩ | ⟨i, lasso, hmem, hf⟩⟩
    · exact ⟨h, fun _ => trivial⟩
    · exact ⟨h, fun _ => trivial⟩
    · refine ⟨h, fun hfits => ?_⟩
      obtain ⟨y, hy, -⟩ := hreal hfits i lasso hmem (c'.nameOf i)
      rw [hy] at hf
      cases hf

theorem Sound.check (h : Sound hm known c) (hinitial : ∀ s ∈ m.initial, states s) (force : Bool) :
    (Checker.check m force).Meets c (fun r c' => Sound hm known c' ∧ (c.Fits → r.IsTrue m))
      (fun f c' => Sound hm known c' ∧ (c.Fits → f.IsTrue m)) := by
  unfold Change.Meets
  rw [check_apply]
  split_ifs
  · exact h.checkWith hinitial
  · exact ⟨h, fun _ => trivial⟩

theorem Sound.finalCheck (h : Sound hm known c) (hinitial : ∀ s ∈ m.initial, states s) :
    (Checker.finalCheck m).Meets c (fun r c' => Sound hm known c' ∧ (c.Fits → r.IsTrue m))
      (fun f c' => Sound hm known c' ∧ (c.Fits → f.IsTrue m)) := by
  unfold Change.Meets
  rw [finalCheck_apply]
  split_ifs
  · exact ⟨h, fun _ => trivial⟩
  · exact h.checkWith hinitial

/-! ### Runs -/

/-- A run from `c₀` on: initial states are registered, known states are expanded with some of
their successors, and the graphs are checked, whatever the calls come to. Known from the calls
are the states registered, and the successors in calls that came to their end. -/
inductive Run (m : Model σ) (states : σ → Prop) (c₀ : Checker σ) : List σ → Checker σ → Prop where
  /-- Nothing was done. -/
  | new : Run m states c₀ [] c₀
  /-- An initial state is registered. -/
  | initial {known : List σ} {c : Checker σ} {s : σ} : Run m states c₀ known c → s ∈ m.initial →
      Run m states c₀ (s :: known) (c.addInitial s (fingerprint s))
  /-- A state is expanded. -/
  | next {known : List σ} {c c' : Checker σ} {s : σ} {successors : List σ} : Run m states c₀ known c → states s →
      (∀ t ∈ successors, t ∈ m.next s) → c.Knows s → addNext m s (fingerprint s) successors c = (.ok (), c') →
      Run m states c₀ (successors ++ known) c'
  /-- A state is expanded, and that ends with a fault or a violation. -/
  | stopped {known : List σ} {c c' : Checker σ} {s : σ} {successors : List σ} {f : Fault} : Run m states c₀ known c →
      states s → (∀ t ∈ successors, t ∈ m.next s) → c.Knows s →
      addNext m s (fingerprint s) successors c = (.error f, c') → Run m states c₀ known c'
  /-- The graphs are checked if that is due. -/
  | check {known : List σ} {c : Checker σ} (force : Bool) : Run m states c₀ known c →
      Run m states c₀ known (check m force c).2
  /-- The final check. -/
  | final {known : List σ} {c : Checker σ} : Run m states c₀ known c → Run m states c₀ known (finalCheck m c).2

theorem Run.sound (h : Run m states c₀ known c) (hinitial : ∀ s ∈ m.initial, states s) (hc₀ : Sound hm [] c₀) :
    Sound hm known c := by
  induction h with
  | new => exact hc₀
  | initial _ hs ih => exact ih.addInitial hinitial hs
  | next _ hs hnext hknows hc' ih => exact (ih.addNext hinitial hs hnext hknows).of_ok hc'
  | stopped _ hs hnext hknows hc' ih => exact ((ih.addNext hinitial hs hnext hknows).of_error hc').1
  | check force _ ih => exact (ih.check hinitial force).state (fun _ _ h => h.1) fun _ _ h => h.1
  | final _ ih => exact (ih.finalCheck hinitial).state (fun _ _ h => h.1) fun _ _ h => h.1

namespace Run

variable {known : List Counter} {c : Checker Counter} {s : Counter}

end Run

end Checker

end Liveness

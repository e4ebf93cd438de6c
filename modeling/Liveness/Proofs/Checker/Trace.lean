import Liveness.Proofs.Cycle.Arena
import Liveness.Proofs.Checker.Calls
import Liveness.Proofs.Monitor.Calls

/-!
# A behaviour that is checked by itself

A behaviour can be handed over to be checked without an exploration of the model: each of its
states comes with itself and the next one as successors. Without a tableau nothing else goes
into the graphs. With one a node may turn up after its state was expanded, and then the model
is asked for the successors of the state.

So the check is not quite one of the behaviour alone. The model is asked about states with
fingerprints of the behaviour, though, and about no others: two models that agree on these give
the same report and leave the same checker (`checkTrace_eq_of_agree`). Two models that do not
may disagree on the report (`checkTrace_depends_on_model`).
-/

namespace Liveness

variable {σ : Type} [ModelState σ]

/-- Both models give every state with the fingerprint the same successors. -/
def Model.AgreeAt (m₁ m₂ : Model σ) (fp : Fingerprint) : Prop :=
  ∀ s, fingerprint s = fp → m₁.successors s = m₂.successors s

/-! ### What the builder asks the model -/

namespace Builder

variable {p : Property σ} {t : Tableau σ} {m₁ m₂ : Model σ} {e : Expansion σ} {fp : Fingerprint} {successors : List σ}
  {checks : StepChecks} {base : Store}

/-- The expansion of a node asks for the successors of its state. -/
theorem expandOne_eq_of_agree (h : m₁.successors e.state = m₂.successors e.state) (work : List (Expansion σ)) :
    expandOne p m₁ t e work = expandOne p m₂ t e work := by
  unfold expandOne
  rw [h]

/-- The nodes that wait are those of states marked as expanded, whichever model is asked. -/
theorem expandAll_eq_of_agree (ht : p.tableau = some t)
    (hagree : ∀ g, base.isDone g = true ∨ g = fp → m₁.AgreeAt m₂ g) (fuel : Nat) :
    ∀ (work : List (Expansion σ)) (b : Builder), Evolves p m₁ fp successors checks base b.store →
      Waiting m₁ successors b.store work → expandAll p m₁ t fuel work b = expandAll p m₂ t fuel work b := by
  induction fuel with
  | zero =>
    intro work b _ _
    cases work <;> rfl
  | succ fuel ih =>
    intro work b hbase hwaiting
    cases work with
    | nil => rfl
    | cons e work =>
      obtain ⟨-, hfp, -, hdone⟩ := hwaiting e (by simp)
      have hsuccessors := hagree _ (hbase.isDone hdone) e.state hfp
      rw [expandAll, expandAll, ← expandOne_eq_of_agree hsuccessors work]
      apply (expandOne_evolves ht hbase hwaiting).bind_eq
      intro r b' hr
      cases r with
      | error key => rfl
      | ok work' => exact ih work' b' hr.1 (hr.2 work' rfl)

theorem addProduct_eq_of_agree (ht : p.tableau = some t) {b : Builder}
    (hagree : ∀ g, b.store.isDone g = true ∨ g = fp → m₁.AgreeAt m₂ g) (revisits : Bool) :
    addProduct p m₁ t fp successors checks revisits b = addProduct p m₂ t fp successors checks revisits b := by
  rw [addProduct_eq, addProduct_eq]
  refine (expandState_evolves (m := m₁) ht revisits).bind_eq ?_
  rintro work b' ⟨hbase, hwaiting⟩
  have hlate : expandLate p m₁ t work b' = expandLate p m₂ t work b' := by
    refine (meets_asks (E := fun _ _ => True) _).bind_eq ?_
    rintro states b' ⟨-, rfl⟩
    exact expandAll_eq_of_agree ht hagree _ work b' hbase hwaiting
  exact Change.bind_eq_of_eq hlate _

/-- **The model is asked about states that are marked as expanded**, and only if there is a
tableau. -/
theorem addNext_eq_of_agree {b : Builder}
    (hagree : p.tableau ≠ none → ∀ g, b.store.isDone g = true ∨ g = fp → m₁.AgreeAt m₂ g) (revisits : Bool) :
    addNext p m₁ fp successors checks revisits b = addNext p m₂ fp successors checks revisits b := by
  rw [addNext, addNext]
  cases ht : p.tableau with
  | none => rfl
  | some t => exact addProduct_eq_of_agree ht (hagree (by simp [ht])) revisits

end Builder

/-! ### Monitors -/

/-- The monitor has marked only some states as expanded, and the models agree on them if it has a
tableau. -/
structure Monitor.Agrees (m₁ m₂ : Model σ) (marked : Fingerprint → Prop) (w : Monitor σ) : Prop where
  done : ∀ fp, w.store.isDone fp = true → marked fp
  agree : w.property.tableau ≠ none → ∀ fp, marked fp → m₁.AgreeAt m₂ fp

namespace Monitor

variable {m₁ m₂ : Model σ} {marked : Fingerprint → Prop} {w w' : Monitor σ} {s : σ} {fp : Fingerprint}
  {successors : List σ} {revisits : Bool}

theorem Agrees.congr (h : w.Agrees m₁ m₂ marked) (hp : w'.property = w.property) (hstore : w'.store = w.store) :
    w'.Agrees m₁ m₂ marked := by
  constructor
  · rw [hstore]
    exact h.done
  · rw [hp]
    exact h.agree

theorem Agrees.addInitial (h : w.Agrees m₁ m₂ marked) (s : σ) (fp : Fingerprint) :
    (w.addInitial s fp).Agrees m₁ m₂ marked := by
  refine ⟨fun g hg => h.done g ?_, h.agree⟩
  rwa [store_addInitial, Store.isDone_addRoots] at hg

/-- The steps of a state are added in the same way. -/
theorem Agrees.addNext_eq (h : w.Agrees m₁ m₂ marked) (hfp : marked fp) :
    addNext m₁ s fp successors revisits w = addNext m₂ s fp successors revisits w := by
  rw [addNext_apply, addNext_apply]
  cases w.property.evaluate s successors with
  | error d => rfl
  | ok checks =>
    have hbuild : Builder.addNext w.property m₁ fp successors checks revisits w.builder =
        Builder.addNext w.property m₂ fp successors checks revisits w.builder := by
      apply Builder.addNext_eq_of_agree
      intro ht g hg
      exact h.agree ht g (hg.elim (h.done g) fun hg => hg ▸ hfp)
    exact congrArg (fun r => (r.1, { w with builder := r.2 })) hbuild

theorem Agrees.addNext (h : w.Agrees m₁ m₂ marked) (hfp : marked fp) {r : Option Lasso}
    (hw' : addNext m₁ s fp successors revisits w = (.ok r, w')) : w'.Agrees m₁ m₂ marked := by
  rw [addNext_apply] at hw'
  split at hw'
  · obtain ⟨hp, hevolves⟩ := addChecked_evolves hw' fun f hf => by cases hf
    refine ⟨fun g hg => ?_, by rw [hp]; exact h.agree⟩
    exact (hevolves.isDone hg).elim (h.done g) fun hg => hg ▸ hfp
  · cases (Prod.mk.inj hw').1

end Monitor

/-! ### Checkers -/

namespace Checker

section

variable {σ : Type} {c : Checker σ}

/-- The checker was just created, or reset. -/
inductive Fresh : Checker σ → Prop
  | create {ps : List (Property σ)} {config : Config} {taken : List String} {c : Checker σ} :
      Checker.create ps config taken = .ok c → Fresh c
  | reset (c : Checker σ) : Fresh c.reset

/-- The graphs are empty. -/
theorem Fresh.empty (h : c.Fresh) : ∀ w ∈ c.monitors,
    w.store.log = {} ∧ w.store.table = ∅ ∧ w.store.roots = [] ∧ w.store.size = 0 := by
  intro w hw
  cases h with
  | create hc =>
    obtain ⟨x, -, hx⟩ := exists_of_forall₂_right (forall₂_of_create hc) hw
    exact (Monitor.create_eq_ok hx).2
  | reset c =>
    obtain ⟨w, -, rfl⟩ := List.mem_map.mp hw
    exact ⟨Log.truncate_zero _, rfl, rfl, rfl⟩

theorem Fresh.isDone_eq_false (h : c.Fresh) : ∀ w ∈ c.monitors, ∀ fp, w.store.isDone fp = false := by
  intro w hw fp
  simp [Store.isDone, Table.row, (h.empty w hw).2.1]

theorem addSteps_congr {f g : Change (Monitor σ) (Option Lasso)} {ws : List (Monitor σ)} (h : ∀ w ∈ ws, f w = g w) :
    addSteps f ws = addSteps g ws := by
  induction ws with
  | nil => rfl
  | cons w ws ih =>
    rw [addSteps, addSteps, h w (by simp), ih fun w' hw' => h w' (by simp [hw'])]

theorem fst_mem_of_mem_traceSteps {trace : List σ} {x : σ × List σ} (h : x ∈ traceSteps trace) : x.1 ∈ trace := by
  fun_induction traceSteps trace with
  | case1 => cases h
  | case2 s => simpa using congrArg Prod.fst (List.mem_singleton.mp h)
  | case3 s t rest ih =>
    rcases List.mem_cons.mp h with rfl | h
    · exact List.mem_cons_self
    · exact List.mem_cons_of_mem _ (ih h)

end

/-- The models agree on all states that a monitor with a tableau has marked as expanded. -/
def Agrees (m₁ m₂ : Model σ) (marked : Fingerprint → Prop) (c : Checker σ) : Prop :=
  ∀ w ∈ c.monitors, w.Agrees m₁ m₂ marked

variable {m₁ m₂ : Model σ} {marked : Fingerprint → Prop} {c : Checker σ} {s : σ} {fp : Fingerprint}
  {successors : List σ} {revisits : Bool} {trace : List σ}

theorem Agrees.addInitial (h : c.Agrees m₁ m₂ marked) (s : σ) (fp : Fingerprint) :
    (c.addInitial s fp).Agrees m₁ m₂ marked := by
  intro w' hw'
  obtain ⟨w, hw, rfl⟩ := List.mem_map.mp hw'
  exact (h w hw).addInitial s fp

theorem Agrees.addNextWith_eq (resolve : Resolver σ) (h : c.Agrees m₁ m₂ marked) (hfp : marked fp) :
    addNextWith m₁ resolve s fp successors revisits c = addNextWith m₂ resolve s fp successors revisits c := by
  have hsteps : addSteps (Monitor.addNext m₁ s fp successors revisits) c.monitors =
      addSteps (Monitor.addNext m₂ s fp successors revisits) c.monitors :=
    addSteps_congr fun w hw => (h w hw).addNext_eq hfp
  rw [Checker.addNextWith, Checker.addNextWith, Change.get_bind_apply, Change.get_bind_apply, hsteps]

/-- No other state is marked as expanded than the one that is handed over. -/
theorem Agrees.addNextWith (resolve : Resolver σ) (h : c.Agrees m₁ m₂ marked) (hfp : marked fp) :
    (addNextWith m₁ resolve s fp successors revisits).Meets c (fun _ c' => c'.Agrees m₁ m₂ marked) fun _ _ => True := by
  refine (addNextWith_spec resolve).mono ?_ fun _ _ _ => trivial
  rintro _ c' ⟨ws, hws, -, hmonitors⟩ w' hw'
  rw [hmonitors] at hw'
  obtain ⟨w'', hw'', hp, hstore⟩ := exists_of_mem_gather hw'
  obtain ⟨w, hw, hadd⟩ := exists_of_forall₂_right (forall₂_of_addSteps hws) hw''
  exact ((h w hw).addNext hfp hadd).congr hp hstore

/-- A state of the behaviour is handed over with those that may follow it. -/
def handOver (m : Model σ) (trace : List σ) (x : σ × List σ) : Change (Checker σ) Unit :=
  Checker.addNextWith m (Counterexample.lookUp trace) x.1 (fingerprint x.1) x.2 true

theorem checkTraceHere_eq_of_agree (first : σ) (h : c.Agrees m₁ m₂ fun fp => fp ∈ trace.map fingerprint) :
    checkTraceHere m₁ first trace c = checkTraceHere m₂ first trace c := by
  have hstart := h.addInitial first (fingerprint first)
  have hhand : ∀ x ∈ traceSteps trace, ∀ c : Checker σ, (c.Agrees m₁ m₂ fun fp => fp ∈ trace.map fingerprint) →
      handOver m₁ trace x c = handOver m₂ trace x c ∧ (handOver m₁ trace x).Meets c
        (fun _ c' => c'.Agrees m₁ m₂ fun fp => fp ∈ trace.map fingerprint) fun _ _ => True := by
    intro x hx c hc
    have hfp : fingerprint x.1 ∈ trace.map fingerprint := List.mem_map_of_mem (fst_mem_of_mem_traceSteps hx)
    exact ⟨hc.addNextWith_eq _ hfp, hc.addNextWith _ hfp⟩
  have hloop := Change.forM_eq hhand _ hstart
  unfold checkTraceHere
  rw [Change.bind_apply, Change.bind_apply]
  exact Change.bind_eq_of_eq hloop _

/-- **The check of a behaviour depends on the model only at the states of the behaviour**, and
not at all without a tableau: two models that give states with fingerprints of the behaviour the
same successors give the same result, and leave the same checker. -/
theorem checkTrace_eq_of_agree (hfresh : c.Fresh)
    (hagree : (∃ w ∈ c.monitors, w.property.tableau ≠ none) → ∀ s, fingerprint s ∈ trace.map fingerprint →
      m₁.successors s = m₂.successors s) :
    checkTrace m₁ trace c = checkTrace m₂ trace c := by
  have hagrees : c.Agrees m₁ m₂ fun fp => fp ∈ trace.map fingerprint := by
    intro w hw
    constructor
    · intro fp hfp
      rw [hfresh.isDone_eq_false w hw fp] at hfp
      cases hfp
    · intro ht fp hfp s hs
      exact hagree ⟨w, hw, ht⟩ s (hs ▸ hfp)
  cases trace with
  | nil => rfl
  | cons first rest => simp only [checkTrace, checkTraceHere_eq_of_agree first hagrees]

end Checker

/-- A tableau for the behaviours that go round from zero to one, stay there once and go back. -/
def Counter.roundTableau : Tableau Counter :=
  (Tableau.ofNodes [⟨0, [1], false, fun c => c.value == 0⟩, ⟨1, [2], true, fun c => c.value == 1⟩,
    ⟨2, [0], false, fun c => c.value == 1⟩] 1).toOption.get (by decide)

/-- The property that the counter does not go round like that for ever. -/
def Counter.rounds : Property Counter := { name := "rounds", tableau := some Counter.roundTableau }

/-- The counter without any steps. -/
def Counter.still : Model Counter := { initial := [⟨0⟩], next := fun _ => [] }

/-- The counter that stops at two. -/
def Counter.stopping : Model Counter where
  initial := [⟨0⟩]
  next := fun c => if c.value = 2 then [] else Counter.model.next c

namespace Checker

/-- A new checker of the property. -/
def ofRounds : Checker Counter :=
  { monitors := [⟨Counter.rounds, { store := { folder := "", index := 0 } }⟩], config := { folder := "" } }

theorem fresh_ofRounds : ofRounds.Fresh :=
  .create (show Checker.create [Counter.rounds] { folder := "" } [] = .ok ofRounds from rfl)

theorem checkTrace_eq_of_agree_rounds :
    ofRounds.Fresh ∧ (∀ c : Counter, fingerprint c ∈ [0, 1] → Counter.model.successors c = Counter.stopping.successors c) ∧
      Counter.model.successors ⟨2⟩ ≠ Counter.stopping.successors ⟨2⟩ ∧
      checkTrace Counter.model [⟨0⟩, ⟨1⟩] ofRounds = checkTrace Counter.stopping [⟨0⟩, ⟨1⟩] ofRounds := by
  have hagree : ∀ c : Counter, fingerprint c ∈ [0, 1] →
      Counter.model.successors c = Counter.stopping.successors c := by
    intro c hc
    obtain ⟨value⟩ := c
    have hvalue : value = 0 ∨ value = 1 := List.mem_pair.mp hc
    rcases hvalue with rfl | rfl <;> rfl
  exact ⟨fresh_ofRounds, hagree, by decide, checkTrace_eq_of_agree fresh_ofRounds fun _ => hagree⟩

/-- **The check of a behaviour is not one of the behaviour alone.** The behaviour stays at one,
which no round does. With the second state the monitor has expanded one, and its node at the
last point turns up late. A model with a step back to zero then closes the round, and a behaviour
is reported that was not handed over. -/
theorem checkTrace_depends_on_model :
    ofRounds.Fresh ∧ (checkTrace Counter.still [⟨0⟩, ⟨1⟩] ofRounds).1 = .ok () ∧
      (checkTrace Counter.model [⟨0⟩, ⟨1⟩] ofRounds).1 = .error (.error (.traceViolated ⟨"rounds", [0, 1], .backTo 0,
        "Temporal property 'rounds' is violated by the behavior:\nState 1:\n0\n\nState 2:\n1\n\nBack to state 1"⟩)) := by
  refine ⟨fresh_ofRounds, ?_⟩
  decide +kernel

end Checker

end Liveness

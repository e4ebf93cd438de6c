import Mathlib.Data.List.Forall2
import Liveness.Checker
import Liveness.Proofs.Outcome
import Liveness.Proofs.Round
import Liveness.Proofs.Store.Log

/-!
# Calls of the checker

The checker hands every state to the monitors of all properties in turn, up to the first
fault or violation, and a check searches all graphs. What such a call does to the monitors
and what it gives is said here once, for all that is proved of runs of the checker.
-/

namespace Liveness

variable {σ : Type}

theorem forall₂_trans {α β γ : Type} {R : α → β → Prop} {S : β → γ → Prop} {T : α → γ → Prop} {xs : List α}
    {ys : List β} (h : List.Forall₂ R xs ys) : ∀ {zs : List γ}, List.Forall₂ S ys zs →
      (∀ x y z, R x y → S y z → T x z) → List.Forall₂ T xs zs := by
  induction h with
  | nil =>
    intro zs hzs _
    cases hzs
    exact .nil
  | cons hxy _ ih =>
    intro zs hzs hT
    cases hzs with
    | cons hyz hzs => exact .cons (hT _ _ _ hxy hyz) (ih hzs hT)

theorem exists_getElem?_of_forall₂ {α β : Type} {R : α → β → Prop} {xs : List α} {ys : List β}
    (h : List.Forall₂ R xs ys) : ∀ {i : Nat} {y : β}, ys[i]? = some y → ∃ x, xs[i]? = some x ∧ R x y := by
  induction h with
  | nil => exact fun hy => by simp at hy
  | @cons x y xs ys hxy _ ih =>
    intro i z hz
    cases i with
    | zero =>
      obtain rfl := Option.some.inj hz
      exact ⟨x, rfl, hxy⟩
    | succ i => exact ih hz

/-- A loop that collected its results has one for each element. -/
theorem forall₂_of_mapM {ι β : Type} {f : ι → Outcome β} {xs : List ι} :
    ∀ {ys : List β}, xs.mapM f = .ok ys → List.Forall₂ (fun x y => f x = .ok y) xs ys := by
  induction xs with
  | nil =>
    intro ys h
    obtain rfl := Except.ok.inj h
    exact .nil
  | cons x xs ih =>
    intro ys h
    rw [List.mapM_cons] at h
    cases hx : f x with
    | error e => rw [hx] at h; cases h
    | ok y =>
      rw [hx] at h
      cases hxs : xs.mapM f with
      | error e => rw [hxs] at h; cases h
      | ok zs =>
        rw [hxs] at h
        obtain rfl := Except.ok.inj h
        exact .cons hx (ih hxs)

/-- The records that were written fit the logs of all graphs. -/
def Checker.Fits (c : Checker σ) : Prop := ∀ w ∈ c.monitors, w.store.log.Fits

/-! ### What one call does -/

namespace Checker

/-- A violation was found in the graph of a monitor. -/
theorem exists_monitor_of_verdict {c : Checker σ} {i : Nat} {lasso : Lasso} (h : c.verdict i = .violation lasso) :
    ∃ w ∈ c.monitors, w.store.findViolation w.property = .ok (some lasso) := by
  unfold verdict at h
  split at h
  · rename_i w hw
    refine ⟨w, List.mem_of_getElem? hw, ?_⟩
    unfold Store.verdict at h
    split at h
    · cases h
    · obtain rfl := Verdict.violation.inj h
      assumption
    · cases h
    · cases h
  · cases h

/-- **What a check does**: it searches all graphs, and reports the first violation. -/
theorem checkWith_spec {c : Checker σ} (resolve : Resolver σ) :
    (checkWith resolve).Meets c
      (fun r c' => c'.config = c.config ∧
        ((r = .noError ∧ c.round.violations = [] ∧ c.round.failures = [] ∧
            c'.monitors = c.monitors.map fun w => w.mapStore Store.markChecked) ∨
          ∃ i lasso counterexample, r = .violated counterexample ∧ (i, lasso) ∈ c.round.violations ∧
            Counterexample.ofLasso resolve (c.nameOf i) lasso = .ok counterexample ∧ c'.monitors = c.monitors))
      (fun f c' => c' = c ∧ ((∃ d, f = .defect d) ∨ (∃ name message, f = .error (.searchFailed name message)) ∨
        ∃ i lasso, (i, lasso) ∈ c.round.violations ∧
          Counterexample.ofLasso resolve (c.nameOf i) lasso = .error f)) := by
  refine Change.Meets.bind (Q := fun a c' => a = c ∧ c' = c) ⟨rfl, rfl⟩ ?_
  rintro c c' ⟨rfl, rfl⟩
  refine Change.Meets.bind (Q := fun _ c => c = c') ?_ ?_
  · cases c'.totalSize with
    | ok n => rfl
    | error d => exact ⟨rfl, .inl ⟨d, rfl⟩⟩
  rintro _ c rfl
  rcases c.round with ⟨_ | ⟨⟨i, lasso⟩, rest⟩, failures⟩
  · rcases failures with _ | ⟨⟨i, message⟩, rest⟩
    · exact ⟨rfl, .inl ⟨rfl, rfl, rfl, rfl⟩⟩
    · exact ⟨rfl, .inr (.inl ⟨_, _, rfl⟩)⟩
  · refine Change.Meets.bind
      (Q := fun x c' => Counterexample.ofLasso resolve (c.nameOf i) lasso = .ok x ∧ c' = c)
      (Change.Meets.lift (fun x hx => ⟨hx, rfl⟩) fun f hf => ⟨rfl, .inr (.inr ⟨i, lasso, by simp, hf⟩)⟩) ?_
    rintro counterexample c' ⟨hlasso, rfl⟩
    exact ⟨rfl, .inr ⟨i, lasso, counterexample, rfl, by simp, hlasso, rfl⟩⟩

/-- All monitors were changed if there was no fault and no violation. -/
theorem forall₂_of_addSteps {f : Change (Monitor σ) (Option Lasso)} {ws : List (Monitor σ)} :
    ∀ {ws' : List (Monitor σ)}, addSteps f ws = (.ok none, ws') →
      List.Forall₂ (fun w w' => f w = (.ok none, w')) ws ws' := by
  induction ws with
  | nil =>
    intro ws' h
    obtain rfl := (Prod.mk.inj h).2
    exact .nil
  | cons w ws ih =>
    intro ws' h
    rw [addSteps] at h
    rcases hw : f w with ⟨e | _ | lasso, w'⟩
    · rw [hw] at h
      cases (Prod.mk.inj h).1
    · rw [hw] at h
      obtain ⟨hrest, rfl⟩ := Prod.mk.inj h
      exact .cons hw (ih (Prod.ext hrest rfl))
    · rw [hw] at h
      cases (Prod.mk.inj h).1

/-- Each monitor afterwards is one as it was or one that was changed. -/
theorem exists_of_mem_addSteps {f : Change (Monitor σ) (Option Lasso)} {ws : List (Monitor σ)} {w' : Monitor σ}
    (h : w' ∈ (addSteps f ws).2) : ∃ w ∈ ws, w' = w ∨ w' = (f w).2 := by
  induction ws with
  | nil => cases h
  | cons w ws ih =>
    rw [addSteps] at h
    have hrest : w' ∈ (f w).2 :: ws → ∃ v ∈ w :: ws, w' = v ∨ w' = (f v).2 := by
      intro hmem
      rcases List.mem_cons.mp hmem with rfl | hmem
      · exact ⟨w, by simp, .inr rfl⟩
      · exact ⟨w', by simp [hmem], .inl rfl⟩
    rcases hw : f w with ⟨e | _ | lasso, v⟩
    · rw [hw] at h hrest
      exact hrest h
    · rw [hw] at h
      rcases List.mem_cons.mp h with rfl | hmem
      · exact ⟨w, by simp, .inr (by rw [hw])⟩
      · obtain ⟨u, hu, hor⟩ := ih hmem
        exact ⟨u, by simp [hu], hor⟩
    · rw [hw] at h hrest
      exact hrest h

/-- A fault or a violation comes from one of the monitors. -/
theorem exists_of_addSteps (f : Change (Monitor σ) (Option Lasso)) (ws : List (Monitor σ)) :
    (∀ e, (addSteps f ws).1 = .error e → ∃ w ∈ ws, ∃ w' ∈ (addSteps f ws).2, f w = (.error e, w')) ∧
      ∀ name lasso, (addSteps f ws).1 = .ok (some (name, lasso)) →
        ∃ w ∈ ws, ∃ w' ∈ (addSteps f ws).2, f w = (.ok (some lasso), w') := by
  induction ws with
  | nil => exact ⟨fun e he => (by cases he), fun name lasso h => by cases h⟩
  | cons w ws ih =>
    rw [addSteps]
    rcases hw : f w with ⟨e | _ | lasso, v⟩
    · refine ⟨fun e' he => ?_, fun name lasso h => by cases h⟩
      obtain rfl := Except.error.inj he
      exact ⟨w, by simp, v, by simp, hw⟩
    · refine ⟨fun e he => ?_, fun name lasso h => ?_⟩
      · obtain ⟨u, hu, u', hu', hfu⟩ := ih.1 e he
        exact ⟨u, by simp [hu], u', List.mem_cons_of_mem _ hu', hfu⟩
      · obtain ⟨u, hu, u', hu', hfu⟩ := ih.2 name lasso h
        exact ⟨u, by simp [hu], u', List.mem_cons_of_mem _ hu', hfu⟩
    · refine ⟨fun e he => (by cases he), fun name lasso' h => ?_⟩
      obtain ⟨-, rfl⟩ := Prod.mk.inj (Option.some.inj (Except.ok.inj h))
      exact ⟨w, by simp, v, by simp, hw⟩

/-- The monitors are those that were handed over, without their warnings. -/
theorem exists_of_mem_gather {c : Checker σ} {w' : Monitor σ} (h : w' ∈ (gather c).monitors) :
    ∃ w ∈ c.monitors, w'.property = w.property ∧ w'.store = w.store := by
  obtain ⟨w, hw, rfl⟩ := List.mem_map.mp h
  exact ⟨w, hw, rfl, rfl⟩

/-- The logs of the monitors that were handed over are those that fit. -/
theorem Fits.of_gather {c : Checker σ} (h : (gather c).Fits) : c.Fits := by
  simp only [Fits, gather, List.forall_mem_map] at h
  exact h

/-- A new checker has a new monitor of each property. -/
theorem forall₂_of_create {ps : List (Property σ)} {config : Config} {taken : List String} {c : Checker σ}
    (h : Checker.create ps config taken = .ok c) :
    List.Forall₂ (fun x w => Monitor.create config taken x.1 x.2 = .ok w) ps.zipIdx c.monitors := by
  change (ps.zipIdx.mapM (fun x => Monitor.create config taken x.1 x.2) >>= _) = _ at h
  cases hws : ps.zipIdx.mapM fun x => Monitor.create config taken x.1 x.2 with
  | error f => rw [hws] at h; cases h
  | ok ws =>
    rw [hws] at h
    obtain rfl := Except.ok.inj h
    exact forall₂_of_mapM hws

variable [ModelState σ] {c c' : Checker σ} {m : Model σ} {s : σ} {fp : Fingerprint} {successors : List σ}
  {revisits : Bool}

/-- How adding the steps of a state can end with a fault, after the monitors came to `found`. -/
def AddFault (resolve : Resolver σ) (found : Outcome (Option (String × Lasso))) (f : Fault) : Prop :=
  found = .error f ∨ ∃ name lasso, found = .ok (some (name, lasso)) ∧
    (Counterexample.ofLasso resolve name lasso = .error f ∨
      ∃ counterexample, Counterexample.ofLasso resolve name lasso = .ok counterexample ∧
        ((∃ d, f = .defect d) ∨ ∃ v, counterexample.violation = .ok v ∧ f = .error (.violated v)))

/-- **What adding the steps of a state does**: the monitors are changed, and a violation is
thrown. -/
theorem addNextWith_spec (resolve : Resolver σ) :
    (addNextWith m resolve s fp successors revisits).Meets c
      (fun _ c' => ∃ ws, addSteps (Monitor.addNext m s fp successors revisits) c.monitors = (.ok none, ws) ∧
        c'.config = c.config ∧ c'.monitors = (gather { c with monitors := ws }).monitors)
      (fun f c' => ∃ found ws, addSteps (Monitor.addNext m s fp successors revisits) c.monitors = (found, ws) ∧
        c'.config = c.config ∧ c'.monitors = (gather { c with monitors := ws }).monitors ∧
        AddFault resolve found f) := by
  rcases hsteps : addSteps (Monitor.addNext m s fp successors revisits) c.monitors with ⟨found, ws⟩
  refine Change.Meets.bind (Q := fun a c' => a = c ∧ c' = c) ⟨rfl, rfl⟩ ?_
  rintro c c' ⟨rfl, rfl⟩
  rw [hsteps]
  refine Change.Meets.bind (Q := fun _ c => c = gather { c' with monitors := ws }) rfl ?_
  rintro _ c rfl
  rcases found with f | _ | ⟨name, lasso⟩
  · exact ⟨_, ws, rfl, rfl, rfl, .inl rfl⟩
  · exact ⟨ws, rfl, rfl, rfl⟩
  · have hfault : ∀ f, (Counterexample.ofLasso resolve name lasso = .error f ∨
        ∃ counterexample, Counterexample.ofLasso resolve name lasso = .ok counterexample ∧
          ((∃ d, f = .defect d) ∨ ∃ v, counterexample.violation = .ok v ∧ f = .error (.violated v))) →
        AddFault resolve (.ok (some (name, lasso))) f := fun f hf => .inr ⟨name, lasso, rfl, hf⟩
    refine Change.Meets.bind (Q := fun a c => a = some (name, lasso) ∧ c = gather { c' with monitors := ws })
      ⟨rfl, rfl⟩ ?_
    rintro _ c ⟨rfl, rfl⟩
    refine Change.Meets.bind
      (Q := fun x c => Counterexample.ofLasso resolve name lasso = .ok x ∧ c = gather { c' with monitors := ws })
      (Change.Meets.lift (fun x hx => ⟨hx, rfl⟩) fun f hf => ⟨_, ws, rfl, rfl, rfl, hfault f (.inl hf)⟩) ?_
    rintro counterexample c ⟨hlasso, rfl⟩
    refine Change.Meets.bind
      (Q := fun _ c => c.config = c'.config ∧ c.monitors = (gather { c' with monitors := ws }).monitors) ⟨rfl, rfl⟩ ?_
    rintro _ c ⟨hconfig, hmonitors⟩
    cases hviolation : counterexample.violation with
    | error d => exact ⟨_, ws, rfl, hconfig, hmonitors, hfault _ (.inr ⟨_, hlasso, .inl ⟨d, rfl⟩⟩)⟩
    | ok v => exact ⟨_, ws, rfl, hconfig, hmonitors, hfault _ (.inr ⟨_, hlasso, .inr ⟨v, hviolation, rfl⟩⟩)⟩

theorem addNext_apply (m : Model σ) (s : σ) (fp : Fingerprint) (successors : List σ) (c : Checker σ) :
    addNext m s fp successors c =
      addNextWith m (Counterexample.replay m) s fp successors c.config.simulation c := by
  rw [addNext, Change.bind_apply]
  rfl

theorem finalCheck_apply (m : Model σ) (c : Checker σ) :
    finalCheck m c = if c.config.mode = .off then (.ok .notApplicable, c)
      else checkWith (Counterexample.replay m) c := by
  rw [finalCheck, Change.bind_apply]
  change (if c.config.mode = .off then _ else _ : Change (Checker σ) (CheckResult σ)) c = _
  split_ifs <;> rfl

theorem check_apply (m : Model σ) (force : Bool) (c : Checker σ) :
    check m force c = if force || (c.config.mode == .periodic && c.isDue) then checkWith (Counterexample.replay m) c
      else (.ok .noError, c) := by
  rw [check, Change.bind_apply]
  change (if force || (c.config.mode == .periodic && c.isDue) then _ else _ : Change (Checker σ) (CheckResult σ)) c = _
  split_ifs <;> rfl

end Checker

end Liveness

import Liveness.Proofs.Checker.Calls
import Liveness.Proofs.Cycle.Search

/-!
# The workers do not show

The workers of a round race for the properties: each takes the next one when it gets its turn,
and puts what it found into the common list when its search ends. The turns come in any order.
When nothing is left to do the list has every property once, and the report, which is by property,
is that of the searches made one after the other (`Round.inOrder`), whoever made them and
however many there were.

A check goes by that report: it names the first property with a violation, whatever became of the
others; without one, the first whose search failed; and only if all graphs are clean do they
count as checked, and then all of them.
-/

namespace Liveness

/-! ### The report of a round -/

namespace Round

variable {verdict : Nat → Verdict} {properties : Nat} {ended : List (Nat × Verdict)}

/-- The report of the searches made one after the other. -/
def inOrder (verdict : Nat → Verdict) (properties : Nat) : Round where
  violations := (List.range properties).filterMap fun i => violation? (i, verdict i)
  failures := (List.range properties).filterMap fun i => failure? (i, verdict i)

theorem violation?_eq_some_iff {e : Nat × Verdict} {y : Nat × Lasso} :
    violation? e = some y ↔ e = (y.1, .violation y.2) := by
  obtain ⟨i, _ | lasso | message⟩ := e <;> simp [violation?, Prod.ext_iff]

theorem failure?_eq_some_iff {e : Nat × Verdict} {y : Nat × String} :
    failure? e = some y ↔ e = (y.1, .failure y.2) := by
  obtain ⟨i, _ | lasso | message⟩ := e <;> simp [failure?, Prod.ext_iff]

/-- What is picked from the searches in the order of the properties ascends. -/
theorem pairwise_filterMap_range {β : Type} {f : Nat → Option (Nat × β)} (hf : ∀ i y, f i = some y → y.1 = i)
    (properties : Nat) : ((List.range properties).filterMap f).Pairwise fun a b => a.1 < b.1 := by
  refine List.pairwise_filterMap.mpr (List.pairwise_lt_range.imp ?_)
  intro i j hij y hy z hz
  rw [hf i y hy, hf j z hz]
  exact hij

/-- **The order in which the searches end does not show**: what is picked from them and sorted is
what is picked in the order of the properties. -/
theorem sortBy_filterMap {β : Type} {f : Nat × Verdict → Option (Nat × β)} (hf : ∀ e y, f e = some y → y.1 = e.1)
    (h : ended.Perm ((List.range properties).map fun i => (i, verdict i))) :
    sortBy (fun a b => a.1 ≤ b.1) (ended.filterMap f) =
      (List.range properties).filterMap fun i => f (i, verdict i) := by
  have hperm : (sortBy (fun a b => a.1 ≤ b.1) (ended.filterMap f)).Perm
      ((List.range properties).filterMap fun i => f (i, verdict i)) := by
    refine (sortBy_perm _ _).trans ?_
    have := h.filterMap f
    rwa [List.filterMap_map] at this
  have hascends := pairwise_filterMap_range (f := fun i => f (i, verdict i)) (fun i y hy => hf _ y hy) properties
  have hsorted : (sortBy (fun a b => a.1 ≤ b.1) (ended.filterMap f)).Pairwise fun a b => a.1 ≤ b.1 := by
    refine (pairwise_sortBy ?_ ?_ (ended.filterMap f)).imp fun h => of_decide_eq_true h
    · intro a b c hab hbc
      simp only [decide_eq_true_eq] at *
      omega
    · intro a b
      simp only [decide_eq_true_eq]
      omega
  refine hperm.eq_of_pairwise ?_ hsorted (hascends.imp fun h => Nat.le_of_lt h)
  -- Of one property there is only one entry.
  intro a b ha hb hab hba
  obtain ⟨i, -, hi⟩ := List.mem_filterMap.mp (hperm.mem_iff.mp ha)
  obtain ⟨j, -, hj⟩ := List.mem_filterMap.mp hb
  have hai : a.1 = i := hf _ _ hi
  have hbj : b.1 = j := hf _ _ hj
  obtain rfl : i = j := by omega
  exact Option.some.inj (hi.symm.trans hj)

theorem ofEnded_eq_inOrder (h : ended.Perm ((List.range properties).map fun i => (i, verdict i))) :
    ofEnded ended = inOrder verdict properties := by
  rw [ofEnded, inOrder, sortBy_filterMap (fun e y hy => by rw [violation?_eq_some_iff.mp hy]) h,
    sortBy_filterMap (fun e y hy => by rw [failure?_eq_some_iff.mp hy]) h]

theorem inOrder_congr {verdict' : Nat → Verdict} (h : ∀ i < properties, verdict i = verdict' i) :
    inOrder verdict properties = inOrder verdict' properties := by
  have hpick : ∀ {β : Type} (f : Nat × Verdict → Option β), (List.range properties).filterMap (fun i => f (i, verdict i)) =
      (List.range properties).filterMap fun i => f (i, verdict' i) :=
    fun f => List.filterMap_congr fun i hi => by rw [h i (List.mem_range.mp hi)]
  rw [inOrder, inOrder, hpick, hpick]

theorem run_eq_inOrder (verdict : Nat → Verdict) (properties workers : Nat) :
    run verdict properties workers = inOrder verdict properties := by
  obtain ⟨ended, heq, hperm⟩ := exists_ended verdict properties workers
  rw [heq]
  exact ofEnded_eq_inOrder hperm

/-- The first that is picked in the order of the properties is that of the least of them. -/
theorem first_of_filterMap_range {β : Type} {f : Nat → Option (Nat × β)} (hf : ∀ i y, f i = some y → y.1 = i)
    {y : Nat × β} {rest : List (Nat × β)} (h : (List.range properties).filterMap f = y :: rest) :
    y.1 < properties ∧ f y.1 = some y ∧ ∀ j < y.1, f j = none := by
  obtain ⟨before, i, after, hrange, hbefore, hi, -⟩ := List.filterMap_eq_cons_iff.mp h
  obtain rfl := hf i y hi
  have hmem : y.1 ∈ List.range properties := by simp [hrange]
  refine ⟨List.mem_range.mp hmem, hi, fun j hj => hbefore j ?_⟩
  have hjmem : j ∈ before ++ y.1 :: after := by
    rw [← hrange, List.mem_range]
    exact Nat.lt_trans hj (List.mem_range.mp hmem)
  have hascends : (before ++ y.1 :: after).Pairwise (· < ·) := hrange ▸ List.pairwise_lt_range
  rcases List.mem_append.mp hjmem with hj' | hj'
  · exact hj'
  · rcases List.mem_cons.mp hj' with rfl | hj'
    · omega
    · have := List.rel_of_pairwise_cons (List.pairwise_append.mp hascends).2.1 hj'
      omega

/-- The property is the first with a violation. -/
def FirstViolation (verdict : Nat → Verdict) (properties i : Nat) (lasso : Lasso) : Prop :=
  i < properties ∧ verdict i = .violation lasso ∧ ∀ j < i, ∀ l, verdict j ≠ .violation l

/-- No property has a violation, and this one is the first whose search failed. -/
def FirstFailure (verdict : Nat → Verdict) (properties i : Nat) (message : String) : Prop :=
  (∀ j < properties, ∀ l, verdict j ≠ .violation l) ∧
    i < properties ∧ verdict i = .failure message ∧ ∀ j < i, ∀ m, verdict j ≠ .failure m

theorem firstViolation_of_inOrder {i : Nat} {lasso : Lasso} {rest : List (Nat × Lasso)}
    (h : (inOrder verdict properties).violations = (i, lasso) :: rest) : FirstViolation verdict properties i lasso := by
  obtain ⟨hi, hviolation, hnone⟩ :=
    first_of_filterMap_range (fun j y hy => (Prod.mk.inj (violation?_eq_some_iff.mp hy)).1.symm) h
  refine ⟨hi, (Prod.mk.inj (violation?_eq_some_iff.mp hviolation)).2, fun j hj l hl => ?_⟩
  have := hnone j hj
  rw [hl] at this
  cases this

theorem no_violation_of_inOrder (h : (inOrder verdict properties).violations = []) :
    ∀ j < properties, ∀ l, verdict j ≠ .violation l := by
  intro j hj l hl
  have := List.filterMap_eq_nil_iff.mp h j (List.mem_range.mpr hj)
  rw [hl] at this
  cases this

theorem firstFailure_of_inOrder {i : Nat} {message : String} {rest : List (Nat × String)}
    (hnone : (inOrder verdict properties).violations = [])
    (h : (inOrder verdict properties).failures = (i, message) :: rest) :
    FirstFailure verdict properties i message := by
  obtain ⟨hi, hfailure, hearlier⟩ :=
    first_of_filterMap_range (fun j y hy => (Prod.mk.inj (failure?_eq_some_iff.mp hy)).1.symm) h
  refine ⟨no_violation_of_inOrder hnone, hi, (Prod.mk.inj (failure?_eq_some_iff.mp hfailure)).2, fun j hj m hm => ?_⟩
  have := hearlier j hj
  rw [hm] at this
  cases this

theorem clean_of_inOrder (hviolations : (inOrder verdict properties).violations = [])
    (hfailures : (inOrder verdict properties).failures = []) : ∀ j < properties, verdict j = .clean := by
  intro j hj
  have hviolation := no_violation_of_inOrder hviolations j hj
  have hfailure := List.filterMap_eq_nil_iff.mp hfailures j (List.mem_range.mpr hj)
  cases hv : verdict j with
  | clean => rfl
  | violation lasso => exact absurd hv (hviolation lasso)
  | failure message => rw [hv] at hfailure; cases hfailure

/-- The lists of the report ascend, and no property is in both. -/
structure Ordered (round : Round) : Prop where
  violations : round.violations.Pairwise fun a b => a.1 < b.1
  failures : round.failures.Pairwise fun a b => a.1 < b.1
  disjoint : ∀ a ∈ round.violations, ∀ b ∈ round.failures, a.1 ≠ b.1

theorem ordered_inOrder (verdict : Nat → Verdict) (properties : Nat) : (inOrder verdict properties).Ordered where
  violations := pairwise_filterMap_range (fun _ y hy => (Prod.mk.inj (violation?_eq_some_iff.mp hy)).1.symm) _
  failures := pairwise_filterMap_range (fun _ y hy => (Prod.mk.inj (failure?_eq_some_iff.mp hy)).1.symm) _
  disjoint := by
    intro a ha b hb hab
    obtain ⟨i, -, hi⟩ := List.mem_filterMap.mp ha
    obtain ⟨j, -, hj⟩ := List.mem_filterMap.mp hb
    obtain ⟨rfl, hviolation⟩ := Prod.mk.inj (violation?_eq_some_iff.mp hi)
    obtain ⟨rfl, hfailure⟩ := Prod.mk.inj (failure?_eq_some_iff.mp hj)
    rw [hab, hfailure] at hviolation
    cases hviolation

end Round

/-! ### What a check makes of the report -/

namespace Checker

variable {σ : Type} {c : Checker σ}

/-- What a check gives and leaves when the searches come to the verdicts: the report of the first
violation, the first failed search, or no error. Only in the last case do graphs count as checked,
and then all do. -/
inductive Concludes (resolve : Resolver σ) (verdict : Nat → Verdict) (c : Checker σ) :
    Except Fault (CheckResult σ) × Checker σ → Prop
  | violated {i : Nat} {lasso : Lasso} {counterexample : Counterexample σ} :
      Round.FirstViolation verdict c.monitors.length i lasso →
      Counterexample.ofLasso resolve (c.nameOf i) lasso = .ok counterexample →
      Concludes resolve verdict c (.ok (.violated counterexample), { c with signal := c.signal.claim.2 })
  | unresolved {i : Nat} {lasso : Lasso} {fault : Fault} :
      Round.FirstViolation verdict c.monitors.length i lasso →
      Counterexample.ofLasso resolve (c.nameOf i) lasso = .error fault → Concludes resolve verdict c (.error fault, c)
  | failed {i : Nat} {message : String} : Round.FirstFailure verdict c.monitors.length i message →
      Concludes resolve verdict c (.error (.error (.searchFailed (c.nameOf i) message)), c)
  | clean : (∀ i < c.monitors.length, verdict i = .clean) →
      Concludes resolve verdict c
        (.ok .noError, { c with monitors := c.monitors.map fun w => w.mapStore Store.markChecked })

theorem concludes_checkWith {verdict : Nat → Verdict} (hverdict : ∀ i < c.monitors.length, c.verdict i = verdict i)
    (resolve : Resolver σ) {total : Nat} (htotal : c.totalSize = .ok total) :
    Concludes resolve verdict c (checkWith resolve c) := by
  have hround : c.round = Round.inOrder verdict c.monitors.length :=
    (Round.run_eq_inOrder ..).trans (Round.inOrder_congr hverdict)
  unfold checkWith
  rw [Change.get_bind_apply, htotal, hround]
  rcases hlists : Round.inOrder verdict c.monitors.length with ⟨_ | ⟨⟨i, lasso⟩, rest⟩, failures⟩
  · have hviolations := congrArg Round.violations hlists
    rcases failures with _ | ⟨⟨i, message⟩, rest⟩
    · exact .clean (Round.clean_of_inOrder hviolations (congrArg Round.failures hlists))
    · exact .failed (Round.firstFailure_of_inOrder hviolations (congrArg Round.failures hlists))
  · have hfirst := Round.firstViolation_of_inOrder (congrArg Round.violations hlists)
    change Concludes resolve verdict c (((Counterexample.ofLasso resolve (c.nameOf i) lasso).lift >>=
      fun counterexample => report >>= fun _ => pure (.violated counterexample)) c)
    cases hlasso : Counterexample.ofLasso resolve (c.nameOf i) lasso with
    | ok counterexample => exact .violated hfirst hlasso
    | error fault => exact .unresolved hfirst hlasso

/-- **A check does not depend on its workers.** The verdicts of the searches may be any, and the
workers may take their turns in any order: when nothing is left to do, the report is that of one
worker, and of any number of them; its lists ascend and have each property at most once. A check
of graphs with these verdicts concludes by the first property. -/
theorem check_of_turns (verdict : Nat → Verdict) (properties : Nat) (turns : List Nat)
    (hdone : ((Pool.start properties).run verdict turns).Exhausted) :
    (∀ workers, Round.run verdict properties workers =
        Round.ofEnded ((Pool.start properties).run verdict turns).ended) ∧
      (Round.ofEnded ((Pool.start properties).run verdict turns).ended).Ordered ∧
      ∀ (c : Checker σ) (resolve : Resolver σ), c.monitors.length = properties →
        (∀ i < properties, c.verdict i = verdict i) →
        (∀ total, c.totalSize = .ok total → Concludes resolve verdict c (checkWith resolve c)) ∧
          ∀ d, c.totalSize = .error d → checkWith resolve c = (.error (.defect d), c) := by
  have hperm := ((Pool.shared_start verdict properties).run turns).perm_ended hdone
  rw [Round.ofEnded_eq_inOrder hperm]
  refine ⟨Round.run_eq_inOrder verdict properties, Round.ordered_inOrder verdict properties, ?_⟩
  rintro c resolve rfl hverdict
  refine ⟨fun total htotal => concludes_checkWith hverdict resolve htotal, fun d hd => ?_⟩
  unfold checkWith
  rw [Change.get_bind_apply, hd]
  rfl

/-- Three graphs: one whose records are gone, one with a violation, and an empty one. -/
def trio : Checker Unit where
  monitors := [⟨Store.pendulumProperty, { store := { Store.pendulum with log.file := .empty } }⟩,
    ⟨Store.pendulumProperty, { store := Store.pendulum }⟩, ⟨{ name := "none" }, { store := { folder := "", index := 2 } }⟩]
  config := { folder := "" }

/-- The second of two workers makes two searches while the first is at the first one, and the
violation that it finds counts, although that first search fails. -/
theorem check_of_turns_trio :
    (((Pool.start 3).run trio.verdict [0, 1, 1, 1, 1, 0]).ended.map Prod.fst = [1, 2, 0] ∧
      trio.round = Round.ofEnded ((Pool.start 3).run trio.verdict [0, 1, 1, 1, 1, 0]).ended) ∧
      (trio.round.violations.map Prod.fst = [1] ∧ trio.round.failures.map Prod.fst = [0]) ∧
      Concludes (fun _ => .ok []) trio.verdict trio (checkWith (fun _ => .ok []) trio) := by
  have hdone : ((Pool.start 3).run trio.verdict [0, 1, 1, 1, 1, 0]).Exhausted := ⟨by decide +kernel, by decide +kernel⟩
  obtain ⟨hround, -, hcheck⟩ := check_of_turns trio.verdict 3 [0, 1, 1, 1, 1, 0] hdone
  have hconcludes := (hcheck trio (fun _ => .ok []) rfl fun _ _ => rfl).1 4 (by decide +kernel)
  exact ⟨⟨by decide +kernel, hround _⟩, by decide +kernel, hconcludes⟩

end Checker

end Liveness

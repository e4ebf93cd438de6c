import Liveness.Property
import Liveness.Proofs.Bits

/-!
# The results of a property's checks

What a property asks of states, steps and cycles is said by its own checks and fairness conditions
(`HoldsAt`, `HoldsOn`, `IsFairness`). The results of the checks are kept in rows of bits: those of
the action checks on the steps to the successors stand in one row, those of each step at the place
of its successor.
-/

namespace Liveness

theorem pairwise_snd_zipIdx {α : Type} (xs : List α) : xs.zipIdx.Pairwise fun x y => x.2 < y.2 := by
  have h := List.pairwise_lt_range' (s := 0) (n := xs.length)
  rw [← List.zipIdx_map_snd 0 xs] at h
  exact List.pairwise_map.mp h

namespace Property

variable {σ : Type} {p : Property σ} {row row' : Bits}

/-! ### What the checks say -/

/-- The state check `i` holds at the state. -/
def HoldsAt (p : Property σ) (i : Nat) (s : σ) : Prop := ∃ check, p.stateChecks[i]? = some check ∧ check s = true

/-- The action check `i` holds on the step. -/
def HoldsOn (p : Property σ) (i : Nat) (s t : σ) : Prop := ∃ check, p.actionChecks[i]? = some check ∧ check s t = true

/-- A way in which a cycle can be a violation; if the property names none, any cycle is one. -/
def IsFairness (p : Property σ) (f : Fairness) : Prop := f ∈ p.fairness ∨ p.fairness = [] ∧ f = {}

instance {s : σ} {i : Nat} : Decidable (p.HoldsAt i s) :=
  decidable_of_iff (p.stateChecks[i]?.any (· s) = true) (by simp [HoldsAt, Option.any_eq_true])

instance {s t : σ} {i : Nat} : Decidable (p.HoldsOn i s t) :=
  decidable_of_iff (p.actionChecks[i]?.any (· s t) = true) (by simp [HoldsOn, Option.any_eq_true])

instance {f : Fairness} : Decidable (p.IsFairness f) := inferInstanceAs (Decidable (_ ∨ _))

theorem get_stateBits {s : σ} {i : Nat} : (p.stateBits s).get i = true ↔ p.HoldsAt i s := by
  rw [stateBits, Bits.get_ofList, List.getD_eq_getElem?_getD, List.getElem?_map, HoldsAt]
  cases p.stateChecks[i]? <;> simp

theorem get_actionBits {s t : σ} {i : Nat} : (p.actionBits s t).get i = true ↔ p.HoldsOn i s t := by
  rw [actionBits, Bits.get_ofList, List.getD_eq_getElem?_getD, List.getElem?_map, HoldsOn]
  cases p.actionChecks[i]? <;> simp

theorem mem_conditions {f : Fairness} : f ∈ p.conditions ↔ p.IsFairness f := by
  rw [conditions, IsFairness]
  cases p.fairness <;> simp

/-! ### Rows of checks -/

theorem len_actionBits (p : Property σ) (s t : σ) : (p.actionBits s t).len = p.width :=
  (Bits.len_ofList _).trans (List.length_map _)

theorem len_stateBits (p : Property σ) (s : σ) : (p.stateBits s).len = p.stateChecks.length :=
  (Bits.len_ofList _).trans (List.length_map _)

/-- One value that is written. -/
theorem put_spec (hrow : row.Sized) {offset i : Nat} {v : Bool}
    (h : (do
      let position ← addWords offset i
      (row.put position v).mapError Defect.ofMisuse) = .ok row') :
    row'.Sized ∧ ∀ j, row'.get j = if j = offset + i then v else row.get j := by
  simp only [addWords] at h
  by_cases hi : offset + i < wordLimit
  · rw [if_pos hi] at h
    cases hput : row.put (offset + i) v with
    | error e => simp [bind, Except.bind, hput, Except.mapError] at h
    | ok row'' =>
      simp only [bind, Except.bind, hput, Except.mapError] at h
      obtain rfl := Except.ok.inj h
      exact Bits.put_eq_ok hrow hput
  · rw [if_neg hi] at h
    cases h

/-- Truth values that are written from a position on stand there, and nothing else changes. -/
theorem write_spec (hrow : row.Sized) {offset : Nat} {vs : List Bool} (h : write row offset vs = .ok row') :
    row'.Sized ∧ (∀ i v, vs[i]? = some v → row'.get (offset + i) = v) ∧
      ∀ j, j < offset ∨ offset + vs.length ≤ j → row'.get j = row.get j := by
  have hpairwise : vs.zipIdx.Pairwise fun x y => ∀ j, j = offset + x.2 → ¬ j = offset + y.2 :=
    (pairwise_snd_zipIdx vs).imp fun {x y} hxy j hx hy => by omega
  have hloop := Bits.foldlM_writes _ (fun x _ => x.1) hpairwise (fun x _ b b' hb hb' => by
    obtain ⟨hsized, hget⟩ := put_spec hb hb'
    exact ⟨hsized, fun j hj => by rw [hget, if_pos hj], fun j hj => by rw [hget, if_neg hj]⟩) row row' hrow h
  obtain ⟨hsized, hown, hother⟩ := hloop
  refine ⟨hsized, fun i v hv => hown (v, i) (List.mem_zipIdx_iff_getElem?.mpr hv) _ rfl, fun j hj => ?_⟩
  refine hother j fun x hx hjx => ?_
  have := List.snd_lt_of_mem_zipIdx hx
  omega

/-- The checks on the steps to the successors, each at the place of its successor. -/
theorem writeSteps_spec (hrow : row.Sized) {s : σ} {successors : List σ}
    (h : p.writeSteps s successors row = .ok row') {i : Nat} {t : σ} (ht : successors[i]? = some t) {a : Nat}
    (ha : a < p.width) : row'.get (i * p.width + a) = (p.actionBits s t).get a := by
  have hpairwise : successors.zipIdx.Pairwise fun x y => ∀ j, (x.2 * p.width ≤ j ∧ j < x.2 * p.width + p.width) →
      ¬ (y.2 * p.width ≤ j ∧ j < y.2 * p.width + p.width) := by
    refine (pairwise_snd_zipIdx successors).imp fun {x y} hxy j hx hy => ?_
    have := Nat.mul_le_mul_right p.width (Nat.succ_le_of_lt hxy)
    rw [Nat.succ_mul] at this
    omega
  have hloop := Bits.foldlM_writes _ (fun x j => (p.actionBits s x.1).get (j - x.2 * p.width)) hpairwise
    (fun x _ b b' hb hb' => by
      obtain ⟨hsized, hown, hother⟩ := write_spec hb hb'
      rw [List.length_map] at hother
      refine ⟨hsized, fun j hj => ?_, fun j hj => hother j (by unfold width at hj ⊢; omega)⟩
      have hlt : j - x.2 * p.width < (p.actionChecks.map (· s x.1)).length := by
        rw [List.length_map, ← width]
        omega
      have := hown (j - x.2 * p.width) _ (List.getElem?_eq_getElem hlt)
      rw [Nat.add_sub_cancel' hj.1] at this
      rw [this, actionBits, Bits.get_ofList, List.getD_eq_getElem _ _ hlt]) row row' hrow h
  have := hloop.2.1 (t, i) (List.mem_zipIdx_iff_getElem?.mpr ht) (i * p.width + a)
    ⟨Nat.le_add_right _ _, Nat.add_lt_add_left ha _⟩
  rwa [Nat.add_sub_cancel_left] at this

/-- The action checks on a step, as a step has them. -/
theorem get_actions (p : Property σ) (s t : σ) (i : Nat) :
    (Bits.ofFn p.width fun i => (p.actionBits s t).get (0 + i)).get i = (p.actionBits s t).get i := by
  rw [Bits.get_ofFn, Nat.zero_add]
  by_cases hi : i < p.width
  · simp [hi]
  · rw [decide_eq_false hi, actionBits, Bits.get_ofList, List.getD_eq_default]
    · rfl
    · rw [List.length_map]
      exact Nat.le_of_not_lt hi

/-- The results of all checks. -/
theorem evaluate_spec {s : σ} {successors : List σ} {checks : StepChecks}
    (h : p.evaluate s successors = .ok checks) :
    checks.state = p.stateBits s ∧ checks.width = p.width ∧ ∀ i t, successors[i]? = some t →
      ∀ a < p.width, checks.actions.get (i * p.width + a) = (p.actionBits s t).get a := by
  unfold evaluate at h
  cases hrow : p.writeSteps s successors (.zeros (p.width * successors.length)) with
  | error d => rw [hrow] at h; cases h
  | ok row =>
    rw [hrow] at h
    obtain rfl := Except.ok.inj h
    exact ⟨rfl, rfl, fun i t ht a ha => writeSteps_spec (Bits.sized_zeros _) hrow ht ha⟩

end Property

end Liveness

import Liveness.Graph.Node
import Liveness.Proofs.Bits

/-!
# Adding steps to a node

The buffer of a node is *whole* if it holds steps and nothing else. Then to add a step is
to append it to the steps (`addStep_spec`): the words of the steps before it stay where
they are, and the words of the new step are read back as they were given.
-/

namespace Liveness

/-- The halves of a fingerprint give it back. -/
theorem Fingerprint.join_high_low (fp : Fingerprint) : join (high fp) (low fp) = fp := by
  have hlt := fp.toNat_lt
  rw [← UInt64.toNat_inj]
  simp only [join, high, low, UInt64.toNat_or, UInt64.toNat_shiftLeft, UInt32.toNat_toUInt64, UInt64.toNat_toUInt32,
    UInt64.toNat_shiftRight]
  have hhigh : fp.toNat >>> 32 < 2 ^ 32 := by
    rw [Nat.shiftRight_eq_div_pow]
    omega
  have hjoin : (fp.toNat >>> 32) <<< 32 ||| fp.toNat % 2 ^ 32 = fp.toNat := by
    rw [← Nat.shiftLeft_add_eq_or_of_lt (Nat.mod_lt _ (by decide)), Nat.shiftRight_eq_div_pow, Nat.shiftLeft_eq]
    omega
  have hmod : (fp.toNat >>> 32) <<< 32 % 2 ^ 64 = (fp.toNat >>> 32) <<< 32 := by
    rw [Nat.shiftLeft_eq]
    omega
  rw [show (32 : UInt64).toNat % 64 = 32 from rfl, Nat.mod_eq_of_lt hhigh, hmod, hjoin]

namespace Node

variable {n : Node} {target : Key} {width offset hint : Nat} {row : Bits}

theorem stepLen_pos (width : Nat) : 0 < stepLen width := by
  simp only [stepLen, headLen]
  omega

/-- The buffer holds whole steps. -/
def Whole (n : Node) : Prop := n.words.size = n.degree * stepLen n.width

instance : Decidable n.Whole := inferInstanceAs (Decidable (_ = _))

@[simp] theorem length_steps (n : Node) : n.steps.length = n.degree := by simp [steps]

theorem targets_eq (n : Node) : n.targets = n.steps.map Step.target := by
  simp [targets, steps, Function.comp_def]

theorem hasTarget_iff {k : Key} : n.hasTarget k = true ↔ k ∈ n.targets := List.contains_iff_mem

/-- The words of a step. -/
def stepWords (target : Key) (width : Nat) (row : Bits) (offset : Nat) : List UInt32 :=
  head target ++ actionRow width row offset (actionWords width)

@[simp] theorem length_stepWords (target : Key) (width : Nat) (row : Bits) (offset : Nat) :
    (stepWords target width row offset).length = stepLen width := by
  simp [stepWords, head, actionRow, stepLen, headLen]
  omega

/-- The step that words stand for. -/
def stepOf (width : Nat) (ws : List UInt32) : Step where
  target := ⟨.join (ws.getD 0 0) (ws.getD 1 0), ws.getD 2 0⟩
  actions := .ofFn width fun a => (ws.getD (headLen + a / 32) 0).toNat.testBit (a % 32)

/-- The words of a step stand for it. -/
theorem stepOf_stepWords (target : Key) (width : Nat) (row : Bits) (offset : Nat) :
    stepOf width (stepWords target width row offset) = ⟨target, .ofFn width fun i => row.get (offset + i)⟩ := by
  rw [stepOf]
  congr 1
  · simp [stepWords, head, Fingerprint.join_high_low]
  · refine Bits.ofFn_congr fun a ha => ?_
    have hword : a / 32 < actionWords width := by
      rw [actionWords]
      omega
    have hget : (stepWords target width row offset).getD (headLen + a / 32) 0 =
        packActions width row offset (a / 32) := by
      rw [List.getD_eq_getElem?_getD, stepWords, List.getElem?_append_right (by simp [head, headLen])]
      simp [head, headLen, actionRow, List.getElem?_range hword]
    have hpos : 32 * (a / 32) + a % 32 = a := Nat.div_add_mod a 32
    rw [hget, packActions, UInt32.toNat_ofNat', Nat.mod_eq_of_lt (pack_lt _ _), testBit_pack, hpos]
    simp [ha, Nat.mod_lt a (show 0 < 32 by decide)]

theorem size_words_append (n : Node) (ws : List UInt32) : (n.append ws).words.size = n.words.size + ws.length := by
  simp [append]

theorem degree_append (h : n.Whole) {ws : List UInt32} (hws : ws.length = stepLen n.width) :
    (n.append ws).degree = n.degree + 1 := by
  have hsize : (n.append ws).used = (n.degree + 1) * stepLen n.width := by
    rw [used, size_words_append, hws, h, Nat.add_mul, Nat.one_mul]
  rw [degree, hsize]
  exact Nat.mul_div_cancel _ (stepLen_pos _)

theorem word_append_of_lt (h : n.Whole) (ws : List UInt32) {i j : Nat} (hi : i < n.degree) (hj : j < stepLen n.width) :
    (n.append ws).word i j = n.word i j := by
  have hlt : i * stepLen n.width + j < n.words.size := by
    rw [h]
    calc i * stepLen n.width + j < i * stepLen n.width + stepLen n.width := by omega
      _ = (i + 1) * stepLen n.width := by rw [Nat.add_mul, Nat.one_mul]
      _ ≤ n.degree * stepLen n.width := Nat.mul_le_mul_right _ hi
  rw [word, word, Array.getD_eq_getD_getElem?, Array.getD_eq_getD_getElem?]
  simp only [append]
  rw [Array.getElem?_append_left hlt]

theorem word_append_degree (h : n.Whole) (ws : List UInt32) (j : Nat) :
    (n.append ws).word n.degree j = ws.getD j 0 := by
  rw [word, Array.getD_eq_getD_getElem?, List.getD_eq_getElem?_getD]
  simp only [append]
  rw [Array.getElem?_append_right (by rw [h]; omega), h, Nat.add_sub_cancel_left, List.getElem?_toArray]

theorem step_append_of_lt (h : n.Whole) (ws : List UInt32) {i : Nat} (hi : i < n.degree) :
    (⟨(n.append ws).target i, (n.append ws).actions i⟩ : Step) = ⟨n.target i, n.actions i⟩ := by
  have hword : ∀ j < stepLen n.width, (n.append ws).word i j = n.word i j :=
    fun j hj => word_append_of_lt h ws hi hj
  have htarget : (n.append ws).target i = n.target i := by
    have hlen : headLen ≤ stepLen n.width := Nat.le_add_right _ _
    simp only [headLen] at hlen
    rw [Node.target, Node.target, hword 0 (by omega), hword 1 (by omega), hword 2 (by omega)]
  have hactions : (n.append ws).actions i = n.actions i := by
    refine Bits.ofFn_congr fun a (ha : a < n.width) => ?_
    rw [hword (headLen + a / 32) (by simp only [stepLen, actionWords]; omega)]
  rw [htarget, hactions]

/-- To append the words of a step is to append the step. -/
theorem steps_append (h : n.Whole) {ws : List UInt32} (hws : ws.length = stepLen n.width) :
    (n.append ws).Whole ∧ (n.append ws).steps = n.steps ++ [stepOf n.width ws] := by
  refine ⟨?_, ?_⟩
  · rw [Whole, degree_append h hws, size_words_append, hws, h, Nat.add_mul, Nat.one_mul]
    rfl
  · have hlast : (⟨(n.append ws).target n.degree, (n.append ws).actions n.degree⟩ : Step) = stepOf n.width ws := by
      simp only [Node.target, actions, stepOf, word_append_degree h]
      rfl
    rw [steps, degree_append h hws, List.range_succ, List.map_append, List.map_singleton, hlast,
      List.map_congr_left fun i hi => step_append_of_lt h ws (List.mem_range.mp hi), steps]

/-- Words that are appended leave the steps before them as they are. -/
theorem steps_prefix_append (h : n.Whole) (ws : List UInt32) : n.steps <+: (n.append ws).steps := by
  have hdegree : n.degree ≤ (n.append ws).degree := by
    apply Nat.div_le_div_right
    rw [used, used, size_words_append]
    omega
  have hrange : List.range n.degree <+: List.range (n.append ws).degree := by
    rw [List.prefix_iff_eq_take, List.length_range, List.take_range, Nat.min_eq_left hdegree]
  have hsteps : n.steps = (List.range n.degree).map fun i => ⟨(n.append ws).target i, (n.append ws).actions i⟩ :=
    List.map_congr_left fun i hi => (step_append_of_lt h ws (List.mem_range.mp hi)).symm
  rw [hsteps]
  exact hrange.map _

theorem append_append (n : Node) (vs ws : List UInt32) : (n.append vs).append ws = n.append (vs ++ ws) := by
  simp [append]

/-- Room is made without a change of the steps. -/
theorem reserve_eq {m : Node} (h : n.reserve hint = .ok m) : ∃ c, m = { n with capacity := c } := by
  rw [reserve] at h
  split at h
  · cases hroom : mulWords (stepLen n.width) (max hint 1) with
    | error d =>
      rw [hroom] at h
      cases h
    | ok room =>
      rw [hroom] at h
      change (if n.used + room ≤ maxCapacity then _ else _) = _ at h
      split at h
      · exact ⟨n.used + room, (Except.ok.inj h).symm⟩
      · cases h
  · exact ⟨n.capacity, (Except.ok.inj h).symm⟩

theorem steps_eq_nil (h : n.words.size = 0) : n.steps = [] := by simp [steps, degree, used, h]

theorem whole_of_size_eq_zero (h : n.words.size = 0) : n.Whole := by simp [Whole, degree, used, h]

theorem widen_spec (h : n.Whole) (width : Nat) : (n.widen width).Whole ∧ (n.widen width).steps = n.steps := by
  rw [widen]
  split_ifs with hempty
  · have hsize : n.words.size = 0 := by simpa using hempty
    refine ⟨whole_of_size_eq_zero hsize, ?_⟩
    rw [steps_eq_nil hsize, steps_eq_nil (n := { n with width := width }) hsize]
  · exact ⟨h, rfl⟩

/-- What a node keeps when steps are added to it. -/
structure SameBut (n m : Node) : Prop where
  key : m.key = n.key
  parent : m.parent = n.parent
  stateBits : m.stateBits = n.stateBits

theorem sameBut_widen (n : Node) (width : Nat) : n.SameBut (n.widen width) := by
  rw [widen]
  split_ifs <;> exact ⟨rfl, rfl, rfl⟩

/-- **A step that is added comes last**, and nothing else changes but the width of a node
without steps. -/
theorem addStep_spec (h : n.Whole) {m : Node} (hm : n.addStep target width row offset hint = (.ok (), m)) :
    m.Whole ∧ m.steps = n.steps ++ [⟨target, .ofFn width fun i => row.get (offset + i)⟩] ∧ m.width = width ∧
      n.SameBut m := by
  rw [addStep] at hm
  obtain ⟨hwhole, hsteps⟩ := widen_spec h width
  have hsame := sameBut_widen n width
  generalize n.widen width = r at hm hwhole hsteps hsame
  by_cases hwidth : r.width = width
  swap
  · rw [if_pos hwidth] at hm
    cases hm
  rw [if_neg (not_not.mpr hwidth)] at hm
  subst hwidth
  cases hreserve : r.reserve hint with
  | error d =>
    rw [hreserve] at hm
    cases hm
  | ok r' =>
    obtain ⟨c, rfl⟩ := reserve_eq hreserve
    simp only [hreserve, append_append] at hm
    split_ifs at hm
    swap
    · cases (Prod.mk.inj hm).1
    obtain ⟨-, rfl⟩ := Prod.mk.inj hm
    obtain ⟨hwhole', hsteps'⟩ := steps_append (n := { r with capacity := c }) hwhole
      (length_stepWords target r.width row offset)
    refine ⟨hwhole', ?_, rfl, hsame.key, hsame.parent, hsame.stateBits⟩
    rw [← stepOf_stepWords, ← hsteps]
    exact hsteps'

end Node

end Liveness

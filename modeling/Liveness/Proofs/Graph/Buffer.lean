import Liveness.Proofs.Graph.Node

/-!
# The buffer of a node gives back what went in

The steps of a node are words of one buffer: fingerprints in halves, and action checks taken from a
longer row at any position and packed anew. Whatever the positions and the number of checks, each
step is read as it was added (`Node.addSteps_faithful`).

A step is added unless the buffer has to grow for it beyond what memory can be. How far it grows is
up to the caller, who says how many steps are to come; so one step with a vast expectation is
refused (`Node.addSteps_vast`).
-/

namespace Liveness

namespace Bits

theorem getD_toList (b : Bits) (i : Nat) : b.toList.getD i false = b.get i := by
  rw [toList, List.getD_eq_getElem?_getD, List.getElem?_map]
  by_cases hi : i < b.len
  · simp [List.getElem?_range hi]
  · simp [get, hi]

theorem toList_ofFn (len : Nat) (f : Nat → Bool) : (ofFn len f).toList = (List.range len).map f := by
  rw [toList, len_ofFn]
  refine List.map_congr_left fun i hi => ?_
  simp [List.mem_range.mp hi]

end Bits

namespace Node

/-- A step to be added to a node. -/
structure Addition where
  /-- Where it leads. -/
  target : Key
  /-- The results of action checks, among them those on the step. -/
  row : Bits
  /-- Where those on the step start. -/
  offset : Nat
  /-- How many steps are to come, this one among them. -/
  hint : Nat

/-- The step itself. -/
def Addition.step (width : Nat) (a : Addition) : Step := ⟨a.target, .ofFn width fun i => a.row.get (a.offset + i)⟩

/-- Add steps in order, up to the first defect. -/
def addSteps (n : Node) (width : Nat) : List Addition → Except Defect Unit × Node
  | [] => (.ok (), n)
  | a :: rest =>
    match n.addStep a.target width a.row a.offset a.hint with
    | (.ok _, n) => n.addSteps width rest
    | (.error d, n) => (.error d, n)

/-- The room of a buffer in which `used` words are in use, once it has some for a step of `len` words: if it
has none it grows by as many steps as are said to come. -/
def grown (len used capacity hint : Nat) : Nat := if capacity - used < len then used + len * max hint 1 else capacity

/-- The buffer never grows beyond what memory can be, while steps of `len` words are added. At first it
has `used` words in use and room for `capacity`. -/
def HasRoom (len : Nat) : (used capacity : Nat) → (hints : List Nat) → Prop
  | _, _, [] => True
  | used, capacity, hint :: hints =>
    grown len used capacity hint ≤ maxCapacity ∧ HasRoom len (used + len) (grown len used capacity hint) hints

instance decidableHasRoom (len : Nat) : (used capacity : Nat) → (hints : List Nat) →
    Decidable (HasRoom len used capacity hints)
  | _, _, [] => .isTrue trivial
  | used, capacity, hint :: hints =>
    have := decidableHasRoom len (used + len) (grown len used capacity hint) hints
    inferInstanceAs (Decidable (grown len used capacity hint ≤ maxCapacity ∧ HasRoom len (used + len) _ hints))

variable {n m : Node} {width : Nat} {a : Addition}

/-! ### One step -/

/-- The buffer gets room if it can. -/
theorem reserve_cases (hcapacity : n.capacity ≤ maxCapacity) (hint : Nat) :
    (grown (stepLen n.width) n.used n.capacity hint ≤ maxCapacity ∧
        n.reserve hint = .ok { n with capacity := grown (stepLen n.width) n.used n.capacity hint }) ∨
      (¬ grown (stepLen n.width) n.used n.capacity hint ≤ maxCapacity ∧
        ∃ d, n.reserve hint = .error d ∧ (d = .mulOverflow ∨ d = .capacityOverflow)) := by
  rw [reserve, grown]
  split_ifs with hroom
  swap
  · exact .inl ⟨hcapacity, rfl⟩
  have hlimit : maxCapacity < wordLimit := by decide
  by_cases hword : stepLen n.width * max hint 1 < wordLimit
  · rw [mulWords, if_pos hword]
    by_cases hfits : n.used + stepLen n.width * max hint 1 ≤ maxCapacity
    · exact .inl ⟨hfits, if_pos hfits⟩
    · exact .inr ⟨hfits, .capacityOverflow, if_neg hfits, .inr rfl⟩
  · rw [mulWords, if_neg hword]
    exact .inr ⟨by omega, .mulOverflow, rfl, .inl rfl⟩

/-- The node has no steps yet, or its steps have the number of checks. -/
def Takes (n : Node) (width : Nat) : Prop := n.words.size = 0 ∨ n.width = width

theorem Takes.width_widen (h : n.Takes width) : (n.widen width).width = width := by
  rw [widen]
  split_ifs with hempty
  · rfl
  · exact h.resolve_left fun hsize => hempty (by simpa using hsize)

theorem used_widen (n : Node) (width : Nat) : (n.widen width).used = n.used := by
  rw [widen]
  split_ifs <;> rfl

theorem capacity_widen (n : Node) (width : Nat) : (n.widen width).capacity = n.capacity := by
  rw [widen]
  split_ifs <;> rfl

/-- A step for which there is room is added to the buffer. -/
theorem addStep_of_reserve (htakes : n.Takes width) (hoffset : a.offset + width ≤ wordLimit)
    (h : (n.widen width).reserve a.hint = .ok m) :
    n.addStep a.target width a.row a.offset a.hint =
      (.ok (), m.append (stepWords a.target width a.row a.offset)) := by
  have hwidth := htakes.width_widen
  rw [addStep]
  simp only [hwidth, h, ne_eq, not_true_eq_false, if_false, hoffset, or_true, if_true, append_append, stepWords]

/-- A step for which no room can be made is refused. -/
theorem addStep_of_refusal (htakes : n.Takes width) {d : Defect} (h : (n.widen width).reserve a.hint = .error d) :
    n.addStep a.target width a.row a.offset a.hint = (.error d, n.widen width) := by
  have hwidth := htakes.width_widen
  rw [addStep]
  simp only [hwidth, h, ne_eq, not_true_eq_false, if_false]

/-- The step comes after those that the node has. -/
theorem step_spec (hn : n.Whole) (hm : n.addStep a.target width a.row a.offset a.hint = (.ok (), m)) :
    m.Whole ∧ m.Takes width ∧ m.steps = n.steps ++ [a.step width] := by
  obtain ⟨hwhole, hsteps, hwidth, -⟩ := addStep_spec hn hm
  exact ⟨hwhole, .inr hwidth, hsteps⟩

/-! ### Any number of steps -/

/-- **All steps are added if the buffer can grow as far as it must**, and otherwise it overflows at one of
them. -/
theorem addSteps_spec (rest : List Addition) : ∀ {n : Node}, n.Whole → n.Takes width → n.capacity ≤ maxCapacity →
    (∀ a ∈ rest, a.offset + width ≤ wordLimit) →
    (HasRoom (stepLen width) n.used n.capacity (rest.map Addition.hint) →
      ∃ m, n.addSteps width rest = (.ok (), m) ∧ m.steps = n.steps ++ rest.map (Addition.step width)) ∧
    (¬ HasRoom (stepLen width) n.used n.capacity (rest.map Addition.hint) →
      ∃ d m, n.addSteps width rest = (.error d, m) ∧ (d = .mulOverflow ∨ d = .capacityOverflow)) := by
  induction rest with
  | nil => exact fun _ _ _ _ => ⟨fun _ => ⟨_, rfl, by simp⟩, fun h => absurd trivial h⟩
  | cons a rest ih =>
    intro n hn htakes hcapacity hoffset
    have hcases := reserve_cases (n := n.widen width) (by rwa [capacity_widen]) a.hint
    rw [htakes.width_widen, used_widen, capacity_widen] at hcases
    rw [List.map_cons, HasRoom]
    rcases hcases with ⟨hlimit, hr⟩ | ⟨hlimit, d, hd, hoverflow⟩
    · have hstep := addStep_of_reserve htakes (hoffset a (by simp)) hr
      generalize hm : append _ (stepWords a.target width a.row a.offset) = m at hstep
      have hused : m.used = n.used + stepLen width := by
        rw [← hm, used, size_words_append, length_stepWords, ← used_widen n width]
        rfl
      have hgrown : m.capacity = grown (stepLen width) n.used n.capacity a.hint := by
        rw [← hm]
        rfl
      obtain ⟨hwhole, htakes', hsteps⟩ := step_spec hn hstep
      obtain ⟨hall, hsome⟩ := ih hwhole htakes' (by rwa [hgrown]) fun b hb => hoffset b (by simp [hb])
      rw [hused, hgrown] at hall hsome
      rw [addSteps, hstep]
      refine ⟨fun hfits => ?_, fun hfits => hsome fun hrest => hfits ⟨hlimit, hrest⟩⟩
      obtain ⟨m', hm', hsteps'⟩ := hall hfits.2
      exact ⟨m', hm', by rw [hsteps', hsteps, List.append_assoc]; rfl⟩
    · refine ⟨fun hfits => absurd hfits.1 hlimit, fun _ => ?_⟩
      rw [addSteps, addStep_of_refusal htakes hd]
      exact ⟨d, _, rfl, hoverflow⟩

theorem step_of_getElem? {i : Nat} {e : Step} (h : n.steps[i]? = some e) : n.step i = .ok e := by
  have hi : i < n.degree := by
    rw [← length_steps]
    exact (List.getElem?_eq_some_iff.mp h).1
  rw [steps, List.getElem?_map, List.getElem?_range hi] at h
  rw [step, if_pos hi, ← Option.some.inj h]

/-- **The buffer of a new node gives back the steps that were added**, however many there are, with any
number of action checks and wherever these are taken from: one for each, in order, with its target and
its checks, where a row has no bit beyond its end. All this unless the buffer has to grow beyond what
memory can be, and then it overflows. -/
theorem addSteps_faithful (key : Key) (parent : Option Key) (width : Nat) (additions : List Addition)
    (hoffset : ∀ a ∈ additions, a.offset + width ≤ wordLimit) :
    (HasRoom (stepLen width) 0 0 (additions.map Addition.hint) →
      ∃ n, addSteps { key, parent } width additions = (.ok (), n) ∧ n.degree = additions.length ∧
        (∀ i a, additions[i]? = some a → ∃ e, n.step i = .ok e ∧ e.target = a.target ∧
          e.actions.toList = (List.range width).map fun j => a.row.toList.getD (a.offset + j) false) ∧
        n.targets = additions.map Addition.target ∧
        ∀ k, n.hasTarget k = true ↔ ∃ a ∈ additions, a.target = k) ∧
    (¬ HasRoom (stepLen width) 0 0 (additions.map Addition.hint) →
      ∃ d n, addSteps { key, parent } width additions = (.error d, n) ∧
        (d = .mulOverflow ∨ d = .capacityOverflow)) := by
  obtain ⟨hall, hsome⟩ := addSteps_spec additions (n := { key, parent }) (whole_of_size_eq_zero rfl) (.inl rfl)
    (Nat.zero_le _) hoffset
  refine ⟨fun hfits => ?_, hsome⟩
  obtain ⟨n, hn, hsteps⟩ := hall hfits
  rw [steps_eq_nil (n := { key, parent }) rfl, List.nil_append] at hsteps
  have htargets : n.targets = additions.map Addition.target := by
    rw [targets_eq, hsteps, List.map_map]
    rfl
  refine ⟨n, hn, ?_, fun i a ha => ?_, htargets, fun k => ?_⟩
  · rw [← length_steps, hsteps, List.length_map]
  · refine ⟨a.step width, step_of_getElem? ?_, rfl, ?_⟩
    · rw [hsteps, List.getElem?_map, ha]
      rfl
    · rw [Addition.step, Bits.toList_ofFn]
      exact List.map_congr_left fun j _ => (a.row.getD_toList _).symm
  · rw [hasTarget_iff, htargets, List.mem_map]

/-- Steps with thirty-three checks each. Those of the first are in two words of its row, and the second
row ends before the last of them. -/
def straddling : List Addition :=
  [⟨⟨0x100000002, 3⟩, .ofFn 100 fun i => i % 3 == 0, 50, 2⟩,
    ⟨⟨0xFFFFFFFF00000000, Key.noPoint⟩, .ofFn 40 fun _ => true, 30, 0⟩, ⟨⟨0x100000002, 3⟩, .empty, 0, 0⟩]

theorem addSteps_faithful_straddling :
    (∀ a ∈ straddling, a.offset + 33 ≤ wordLimit) ∧ HasRoom (stepLen 33) 0 0 (straddling.map Addition.hint) ∧
      ∃ n, addSteps { key := ⟨0, 0⟩, parent := none } 33 straddling = (.ok (), n) ∧ n.degree = 3 ∧
        (∃ e, n.step 1 = .ok e ∧ e.target = ⟨0xFFFFFFFF00000000, Key.noPoint⟩ ∧
          e.actions.toList = List.replicate 10 true ++ List.replicate 23 false) ∧
        n.targets = [⟨0x100000002, 3⟩, ⟨0xFFFFFFFF00000000, Key.noPoint⟩, ⟨0x100000002, 3⟩] ∧
        n.hasTarget ⟨0x200000001, 3⟩ = false := by
  have hoffset : ∀ a ∈ straddling, a.offset + 33 ≤ wordLimit := by decide
  have hfits : HasRoom (stepLen 33) 0 0 (straddling.map Addition.hint) := by decide
  obtain ⟨n, hn, hdegree, hsteps, htargets, hhas⟩ := (addSteps_faithful ⟨0, 0⟩ none 33 straddling hoffset).1 hfits
  refine ⟨hoffset, hfits, n, hn, hdegree, ?_, htargets, ?_⟩
  · obtain ⟨e, he, htarget, hactions⟩ := hsteps 1 _ rfl
    exact ⟨e, he, htarget, hactions.trans (by decide +kernel)⟩
  · rw [Bool.eq_false_iff]
    intro h
    exact absurd ((hhas _).mp h) (by decide)

/-- **Not every expectation can be met**: a caller that says that so many steps are to come gets none. -/
theorem addSteps_vast : addSteps { key := ⟨0, 0⟩, parent := none } 0 [⟨⟨1, 0⟩, .empty, 0, 0x4000000000000000⟩] =
    (.error .capacityOverflow, { key := ⟨0, 0⟩, parent := none }) := by
  decide

end Node

end Liveness

import Mathlib.Algebra.Group.Nat.Defs
import Mathlib.Data.Nat.Basic
import Mathlib.Order.Basic
import Mathlib.Tactic.Common
import Liveness.Tableau
import Liveness.Proofs.Reachability

/-!
# The search of a tableau

The search for an accepting node never leaves the tableau and says whether such a node can be
reached from the initial ones. While it runs, no place that was seen is accepting, and each
successor of a place that was seen is seen or on the stack (`Seeking`). So whatever can be
reached from the places seen can be reached from the stack, and the answer of the search is
whether an accepting node can be reached from there (`seek_spec`).
-/

namespace Liveness

namespace Tableau

variable {σ : Type} {t : Tableau σ} {i : UInt32} {n : Node σ} {nodes : List (Node σ)} {initCount : Nat}

theorem node_eq_ok_iff : t.node i = .ok n ↔ t.nodes[i.toNat]? = some n := by
  unfold node
  split <;> simp [*]

theorem lt_size_of_mem_successors (h : t.node i = .ok n) {j : UInt32} (hj : j ∈ n.successors) : j.toNat < t.size :=
  t.successors_lt i.toNat n (node_eq_ok_iff.mp h) j hj

/-! ### What can be reached -/

/-- The places of the successors of the node at a place. -/
def placesAfter (nodes : List (Node σ)) (i : Nat) : List Nat :=
  ((nodes[i]?.map Node.successors).getD []).map UInt32.toNat

/-- An accepting node can be reached from a place along successors. -/
def ReachesAccepting (nodes : List (Node σ)) (i : Nat) : Prop :=
  ∃ j n, Reaches (placesAfter nodes) i j ∧ nodes[j]? = some n ∧ n.accepting = true

theorem mem_placesAfter {x y : Nat} (hn : nodes[x]? = some n) :
    y ∈ placesAfter nodes x ↔ ∃ j ∈ n.successors, j.toNat = y := by
  simp [placesAfter, hn]

theorem ReachesAccepting.head {x y : Nat} (hy : y ∈ placesAfter nodes x) (h : ReachesAccepting nodes y) :
    ReachesAccepting nodes x := by
  obtain ⟨j, m, hreach, hm⟩ := h
  exact ⟨j, m, Relation.ReflTransGen.head hy hreach, hm⟩

/-- An accepting node can be reached from one that is accepting or has a successor from which it can. -/
theorem reachesAccepting_iff {x : Nat} (hn : nodes[x]? = some n) :
    ReachesAccepting nodes x ↔ n.accepting = true ∨ ∃ j ∈ n.successors, ReachesAccepting nodes j.toNat := by
  constructor
  · rintro ⟨y, m, hreach, hm, haccepting⟩
    rcases Relation.ReflTransGen.cases_head hreach with rfl | ⟨z, hz, hreach⟩
    · rw [hn, Option.some.injEq] at hm
      exact .inl (hm ▸ haccepting)
    · obtain ⟨j, hj, rfl⟩ := (mem_placesAfter hn).mp hz
      exact .inr ⟨j, hj, y, m, hreach, hm, haccepting⟩
  · rintro (haccepting | ⟨j, hj, h⟩)
    · exact ⟨x, n, .refl, hn, haccepting⟩
    · exact h.head ((mem_placesAfter hn).mpr ⟨j, hj, rfl⟩)

/-! ### The search -/

variable {seen : Array Bool} {stack : List UInt32}

/-- The state of the search between two turns. -/
structure Seeking (t : Tableau σ) (seen : Array Bool) (stack : List UInt32) : Prop where
  size_eq : seen.size = t.size
  stack_lt : ∀ i ∈ stack, i.toNat < t.size
  plain : ∀ (x : Nat) (n : Node σ), seen[x]? = some true → t.nodes[x]? = some n → n.accepting = false
  closed : ∀ x, seen[x]? = some true → ∀ y ∈ placesAfter t.nodes.toList x,
    seen[y]? = some true ∨ ∃ i ∈ stack, i.toNat = y

theorem seeking_start (hlt : ∀ i ∈ stack, i.toNat < t.size) : t.Seeking (Array.replicate t.size false) stack := by
  have hunseen : ∀ x : Nat, (Array.replicate t.size false)[x]? ≠ some true := by simp [Array.getElem?_replicate]
  exact ⟨by simp, hlt, fun x _ hx => absurd hx (hunseen x), fun x hx => absurd hx (hunseen x)⟩

/-- A place that was seen may be taken off the stack. -/
theorem Seeking.pass (h : t.Seeking seen (i :: stack)) (hi : seen[i.toNat]? = some true) : t.Seeking seen stack := by
  refine ⟨h.size_eq, fun j hj => h.stack_lt j (List.mem_cons_of_mem _ hj), h.plain, fun x hx y hy => ?_⟩
  rcases h.closed x hx y hy with hseen | ⟨j, hj, rfl⟩
  · exact .inl hseen
  · rcases List.mem_cons.mp hj with rfl | hj
    · exact .inl hi
    · exact .inr ⟨j, hj, rfl⟩

/-- A place whose node is not accepting is seen, and its successors take its place on the stack. -/
theorem Seeking.turn (h : t.Seeking seen (i :: stack)) (hi : i.toNat < seen.size) (hn : t.node i = .ok n)
    (hplain : n.accepting = false) : t.Seeking (seen.set i.toNat true) (n.successors.reverse ++ stack) := by
  have hnode := node_eq_ok_iff.mp hn
  have hset : ∀ x, (seen.set i.toNat true)[x]? = some true ↔ x = i.toNat ∨ seen[x]? = some true := by
    intro x
    rw [Array.getElem?_set]
    split_ifs with hx
    · simp [hx]
    · simp [Ne.symm hx]
  refine ⟨by rw [Array.size_set, h.size_eq], fun j hj => ?_, fun x m hx hm => ?_, fun x hx y hy => ?_⟩
  · rcases List.mem_append.mp hj with hj | hj
    · exact lt_size_of_mem_successors hn (List.mem_reverse.mp hj)
    · exact h.stack_lt j (List.mem_cons_of_mem _ hj)
  · rcases (hset x).mp hx with rfl | hx
    · rw [hnode, Option.some.injEq] at hm
      exact hm ▸ hplain
    · exact h.plain x m hx hm
  · rw [hset]
    rcases (hset x).mp hx with rfl | hx
    · obtain ⟨j, hj, rfl⟩ := (mem_placesAfter (by simpa using hnode)).mp hy
      exact .inr ⟨j, by simp [hj], rfl⟩
    · rcases h.closed x hx y hy with hseen | ⟨j, hj, rfl⟩
      · exact .inl (.inr hseen)
      · rcases List.mem_cons.mp hj with rfl | hj
        · exact .inl (.inl rfl)
        · exact .inr ⟨j, by simp [hj], rfl⟩

/-- What can be reached from a place seen can be reached from the stack. -/
theorem Seeking.reachesAccepting_of_seen (h : t.Seeking seen stack) {x : Nat} (hx : seen[x]? = some true)
    (hreach : ReachesAccepting t.nodes.toList x) : ∃ j ∈ stack, ReachesAccepting t.nodes.toList j.toNat := by
  obtain ⟨y, m, hxy, hm, haccepting⟩ := hreach
  rw [Array.getElem?_toList] at hm
  -- along the way to the accepting node, up to the first place that is not seen
  induction hxy using Relation.ReflTransGen.head_induction_on with
  | refl =>
    rw [h.plain y m hx hm] at haccepting
    cases haccepting
  | head hstep hrest ih =>
    rcases h.closed _ hx _ hstep with hseen | ⟨j, hj, rfl⟩
    · exact ih hseen
    · exact ⟨j, hj, y, m, hrest, by simpa using hm, haccepting⟩

/-- **The search** never leaves the tableau, and it finds an accepting node if and only if one can be
reached from the stack. -/
theorem seek_spec (h : t.Seeking seen stack) :
    ∃ found, t.seek seen stack = .ok found ∧
      (found = true ↔ ∃ j ∈ stack, ReachesAccepting t.nodes.toList j.toNat) := by
  fun_induction t.seek seen stack with
  | case1 seen => exact ⟨false, rfl, by simp⟩
  | case2 seen i stack hi hseen ih =>
    have hsome : seen[i.toNat]? = some true := by rw [Array.getElem?_eq_getElem hi, hseen]
    obtain ⟨found, hfound, hiff⟩ := ih (h.pass hsome)
    refine ⟨found, hfound, hiff.trans ⟨?_, ?_⟩⟩
    · rintro ⟨j, hj, hreach⟩
      exact ⟨j, List.mem_cons_of_mem _ hj, hreach⟩
    · rintro ⟨j, hj, hreach⟩
      rcases List.mem_cons.mp hj with rfl | hj
      · exact (h.pass hsome).reachesAccepting_of_seen hsome hreach
      · exact ⟨j, hj, hreach⟩
  | case3 seen i stack hi hseen d hd =>
    have hlt := h.stack_lt i (List.mem_cons_self ..)
    cases hd.symm.trans (node_eq_ok_iff.mpr (Array.getElem?_eq_getElem hlt))
  | case4 seen i stack hi hseen n hn haccepting =>
    have hnode : t.nodes.toList[i.toNat]? = some n := by simpa using node_eq_ok_iff.mp hn
    have hreach := (reachesAccepting_iff hnode).mpr (.inl haccepting)
    exact ⟨true, rfl, fun _ => ⟨i, List.mem_cons_self .., hreach⟩, fun _ => rfl⟩
  | case5 seen i stack hi hseen n hn haccepting ih =>
    have hnode : t.nodes.toList[i.toNat]? = some n := by simpa using node_eq_ok_iff.mp hn
    obtain ⟨found, hfound, hiff⟩ := ih (h.turn hi hn (by simpa using haccepting))
    refine ⟨found, hfound, hiff.trans ?_⟩
    simp only [List.mem_append, List.mem_reverse, List.mem_cons, or_and_right, exists_or, exists_eq_left,
      reachesAccepting_iff hnode, haccepting, Bool.false_eq_true, false_or]
  | case6 seen i stack hi => exact absurd (h.size_eq ▸ h.stack_lt i (List.mem_cons_self ..)) hi

/-! ### From the initial nodes -/

theorem ofNodes_eq_ok (h : ofNodes nodes initCount = .ok t) : t.nodes = nodes.toArray ∧ t.initCount = initCount := by
  unfold ofNodes at h
  split_ifs at h
  split at h
  · cases h
  · obtain rfl := Except.ok.inj h
    exact ⟨rfl, rfl⟩

/-- Places are 32-bit words, so that there are not more of them. -/
theorem size_le (t : Tableau σ) : t.size ≤ 2 ^ 32 := by
  by_contra h
  have hlt : 2 ^ 32 < t.nodes.size := Nat.lt_of_not_le h
  have hindex := t.index_eq (2 ^ 32) _ (Array.getElem?_eq_getElem hlt)
  have := t.nodes[2 ^ 32].index.toNat_lt
  omega

theorem mem_initialPlaces {count : Nat} :
    i ∈ ((List.range count.toUInt32.toNat).map Nat.toUInt32).reverse ↔ i.toNat < count % 2 ^ 32 := by
  simp only [List.mem_reverse, List.mem_map, List.mem_range, UInt32.toNat_ofNat']
  constructor
  · rintro ⟨x, hx, rfl⟩
    have hlt : x < 2 ^ 32 := Nat.lt_trans hx (Nat.mod_lt _ (by decide))
    rwa [UInt32.toNat_ofNat_of_lt' hlt]
  · intro hi
    exact ⟨i.toNat, hi, by simp⟩

/-- If all of the `2 ^ 32` possible nodes are initial their number comes to nothing in 32 bits, and the search
starts nowhere. -/
theorem seekAccepting_of_all_initial (h : t.initCount = 2 ^ 32) : t.seekAccepting = .ok false := by
  have hstack : ((List.range t.initCount.toUInt32.toNat).map Nat.toUInt32).reverse = [] := by
    rw [h]
    rfl
  rw [seekAccepting, hstack, seek]

/-- **The search from the initial nodes** comes to an end inside the tableau, and it finds an accepting
node if and only if one can be reached from one of the first `initCount` places. Only where all of the
`2 ^ 32` possible nodes are initial the number of initial places comes to nothing in 32 bits, and with
it the search. -/
theorem seekAccepting_exact (h : ofNodes nodes initCount = .ok t) :
    t.seekAccepting = .ok t.hasReachableAccepting ∧
      (initCount ≠ 2 ^ 32 → (t.hasReachableAccepting = true ↔ ∃ i < initCount, ReachesAccepting nodes i)) ∧
      (initCount = 2 ^ 32 → t.hasReachableAccepting = false) := by
  obtain ⟨hnodes, hcount⟩ := ofNodes_eq_ok h
  have hle : initCount ≤ 2 ^ 32 := hcount ▸ t.initCount_le.trans t.size_le
  have hlt : ∀ i ∈ ((List.range t.initCount.toUInt32.toNat).map Nat.toUInt32).reverse, i.toNat < t.size :=
    fun i hi => (mem_initialPlaces.mp hi).trans_le ((Nat.mod_le _ _).trans t.initCount_le)
  obtain ⟨found, hfound, hiff⟩ := seek_spec (seeking_start hlt)
  have hanswer : t.hasReachableAccepting = found := by rw [hasReachableAccepting, seekAccepting, hfound]
  rw [hanswer]
  refine ⟨hfound, fun hne => hiff.trans ?_, fun hall => ?_⟩
  · have hmod : initCount % 2 ^ 32 = initCount := Nat.mod_eq_of_lt (by omega)
    simp only [mem_initialPlaces, hcount, hmod, hnodes]
    constructor
    · rintro ⟨i, hi, hreach⟩
      exact ⟨i.toNat, hi, hreach⟩
    · rintro ⟨i, hi, hreach⟩
      have hword : i.toUInt32.toNat = i := UInt32.toNat_ofNat_of_lt' (Nat.lt_of_lt_of_le hi hle)
      exact ⟨i.toUInt32, hword.symm ▸ hi, hword.symm ▸ hreach⟩
  · rw [← hanswer, hasReachableAccepting, seekAccepting_of_all_initial (hcount.trans hall)]

/-- A node that names its successor twice, a way back from there, and an accepting node behind it. -/
def detour : List (Node Unit) :=
  [⟨0, [1, 1], false, fun _ => true⟩, ⟨1, [0, 2], false, fun _ => true⟩, ⟨2, [], true, fun _ => true⟩]

theorem seekAccepting_exact_detour :
    ∃ t, ofNodes detour 1 = .ok t ∧ ReachesAccepting detour 0 ∧ t.seekAccepting = .ok true := by
  have hreach : ReachesAccepting detour 0 :=
    ⟨2, _, .head (b := 1) (by simp [placesAfter, detour]) (.single (by simp [placesAfter, detour])), rfl, rfl⟩
  have haccepted : ∃ t, ofNodes detour 1 = .ok t := ⟨_, rfl⟩
  obtain ⟨t, ht⟩ := haccepted
  refine ⟨t, ht, hreach, ?_⟩
  obtain ⟨hends, hiff, -⟩ := seekAccepting_exact ht
  rw [hends, (hiff (by decide)).mpr ⟨0, by decide, hreach⟩]

theorem exists_ofNodes (hcount : initCount ≤ nodes.length)
    (hnodes : ∀ (i : Nat) (n : Node σ), nodes[i]? = some n → n.flaw? nodes.length i = none) :
    ∃ t, ofNodes nodes initCount = .ok t := by
  have hflaw : nodes.zipIdx.findSome? (fun x => x.1.flaw? nodes.length x.2) = none :=
    List.findSome?_eq_none_iff.mpr fun x hx => hnodes x.2 x.1 (List.mem_zipIdx_iff_getElem?.mp hx)
  unfold ofNodes
  rw [dif_neg (Nat.not_lt.mpr hcount)]
  split
  · rename_i e he
    cases hflaw.symm.trans he
  · exact ⟨_, rfl⟩

/-- As many nodes as there can be, all accepting. -/
def crowd : List (Node Unit) := (List.range (2 ^ 32)).map fun i => ⟨i.toUInt32, [], true, fun _ => true⟩

/-- Of so many accepting nodes the search finds none if all of them are initial. -/
theorem seekAccepting_crowd :
    ∃ t, ofNodes crowd (2 ^ 32) = .ok t ∧ ReachesAccepting crowd 0 ∧ t.seekAccepting = .ok false := by
  have hlength : crowd.length = 2 ^ 32 := by rw [crowd, List.length_map, List.length_range]
  have hnode {i : Nat} (hi : i < 2 ^ 32) : crowd[i]? = some ⟨i.toUInt32, [], true, fun _ => true⟩ := by
    rw [crowd, List.getElem?_map, List.getElem?_range hi]
    rfl
  obtain ⟨t, ht⟩ : ∃ t, ofNodes crowd (2 ^ 32) = .ok t := by
    refine exists_ofNodes hlength.ge fun i n hn => ?_
    have hi : i < 2 ^ 32 := hlength ▸ (List.getElem?_eq_some_iff.mp hn).1
    obtain rfl := Option.some.inj (hn.symm.trans (hnode hi))
    refine Node.flaw?_eq_none_iff.mpr ⟨UInt32.toNat_ofNat_of_lt' hi, fun j hj => ?_⟩
    cases hj
  have hreach : ReachesAccepting crowd 0 := (reachesAccepting_iff (hnode (by decide))).mpr (.inl rfl)
  exact ⟨t, ht, hreach, seekAccepting_of_all_initial (ofNodes_eq_ok ht).2⟩

end Tableau

end Liveness

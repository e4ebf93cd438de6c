import Mathlib.Algebra.Order.BigOperators.Group.Finset
import Liveness.Proofs.Cycle.Descent

/-!
# The components are those of mutual reachability

Each step of the search keeps what is true in its course (`Descent.Sound.step`), where the
edges looked at are read off the path (`Descent.Looked`). A step is taken for each edge and
for each node (`Descent.work`), so that the search from a node comes to its end within the
steps that it is given (`Descent.run_spec`). Then the path is empty, and with it the stack.

So the components are the classes of mutual reachability (`components_spec`), and no edge
leads from a component to a later one (`components_apart`).
-/

namespace Liveness

variable {succ : Nat → List Nat} {n : Nat}

namespace Descent

variable {s : Descent} {L : Nat → Nat → Prop} {u v w x y i k fuel : Nat} {us : List Nat} {rest : List (Nat × Nat)}

instance (s : Descent) : DecidablePred s.Met := fun _ => inferInstanceAs (Decidable (_ = true))

/-! ### What an edge or a node left does -/

theorem look_of_not_met (hw : ¬s.Met w) : s.look v w = s.enter w := by
  rw [look, Option.not_isSome_iff_eq_none.mp hw]

theorem look_of_stacked (hw : s.Stacked w) : s.look v w = s.lower v (s.number w) := by
  cases hm : s.mark? w with
  | none => simp [Stacked, hm] at hw
  | some m =>
    simp only [Stacked, hm, Option.map_some, Option.getD_some] at hw
    simp [look, number, hm, hw]

theorem look_of_not_stacked (hmet : s.Met w) (hw : ¬s.Stacked w) : s.look v w = s := by
  obtain ⟨m, hm⟩ := Option.isSome_iff_exists.mp hmet
  simp only [Stacked, hm, Option.map_some, Option.getD_some] at hw
  simp [look, hm, hw]

theorem leave_of_met (hv : s.Met v) : s.leave v =
    if s.low v = s.number v then (s.lowerLast (s.low v)).close v else s.lowerLast (s.low v) := by
  obtain ⟨m, hm⟩ := Option.isSome_iff_exists.mp hv
  simp [leave, low, number, hm]

theorem lowerLast_of_nodes (hnodes : s.nodes = u :: us) (k : Nat) : s.lowerLast k = s.lower u k := by
  obtain ⟨e, rest, hpath, rfl, -⟩ := List.map_eq_cons_iff.mp hnodes
  rw [lowerLast, hpath]

theorem lowerLast_of_nodes_nil (hnodes : s.nodes = []) (k : Nat) : s.lowerLast k = s := by
  rw [lowerLast, List.map_eq_nil_iff.mp hnodes]

theorem met_lowerLast : (s.lowerLast k).Met x ↔ s.Met x := by
  rw [lowerLast]
  split
  · rfl
  · exact met_lower

theorem met_leave : (s.leave v).Met x ↔ s.Met x := by
  by_cases hv : s.Met v
  · rw [leave_of_met hv]
    split_ifs
    · exact met_close.trans met_lowerLast
    · exact met_lowerLast
  · rw [leave, Option.not_isSome_iff_eq_none.mp hv]

theorem path_lowerLast (s : Descent) (k : Nat) : (s.lowerLast k).path = s.path := by
  rw [lowerLast]
  split <;> rfl

theorem path_leave (s : Descent) (v : Nat) : (s.leave v).path = s.path := by
  rw [leave]
  split
  · rfl
  · split_ifs <;> exact path_lowerLast s _

/-! ### One step -/

/-- The edges looked at: those of a node of the path up to its place, and all those of any
other node. -/
def Looked (succ : Nat → List Nat) (path : List (Nat × Nat)) (x y : Nat) : Prop :=
  y ∈ succ x ∧ ∀ i, (x, i) ∈ path → y ∈ (succ x).take i

theorem Looked.of_enter {path : List (Nat × Nat)} (h : Looked succ ((w, 0) :: path) x y) :
    x ≠ w ∧ Looked succ path x y := by
  refine ⟨?_, h.1, fun i hi => h.2 i (List.mem_cons_of_mem _ hi)⟩
  rintro rfl
  simpa using h.2 0 List.mem_cons_self

theorem Looked.of_advance (hw : (succ v)[i]? = some w) (h : Looked succ ((v, i + 1) :: rest) x y) :
    Looked succ ((v, i) :: rest) x y ∨ x = v ∧ y = w := by
  have hrest : ∀ j, (x, j) ∈ rest → y ∈ (succ x).take j := fun j hj => h.2 j (List.mem_cons_of_mem _ hj)
  by_cases hxv : x = v
  · subst hxv
    have hmem := h.2 (i + 1) List.mem_cons_self
    rw [List.take_add_one, hw, List.mem_append] at hmem
    rcases hmem with hmem | hmem
    · refine .inl ⟨h.1, fun j hj => ?_⟩
      rcases List.mem_cons.mp hj with hj | hj
      · cases hj
        exact hmem
      · exact hrest j hj
    · exact .inr ⟨rfl, List.mem_singleton.mp hmem⟩
  · refine .inl ⟨h.1, fun j hj => hrest j ?_⟩
    exact (List.mem_cons.mp hj).resolve_left fun heq => hxv (congrArg Prod.fst heq)

theorem Looked.of_leave (hi : (succ v).length ≤ i) (h : Looked succ rest x y) : Looked succ ((v, i) :: rest) x y := by
  refine ⟨h.1, fun j hj => ?_⟩
  rcases List.mem_cons.mp hj with hj | hj
  · cases hj
    rw [List.take_of_length_le hi]
    exact h.1
  · exact h.2 j hj

/-- An edge of the last node of the path is looked at. -/
theorem Sound.look (h : Sound succ n L s) (hnodes : s.nodes = v :: us) (hw : w ∈ succ v) (hwn : w < n)
    (hL : ∀ x y, Looked succ s.path x y → L x y ∨ x = v ∧ y = w) :
    Sound succ n (Looked succ (s.look v w).path) (s.look v w) := by
  have hv : v ∈ s.nodes := hnodes ▸ List.mem_cons_self
  have hvs := h.nodes_mem v hv
  by_cases hmet : s.Met w
  · by_cases hstacked : s.Stacked w
    · rw [look_of_stacked hstacked]
      have hlower := h.lower hvs ((h.stacked_iff w).mp hstacked) rfl (.single hw)
      refine (hlower.addEdge hv (met_lower.mpr hmet) fun _ => ?_).mono hL
      rw [low_lower (h.met_of_mem hvs), if_pos rfl, number_lower]
      exact Nat.min_le_right _ _
    · rw [look_of_not_stacked hmet hstacked]
      exact (h.addEdge hv hmet fun hws => absurd ((h.stacked_iff w).mpr hws) hstacked).mono hL
  · rw [look_of_not_met hmet]
    have hsize : w < s.marks.size := h.size.symm ▸ hwn
    have henter := h.enter hwn hmet fun u hu =>
      .tail (h.reaches u hu v hvs (h.number_le_of_mem_nodes hnodes hu)) hw
    refine (henter.addEdge (List.mem_cons_of_mem _ hv) ((met_enter hsize).mpr (.inl rfl)) fun _ => ?_).mono ?_
    · exact (henter.low_le v (List.mem_cons_of_mem _ hvs)).trans (h.number_enter_lt hwn hmet hvs).le
    · intro x y hxy
      obtain ⟨hxw, hxy⟩ := hxy.of_enter
      exact (hL x y hxy).imp_left fun hxy => ⟨hxw, hxy⟩

/-- The last node of the path is left, after the edges of the nodes above it were looked at. -/
theorem Sound.leave (h : Sound succ n L s) (hpath : s.path = (v, i) :: rest)
    (hL : ∀ x ∈ s.stack, s.number v ≤ s.number x → ∀ y ∈ succ x, L x y) :
    Sound succ n L ((s.setPath rest).leave v) := by
  have hnodes : s.nodes = v :: rest.map Prod.fst := by rw [nodes, hpath, List.map_cons]
  have hv : v ∈ s.nodes := hnodes ▸ List.mem_cons_self
  obtain ⟨y, hy, hyv, hvy⟩ := h.low_reached v (h.nodes_mem v hv)
  have hleave : (s.setPath rest).leave v = if s.low v = s.number v
      then ((s.setPath rest).lowerLast (s.low v)).close v else (s.setPath rest).lowerLast (s.low v) :=
    leave_of_met (s := s.setPath rest) (h.met_of_mem (h.nodes_mem v hv))
  rw [hleave]
  cases hrest : rest.map Prod.fst with
  | nil =>
    -- there is no node of the path below `v`, and so no other node of the stack
    have hlow : s.low v = s.number v := by
      obtain ⟨u, hu, huy⟩ := h.exists_node_le hy
      rw [hnodes, hrest, List.mem_singleton] at hu
      exact (h.low_le v (h.nodes_mem v hv)).antisymm (hyv ▸ hu ▸ huy)
    rw [if_pos hlow, lowerLast_of_nodes_nil (s := s.setPath rest) hrest]
    exact h.close hnodes hlow hL rfl
  | cons u us =>
    have hu : u ∈ s.nodes := by simp [hnodes, hrest]
    have huv : s.number u < s.number v := h.number_lt_of_mem_tail hnodes (by simp [hrest])
    have hne : v ≠ u := fun heq => huv.ne (heq ▸ rfl)
    have hlower := h.lower (h.nodes_mem u hu) hy hyv ((h.reaches u hu v (h.nodes_mem v hv) huv.le).trans hvy)
    have hlow := low_lower (h.met_of_mem (h.nodes_mem u hu)) (s.low v)
    have hlowv : (s.lower u (s.low v)).low v = s.low v := (hlow v).trans (if_neg hne)
    have hnumber := number_lower s u (s.low v)
    rw [lowerLast_of_nodes (s := s.setPath rest) hrest]
    split_ifs with hroot
    · refine hlower.close hnodes ?_ ?_ rfl
      · rw [hlowv, hnumber, hroot]
      · rwa [hnumber]
    · refine hlower.drop (hpath : (s.lower u (s.low v)).path = _) hrest ?_ ?_
      · rw [hlowv, hnumber]
        exact (h.low_le v (h.nodes_mem v hv)).lt_of_ne hroot
      · rw [hlowv, hlow, if_pos rfl]
        exact Nat.min_le_right _ _

theorem step_of_some (hpath : s.path = (v, i) :: rest) (hw : (succ v)[i]? = some w) :
    s.step succ = (s.setPath ((v, i + 1) :: rest)).look v w := by
  simp only [Descent.step, hpath, hw]

theorem step_of_none (hpath : s.path = (v, i) :: rest) (hw : (succ v)[i]? = none) :
    s.step succ = (s.setPath rest).leave v := by
  simp only [Descent.step, hpath, hw]

theorem Sound.step (hn : ∀ v < n, ∀ w ∈ succ v, w < n) (h : Sound succ n (Looked succ s.path) s) :
    Sound succ n (Looked succ (s.step succ).path) (s.step succ) := by
  cases hpath : s.path with
  | nil =>
    have hstep : s.step succ = s := by rw [Descent.step, hpath]
    rwa [hstep]
  | cons e rest =>
    obtain ⟨v, i⟩ := e
    have hnodes : s.nodes = v :: rest.map Prod.fst := by rw [nodes, hpath, List.map_cons]
    have hvs := h.nodes_mem v (hnodes ▸ List.mem_cons_self)
    rw [hpath] at h
    cases hw : (succ v)[i]? with
    | some w =>
      rw [step_of_some hpath hw]
      have hmem := List.mem_of_getElem? hw
      have hset : Sound succ n (Looked succ ((v, i) :: rest)) (s.setPath ((v, i + 1) :: rest)) := h.setPath hnodes.symm
      exact hset.look rfl hmem (hn v (h.lt_of_mem hvs) w hmem) fun x y => Looked.of_advance hw
    | none =>
      rw [step_of_none hpath hw]
      have hi := List.getElem?_eq_none_iff.mp hw
      refine (h.leave hpath fun x hx hvx y hy => ⟨hy, fun j hj => ?_⟩).mono fun x y hxy => ?_
      · rcases List.mem_cons.mp hj with hj | hj
        · cases hj
          rwa [List.take_of_length_le hi]
        · have hlt := h.number_lt_of_mem_tail hnodes (List.mem_map_of_mem hj)
          exact absurd hvx hlt.not_ge
      · rw [path_leave] at hxy
        exact hxy.of_leave hi

/-! ### The steps of a search -/

/-- The steps that the nodes not met take, one for each node and one for each edge. -/
def toMeet (succ : Nat → List Nat) (n : Nat) (s : Descent) : Nat :=
  ∑ v ∈ Finset.range n, if s.Met v then 0 else (succ v).length + 1

/-- The steps that the nodes of a path still take. -/
def toLook (succ : Nat → List Nat) (path : List (Nat × Nat)) : Nat :=
  path.foldr (fun e k => (succ e.1).length - e.2 + 1 + k) 0

/-- The steps that are left. -/
def work (succ : Nat → List Nat) (n : Nat) (s : Descent) : Nat := s.toMeet succ n + toLook succ s.path

theorem toMeet_congr {s t : Descent} (h : ∀ x, s.Met x ↔ t.Met x) : s.toMeet succ n = t.toMeet succ n := by
  refine Finset.sum_congr rfl fun x _ => ?_
  simp only [h x]

theorem toMeet_enter (hsize : s.marks.size = n) (hw : w < n) (hnew : ¬s.Met w) :
    s.toMeet succ n = (succ w).length + 1 + (s.enter w).toMeet succ n := by
  have hmet : ∀ x, (s.enter w).Met x ↔ x = w ∨ s.Met x := fun x => met_enter (hsize ▸ hw)
  have hmem : w ∈ Finset.range n := Finset.mem_range.mpr hw
  rw [toMeet, toMeet, ← Finset.add_sum_erase _ _ hmem, ← Finset.add_sum_erase _ _ hmem, if_neg hnew,
    if_pos ((hmet w).mpr (.inl rfl)), Nat.zero_add]
  congr 1
  refine Finset.sum_congr rfl fun x hx => ?_
  simp only [hmet x, Finset.ne_of_mem_erase hx, false_or]

/-- A node that is entered takes its steps as one of the path. -/
theorem work_enter (hsize : s.marks.size = n) (hw : w < n) (hnew : ¬s.Met w) :
    (s.enter w).work succ n = s.work succ n := by
  have hpath : toLook succ (s.enter w).path = (succ w).length + 1 + toLook succ s.path := rfl
  rw [work, work, hpath, toMeet_enter hsize hw hnew]
  omega

theorem work_look (hsize : s.marks.size = n) (hw : w < n) : (s.look v w).work succ n = s.work succ n := by
  by_cases hmet : s.Met w
  · by_cases hstacked : s.Stacked w
    · rw [look_of_stacked hstacked, work, work, toMeet_congr fun x => met_lower]
      rfl
    · rw [look_of_not_stacked hmet hstacked]
  · rw [look_of_not_met hmet, work_enter hsize hw hmet]

theorem work_leave : (s.leave v).work succ n = s.work succ n := by
  rw [work, work, path_leave, toMeet_congr fun x => met_leave]

/-- A step is done. -/
theorem Sound.work_step (hn : ∀ v < n, ∀ w ∈ succ v, w < n) (h : Sound succ n L s) (hne : s.path ≠ []) :
    (s.step succ).work succ n < s.work succ n := by
  obtain ⟨⟨v, i⟩, rest, hpath⟩ := List.exists_cons_of_ne_nil hne
  have hvs := h.nodes_mem v (by simp [nodes, hpath])
  have hwork : s.work succ n = s.toMeet succ n + ((succ v).length - i + 1 + toLook succ rest) := by
    rw [work, hpath]
    rfl
  cases hw : (succ v)[i]? with
  | some w =>
    obtain ⟨hi, -⟩ := List.getElem?_eq_some_iff.mp hw
    have hset : (s.setPath ((v, i + 1) :: rest)).work succ n =
      s.toMeet succ n + ((succ v).length - (i + 1) + 1 + toLook succ rest) := rfl
    have hwn : w < n := hn v (h.lt_of_mem hvs) w (List.mem_of_getElem? hw)
    rw [step_of_some hpath hw, work_look (s := s.setPath ((v, i + 1) :: rest)) h.size hwn, hset, hwork]
    omega
  | none =>
    have hset : (s.setPath rest).work succ n = s.toMeet succ n + toLook succ rest := rfl
    rw [step_of_none hpath hw, work_leave, hset, hwork]
    omega

theorem met_look (hsize : w < s.marks.size) (hx : s.Met x) : (s.look v w).Met x := by
  by_cases hmet : s.Met w
  · by_cases hstacked : s.Stacked w
    · rw [look_of_stacked hstacked]
      exact met_lower.mpr hx
    · rwa [look_of_not_stacked hmet hstacked]
  · rw [look_of_not_met hmet]
    exact (met_enter hsize).mpr (.inr hx)

theorem Sound.met_step (hn : ∀ v < n, ∀ w ∈ succ v, w < n) (h : Sound succ n L s) (hx : s.Met x) :
    (s.step succ).Met x := by
  cases hpath : s.path with
  | nil => rwa [Descent.step, hpath]
  | cons e rest =>
    obtain ⟨v, i⟩ := e
    have hvs := h.nodes_mem v (by simp [nodes, hpath])
    cases hw : (succ v)[i]? with
    | some w =>
      rw [step_of_some hpath hw]
      exact met_look (h.size.symm ▸ hn v (h.lt_of_mem hvs) w (List.mem_of_getElem? hw)) hx
    | none =>
      rw [step_of_none hpath hw]
      exact met_leave.mpr hx

/-! ### The whole search -/

/-- What is true between two searches: the path is empty. -/
structure Idle (succ : Nat → List Nat) (n : Nat) (s : Descent) : Prop where
  sound : Sound succ n (Looked succ s.path) s
  path_eq : s.path = []

/-- The search goes on to its end, if it is given the steps that are left. -/
theorem run_spec (hn : ∀ v < n, ∀ w ∈ succ v, w < n) (fuel : Nat) : ∀ s : Descent,
    Sound succ n (Looked succ s.path) s → s.work succ n ≤ fuel →
      Idle succ n (run succ fuel s) ∧ ∀ x, s.Met x → (run succ fuel s).Met x := by
  induction fuel with
  | zero =>
    intro s h hwork
    have hpath : s.path = [] := by
      by_contra hne
      exact absurd (h.work_step hn hne) (by omega)
    exact ⟨⟨h, hpath⟩, fun x hx => hx⟩
  | succ fuel ih =>
    intro s h hwork
    rw [run]
    split_ifs with hpath
    · exact ⟨⟨h, List.isEmpty_iff.mp hpath⟩, fun x hx => hx⟩
    · have hlt := h.work_step hn fun hnil => hpath (List.isEmpty_iff.mpr hnil)
      obtain ⟨hidle, hmet⟩ := ih (s.step succ) (h.step hn) (by omega)
      exact ⟨hidle, fun x hx => hmet x (h.met_step hn hx)⟩

/-- No more steps are left than those of the whole graph. -/
theorem toMeet_le (s : Descent) : s.toMeet succ n ≤ ∑ v ∈ Finset.range n, ((succ v).length + 1) :=
  Finset.sum_le_sum fun v _ => by split_ifs <;> omega

theorem search_spec (hn : ∀ v < n, ∀ w ∈ succ v, w < n) (hfuel : ∑ v ∈ Finset.range n, ((succ v).length + 1) ≤ fuel)
    (h : Idle succ n s) (hv : v < n) :
    Idle succ n (search succ fuel s v) ∧ ∀ x, x = v ∨ s.Met x → (search succ fuel s v).Met x := by
  rw [search]
  split_ifs with hmet
  · exact ⟨h, fun x hx => hx.elim (fun hxv => hxv ▸ hmet) id⟩
  · have hsound : Sound succ n (Looked succ (s.enter v).path) (s.enter v) := by
      refine (h.sound.enter hv hmet fun u hu => ?_).mono fun x y hxy => hxy.of_enter
      rw [nodes, h.path_eq] at hu
      cases hu
    have hwork : (s.enter v).work succ n ≤ fuel := by
      have hpath : toLook succ s.path = 0 := by
        rw [h.path_eq]
        rfl
      rw [work_enter h.sound.size hv hmet, work, hpath]
      exact (toMeet_le s).trans hfuel
    obtain ⟨hidle, hkeep⟩ := run_spec hn fuel _ hsound hwork
    exact ⟨hidle, fun x hx => hkeep x ((met_enter (h.sound.size.symm ▸ hv)).mpr hx)⟩

theorem foldl_search_spec (hn : ∀ v < n, ∀ w ∈ succ v, w < n)
    (hfuel : ∑ v ∈ Finset.range n, ((succ v).length + 1) ≤ fuel) (roots : List Nat) : ∀ s : Descent,
    Idle succ n s → (∀ v ∈ roots, v < n) → Idle succ n (roots.foldl (search succ fuel) s) ∧
      ∀ x, x ∈ roots ∨ s.Met x → (roots.foldl (search succ fuel) s).Met x := by
  induction roots with
  | nil =>
    intro s h _
    exact ⟨h, fun x hx => hx.resolve_left List.not_mem_nil⟩
  | cons v roots ih =>
    intro s h hroots
    rw [List.forall_mem_cons] at hroots
    obtain ⟨hsearch, hmet⟩ := search_spec hn hfuel h hroots.1
    obtain ⟨hidle, hkeep⟩ := ih _ hsearch hroots.2
    refine ⟨hidle, fun x hx => hkeep x ?_⟩
    rw [List.mem_cons, or_assoc, or_left_comm] at hx
    exact hx.imp_right (hmet x)

/-- Nothing is on the stack when the path is empty. -/
theorem Idle.stack_eq (h : Idle succ n s) : s.stack = [] := by
  refine List.eq_nil_iff_forall_not_mem.mpr fun x hx => ?_
  obtain ⟨u, hu, -⟩ := h.sound.exists_node_le hx
  rw [nodes, h.path_eq] at hu
  cases hu

theorem idle_replicate (succ : Nat → List Nat) (n : Nat) : Idle succ n { marks := Array.replicate n none } := by
  have hmark : ∀ v, ({ marks := Array.replicate n none } : Descent).mark? v = none := by
    intro v
    rw [mark?, Array.getD_eq_getD_getElem?, Array.getElem?_replicate]
    split_ifs <;> rfl
  exact
    { path_eq := rfl
      sound :=
        { size := Array.size_replicate
          met_iff := fun v => by simp [Met, hmark]
          stacked_iff := fun v => by simp [Stacked, hmark]
          apart := by simp
          sorted := .nil
          number_lt := by simp
          nodes_mem := by simp [nodes]
          nodes_sorted := .nil
          split := ⟨by simp, by simp, .nil⟩
          reaches := by simp
          low_le := by simp
          low_reached := by simp
          low_left := by simp
          low_covers := by simp
          looked_met := by simp } }

end Descent

theorem foldl_range_add (f : Nat → Nat) (n : Nat) :
    (List.range n).foldl (fun k v => k + f v) 0 = ∑ v ∈ Finset.range n, f v := by
  induction n with
  | zero => rfl
  | succ n ih => rw [List.range_succ, List.foldl_append, ih, Finset.sum_range_succ, List.foldl_cons, List.foldl_nil]

/-- The end of the search: its components are those of the graph, and every vertex is in one. -/
theorem exists_split (hn : ∀ v < n, ∀ w ∈ succ v, w < n) :
    ∃ found, components succ n = found.reverse ∧ Descent.Split succ found ∧ ∀ v, v ∈ found.flatten ↔ v < n := by
  have hfuel := foldl_range_add (fun v => (succ v).length + 1) n
  obtain ⟨hidle, hmet⟩ := Descent.foldl_search_spec hn hfuel.ge (List.range n) _ (Descent.idle_replicate succ n)
    fun v hv => List.mem_range.mp hv
  refine ⟨_, rfl, hidle.sound.split, fun v => ?_⟩
  have hiff := hidle.sound.met_iff v
  rw [hidle.stack_eq, List.mem_nil_iff, false_or] at hiff
  rw [← hiff]
  exact ⟨fun hv => hidle.sound.size ▸ hv.lt_size, fun hv => hmet v (.inl (List.mem_range.mpr hv))⟩

/-- **The components of a graph** are classes of mutual reachability, and every vertex is
in one of them. -/
theorem components_spec (hn : ∀ v < n, ∀ w ∈ succ v, w < n) :
    (∀ c ∈ components succ n, IsComponent succ c) ∧ ∀ v < n, ∃ c ∈ components succ n, v ∈ c := by
  obtain ⟨found, heq, hsplit, hall⟩ := exists_split hn
  simp only [heq, List.mem_reverse]
  exact ⟨hsplit.isComponent, fun v hv => List.mem_flatten.mp ((hall v).mpr hv)⟩

theorem lt_of_mem_components (hn : ∀ v < n, ∀ w ∈ succ v, w < n) {c : List Nat} (hc : c ∈ components succ n) {v : Nat}
    (hv : v ∈ c) : v < n := by
  obtain ⟨found, heq, -, hall⟩ := exists_split hn
  rw [heq, List.mem_reverse] at hc
  exact (hall v).mp (List.mem_flatten.mpr ⟨c, hc, hv⟩)

/-- **The components come in reverse topological order**: a component shares no vertex with a
later one, and no edge leads from it to a later one. -/
theorem components_apart (hn : ∀ v < n, ∀ w ∈ succ v, w < n) :
    (components succ n).Pairwise fun c d => ∀ u ∈ c, u ∉ d ∧ ∀ w ∈ succ u, w ∉ d := by
  obtain ⟨found, heq, hsplit, -⟩ := exists_split hn
  rw [heq, List.pairwise_reverse]
  exact hsplit.apart

/-- Together the components list every vertex once. -/
theorem flatten_components_perm (hn : ∀ v < n, ∀ w ∈ succ v, w < n) :
    (components succ n).flatten.Perm (List.range n) := by
  obtain ⟨hcomponents, hcover⟩ := components_spec hn
  have hnodup : (components succ n).flatten.Nodup := by
    refine List.nodup_flatten.mpr ⟨fun c hc => (hcomponents c hc).nodup, ?_⟩
    exact (components_apart hn).imp fun h u hu hud => (h u hu).1 hud
  refine (List.perm_ext_iff_of_nodup hnodup List.nodup_range).mpr fun v => ?_
  rw [List.mem_flatten, List.mem_range]
  constructor
  · rintro ⟨c, hc, hv⟩
    exact lt_of_mem_components hn hc hv
  · exact hcover v

/-- Two vertices are in one component exactly if each can be reached from the other. -/
theorem exists_component_iff (hn : ∀ v < n, ∀ w ∈ succ v, w < n) {u v : Nat} (hu : u < n) :
    (∃ c ∈ components succ n, u ∈ c ∧ v ∈ c) ↔ Mutual succ u v := by
  obtain ⟨hcomponents, hcover⟩ := components_spec hn
  constructor
  · rintro ⟨c, hc, huc, hvc⟩
    exact (hcomponents c hc).mutual huc hvc
  · intro huv
    obtain ⟨c, hc, huc⟩ := hcover u hu
    exact ⟨c, hc, huc, (hcomponents c hc).mem_of_mutual huc huv⟩

end Liveness

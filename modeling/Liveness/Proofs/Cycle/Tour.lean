import Mathlib.Data.List.Forall2
import Mathlib.Tactic.Common
import Liveness.Cycle.Search
import Liveness.Proofs.Cycle.Arena
import Liveness.Proofs.Cycle.Components
import Liveness.Proofs.Cycle.Walk

/-!
# A cycle inside a component

A component with an accepting node, a node for each state check and an edge for each
action check that must occur holds a cycle with all of them, and the search finds one
(`fairCycle?_spec`): between any two nodes of the component there is a walk inside it,
so that no part of the tour from the accepting node round to itself fails.
-/

namespace Liveness.Arena

open Walk

variable {a : Arena} {m : Fairness} {c : List Nat} {start : Nat}

/-- The edges lead from the first node to the last, one after the other, and meet the
conditions on every step. -/
def Path (a : Arena) (m : Fairness) : Nat → List Edge → Nat → Prop
  | u, [], v => u = v
  | u, e :: es, v => e ∈ a.successors m u ∧ Path a m e.target es v

theorem path_append {u v : Nat} {es fs : List Edge} :
    Path a m u (es ++ fs) v ↔ ∃ w, Path a m u es w ∧ Path a m w fs v := by
  induction es generalizing u with
  | nil => simp [Path]
  | cons e es ih =>
    simp only [List.cons_append, Path, ih]
    constructor
    · rintro ⟨he, w, h₁, h₂⟩
      exact ⟨w, ⟨he, h₁⟩, h₂⟩
    · rintro ⟨w, ⟨he, h₁⟩, h₂⟩
      exact ⟨he, w, h₁, h₂⟩

/-- The last edge of a path leads to its end. -/
theorem Path.end_mem {u v : Nat} {es : List Edge} (h : Path a m u es v) (hne : es ≠ []) :
    v ∈ es.map Edge.target := by
  induction es generalizing u with
  | nil => exact absurd rfl hne
  | cons e es ih =>
    by_cases hes : es = []
    · subst hes
      obtain rfl : e.target = v := h.2
      simp
    · exact List.mem_cons_of_mem _ (ih h.2 hes)

theorem mem_next {u w : Nat} : w ∈ a.next m u ↔ ∃ e ∈ a.successors m u, e.target = w := by
  simp [next]

theorem Path.reaches {u v : Nat} {es : List Edge} (h : Path a m u es v) : Reaches (a.next m) u v := by
  induction es generalizing u with
  | nil => exact h ▸ .refl
  | cons e es ih => exact .head (mem_next.mpr ⟨e, h.1, rfl⟩) (ih h.2)

/-- A walk takes edges. -/
theorem exists_path_of_leads {member : Nat → Bool} {u v : Nat} {ws : List Nat}
    (h : Leads (a.next m) member u ws v) : ∃ es, Path a m u es v ∧ es.map Edge.target = ws := by
  induction ws generalizing u with
  | nil => exact ⟨[], h, rfl⟩
  | cons w ws ih =>
    obtain ⟨⟨hw, -⟩, hrest⟩ := h
    obtain ⟨e, he, rfl⟩ := mem_next.mp hw
    obtain ⟨es, hes, rfl⟩ := ih hrest
    exact ⟨e :: es, ⟨he, hes⟩, rfl⟩

/-! ### Walks inside a component -/

/-- Between two nodes of a component there is a walk inside it. -/
theorem exists_leads (hc : IsComponent (a.next m) c) {u v : Nat} (hu : u ∈ c) (hv : v ∈ c) :
    ∃ ws, Leads (a.next m) c.contains u ws v := by
  have huv : Reaches (a.next m) u v := (hc.mutual hu hv).1
  induction huv using Relation.ReflTransGen.head_induction_on with
  | refl => exact ⟨[], rfl⟩
  | @head u w hedge hrest ih =>
    have hw : w ∈ c := hc.mem_of_mutual hu ⟨.single hedge, Relation.ReflTransGen.trans hrest (hc.mutual hv hu).1⟩
    obtain ⟨ws, hws⟩ := ih hw
    exact ⟨w :: ws, ⟨hedge, by simpa using hw⟩, hws⟩

/-- From a node of a component with an edge inside it there is a walk that comes back. -/
theorem exists_leads_self (hc : IsComponent (a.next m) c) (hcyc : a.isCyclic m c = true) {v : Nat} (hv : v ∈ c) :
    ∃ ws, ws ≠ [] ∧ Leads (a.next m) c.contains v ws v := by
  by_cases hone : c = [v]
  · subst hone
    simp only [isCyclic, List.contains_iff_mem] at hcyc
    exact ⟨[v], by simp, ⟨hcyc, by simp⟩, rfl⟩
  · have hother : ∃ w ∈ c, w ≠ v := by
      by_contra hall
      push Not at hall
      have hrep : c = List.replicate c.length v := List.eq_replicate_of_mem hall
      have hlen : c.length ≤ 1 := List.nodup_replicate.mp (hrep ▸ hc.nodup)
      have hpos : 0 < c.length := List.length_pos_of_mem hv
      rw [show c.length = 1 by omega] at hrep
      exact hone hrep
    obtain ⟨w, hw, hne⟩ := hother
    obtain ⟨ws, hws⟩ := exists_leads hc hv hw
    obtain ⟨xs, hxs⟩ := exists_leads hc hw hv
    refine ⟨ws ++ xs, fun h => ?_, leads_append.mpr ⟨w, hws, hxs⟩⟩
    rw [(List.append_eq_nil_iff.mp h).1] at hws
    exact hne hws.symm

/-! ### The tour -/

/-- A walk so far: from `start` along edges, ending inside the component. -/
structure Touring (a : Arena) (m : Fairness) (c : List Nat) (start : Nat) (walk : List Nat × Nat)
    (es : List Edge) : Prop where
  nodes : walk.1 = start :: es.map Edge.target
  path : Path a m start es walk.2
  inside : walk.2 ∈ c

theorem Touring.walk_mem {walk : List Nat × Nat} {es : List Edge} (h : Touring a m c start walk es) :
    walk.2 ∈ walk.1 := by
  rw [h.nodes]
  by_cases hes : es = []
  · subst hes
    obtain rfl : start = walk.2 := h.path
    simp
  · exact List.mem_cons_of_mem _ (h.path.end_mem hes)

theorem visit_spec (hc : IsComponent (a.next m) c) (hn : ∀ u, ∀ w ∈ a.next m u, w < a.size)
    {walk : List Nat × Nat} {es : List Edge} (h : Touring a m c start walk es) {goal : Nat} (hgoal : goal ∈ c) :
    ∃ more, ∃ walk', a.visit m c walk goal = some walk' ∧ walk'.2 = goal ∧ Touring a m c start walk' (es ++ more) := by
  have hspec := walk_spec a m c.contains walk.2 goal false hn
  cases hw : a.walk m c.contains walk.2 goal false with
  | none =>
    obtain ⟨ws, hws⟩ := exists_leads hc h.inside hgoal
    rw [hw] at hspec
    exact absurd hws (hspec ws (by simp))
  | some ws =>
    rw [hw] at hspec
    obtain ⟨more, hmore, rfl⟩ := exists_path_of_leads hspec.2
    refine ⟨more, (walk.1 ++ more.map Edge.target, goal), ?_, rfl, ⟨?_, ?_, hgoal⟩⟩
    · rw [visit, hw]
      rfl
    · simp [h.nodes]
    · exact path_append.mpr ⟨walk.2, h.path, hmore⟩

theorem traverse_eq (walk : List Nat × Nat) (edge : Nat × Nat) :
    a.traverse m c walk edge = (a.visit m c walk edge.1).map fun w => (w.1 ++ [edge.2], edge.2) := by
  rw [traverse, visit]
  cases a.walk m c.contains walk.2 edge.1 false <;> rfl

/-- The action check `i` holds on an edge inside the component, between the given nodes. -/
def Shows (a : Arena) (m : Fairness) (c : List Nat) (i : Nat) (edge : Nat × Nat) : Prop :=
  edge.1 ∈ c ∧ edge.2 ∈ c ∧ ∃ e ∈ a.successors m edge.1, e.target = edge.2 ∧ e.actions.get i = true

theorem traverse_spec (hc : IsComponent (a.next m) c) (hn : ∀ u, ∀ w ∈ a.next m u, w < a.size)
    {walk : List Nat × Nat} {es : List Edge} (h : Touring a m c start walk es) {i : Nat} {edge : Nat × Nat}
    (hedge : Shows a m c i edge) :
    ∃ more, ∃ walk', a.traverse m c walk edge = some walk' ∧ Touring a m c start walk' (es ++ more) ∧
      ∃ e ∈ more, e.actions.get i = true := by
  obtain ⟨hu, hw, e, he, het, hbit⟩ := hedge
  obtain ⟨more, walk', hvisit, hend, htour⟩ := visit_spec hc hn h hu
  refine ⟨more ++ [e], (walk'.1 ++ [edge.2], edge.2), ?_, ⟨?_, ?_, hw⟩, e, by simp, hbit⟩
  · rw [traverse_eq, hvisit]
    rfl
  · simp [htour.nodes, het]
  · rw [← List.append_assoc]
    exact path_append.mpr ⟨edge.1, hend ▸ htour.path, he, het⟩

/-- The tour comes to all goals inside the component. -/
theorem foldlM_visit_spec (hc : IsComponent (a.next m) c) (hn : ∀ u, ∀ w ∈ a.next m u, w < a.size)
    (goals : List Nat) : ∀ (walk : List Nat × Nat) (es : List Edge), (∀ g ∈ goals, g ∈ c) →
      Touring a m c start walk es →
      ∃ more, ∃ walk', goals.foldlM (a.visit m c) walk = some walk' ∧ Touring a m c start walk' (es ++ more) ∧
        ∀ g ∈ goals, g ∈ walk'.1 := by
  induction goals with
  | nil => exact fun walk es _ h => ⟨[], walk, rfl, by simpa using h, by simp⟩
  | cons g goals ih =>
    intro walk es hgoals h
    obtain ⟨more₁, walk₁, hvisit, hend, h₁⟩ := visit_spec hc hn h (hgoals g (by simp))
    obtain ⟨more₂, walk₂, hrest, h₂, hmem⟩ := ih walk₁ _ (fun g' hg' => hgoals g' (by simp [hg'])) h₁
    refine ⟨more₁ ++ more₂, walk₂, ?_, by rwa [← List.append_assoc], fun g' hg' => ?_⟩
    · rw [List.foldlM_cons, hvisit]
      exact hrest
    · rcases List.mem_cons.mp hg' with rfl | hg'
      · have hlast : g' ∈ walk₁.1 := hend ▸ h₁.walk_mem
        rw [h₁.nodes] at hlast
        rw [h₂.nodes, List.map_append, ← List.cons_append]
        exact List.mem_append_left _ hlast
      · exact hmem g' hg'

/-- The tour takes an edge for each action check. -/
theorem foldlM_traverse_spec (hc : IsComponent (a.next m) c) (hn : ∀ u, ∀ w ∈ a.next m u, w < a.size)
    {checks : List Nat} {edges : List (Nat × Nat)} (hedges : List.Forall₂ (Shows a m c) checks edges) :
    ∀ (walk : List Nat × Nat) (es : List Edge), Touring a m c start walk es →
      ∃ more, ∃ walk', edges.foldlM (a.traverse m c) walk = some walk' ∧ Touring a m c start walk' (es ++ more) ∧
        ∀ i ∈ checks, ∃ e ∈ more, e.actions.get i = true := by
  induction hedges with
  | nil => exact fun walk es h => ⟨[], walk, rfl, by simpa using h, by simp⟩
  | cons hedge _ ih =>
    intro walk es h
    obtain ⟨more₁, walk₁, htraverse, h₁, e, he, hbit⟩ := traverse_spec hc hn h hedge
    obtain ⟨more₂, walk₂, hrest, h₂, hall⟩ := ih walk₁ _ h₁
    refine ⟨more₁ ++ more₂, walk₂, ?_, by rwa [← List.append_assoc], fun i hi => ?_⟩
    · rw [List.foldlM_cons, htraverse]
      exact hrest
    · rcases List.mem_cons.mp hi with rfl | hi
      · exact ⟨e, by simp [he], hbit⟩
      · obtain ⟨e', he', hbit'⟩ := hall i hi
        exact ⟨e', by simp [he'], hbit'⟩

/-- The tour through the goals and along the edges comes back to its start. -/
theorem tour_spec (hc : IsComponent (a.next m) c) (hn : ∀ u, ∀ w ∈ a.next m u, w < a.size)
    (hcyc : a.isCyclic m c = true) (hstart : start ∈ c) {goals : List Nat} (hgoals : ∀ g ∈ goals, g ∈ c)
    {checks : List Nat} {edges : List (Nat × Nat)} (hedges : List.Forall₂ (Shows a m c) checks edges) :
    ∃ es, (do
        let walk ← goals.foldlM (a.visit m c) ([start], start)
        let walk ← edges.foldlM (a.traverse m c) walk
        let back ← a.walk m c.contains walk.2 start (walk.1.length == 1)
        return walk.1 ++ back) = some (start :: es.map Edge.target) ∧
      Path a m start es start ∧ es ≠ [] ∧ (∀ g ∈ goals, g ∈ start :: es.map Edge.target) ∧
      ∀ i ∈ checks, ∃ e ∈ es, e.actions.get i = true := by
  obtain ⟨es₁, walk₁, hfold₁, h₁, hmem⟩ := foldlM_visit_spec hc hn goals ([start], start) [] hgoals
    ⟨rfl, rfl, hstart⟩
  obtain ⟨es₂, walk₂, hfold₂, h₂, hbits⟩ := foldlM_traverse_spec hc hn hedges walk₁ _ h₁
  rw [hfold₁, Option.bind_eq_bind, Option.bind_some, hfold₂, Option.bind_eq_bind, Option.bind_some]
  rw [List.nil_append] at h₁ h₂
  have hspec := walk_spec a m c.contains walk₂.2 start (walk₂.1.length == 1) hn
  cases hback : a.walk m c.contains walk₂.2 start (walk₂.1.length == 1) with
  | none =>
    -- there is a way back, and if the tour has not left the start, one that does
    rw [hback] at hspec
    obtain ⟨ws, hne, hws⟩ := exists_leads_self hc hcyc hstart
    obtain ⟨xs, hxs⟩ := exists_leads hc h₂.inside hstart
    exact absurd (leads_append.mpr ⟨start, hxs, hws⟩) (hspec (xs ++ ws) fun _ => by simp [hne])
  | some back =>
    rw [hback] at hspec
    obtain ⟨es₃, hpath, rfl⟩ := exists_path_of_leads hspec.2
    refine ⟨es₁ ++ es₂ ++ es₃, ?_, path_append.mpr ⟨walk₂.2, h₂.path, hpath⟩, ?_, fun g hg => ?_, fun i hi => ?_⟩
    · simp [h₂.nodes]
    · intro hnil
      obtain ⟨h₁₂, rfl⟩ := List.append_eq_nil_iff.mp hnil
      exact hspec.1 (by simp [h₂.nodes, h₁₂]) rfl
    · have := hmem g hg
      rw [h₁.nodes] at this
      rw [List.append_assoc, List.map_append, ← List.cons_append]
      exact List.mem_append_left _ this
    · obtain ⟨e, he, hbit⟩ := hbits i hi
      exact ⟨e, by simp [he], hbit⟩

/-! ### What is found -/

/-- The edges lead from `start`, an accepting node, round to it, and meet the conditions. -/
structure IsRound (a : Arena) (m : Fairness) (start : Nat) (es : List Edge) : Prop where
  path : Path a m start es start
  nonempty : es ≠ []
  accepting : a.accepting start = true
  someState : ∀ i ∈ m.someState, ∃ e ∈ es, (a.stateBits e.target).get i = true
  someStep : ∀ i ∈ m.someStep, ∃ e ∈ es, e.actions.get i = true

/-- The component has, each somewhere, what a round needs. -/
structure Promising (a : Arena) (m : Fairness) (c : List Nat) : Prop where
  cyclic : a.isCyclic m c = true
  accepting : ∃ v ∈ c, a.accepting v = true
  someState : ∀ i ∈ m.someState, ∃ v ∈ c, (a.stateBits v).get i = true
  someStep : ∀ i ∈ m.someStep, ∃ edge, Shows a m c i edge

theorem mapM_spec {α β : Type} (f : α → Option β) (xs : List α) :
    match xs.mapM f with
    | some ys => List.Forall₂ (fun x y => f x = some y) xs ys
    | none => ∃ x ∈ xs, f x = none := by
  induction xs with
  | nil => exact .nil
  | cons x xs ih =>
    rw [List.mapM_cons]
    cases hx : f x with
    | none => exact ⟨x, by simp, hx⟩
    | some y =>
      cases hxs : xs.mapM f with
      | none =>
        rw [hxs] at ih
        obtain ⟨x', hx', hnone⟩ := ih
        exact ⟨x', by simp [hx'], hnone⟩
      | some ys =>
        rw [hxs] at ih
        exact .cons hx ih

theorem edgeWith?_spec (a : Arena) (m : Fairness) (c : List Nat) (i : Nat) :
    match a.edgeWith? m c i with
    | some edge => Shows a m c i edge
    | none => ∀ edge, ¬ Shows a m c i edge := by
  cases h : a.edgeWith? m c i with
  | some edge =>
    obtain ⟨v, hv, hedge⟩ := List.exists_of_findSome?_eq_some h
    obtain ⟨e, he, rfl⟩ := Option.map_eq_some_iff.mp hedge
    have hprop := List.find?_some he
    simp only [Bool.and_eq_true, List.contains_iff_mem] at hprop
    exact ⟨hv, hprop.1, e, List.mem_of_find?_eq_some he, rfl, hprop.2⟩
  | none =>
    rintro ⟨u, w⟩ ⟨hu, hw, e, he, rfl, hbit⟩
    have hnone := List.findSome?_eq_none_iff.mp h u hu
    rw [Option.map_eq_none_iff, List.find?_eq_none] at hnone
    exact hnone e he (by simp [hbit, show e.target ∈ c from hw])

theorem mem_sorted {v : Nat} : v ∈ a.sorted c ↔ v ∈ c := mem_sortBy

theorem isComponent_sorted {succ : Nat → List Nat} (hc : IsComponent succ c) : IsComponent succ (a.sorted c) := by
  obtain ⟨v, hv⟩ := hc.mem_iff
  exact ⟨(sortBy_perm _ _).nodup_iff.mpr hc.nodup, v, fun x => mem_sorted.trans (hv x)⟩

theorem isCyclic_sorted (a : Arena) (m : Fairness) (c : List Nat) : a.isCyclic m (a.sorted c) = a.isCyclic m c := by
  have hlen : (a.sorted c).length = c.length := length_sortBy _ _
  match c with
  | [] => rfl
  | [v] => rfl
  | u :: v :: rest =>
    match hs : a.sorted (u :: v :: rest) with
    | [] => rfl
    | [w] => simp [hs] at hlen
    | _ :: _ :: _ => rfl

theorem Promising.find?_accepting (h : Promising a m c) : (a.sorted c).find? a.accepting ≠ none := by
  obtain ⟨v, hv, hacc⟩ := h.accepting
  exact fun hnone => List.find?_eq_none.mp hnone v (mem_sorted.mpr hv) hacc

theorem Promising.find?_someState (h : Promising a m c) {i : Nat} (hi : i ∈ m.someState) :
    ((a.sorted c).find? fun v => (a.stateBits v).get i) ≠ none := by
  obtain ⟨v, hv, hbit⟩ := h.someState i hi
  exact fun hnone => List.find?_eq_none.mp hnone v (mem_sorted.mpr hv) hbit

theorem Promising.edgeWith?_someStep (h : Promising a m c) {i : Nat} (hi : i ∈ m.someStep) :
    a.edgeWith? m (a.sorted c) i ≠ none := by
  obtain ⟨edge, hu, hw, hedge⟩ := h.someStep i hi
  intro hnone
  have hspec := edgeWith?_spec a m (a.sorted c) i
  rw [hnone] at hspec
  exact hspec edge ⟨mem_sorted.mpr hu, mem_sorted.mpr hw, hedge⟩

/-- A tour from an accepting node is a round if it passes a node for each state check that does not
hold at its start, and has an edge for each action check. -/
theorem isRound_of_visited {es : List Edge} (hpath : Path a m start es start) (hne : es ≠ [])
    (hacc : a.accepting start = true)
    (hgoals : ∀ i ∈ m.someState, (a.stateBits start).get i = false →
      ∃ g ∈ start :: es.map Edge.target, (a.stateBits g).get i = true)
    (hsteps : ∀ i ∈ m.someStep, ∃ e ∈ es, e.actions.get i = true) : IsRound a m start es := by
  -- the start is the end of the round, so each node of the tour is the target of an edge
  have htarget : ∀ v ∈ start :: es.map Edge.target, ∃ e ∈ es, e.target = v := by
    intro v hv
    rcases List.mem_cons.mp hv with rfl | hv
    · exact List.mem_map.mp (hpath.end_mem hne)
    · exact List.mem_map.mp hv
  have hvisited : ∀ i ∈ m.someState, ∃ g ∈ start :: es.map Edge.target, (a.stateBits g).get i = true := by
    intro i hi
    cases hbit : (a.stateBits start).get i with
    | true => exact ⟨start, List.mem_cons_self, hbit⟩
    | false => exact hgoals i hi hbit
  refine ⟨hpath, hne, hacc, fun i hi => ?_, hsteps⟩
  obtain ⟨g, hg, hbit⟩ := hvisited i hi
  obtain ⟨e, he, het⟩ := htarget g hg
  exact ⟨e, he, het ▸ hbit⟩

/-- **A component that has what a round needs holds one, and the search finds one.** It starts at the
first accepting node in the order of the keys. -/
theorem fairCycle?_spec (hc : IsComponent (a.next m) c) (hn : ∀ u, ∀ w ∈ a.next m u, w < a.size) :
    match a.fairCycle? m c with
    | some walk => ∃ start es, (a.sorted c).find? a.accepting = some start ∧ walk = start :: es.map Edge.target ∧
        IsRound a m start es
    | none => ¬ Promising a m c := by
  rw [fairCycle?]
  by_cases hcyc : a.isCyclic m c = true
  swap
  · simp only [hcyc, guard]
    exact fun h => hcyc h.cyclic
  simp only [hcyc, guard, if_true, Option.pure_def, Option.bind_eq_bind, Option.bind_some]
  cases hstart : (a.sorted c).find? a.accepting with
  | none => exact fun h => h.find?_accepting hstart
  | some start =>
    have hgoals := mapM_spec (fun i => (a.sorted c).find? fun v => (a.stateBits v).get i)
      (m.someState.filter fun i => !(a.stateBits start).get i)
    have hedges := mapM_spec (a.edgeWith? m (a.sorted c)) m.someStep
    simp only [Option.bind_some]
    split at hgoals
    case h_2 hgs =>
      rw [hgs]
      obtain ⟨i, hi, hnone⟩ := hgoals
      exact fun h => h.find?_someState (List.mem_filter.mp hi).1 hnone
    case h_1 goals hgs =>
    rw [hgs]
    split at hedges
    case h_2 hes =>
      rw [hes]
      obtain ⟨i, hi, hnone⟩ := hedges
      exact fun h => h.edgeWith?_someStep hi hnone
    case h_1 edges hes =>
    rw [hes]
    have hinside : ∀ g ∈ goals, g ∈ a.sorted c := by
      intro g hg
      obtain ⟨i, -, hi⟩ := exists_of_forall₂_right hgoals hg
      exact List.mem_of_find?_eq_some hi
    have hshows : List.Forall₂ (Shows a m (a.sorted c)) m.someStep edges := by
      refine hedges.imp fun i edge hi => ?_
      have := edgeWith?_spec a m (a.sorted c) i
      rwa [hi] at this
    obtain ⟨es, htour, hpath, hne, hvisited, hsteps⟩ := tour_spec (isComponent_sorted hc) hn
      ((isCyclic_sorted a m c).trans hcyc) (List.mem_of_find?_eq_some hstart) hinside hshows
    simp only [Option.pure_def, Option.bind_eq_bind] at htour
    simp only [Option.bind_some]
    rw [htour]
    refine ⟨start, es, rfl, rfl, isRound_of_visited hpath hne (List.find?_some hstart) (fun i hi hbit => ?_) hsteps⟩
    obtain ⟨g, hg, hfind⟩ := exists_of_forall₂_left hgoals (List.mem_filter.mpr ⟨hi, by simp [hbit]⟩)
    exact ⟨g, hvisited g hg, by simpa using List.find?_some hfind⟩

end Liveness.Arena

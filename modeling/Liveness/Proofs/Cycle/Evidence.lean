import Liveness.Proofs.Cycle.Search
import Liveness.Proofs.Lasso
import Liveness.Proofs.Store.Path

/-!
# What the search has to show

The edges that meet the conditions on every step split the graph in memory into strongly
connected components, those that lead nowhere else first (`componentsOf_partition`).

The cycle that the search takes from a component is *evidence* of a violation: it starts
at the accepting node with the least key, stays inside the component along such edges,
and has what the condition asks for. The tour was built from several walks; that it is
closed and not empty is what makes it fit a path. Any path to the start ends at the
start's state, and so does the cycle, whatever the files hold. The search therefore
fails only where the graph or that path cannot be read (`findViolation_evidence`).
-/

namespace Liveness

open Arena

variable {σ : Type} {s : Store} {p : Property σ} {a : Arena} {m : Fairness} {c : List Nat}

/-! ### The order of keys -/

namespace Key

theorem le_iff {k l : Key} : k.le l = true ↔ k.fp < l.fp ∨ k.fp = l.fp ∧ k.point ≤ l.point := by
  simp [le]

theorem le_trans {k l n : Key} (hkl : k.le l = true) (hln : l.le n = true) : k.le n = true := by
  rw [le_iff] at *
  rcases hkl with hkl | ⟨hkl, hpoint⟩
  · rcases hln with hln | ⟨hln, -⟩
    · exact .inl (UInt64.lt_trans hkl hln)
    · exact .inl (hln ▸ hkl)
  · rw [hkl]
    exact hln.imp_right fun ⟨hln, hpoint'⟩ => ⟨hln, UInt32.le_trans hpoint hpoint'⟩

theorem le_total (k l : Key) : k.le l = true ∨ l.le k = true := by
  rw [le_iff, le_iff]
  by_cases heq : k.fp = l.fp
  · exact (UInt32.le_total k.point l.point).imp (fun h => .inr ⟨heq, h⟩) fun h => .inr ⟨heq.symm, h⟩
  · exact (UInt64.lt_or_lt_of_ne heq).imp .inl .inl

end Key

/-! ### An example -/

/-- A root and a second node lead to each other; the root leads to a node that was only recorded, the
second one to a third, whose step back to the root does not meet the action check. A state check holds
at the root. -/
def Store.weir : Store :=
  let root : Key := ⟨1, 0⟩
  let basin : Key := ⟨2, 1⟩
  let outlet : Key := ⟨3, 1⟩
  let spill : Key := ⟨4, 0⟩
  let holds : Bits := .ofList [true]
  let fails : Bits := .ofList [false]
  let first := (({ key := root, parent := none, stateBits := holds } : Node).addStep basin 1 holds 0 2).2
  let second := (({ key := basin, parent := some root, stateBits := fails } : Node).addStep root 1 holds 0 2).2
  let third := (({ key := outlet, parent := some basin, stateBits := fails } : Node).addStep root 1 fails 0 1).2
  let store := ((({ folder := "", index := 0 } : Store).addRoot root).record spill root).addNode
    (first.addStep spill 1 holds 0 1).2
  (store.addNode (second.addStep outlet 1 holds 0 1).2).addNode third

/-- The condition that the checks hold somewhere, and that of the steps on every step. -/
def Fairness.ofWeir : Fairness := { someState := [0], someStep := [0], everyStep := [0] }

/-- A property of the weir; the second point is accepting. -/
def Property.ofWeir : Property Unit where
  name := "drained"
  tableau := (Tableau.ofNodes [⟨0, [0, 1], false, fun _ => true⟩, ⟨1, [0, 1], true, fun _ => true⟩] 1).toOption
  fairness := [.ofWeir]

namespace Arena

/-! ### The components -/

/-- **The components of the graph in memory** are a partition of its nodes into classes of mutual
reachability along the edges that meet the conditions on every step, and no such edge leads from a
component to a later one. -/
theorem componentsOf_partition (hload : Arena.load s p = .ok a) (m : Fairness) :
    (a.componentsOf m).flatten.Perm (List.range a.size) ∧ [] ∉ a.componentsOf m ∧
      (∀ u < a.size, ∀ v < a.size, (∃ c ∈ a.componentsOf m, u ∈ c ∧ v ∈ c) ↔ Mutual (a.next m) u v) ∧
      (a.componentsOf m).Pairwise fun c d => ∀ u ∈ c, ∀ v ∈ d, v ∉ a.next m u := by
  have hn : ∀ v < a.size, ∀ w ∈ a.next m v, w < a.size := fun v _ => ((load_spec s p).of_eq hload).next_lt v
  rw [componentsOf_eq]
  refine ⟨flatten_components_perm hn, ?_, fun u hu v _ => exists_component_iff hn hu, ?_⟩
  · intro hnil
    exact ((components_spec hn).1 [] hnil).ne_nil rfl
  · exact (components_apart hn).imp fun h u hu v hv hedge => (h u hu).2 v hedge hv

theorem exists_load_weir : ∃ a, Arena.load .weir .ofWeir = .ok a ∧ a.size = 4 ∧
    a.componentsOf .ofWeir = [[3], [2], [1, 0]] ∧ a.fairCycle? .ofWeir [1, 0] = some [1, 0, 1] := by
  have heval : (Arena.load .weir .ofWeir).toOption.map (fun a =>
      (a.size, a.componentsOf .ofWeir, a.fairCycle? .ofWeir [1, 0])) = some (4, [[3], [2], [1, 0]], some [1, 0, 1]) := by
    decide +kernel
  cases hload : Arena.load .weir .ofWeir with
  | error f => simp [hload, Except.toOption] at heval
  | ok a =>
    simp only [hload, Except.toOption, Option.map_some, Option.some.injEq, Prod.mk.injEq] at heval
    exact ⟨a, rfl, heval⟩

/-- In the weir the way back from the third node is cut, so that only the first two nodes hang together. -/
theorem componentsOf_partition_weir : ∃ a, Arena.load .weir .ofWeir = .ok a ∧
    [3, 2, 1, 0].Perm (List.range a.size) ∧ Mutual (a.next .ofWeir) 0 1 ∧ ¬ Mutual (a.next .ofWeir) 0 3 ∧
      [[3], [2], [1, 0]].Pairwise fun c d => ∀ u ∈ c, ∀ v ∈ d, v ∉ a.next .ofWeir u := by
  obtain ⟨a, hload, hsize, hcomponents, -⟩ := exists_load_weir
  obtain ⟨hperm, -, hmutual, hapart⟩ := componentsOf_partition hload .ofWeir
  rw [hcomponents] at hperm hmutual hapart
  refine ⟨a, hload, hperm, ?_, ?_, hapart⟩
  · exact (hmutual 0 (by omega) 1 (by omega)).mp ⟨[1, 0], by simp⟩
  · rw [← hmutual 0 (by omega) 3 (by omega)]
    decide

/-! ### The cycle -/

/-- The key of the node with a number. -/
def keyAt (a : Arena) (v : Nat) : Key := (a.vertices[v]?.map Vertex.key).getD default

theorem HasKey.keyAt_eq {v : Nat} {k : Key} (h : a.HasKey v k) : a.keyAt v = k := by
  obtain ⟨x, hx, rfl⟩ := h
  simp [keyAt, hx]

theorem exists_hasKey {v : Nat} (hv : v < a.size) : ∃ k, a.HasKey v k :=
  ⟨_, _, Array.getElem?_eq_getElem hv, rfl⟩

/-- The nodes of a component come in the order of their keys. -/
theorem pairwise_sorted (hc : ∀ v ∈ c, v < a.size) :
    (a.sorted c).Pairwise fun u v => (a.keyAt u).le (a.keyAt v) = true := by
  have hsorted : a.sorted c = sortBy (fun u v => (a.keyAt u).le (a.keyAt v)) c := by
    refine sortBy_congr fun u hu v hv => ?_
    simp [keyAt, Array.getElem?_eq_getElem (hc u hu), Array.getElem?_eq_getElem (hc v hv)]
  rw [hsorted]
  refine pairwise_sortBy ?_ ?_ c
  · intro u v w
    exact Key.le_trans
  · intro u v
    exact Key.le_total _ _

/-- The edge leads from `u` to `v` and meets the conditions on every step. -/
def Joins (a : Arena) (m : Fairness) (u v : Nat) (e : Edge) : Prop :=
  e ∈ a.edges u ∧ e.target = v ∧ ∀ i ∈ m.everyStep, e.actions.get i = true

theorem joins_target {u : Nat} {e : Edge} (he : e ∈ a.successors m u) : a.Joins m u e.target e :=
  ⟨(mem_successors.mp he).1, rfl, (mem_successors.mp he).2⟩

/-- A cycle inside a component, from its first accepting node to itself, that meets a condition. -/
structure Evidence (a : Arena) (m : Fairness) (c : List Nat) (start : Nat) (cycle : List Nat) : Prop where
  head : cycle.head? = some start
  last : cycle.getLast? = some start
  hasEdge : 2 ≤ cycle.length
  accepting : start ∈ c ∧ a.accepting start = true
  least : ∀ v ∈ c, a.accepting v = true → ∀ k l, a.HasKey start k → a.HasKey v l → k.le l = true
  everyStep : cycle.IsChain fun u v => u ∈ c ∧ v ∈ c ∧ ∃ e, a.Joins m u v e
  someState : ∀ i ∈ m.someState, ∃ v ∈ cycle, (a.stateBits v).get i = true
  someStep : ∀ i ∈ m.someStep, ∃ u v, [u, v] <:+: cycle ∧ ∃ e, a.Joins m u v e ∧ e.actions.get i = true

/-- A path ends at its last node. -/
theorem Path.getLast? {es : List Edge} : ∀ {u v : Nat}, Path a m u es v →
    (u :: es.map Edge.target).getLast? = some v := by
  induction es with
  | nil =>
    intro u v h
    exact congrArg some h
  | cons e es ih =>
    intro u v h
    rw [List.map_cons, List.getLast?_cons_cons]
    exact ih h.2

/-- The nodes of a path between nodes of a component are joined by edges inside it. -/
theorem Path.isChain (hc : IsComponent (a.next m) c) {es : List Edge} : ∀ {u v : Nat}, u ∈ c → v ∈ c →
    Path a m u es v → (u :: es.map Edge.target).IsChain fun x y => x ∈ c ∧ y ∈ c ∧ ∃ e, a.Joins m x y e := by
  induction es with
  | nil =>
    intro u v _ _ _
    exact List.isChain_singleton u
  | cons e es ih =>
    intro u v hu hv h
    obtain ⟨w, -, -, het⟩ := h.inside hc hu hv e (List.mem_cons_self ..)
    exact List.isChain_cons_cons.mpr ⟨⟨hu, het, e, joins_target h.1⟩, ih het hv h.2⟩

/-- An edge of a path joins two neighbours on it. -/
theorem Path.exists_infix {es : List Edge} : ∀ {u v : Nat}, Path a m u es v → ∀ e ∈ es,
    ∃ x, [x, e.target] <:+: u :: es.map Edge.target ∧ a.Joins m x e.target e := by
  induction es with
  | nil =>
    intro u v _ e he
    cases he
  | cons f es ih =>
    intro u v h e he
    rcases List.mem_cons.mp he with rfl | he
    · exact ⟨u, ⟨[], es.map Edge.target, rfl⟩, joins_target h.1⟩
    · obtain ⟨x, hx, hjoins⟩ := ih h.2 e he
      exact ⟨x, hx.trans (List.suffix_cons u _).isInfix, hjoins⟩

/-- What the search takes from a component is evidence. -/
theorem evidence_of_fairCycle? (h : Represents s p a) (hc : c ∈ a.componentsOf m) {cycle : List Nat}
    (hcycle : a.fairCycle? m c = some cycle) : ∃ start, Evidence a m c start cycle := by
  have hn : ∀ v < a.size, ∀ w ∈ a.next m v, w < a.size := fun v _ => h.next_lt v
  rw [componentsOf_eq] at hc
  have hcomponent := (components_spec hn).1 c hc
  have hspec := fairCycle?_spec hcomponent h.next_lt
  rw [hcycle] at hspec
  obtain ⟨start, es, hfind, rfl, hround⟩ := hspec
  have hstart : start ∈ c := mem_sorted.mp (List.mem_of_find?_eq_some hfind)
  refine ⟨start, rfl, hround.path.getLast?, ?_, ⟨hstart, hround.accepting⟩, ?_, hround.path.isChain hcomponent hstart hstart,
    fun i hi => ?_, fun i hi => ?_⟩
  · have := List.length_pos_of_ne_nil hround.nonempty
    simp only [List.length_cons, List.length_map]
    omega
  · -- Nodes before the first accepting one are not accepting, and those after it have larger keys.
    intro v hv hacc k l hk hl
    obtain ⟨-, before, after, hsorted, hbefore⟩ := List.find?_eq_some_iff_append.mp hfind
    have hpairwise := pairwise_sorted (a := a) fun v hv => lt_of_mem_components hn hc hv
    have hmem : v ∈ a.sorted c := mem_sorted.mpr hv
    rw [hsorted] at hpairwise hmem
    rcases List.mem_append.mp hmem with hmem | hmem
    · have := hbefore v hmem
      simp [hacc] at this
    · rw [← hk.keyAt_eq, ← hl.keyAt_eq]
      rcases List.mem_cons.mp hmem with rfl | hmem
      · exact (Key.le_total _ _).elim id id
      · exact (List.pairwise_cons.mp (List.pairwise_append.mp hpairwise).2.1).1 v hmem
  · obtain ⟨e, he, hbit⟩ := hround.someState i hi
    exact ⟨e.target, List.mem_cons_of_mem _ (List.mem_map_of_mem he), hbit⟩
  · obtain ⟨e, he, hbit⟩ := hround.someStep i hi
    obtain ⟨x, hinfix, hjoins⟩ := hround.path.exists_infix e he
    exact ⟨x, e.target, hinfix, e, hjoins, hbit⟩

/-- The cycle stays inside the component. -/
theorem Evidence.mem {start : Nat} {cycle : List Nat} (h : Evidence a m c start cycle) : ∀ v ∈ cycle, v ∈ c := by
  refine h.everyStep.induction (· ∈ c) cycle (fun u v huv _ => huv.2.1) fun hne => ?_
  have hhead := h.head
  rw [List.head?_eq_some_head hne] at hhead
  rw [Option.some.inj hhead]
  exact h.accepting.1

theorem keysOf_eq_map {vs : List Nat} (hvs : ∀ v ∈ vs, v < a.size) : a.keysOf vs = vs.map a.keyAt := by
  induction vs with
  | nil => rfl
  | cons v vs ih =>
    obtain ⟨k, hk⟩ := exists_hasKey (hvs v (by simp))
    rw [keysOf_cons hk, ih fun w hw => hvs w (by simp [hw]), List.map_cons, hk.keyAt_eq]

end Arena

namespace Store

/-- A path to the start of the cycle and the cycle make a lasso. -/
theorem exists_lasso_of_evidence (hc : ∀ v ∈ c, v < a.size) {start : Nat} {cycle : List Nat}
    (h : Evidence a m c start cycle) {k : Key} (hk : a.HasKey start k) {path : List Fingerprint}
    (hpath : s.pathTo k = .ok path) : ∃ l, Lasso.ofCycle path ((a.keysOf cycle).map Key.fp) = .ok l := by
  rw [keysOf_eq_map fun v hv => hc v (h.mem v hv), List.map_map]
  have hstart : ((cycle.head?).map (Key.fp ∘ a.keyAt)) = some k.fp := by
    rw [h.head, Option.map_some, Function.comp_apply, hk.keyAt_eq]
  refine Lasso.exists_ofCycle (getLast?_of_pathTo hpath) ?_ ?_
  · rw [List.head?_map, hstart]
  · rw [List.getLast?_map, h.last, ← h.head, hstart]

/-- **What is found is evidence, and fits the path to it.** Once the graph is in memory, the search
finds nothing, or takes a cycle that is evidence from a component; then it fails only if the path to
the start of the cycle cannot be read. -/
theorem findViolation_evidence (hload : Arena.load s p = .ok a) :
    (∀ m, ∀ c ∈ a.componentsOf m, ∀ cycle, a.fairCycle? m c = some cycle → ∃ start, Evidence a m c start cycle) ∧
      (s.findViolation p = .ok none ∨
        ∃ m ∈ p.conditions, ∃ c ∈ a.componentsOf m, ∃ cycle start k,
          a.fairCycle? m c = some cycle ∧ cycle.head? = some start ∧ a.HasKey start k ∧
            ((∃ f, s.pathTo k = .error f ∧ s.findViolation p = .error f) ∨
              ∃ path l, s.pathTo k = .ok path ∧ Lasso.ofCycle path ((a.keysOf cycle).map Key.fp) = .ok l ∧
                s.findViolation p = .ok (some l))) := by
  have h : Represents s p a := (load_spec s p).of_eq hload
  have hevidence : ∀ m, ∀ c ∈ a.componentsOf m, ∀ cycle, a.fairCycle? m c = some cycle →
      ∃ start, Evidence a m c start cycle := fun m c hc cycle hcycle => evidence_of_fairCycle? h hc hcycle
  have hloaded : ∀ f : Arena → Outcome (Option Lasso), (Arena.load s p >>= f) = f a := by
    intro f
    rw [hload]
    rfl
  refine ⟨hevidence, ?_⟩
  cases hfind : p.conditions.findSome? fun m => (a.cycleFor? m).map a.keysOf with
  | none => exact .inl (by rw [findViolation, hloaded, hfind]; rfl)
  | some keys =>
    obtain ⟨m, hm, hkeys⟩ := List.exists_of_findSome?_eq_some hfind
    obtain ⟨cycle, hcycle, rfl⟩ := Option.map_eq_some_iff.mp hkeys
    obtain ⟨c, hc, htaken⟩ := List.exists_of_findSome?_eq_some hcycle
    obtain ⟨start, hstart⟩ := hevidence m c hc cycle htaken
    have hlt : ∀ v ∈ c, v < a.size := fun v hv =>
      lt_of_mem_components (fun v _ => h.next_lt v) (componentsOf_eq a m ▸ hc) hv
    obtain ⟨k, hk⟩ := exists_hasKey (hlt start hstart.accepting.1)
    obtain ⟨rest, rfl⟩ := List.head?_eq_some_iff.mp hstart.head
    refine .inr ⟨m, hm, c, hc, _, start, k, htaken, rfl, hk, ?_⟩
    have hlasso : s.findViolation p = s.lassoAt k (a.keysOf rest) := by
      rw [findViolation, hloaded, hfind, keysOf_cons hk]
      rfl
    rw [hlasso]
    cases hpath : s.pathTo k with
    | error f =>
      refine .inl ⟨f, rfl, ?_⟩
      rw [lassoAt, hpath]
      rfl
    | ok path =>
      obtain ⟨l, hl⟩ := exists_lasso_of_evidence hlt hstart hk hpath
      refine .inr ⟨path, l, rfl, hl, lassoAt_eq_ok hpath ?_⟩
      rwa [keysOf_cons hk] at hl

/-- The weir's cycle starts at the second node, comes by the root and goes back along the step on which
the action check holds. -/
theorem findViolation_evidence_weir : ∃ a, Arena.load weir .ofWeir = .ok a ∧ [1, 0] ∈ a.componentsOf .ofWeir ∧
    a.fairCycle? .ofWeir [1, 0] = some [1, 0, 1] ∧ ∃ start, Evidence a .ofWeir [1, 0] start [1, 0, 1] := by
  obtain ⟨a, hload, -, hcomponents, hcycle⟩ := exists_load_weir
  have hmem : [1, 0] ∈ a.componentsOf .ofWeir := by simp [hcomponents]
  exact ⟨a, hload, hmem, hcycle, (findViolation_evidence hload).1 _ _ hmem _ hcycle⟩

end Store

end Liveness

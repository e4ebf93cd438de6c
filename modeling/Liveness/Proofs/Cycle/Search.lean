import Liveness.Proofs.Cycle.Tour

/-!
# The cycle search decides

The search finds a violation exactly if the reachable graph has a fair cycle
(`findViolation_eq_none_iff`). In memory the graph is the reachable one, a fair cycle
lies in one component along the edges that meet the conditions on every step, and such
a component is one in which the search finds a round.
-/

namespace Liveness

open Arena

variable {σ : Type} {s : Store} {p : Property σ} {a : Arena} {m : Fairness}

namespace Arena

/-! ### Edges in memory are steps of the graph -/

theorem mem_edges {u : Nat} {e : Edge} : e ∈ a.edges u ↔ ∃ x, a.vertices[u]? = some x ∧ e ∈ x.edges := by
  rw [edges]
  cases a.vertices[u]? <;> simp

theorem mem_successors {u : Nat} {e : Edge} :
    e ∈ a.successors m u ↔ e ∈ a.edges u ∧ ∀ i ∈ m.everyStep, e.actions.get i = true := by
  simp [successors, allowed]

/-- An edge out of a node is a step of the record of its key. -/
theorem Represents.exists_step (h : Represents s p a) {u : Nat} {k : Key} (hk : a.HasKey u k) {e : Edge}
    (he : e ∈ a.edges u) : ∃ t, s.HasStep k t ∧ a.Matches e t := by
  obtain ⟨x, hx, hmem⟩ := mem_edges.mp he
  obtain ⟨y, hy, rfl⟩ := hk
  obtain rfl : x = y := Option.some.inj (hx.symm.trans hy)
  have hload := h.loaded u x hx
  rw [Loaded] at hload
  split_ifs at hload with hw
  · obtain ⟨n, hn, -, hedges⟩ := hload
    obtain ⟨t, ht, hmatch⟩ := exists_of_forall₂_left hedges hmem
    exact ⟨t, ⟨hw, n, hn, ht⟩, hmatch⟩
  · rw [hload.2] at hmem
    cases hmem

/-- A step of the record of a node's key is an edge out of the node. -/
theorem Represents.exists_edge (h : Represents s p a) {u : Nat} {k : Key} (hk : a.HasKey u k) {t : Step}
    (ht : s.HasStep k t) : ∃ e ∈ a.edges u, a.Matches e t := by
  obtain ⟨x, hx, rfl⟩ := hk
  obtain ⟨hw, n, hn, hmem⟩ := ht
  have hload := h.loaded u x hx
  rw [Loaded, if_pos hw] at hload
  obtain ⟨n', hn', -, hedges⟩ := hload
  obtain rfl : n = n' := Except.ok.inj (hn.symm.trans hn')
  obtain ⟨e, he, hmatch⟩ := exists_of_forall₂_right hedges hmem
  exact ⟨e, mem_edges.mpr ⟨x, hx, he⟩, hmatch⟩

/-- A path in memory is a walk in the graph. -/
theorem Represents.exists_walk (h : Represents s p a) {es : List Edge} : ∀ {u v : Nat} {k : Key}, a.HasKey u k →
    Path a m u es v → ∃ ts l, s.IsWalk k ts l ∧ a.HasKey v l ∧ List.Forall₂ a.Matches es ts := by
  induction es with
  | nil =>
    rintro u v k hk rfl
    exact ⟨[], k, rfl, hk, .nil⟩
  | cons e es ih =>
    rintro u v k hk ⟨he, hrest⟩
    obtain ⟨t, ht, hmatch⟩ := h.exists_step hk (mem_successors.mp he).1
    obtain ⟨ts, l, hwalk, hl, hall⟩ := ih hmatch.2 hrest
    exact ⟨t :: ts, l, ⟨ht, hwalk⟩, hl, .cons hmatch hall⟩

/-- A walk in the graph whose steps meet the conditions is a path in memory. -/
theorem Represents.exists_path (h : Represents s p a) {ts : List Step}
    (hevery : ∀ t ∈ ts, ∀ i ∈ m.everyStep, t.actions.get i = true) : ∀ {u : Nat} {k l : Key}, a.HasKey u k →
    s.IsWalk k ts l → ∃ es v, Path a m u es v ∧ a.HasKey v l ∧ List.Forall₂ a.Matches es ts := by
  induction ts with
  | nil =>
    rintro u k l hk rfl
    exact ⟨[], u, rfl, hk, .nil⟩
  | cons t ts ih =>
    rintro u k l hk ⟨ht, hrest⟩
    obtain ⟨e, he, hmatch⟩ := h.exists_edge hk ht
    obtain ⟨es, v, hpath, hv, hall⟩ := ih (fun t' ht' => hevery t' (by simp [ht'])) hmatch.2 hrest
    refine ⟨e :: es, v, ⟨mem_successors.mpr ⟨he, fun i hi => ?_⟩, hpath⟩, hv, .cons hmatch hall⟩
    rw [hmatch.1]
    exact hevery t (by simp) i hi

/-- The edges of a path meet the conditions on every step. -/
theorem Path.everyStep {es : List Edge} : ∀ {u v : Nat}, Path a m u es v →
    ∀ e ∈ es, ∀ i ∈ m.everyStep, e.actions.get i = true := by
  induction es with
  | nil => simp
  | cons e es ih =>
    rintro u v ⟨he, hrest⟩ f hf
    rcases List.mem_cons.mp hf with rfl | hf
    · exact (mem_successors.mp he).2
    · exact ih hrest f hf

/-- Where a node is accepting its key is, and the other way round. -/
theorem Represents.accepting_iff (h : Represents s p a) {v : Nat} {k : Key} (hk : a.HasKey v k) :
    a.accepting v = true ↔ p.AcceptsAt k := by
  obtain ⟨x, hx, rfl⟩ := hk
  have hacc := h.accepting v x hx
  rw [Arena.accepting, hx, Property.AcceptsAt]
  rw [accepts] at hacc
  cases ht : p.tableau with
  | none =>
    rw [ht] at hacc
    simp [← Except.ok.inj hacc]
  | some t =>
    simp only [ht, Tableau.node] at hacc
    simp only [Option.map_some, Option.getD_some, Tableau.isAccepting]
    cases hn : t.nodes[x.key.point.toNat]? with
    | none =>
      rw [hn] at hacc
      cases hacc
    | some n =>
      rw [hn] at hacc
      rw [← Except.ok.inj hacc]

/-- The state checks of a node are those of its key. -/
theorem Represents.stateBits_get_iff (h : Represents s p a) {v : Nat} {k : Key} (hk : a.HasKey v k) (i : Nat) :
    (a.stateBits v).get i = true ↔ ∃ n, s.node k = .ok n ∧ n.stateBits.get i = true := by
  obtain ⟨x, hx, rfl⟩ := hk
  have hload := h.loaded v x hx
  rw [Loaded] at hload
  split_ifs at hload with hw
  · obtain ⟨n, hn, hbits, -⟩ := hload
    simp [stateBits, hx, hbits, hn]
  · obtain ⟨parent, hn⟩ := s.node_of_not_written (by simpa using hw)
    simp [stateBits, hx, hload.1, hn]

/-! ### Rounds and fair cycles -/

/-- A round in memory is a fair cycle of the graph along the same keys. -/
theorem Represents.exists_fairCycle (h : Represents s p a) {start : Nat} {es : List Edge}
    (hround : IsRound a m start es) :
    ∃ k ts, s.FairCycle p m k ts ∧ a.HasKey start k ∧ List.Forall₂ a.Matches es ts := by
  obtain ⟨k, hk⟩ : ∃ k, a.HasKey start k := by
    obtain ⟨e, es', hes⟩ := List.exists_cons_of_ne_nil hround.nonempty
    have hpath := hround.path
    rw [hes] at hpath
    obtain ⟨x, hx, -⟩ := mem_edges.mp (mem_successors.mp hpath.1).1
    exact ⟨x.key, x, hx, rfl⟩
  obtain ⟨ts, l, hwalk, hl, hall⟩ := h.exists_walk hk hround.path
  obtain rfl : k = l := by
    obtain ⟨x, hx, rfl⟩ := hk
    obtain ⟨y, hy, rfl⟩ := hl
    rw [Option.some.inj (hx.symm.trans hy)]
  refine ⟨k, ts, ⟨h.reachable start k hk, hwalk, ?_, ?_, ?_, ?_, ?_⟩, hk, hall⟩
  · rintro rfl
    exact hround.nonempty (List.forall₂_nil_right_iff.mp hall)
  · intro t ht i hi
    obtain ⟨e, he, hmatch⟩ := exists_of_forall₂_right hall ht
    rw [← hmatch.1]
    exact hround.path.everyStep e he i hi
  · obtain ⟨e, he, het⟩ := List.mem_map.mp (hround.path.end_mem hround.nonempty)
    obtain ⟨t, ht, hmatch⟩ := exists_of_forall₂_left hall he
    exact ⟨t, ht, (h.accepting_iff hmatch.2).mp (het ▸ hround.accepting)⟩
  · intro i hi
    obtain ⟨e, he, hbit⟩ := hround.someState i hi
    obtain ⟨t, ht, hmatch⟩ := exists_of_forall₂_left hall he
    exact ⟨t, ht, (h.stateBits_get_iff hmatch.2 i).mp hbit⟩
  · intro i hi
    obtain ⟨e, he, hbit⟩ := hround.someStep i hi
    obtain ⟨t, ht, hmatch⟩ := exists_of_forall₂_left hall he
    exact ⟨t, ht, hmatch.1 ▸ hbit⟩

/-- The edges of a path from a node of a component back to it lie inside the component. -/
theorem Path.inside {c : List Nat} (hc : IsComponent (a.next m) c) {es : List Edge} : ∀ {u v : Nat}, u ∈ c → v ∈ c →
    Path a m u es v → ∀ e ∈ es, ∃ w ∈ c, e ∈ a.successors m w ∧ e.target ∈ c := by
  induction es with
  | nil => simp
  | cons e es ih =>
    rintro u v hu hv ⟨he, hrest⟩ f hf
    have hin : e.target ∈ c := hc.mem_of_mutual hu
      ⟨.single (mem_next.mpr ⟨e, he, rfl⟩), Relation.ReflTransGen.trans hrest.reaches (hc.mutual hv hu).1⟩
    rcases List.mem_cons.mp hf with rfl | hf
    · exact ⟨u, hu, he, hin⟩
    · exact ih hin hv hrest f hf

/-- The component of a fair cycle has what a round needs. -/
theorem Represents.promising (h : Represents s p a) {k : Key} {ts : List Step} (hfair : s.FairCycle p m k ts)
    {c : List Nat} (hc : IsComponent (a.next m) c) {u : Nat} (hu : a.HasKey u k) (huc : u ∈ c) :
    Promising a m c := by
  obtain ⟨es, v, hpath, hv, hall⟩ := h.exists_path hfair.everyStep hu hfair.walk
  obtain rfl : v = u := h.inj v u k hv hu
  have hin := hpath.inside hc huc huc
  refine ⟨?_, ?_, fun i hi => ?_, fun i hi => ?_⟩
  · have hne : es ≠ [] := by
      rintro rfl
      exact hfair.nonempty (List.forall₂_nil_left_iff.mp hall)
    obtain ⟨e, he⟩ := List.exists_mem_of_ne_nil es hne
    obtain ⟨w, hw, hew, het⟩ := hin e he
    match c with
    | [] => rfl
    | [x] =>
      rw [List.mem_singleton] at hw het
      rw [isCyclic, List.contains_iff_mem]
      exact mem_next.mpr ⟨e, hw ▸ hew, het⟩
    | _ :: _ :: _ => rfl
  · obtain ⟨t, ht, hacc⟩ := hfair.accepting
    obtain ⟨e, he, hmatch⟩ := exists_of_forall₂_right hall ht
    obtain ⟨-, -, -, het⟩ := hin e he
    exact ⟨e.target, het, (h.accepting_iff hmatch.2).mpr hacc⟩
  · obtain ⟨t, ht, hbit⟩ := hfair.someState i hi
    obtain ⟨e, he, hmatch⟩ := exists_of_forall₂_right hall ht
    obtain ⟨-, -, -, het⟩ := hin e he
    exact ⟨e.target, het, (h.stateBits_get_iff hmatch.2 i).mpr hbit⟩
  · obtain ⟨t, ht, hbit⟩ := hfair.someStep i hi
    obtain ⟨e, he, hmatch⟩ := exists_of_forall₂_right hall ht
    obtain ⟨w, hw, hew, het⟩ := hin e he
    exact ⟨(w, e.target), hw, het, e, hew, rfl, hmatch.1 ▸ hbit⟩

/-! ### One condition -/

theorem next_eq_nil {v : Nat} (hv : a.size ≤ v) : a.next m v = [] := by
  have hnone : a.vertices[v]? = none := Array.getElem?_eq_none hv
  simp [next, successors, edges, hnone]

theorem componentsOf_eq (a : Arena) (m : Fairness) : a.componentsOf m = components (a.next m) a.size := by
  have hnext : (fun v => ((Array.range a.size).map (a.next m)).getD v []) = a.next m := by
    funext v
    by_cases hv : v < a.size
    · simp [Array.getD, hv]
    · simp [Array.getD, hv, next_eq_nil (m := m) (not_lt.mp hv)]
  rw [componentsOf, hnext]

/-- Edges lead to nodes. -/
theorem Represents.next_lt (h : Represents s p a) (u : Nat) : ∀ w ∈ a.next m u, w < a.size := by
  intro w hw
  obtain ⟨e, he, rfl⟩ := mem_next.mp hw
  have hmem := (mem_successors.mp he).1
  obtain ⟨x, hx, -⟩ := mem_edges.mp hmem
  obtain ⟨t, -, hmatch⟩ := h.exists_step ⟨x, hx, rfl⟩ hmem
  exact hmatch.2.lt_size

theorem keysOf_cons {v : Nat} {k : Key} (hk : a.HasKey v k) (vs : List Nat) :
    a.keysOf (v :: vs) = k :: a.keysOf vs := by
  obtain ⟨x, hx, rfl⟩ := hk
  simp [keysOf, hx]

theorem keysOf_targets {es : List Edge} {ts : List Step} (h : List.Forall₂ a.Matches es ts) :
    a.keysOf (es.map Edge.target) = ts.map Step.target := by
  induction h with
  | nil => rfl
  | cons hmatch _ ih => rw [List.map_cons, keysOf_cons hmatch.2, ih, List.map_cons]

/-- For one condition the search finds a fair cycle if there is one. -/
theorem Represents.cycleFor?_spec (h : Represents s p a) (m : Fairness) :
    match a.cycleFor? m with
    | some walk => ∃ k ts, s.FairCycle p m k ts ∧ a.keysOf walk = k :: ts.map Step.target
    | none => ∀ k ts, ¬ s.FairCycle p m k ts := by
  obtain ⟨hcomponents, hcover⟩ := components_spec fun v _ => h.next_lt (m := m) v
  rw [cycleFor?, componentsOf_eq]
  cases hfind : (components (a.next m) a.size).findSome? (a.fairCycle? m) with
  | some walk =>
    obtain ⟨c, hmem, hcycle⟩ := List.exists_of_findSome?_eq_some hfind
    have hspec := fairCycle?_spec (hcomponents c hmem) h.next_lt
    rw [hcycle] at hspec
    obtain ⟨start, es, -, rfl, hround⟩ := hspec
    obtain ⟨k, ts, hfair, hk, hall⟩ := h.exists_fairCycle hround
    exact ⟨k, ts, hfair, by rw [keysOf_cons hk, keysOf_targets hall]⟩
  | none =>
    intro k ts hfair
    obtain ⟨u, hu⟩ := h.complete k hfair.reachable
    obtain ⟨c, hmem, huc⟩ := hcover u hu.lt_size
    have hspec := fairCycle?_spec (hcomponents c hmem) h.next_lt
    rw [List.findSome?_eq_none_iff.mp hfind c hmem] at hspec
    exact hspec (h.promising hfair (hcomponents c hmem) hu huc)

end Arena

/-! ### The search -/

namespace Store

/-- The violation of a cycle that starts and ends at `k`, with a path to it. -/
def lassoAt (s : Store) (k : Key) (targets : List Key) : Outcome (Option Lasso) := do
  let path ← s.pathTo k
  let lasso ← Fault.ofReconstruction (Lasso.ofCycle path ((k :: targets).map Key.fp))
  return some lasso

/-- Once the graph is in memory, the search either finds that it has no fair cycle or
gives the violation of one. -/
theorem findViolation_of_represents (hload : Arena.load s p = .ok a) (h : Represents s p a) :
    (s.findViolation p = .ok none ∧ ∀ m ∈ p.conditions, ∀ k ts, ¬ s.FairCycle p m k ts) ∨
      ∃ m ∈ p.conditions, ∃ k ts, s.FairCycle p m k ts ∧ s.findViolation p = s.lassoAt k (ts.map Step.target) := by
  have hloaded : ∀ f : Arena → Outcome (Option Lasso), (Arena.load s p >>= f) = f a := by
    intro f
    rw [hload]
    rfl
  cases hfind : p.conditions.findSome? fun m => (a.cycleFor? m).map a.keysOf with
  | none =>
    refine Or.inl ⟨by rw [findViolation, hloaded, hfind]; rfl, fun m hm => ?_⟩
    have hnone := List.findSome?_eq_none_iff.mp hfind m hm
    have hspec := h.cycleFor?_spec m
    rwa [Option.map_eq_none_iff.mp hnone] at hspec
  | some keys =>
    obtain ⟨m, hm, hcycle⟩ := List.exists_of_findSome?_eq_some hfind
    obtain ⟨walk, hwalk, rfl⟩ := Option.map_eq_some_iff.mp hcycle
    have hspec := h.cycleFor?_spec m
    rw [hwalk] at hspec
    obtain ⟨k, ts, hfair, hkeys⟩ := hspec
    exact Or.inr ⟨m, hm, k, ts, hfair, by rw [findViolation, hloaded, hfind, hkeys]; rfl⟩

/-- The search comes to an answer unless a reachable record or point is bad. -/
theorem findViolation_cases (s : Store) (p : Property σ) :
    (s.findViolation p = .ok none ∧ ∀ m ∈ p.conditions, ∀ k ts, ¬ s.FairCycle p m k ts) ∨
      (∃ m ∈ p.conditions, ∃ k ts, s.FairCycle p m k ts ∧ s.findViolation p = s.lassoAt k (ts.map Step.target)) ∨
      (Broken s p ∧ ∃ f, Arena.load s p = .error f ∧ s.findViolation p = .error f) := by
  have hspec := Arena.load_spec s p
  cases hload : Arena.load s p with
  | ok a => exact (findViolation_of_represents hload (hspec.of_eq hload)).imp_right Or.inl
  | error f =>
    rw [hload] at hspec
    refine Or.inr (Or.inr ⟨hspec, f, rfl, ?_⟩)
    rw [findViolation, hload]
    rfl

theorem lassoAt_eq_ok {k : Key} {targets : List Key} {path : List Fingerprint} (hpath : s.pathTo k = .ok path) {l : Lasso}
    (hl : Lasso.ofCycle path ((k :: targets).map Key.fp) = .ok l) : s.lassoAt k targets = .ok (some l) := by
  rw [lassoAt, hpath]
  change (Fault.ofReconstruction _ >>= fun lasso => pure (some lasso)) = _
  rw [hl]
  rfl

theorem lassoAt_ne_none (s : Store) (k : Key) (targets : List Key) : s.lassoAt k targets ≠ .ok none := by
  intro h
  rw [lassoAt] at h
  cases hpath : s.pathTo k with
  | error f =>
    rw [hpath] at h
    cases h
  | ok path =>
    rw [hpath] at h
    change (Fault.ofReconstruction _ >>= fun lasso => pure (some lasso)) = _ at h
    cases hlasso : Fault.ofReconstruction (Lasso.ofCycle path ((k :: targets).map Key.fp)) <;>
    · rw [hlasso] at h
      cases h

/-- A reachable graph in which nothing is bad can be loaded. -/
theorem not_broken (hread : ∀ k, s.Reachable k → s.isWritten k = true → ∃ n, s.node k = .ok n)
    (hpoint : ∀ t, p.tableau = some t → ∀ k, s.Reachable k → k.point.toNat < t.size) : ¬ Broken s p := by
  rintro ⟨k, hk, haccepts | ⟨hw, hnode⟩⟩
  · cases ht : p.tableau with
    | none => exact haccepts true (by rw [accepts, ht])
    | some t =>
      have hlt : k.point.toNat < t.nodes.size := hpoint t ht k hk
      exact haccepts t.nodes[k.point.toNat].accepting (by
        rw [accepts, ht]
        simp only [Tableau.node, Array.getElem?_eq_getElem hlt]
        rfl)
  · obtain ⟨n, hn⟩ := hread k hk hw
    exact hnode n hn

/-- **The search finds nothing exactly if the reachable graph has no fair cycle**, for any
graph whose reachable records can be read and whose reachable points are in the tableau. -/
theorem findViolation_eq_none_iff (s : Store) (p : Property σ)
    (hread : ∀ k, s.Reachable k → s.isWritten k = true → ∃ n, s.node k = .ok n)
    (hpoint : ∀ t, p.tableau = some t → ∀ k, s.Reachable k → k.point.toNat < t.size) :
    s.findViolation p = .ok none ↔ ∀ m ∈ p.conditions, ¬ ∃ k es, s.FairCycle p m k es := by
  rcases s.findViolation_cases p with ⟨hnone, hno⟩ | ⟨m, hm, k, ts, hfair, hlasso⟩ | ⟨hbroken, -⟩
  · exact ⟨fun _ m hm => fun ⟨k, es, h⟩ => hno m hm k es h, fun _ => hnone⟩
  · rw [hlasso]
    exact ⟨fun h => absurd h (s.lassoAt_ne_none k _), fun h => absurd ⟨k, ts, hfair⟩ (h m hm)⟩
  · exact absurd hbroken (not_broken hread hpoint)

/-- Two nodes that lead to each other; one is a root, and a state check holds at the other. -/
def pendulum : Store :=
  let left : Key := ⟨1, 0⟩
  let right : Key := ⟨2, 1⟩
  let checks : Bits := .ofList [true]
  let there := (({ key := left, parent := none } : Node).addStep right 1 checks 0 1).2
  let back := (({ key := right, parent := some left, stateBits := checks } : Node).addStep left 1 checks 0 1).2
  ((({ folder := "", index := 0 } : Store).addRoot left).addNode there).addNode back

/-- A property of the pendulum with all kinds of conditions; the point of the right node is
accepting. -/
def pendulumProperty : Property Unit where
  name := "rest"
  tableau := (Tableau.ofNodes [⟨0, [1], false, fun _ => true⟩, ⟨1, [0], true, fun _ => true⟩] 1).toOption
  fairness := [{ someState := [0], someStep := [0], everyStep := [0] }]

theorem node_pendulum : ∀ l ∈ [((⟨1, 0⟩, ⟨2, 1⟩) : Key × Key), (⟨2, 1⟩, ⟨1, 0⟩)],
    pendulum.isWritten l.1 = true ∧ ∃ n, pendulum.node l.1 = .ok n ∧ n.steps = [⟨l.2, .ofList [true]⟩] := by
  have heval : ∀ l ∈ [((⟨1, 0⟩, ⟨2, 1⟩) : Key × Key), (⟨2, 1⟩, ⟨1, 0⟩)], pendulum.isWritten l.1 = true ∧
      (pendulum.node l.1).toOption.map Node.steps = some [⟨l.2, .ofList [true]⟩] := by decide +kernel
  intro l hl
  obtain ⟨hw, hn⟩ := heval l hl
  cases hnode : pendulum.node l.1 with
  | error f => simp [hnode, Except.toOption] at hn
  | ok n => exact ⟨hw, n, rfl, by simpa [hnode, Except.toOption] using hn⟩

theorem reachable_pendulum {k : Key} (h : pendulum.Reachable k) :
    ∃ l ∈ [((⟨1, 0⟩, ⟨2, 1⟩) : Key × Key), (⟨2, 1⟩, ⟨1, 0⟩)], l.1 = k := by
  induction h with
  | root hk =>
    have hroots : pendulum.roots = [⟨1, 0⟩] := by decide +kernel
    rw [hroots, List.mem_singleton] at hk
    exact ⟨_, List.mem_cons_self .., hk.symm⟩
  | @step k e _ he ih =>
    obtain ⟨l, hl, rfl⟩ := ih
    obtain ⟨-, n, hn, hmem⟩ := he
    obtain ⟨-, n', hn', hsteps⟩ := node_pendulum l hl
    obtain rfl : n = n' := Except.ok.inj (hn.symm.trans hn')
    rw [hsteps, List.mem_singleton] at hmem
    simp only [List.mem_cons, List.not_mem_nil, or_false] at hl
    rcases hl with rfl | rfl <;> simp [hmem]

/-- The pendulum swings for ever, so that the search finds a violation. -/
theorem findViolation_pendulum : pendulum.findViolation pendulumProperty ≠ .ok none := by
  have hiff := findViolation_eq_none_iff pendulum pendulumProperty
    (fun k hk _ => by
      obtain ⟨l, hl, rfl⟩ := reachable_pendulum hk
      obtain ⟨-, n, hn, -⟩ := node_pendulum l hl
      exact ⟨n, hn⟩)
    (fun t ht k hk => by
      obtain rfl := Option.some.inj ht
      obtain ⟨l, hl, rfl⟩ := reachable_pendulum hk
      simp only [List.mem_cons, List.not_mem_nil, or_false] at hl
      rcases hl with rfl | rfl <;> decide)
  obtain ⟨hw, n, hn, hsteps⟩ := node_pendulum (⟨1, 0⟩, ⟨2, 1⟩) (by simp)
  obtain ⟨hw', n', hn', hsteps'⟩ := node_pendulum (⟨2, 1⟩, ⟨1, 0⟩) (by simp)
  have hchecks : (pendulum.node ⟨2, 1⟩).toOption.map (fun n => n.stateBits.get 0) = some true := by decide +kernel
  rw [hn'] at hchecks
  refine fun hnone => hiff.mp hnone _ (List.mem_singleton_self _)
    ⟨⟨1, 0⟩, [⟨⟨2, 1⟩, .ofList [true]⟩, ⟨⟨1, 0⟩, .ofList [true]⟩], ?_⟩
  exact {
    reachable := .root (by decide +kernel)
    walk := ⟨⟨hw, n, hn, by simp [hsteps]⟩, ⟨hw', n', hn', by simp [hsteps']⟩, rfl⟩
    nonempty := by simp
    everyStep := by decide +kernel
    accepting := ⟨_, List.mem_cons_self .., rfl⟩
    someState := fun i hi => ⟨_, List.mem_cons_self .., n', hn', by
      obtain rfl : i = 0 := by simpa using hi
      exact Option.some.inj hchecks⟩
    someStep := by decide +kernel }

end Store

end Liveness

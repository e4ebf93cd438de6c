import Liveness.Proofs.Cycle.Evidence

/-!
# Shortest walks

The walk that the breadth-first search finds is a shortest one (`Arena.length_walk_le`). The
trails in the queue become longer from its front to its end, by one step at most, and a node
to which a walk leads that is not longer than any of them is settled or stands in the queue
with a trail of that length (`Levelled`). So when the goal turns up behind the first node of
the queue, all nodes to which shorter walks lead are settled, and none of these has an edge
to the goal.
-/

namespace Liveness

namespace Walk

variable {next : Nat → List Nat} {member : Nat → Bool} {source goal n v : Nat} {seen new trail : List Nat}
  {queue : Frontier}

/-- The queue is in the order of the lengths of its trails, and complete up to the first of them. -/
structure Levelled (next : Nat → List Nat) (member : Nat → Bool) (source goal : Nat) (seen : List Nat)
    (queue : Frontier) : Prop where
  sorted : queue.Pairwise fun e f => e.2.length ≤ f.2.length
  near : ∀ e ∈ queue, ∀ f ∈ queue, f.2.length ≤ e.2.length + 1
  reached : ∀ ws x, Leads next member source ws x → (∀ e ∈ queue, ws.length ≤ e.2.length) →
    Settled next member source goal seen x ∨ ∃ e ∈ queue, e.1 = x ∧ e.2.length = ws.length

theorem levelled_start (next : Nat → List Nat) (member : Nat → Bool) (source goal : Nat) :
    Levelled next member source goal [] [(source, [])] := by
  refine ⟨by simp, by simp, fun ws x hleads hle => ?_⟩
  have hnil : ws = [] := by simpa using hle
  subst hnil
  exact .inr ⟨(source, []), by simp, hleads, rfl⟩

/-- A node to which a walk leads that is shorter than all trails of the queue is settled. -/
theorem Levelled.settled (h : Levelled next member source goal seen queue) {ws : List Nat} {x : Nat}
    (hleads : Leads next member source ws x) (hlt : ∀ e ∈ queue, ws.length < e.2.length) :
    Settled next member source goal seen x := by
  refine (h.reached ws x hleads fun e he => (hlt e he).le).resolve_right ?_
  rintro ⟨e, he, -, hlen⟩
  exact (hlt e he).ne hlen.symm

theorem Levelled.length_le (h : Levelled next member source goal seen ((v, trail) :: queue)) {e : Nat × List Nat}
    (he : e ∈ (v, trail) :: queue) : trail.length ≤ e.2.length := by
  rcases List.mem_cons.mp he with rfl | he
  · exact le_rfl
  · exact (List.pairwise_cons.mp h.sorted).1 e he

/-- No walk to the goal is as short as the first trail of the queue. -/
theorem Levelled.lt_length (h : Levelled next member source goal seen ((v, trail) :: queue)) {ws : List Nat}
    (hne : ws ≠ []) (hleads : Leads next member source ws goal) : trail.length < ws.length := by
  obtain ⟨us, w, rfl⟩ := (List.eq_nil_or_concat' ws).resolve_left hne
  obtain ⟨rfl, y, hy, hedge, hm⟩ := leads_concat.mp hleads
  by_contra hlt
  rw [List.length_append, List.length_singleton] at hlt
  have hsettled := h.settled hy fun e he => by
    have := h.length_le he
    omega
  exact (hsettled w hedge hm).1 rfl

/-- The lengths of the trails once the new successors of the first node are in the queue. -/
theorem Levelled.bounds (h : Levelled next member source goal seen ((v, trail) :: queue)) {e : Nat × List Nat}
    (he : e ∈ queue ++ new.reverse.map fun w => (w, w :: trail)) :
    trail.length ≤ e.2.length ∧ e.2.length ≤ trail.length + 1 := by
  rcases List.mem_append.mp he with he | he
  · have hmem := List.mem_cons_of_mem (v, trail) he
    exact ⟨h.length_le hmem, h.near (v, trail) (List.mem_cons_self ..) e hmem⟩
  · obtain ⟨w, -, rfl⟩ := List.mem_map.mp he
    simp

/-- For the walks up to the level of the first node nothing changes, but that this node is settled. -/
theorem Levelled.reached_of_le (h : Levelled next member source goal seen ((v, trail) :: queue))
    (hws : Settled next member source goal (new ++ seen) v) {ws : List Nat} {x : Nat}
    (hleads : Leads next member source ws x) (hlen : ws.length ≤ trail.length) :
    Settled next member source goal (new ++ seen) x ∨
      ∃ e ∈ queue ++ new.reverse.map fun w => (w, w :: trail), e.1 = x ∧ e.2.length = ws.length := by
  rcases h.reached ws x hleads fun e he => hlen.trans (h.length_le he) with hset | ⟨e, he, rfl, heq⟩
  · exact .inl (hset.append new)
  · rcases List.mem_cons.mp he with rfl | he
    · exact .inl hws
    · exact .inr ⟨e, List.mem_append_left _ he, rfl, heq⟩

/-- **One node** of the queue is settled: the order is kept, and when it was the last node of its level the
next level is complete. -/
theorem Levelled.step (h : Levelled next member source goal seen ((v, trail) :: queue))
    (hws : Settled next member source goal (new ++ seen) v)
    (h' : Searching next member source goal n (new ++ seen) (queue ++ new.reverse.map fun w => (w, w :: trail))) :
    Levelled next member source goal (new ++ seen) (queue ++ new.reverse.map fun w => (w, w :: trail)) := by
  have hsorted := List.pairwise_cons.mp h.sorted
  refine ⟨List.pairwise_append.mpr ⟨hsorted.2, ?_, fun e he f hf => ?_⟩, fun e he f hf => ?_, ?_⟩
  · exact List.pairwise_map.mpr (List.pairwise_of_forall fun _ _ => le_rfl)
  · obtain ⟨w, -, rfl⟩ := List.mem_map.mp hf
    exact h.near (v, trail) (List.mem_cons_self ..) e (List.mem_cons_of_mem _ he)
  · have := (h.bounds he).1
    have := (h.bounds hf).2
    omega
  · -- a walk beyond the level of `v`, if no trail is shorter, takes its last step from a node that is settled by now
    intro ws
    induction ws using List.reverseRecOn with
    | nil => exact fun x hleads _ => h.reached_of_le hws hleads (Nat.zero_le _)
    | append_singleton us w ih =>
      intro x hleads hle
      by_cases hlen : (us ++ [w]).length ≤ trail.length
      · exact h.reached_of_le hws hleads hlen
      rw [List.length_append, List.length_singleton] at hle hlen
      obtain ⟨rfl, y, hy, hedge, hm⟩ := leads_concat.mp hleads
      have hsettled : Settled next member source goal (new ++ seen) y := by
        refine (ih y hy fun e he => (Nat.le_succ _).trans (hle e he)).resolve_right ?_
        rintro ⟨e, he, -, heq⟩
        have := hle e he
        omega
      rcases h'.covered w (hsettled w hedge hm).2 with ⟨e, he, rfl⟩ | hset
      · have := hle e he
        have := (h.bounds he).2
        exact .inr ⟨e, he, rfl, by rw [List.length_append, List.length_singleton]; omega⟩
      · exact .inl hset

/-- **The search** finds no walk that is longer than another one. -/
theorem length_le_of_trailSearch (hn : ∀ u, ∀ w ∈ next u, w < n) (fuel : Nat) :
    ∀ (seen : List Nat) (queue : Frontier), Searching next member source goal n seen queue →
      Levelled next member source goal seen queue →
      ∀ walk, trailSearch next member source goal fuel seen queue = some walk → ∀ ws, ws ≠ [] →
        Leads next member source ws goal → walk.length ≤ ws.length := by
  induction fuel with
  | zero =>
    intro seen queue _ _ walk hwalk
    cases hwalk
  | succ fuel ih =>
    intro seen queue h hlevel walk hwalk
    cases queue with
    | nil => cases hwalk
    | cons e queue =>
      obtain ⟨v, trail⟩ := e
      have hscan := trailScan_spec member source goal trail (next v) seen queue h.goal_not_mem
      rw [trailSearch] at hwalk
      cases hres : trailScan member source goal trail (next v) seen queue with
      | error found =>
        rw [hres] at hscan hwalk
        obtain ⟨-, -, rfl⟩ := hscan
        obtain rfl := Option.some.inj hwalk
        intro ws hne hleads
        rw [List.length_reverse, List.length_cons]
        exact hlevel.lt_length hne hleads
      | ok r =>
        obtain ⟨seen', queue'⟩ := r
        rw [hres] at hscan hwalk
        obtain ⟨new, rfl, rfl, hnodup, hnew, hws⟩ := hscan
        have h' := h.step hn hnodup hnew hws
        exact ih _ _ h' (hlevel.step hws h') walk hwalk

end Walk

namespace Arena

variable {σ : Type} {s : Store} {p : Property σ} {a : Arena} {m : Fairness} {member : Nat → Bool} {source goal : Nat}
  {atLeastOne : Bool} {ws : List Nat}

/-- The nodes `ws` are those after `source` on a way to `goal` along edges into members that meet the
conditions on every step; with `atLeastOne` the way takes an edge. -/
structure IsWay (a : Arena) (m : Fairness) (member : Nat → Bool) (source goal : Nat) (atLeastOne : Bool)
    (ws : List Nat) : Prop where
  steps : (source :: ws).IsChain fun u w => (∃ e, a.Joins m u w e) ∧ member w = true
  last : (source :: ws).getLast? = some goal
  takes : atLeastOne = true → ws ≠ []

theorem mem_next_iff_joins {u w : Nat} : w ∈ a.next m u ↔ ∃ e, a.Joins m u w e := by
  rw [mem_next]
  constructor
  · rintro ⟨e, he, rfl⟩
    exact ⟨e, joins_target he⟩
  · rintro ⟨e, he, htarget, hall⟩
    exact ⟨e, List.mem_filter.mpr ⟨he, List.all_eq_true.mpr hall⟩, htarget⟩

theorem isWay_iff : a.IsWay m member source goal atLeastOne ws ↔
    Walk.Leads (a.next m) member source ws goal ∧ (atLeastOne = true → ws ≠ []) := by
  have hchain : ∀ source, ((source :: ws).IsChain fun u w => (∃ e, a.Joins m u w e) ∧ member w = true) ∧
      (source :: ws).getLast? = some goal ↔ Walk.Leads (a.next m) member source ws goal := by
    induction ws with
    | nil => simp [Walk.Leads]
    | cons w ws ih =>
      intro source
      rw [List.isChain_cons_cons, List.getLast?_cons_cons, Walk.Leads, mem_next_iff_joins, ← ih w, and_assoc]
  rw [← hchain]
  constructor
  · rintro ⟨hsteps, hlast, htakes⟩
    exact ⟨⟨hsteps, hlast⟩, htakes⟩
  · rintro ⟨⟨hsteps, hlast⟩, htakes⟩
    exact ⟨hsteps, hlast, htakes⟩

/-- A walk that is found is not longer than another one. -/
theorem length_walk_le (hn : ∀ u, ∀ w ∈ a.next m u, w < a.size)
    (hwalk : a.walk m member source goal atLeastOne = some ws) {xs : List Nat}
    (hxs : Walk.Leads (a.next m) member source xs goal) (htakes : atLeastOne = true → xs ≠ []) :
    ws.length ≤ xs.length := by
  rw [walk, Walk.search_start] at hwalk
  split_ifs at hwalk with h
  · obtain rfl := Option.some.inj hwalk
    exact Nat.zero_le _
  · refine Walk.length_le_of_trailSearch hn _ _ _ (Walk.searching_start ..) (Walk.levelled_start ..) ws hwalk xs ?_ hxs
    rintro rfl
    exact h ⟨hxs, by simpa using htakes⟩

/-- **The walk between two nodes** inside a set of nodes of the graph in memory is there if and only if there
is a way; it is one, and no way is shorter. From a node to itself it is the empty one, unless an edge is
asked for. -/
theorem walk_shortest (hload : Arena.load s p = .ok a) (m : Fairness) (member : Nat → Bool) (source goal : Nat)
    (atLeastOne : Bool) :
    ((∃ ws, a.walk m member source goal atLeastOne = some ws) ↔ ∃ ws, a.IsWay m member source goal atLeastOne ws) ∧
      (source = goal → atLeastOne = false → a.walk m member source goal atLeastOne = some []) ∧
      ∀ ws, a.walk m member source goal atLeastOne = some ws → a.IsWay m member source goal atLeastOne ws ∧
        (ws ≠ [] → ws.getLast? = some goal) ∧
          ∀ xs, a.IsWay m member source goal atLeastOne xs → ws.length ≤ xs.length := by
  have hn : ∀ u, ∀ w ∈ a.next m u, w < a.size := ((load_spec s p).of_eq hload).next_lt
  have hspec := walk_spec a m member source goal atLeastOne hn
  have hway : ∀ ws, a.walk m member source goal atLeastOne = some ws → a.IsWay m member source goal atLeastOne ws := by
    intro ws hws
    rw [hws] at hspec
    exact isWay_iff.mpr ⟨hspec.2, hspec.1⟩
  refine ⟨⟨?_, ?_⟩, fun heq hfree => ?_, fun ws hws => ⟨hway ws hws, fun hne => ?_, ?_⟩⟩
  · rintro ⟨ws, hws⟩
    exact ⟨ws, hway ws hws⟩
  · rintro ⟨ws, hws⟩
    obtain ⟨hleads, htakes⟩ := isWay_iff.mp hws
    cases hfound : a.walk m member source goal atLeastOne with
    | none =>
      rw [hfound] at hspec
      exact absurd hleads (hspec ws htakes)
    | some xs => exact ⟨xs, rfl⟩
  · rw [walk, if_pos ⟨heq, hfree⟩]
  · obtain ⟨w, xs, rfl⟩ := List.exists_cons_of_ne_nil hne
    rw [← (hway _ hws).last, List.getLast?_cons_cons]
  · intro xs hxs
    obtain ⟨hleads, htakes⟩ := isWay_iff.mp hxs
    exact length_walk_le hn hws hleads htakes

/-- The shortest way from the root of the pendulum back to it takes two edges. -/
theorem walk_shortest_pendulum : ∃ a, Arena.load Store.pendulum Store.pendulumProperty = .ok a ∧
    a.walk { everyStep := [0] } (· < 2) 0 0 true = some [1, 0] ∧ a.IsWay { everyStep := [0] } (· < 2) 0 0 true [1, 0] ∧
      ∀ xs, a.IsWay { everyStep := [0] } (· < 2) 0 0 true xs → 2 ≤ xs.length := by
  have heval : (Arena.load Store.pendulum Store.pendulumProperty).toOption.map
      (fun a => a.walk { everyStep := [0] } (· < 2) 0 0 true) = some (some [1, 0]) := by
    decide +kernel
  cases hload : Arena.load Store.pendulum Store.pendulumProperty with
  | error f => simp [hload, Except.toOption] at heval
  | ok a =>
    simp only [hload, Except.toOption, Option.map_some, Option.some.injEq] at heval
    obtain ⟨hway, -, hleast⟩ := (walk_shortest hload { everyStep := [0] } (· < 2) 0 0 true).2.2 [1, 0] heval
    exact ⟨a, rfl, heval, hway, hleast⟩

end Arena

end Liveness

import Mathlib.Data.List.Basic
import Mathlib.Data.Finset.Card
import Mathlib.Data.Finset.Range
import Liveness.Cycle.Walk

/-!
# What the search for a walk finds

A breadth-first search from `source` to `goal` along edges into members finds a walk
if there is one (`Walk.trailSearch_spec`). While it runs, each node seen is in the queue or
settled: its edges into members lead to nodes seen, and none of them to the goal. When
the queue is empty, nothing outside the nodes seen can be reached.

This is shown of a search that keeps with each node of the queue the nodes of the walk to it.
The way that is looked up from the notes is this walk, always back to the source, so that both
searches find the same (`Walk.search_eq_trailSearch`).
-/

namespace Liveness

namespace Walk

variable {next : Nat → List Nat} {member : Nat → Bool} {source goal n : Nat}

/-! ### Trails -/

/-- Nodes to search from, each with the nodes after the source on the way to it, the last one
first. -/
abbrev Frontier := List (Nat × List Nat)

/-- Look at the successors of a node that was reached along `trail`: the walk, if the goal is
one of them, or else the nodes seen and the queue after it. -/
def trailScan (member : Nat → Bool) (source goal : Nat) (trail : List Nat) :
    List Nat → List Nat → Frontier → Except (List Nat) (List Nat × Frontier)
  | [], seen, queue => .ok (seen, queue)
  | w :: ws, seen, queue =>
    if !member w || seen.contains w then trailScan member source goal trail ws seen queue
    else if w = goal then .error (w :: trail).reverse
    else if w = source then trailScan member source goal trail ws seen queue
    else trailScan member source goal trail ws (w :: seen) (queue ++ [(w, w :: trail)])

/-- Search from the nodes of the queue in turn, at most `fuel` of them. -/
def trailSearch (next : Nat → List Nat) (member : Nat → Bool) (source goal : Nat) :
    Nat → List Nat → Frontier → Option (List Nat)
  | 0, _, _ => none
  | _, _, [] => none
  | fuel + 1, seen, (v, trail) :: queue =>
    match trailScan member source goal trail (next v) seen queue with
    | .error walk => some walk
    | .ok (seen, queue) => trailSearch next member source goal fuel seen queue

/-! ### Walks -/

/-- From the first node to the last along edges into members, by way of the given nodes
after the first. -/
def Leads (next : Nat → List Nat) (member : Nat → Bool) : Nat → List Nat → Nat → Prop
  | u, [], v => u = v
  | u, w :: ws, v => (w ∈ next u ∧ member w = true) ∧ Leads next member w ws v

theorem leads_append {u v : Nat} {ws xs : List Nat} :
    Leads next member u (ws ++ xs) v ↔ ∃ w, Leads next member u ws w ∧ Leads next member w xs v := by
  induction ws generalizing u with
  | nil => simp [Leads]
  | cons w ws ih =>
    simp only [List.cons_append, Leads, ih]
    constructor
    · rintro ⟨hw, x, h₁, h₂⟩
      exact ⟨x, ⟨hw, h₁⟩, h₂⟩
    · rintro ⟨x, ⟨hw, h₁⟩, h₂⟩
      exact ⟨hw, x, h₁, h₂⟩

/-- The last step of a walk. -/
theorem leads_concat {u v x : Nat} {ws : List Nat} :
    Leads next member u (ws ++ [x]) v ↔ x = v ∧ ∃ w, Leads next member u ws w ∧ x ∈ next w ∧ member x = true := by
  simp only [leads_append, Leads]
  constructor
  · rintro ⟨w, hw, hx, rfl⟩
    exact ⟨rfl, w, hw, hx⟩
  · rintro ⟨rfl, w, hw, hx⟩
    exact ⟨w, hw, hx, rfl⟩

/-- Every edge out of `x` into a member leads to the source or a node seen, and not to the
goal. -/
def Settled (next : Nat → List Nat) (member : Nat → Bool) (source goal : Nat) (seen : List Nat)
    (x : Nat) : Prop :=
  ∀ w ∈ next x, member w = true → w ≠ goal ∧ (w = source ∨ w ∈ seen)

/-- A settled node stays settled when more nodes are seen. -/
theorem Settled.append {seen : List Nat} {x : Nat} (h : Settled next member source goal seen x) (new : List Nat) :
    Settled next member source goal (new ++ seen) x :=
  fun w hw hm => ⟨(h w hw hm).1, (h w hw hm).2.imp_right (List.mem_append_right _)⟩

/-- The state of the search between two nodes of the queue. -/
structure Searching (next : Nat → List Nat) (member : Nat → Bool) (source goal n : Nat)
    (seen : List Nat) (queue : Frontier) : Prop where
  trail : ∀ e ∈ queue, Leads next member source e.2.reverse e.1
  covered : ∀ x, x = source ∨ x ∈ seen →
    (∃ e ∈ queue, e.1 = x) ∨ Settled next member source goal seen x
  nodup : seen.Nodup
  lt : ∀ x ∈ seen, x < n
  goal_not_mem : goal ∉ seen

theorem searching_start (next : Nat → List Nat) (member : Nat → Bool) (source goal n : Nat) :
    Searching next member source goal n [] [(source, [])] :=
  ⟨by simp [Leads], by simp, List.nodup_nil, by simp, by simp⟩

/-- What a look at the successors `ws` of a node comes to: the walk, if the goal is one of
them, or else the new nodes, which are seen and queued. -/
def Scanned (member : Nat → Bool) (source goal : Nat) (trail ws seen : List Nat) (queue : Frontier) :
    Except (List Nat) (List Nat × Frontier) → Prop
  | .error walk => goal ∈ ws ∧ member goal = true ∧ walk = (goal :: trail).reverse
  | .ok (seen', queue') => ∃ new : List Nat, seen' = new ++ seen ∧
      queue' = queue ++ new.reverse.map (fun w => (w, w :: trail)) ∧ new.Nodup ∧
      (∀ x ∈ new, x ∈ ws ∧ member x = true ∧ x ∉ seen ∧ x ≠ goal) ∧
      ∀ w ∈ ws, member w = true → w ≠ goal ∧ (w = source ∨ w ∈ seen')

section

variable {trail ws seen : List Nat} {queue : Frontier} {w : Nat} {r : Except (List Nat) (List Nat × Frontier)}

/-- A successor that is no member, or that is known, is passed over. -/
theorem Scanned.skip (h : Scanned member source goal trail ws seen queue r)
    (hw : member w = true → w ≠ goal ∧ (w = source ∨ w ∈ seen)) :
    Scanned member source goal trail (w :: ws) seen queue r := by
  rcases r with walk | ⟨seen', queue'⟩
  · exact ⟨List.mem_cons_of_mem _ h.1, h.2⟩
  · obtain ⟨new, hseen, hqueue, hnodup, hnew, hws⟩ := h
    refine ⟨new, hseen, hqueue, hnodup, fun x hx => ?_, fun x hx hxm => ?_⟩
    · exact ⟨List.mem_cons_of_mem _ (hnew x hx).1, (hnew x hx).2⟩
    · rcases List.mem_cons.mp hx with rfl | hx
      · refine ⟨(hw hxm).1, (hw hxm).2.imp_right fun h => ?_⟩
        rw [hseen]
        exact List.mem_append_right _ h
      · exact hws x hx hxm

/-- A new successor is seen and queued. -/
theorem Scanned.take (h : Scanned member source goal trail ws (w :: seen) (queue ++ [(w, w :: trail)]) r)
    (hm : member w = true) (hw : w ∉ seen) (hgoal : w ≠ goal) :
    Scanned member source goal trail (w :: ws) seen queue r := by
  rcases r with walk | ⟨seen', queue'⟩
  · exact ⟨List.mem_cons_of_mem _ h.1, h.2⟩
  · obtain ⟨new, hseen, hqueue, hnodup, hnew, hws⟩ := h
    refine ⟨new ++ [w], by simp [hseen], by simp [hqueue], ?_, fun x hx => ?_, fun x hx hxm => ?_⟩
    · refine List.nodup_append.mpr ⟨hnodup, by simp, fun x hx y hy hxy => ?_⟩
      rw [List.mem_singleton] at hy
      exact (hnew x hx).2.2.1 (by simp [hxy, hy])
    · rcases List.mem_append.mp hx with hx | hx
      · obtain ⟨h, hm, hs, hg⟩ := hnew x hx
        exact ⟨List.mem_cons_of_mem _ h, hm, fun h => hs (List.mem_cons_of_mem _ h), hg⟩
      · rw [List.mem_singleton] at hx
        subst hx
        exact ⟨List.mem_cons_self, hm, hw, hgoal⟩
    · rcases List.mem_cons.mp hx with rfl | hx
      · exact ⟨hgoal, Or.inr (by simp [hseen])⟩
      · exact hws x hx hxm

theorem trailScan_spec (member : Nat → Bool) (source goal : Nat) (trail : List Nat) (ws : List Nat) :
    ∀ (seen : List Nat) (queue : Frontier), goal ∉ seen →
      Scanned member source goal trail ws seen queue (trailScan member source goal trail ws seen queue) := by
  induction ws with
  | nil => exact fun seen queue _ => ⟨[], by simp⟩
  | cons w ws ih =>
    intro seen queue hgoal
    rw [trailScan]
    split_ifs with hknown hw hsource
    · refine (ih seen queue hgoal).skip fun hm => ?_
      have hseen : w ∈ seen := by simpa [hm] using hknown
      exact ⟨fun h => hgoal (h ▸ hseen), Or.inr hseen⟩
    · subst hw
      simp only [Bool.or_eq_true, Bool.not_eq_true', not_or, Bool.not_eq_false] at hknown
      exact ⟨List.mem_cons_self, hknown.1, rfl⟩
    · exact (ih seen queue hgoal).skip fun _ => ⟨hw, Or.inl hsource⟩
    · simp only [Bool.or_eq_true, Bool.not_eq_true', List.contains_iff_mem, not_or, Bool.not_eq_false] at hknown
      exact (ih (w :: seen) _ (List.not_mem_cons_of_ne_of_not_mem (Ne.symm hw) hgoal)).take hknown.1 hknown.2 hw

end

/-- Nothing leads from a settled set to the goal. -/
theorem not_leads_of_settled {seen : List Nat}
    (h : ∀ x, x = source ∨ x ∈ seen → Settled next member source goal seen x) :
    ∀ (ws : List Nat) (x w : Nat), x = source ∨ x ∈ seen → ¬ Leads next member x (w :: ws) goal := by
  intro ws
  induction ws with
  | nil =>
    rintro x w hx ⟨⟨hw, hm⟩, hlast⟩
    exact (h x hx w hw hm).1 hlast
  | cons w' ws ih =>
    rintro x w hx ⟨⟨hw, hm⟩, hrest⟩
    exact ih w w' (h x hx w hw hm).2 hrest

/-- The nodes seen are distinct nodes of the graph. -/
theorem Searching.length_le {seen : List Nat} {queue : Frontier}
    (h : Searching next member source goal n seen queue) : seen.length ≤ n := by
  rw [← List.toFinset_card_of_nodup h.nodup, ← Finset.card_range n]
  apply Finset.card_le_card
  intro x hx
  rw [List.mem_toFinset] at hx
  exact Finset.mem_range.mpr (h.lt x hx)

/-- A node of the queue is settled once its successors that are new stand in the queue. -/
theorem Searching.step (hn : ∀ u, ∀ w ∈ next u, w < n) {seen new trail : List Nat} {v : Nat} {queue : Frontier}
    (h : Searching next member source goal n seen ((v, trail) :: queue)) (hnodup : new.Nodup)
    (hnew : ∀ x ∈ new, x ∈ next v ∧ member x = true ∧ x ∉ seen ∧ x ≠ goal)
    (hws : Settled next member source goal (new ++ seen) v) :
    Searching next member source goal n (new ++ seen) (queue ++ new.reverse.map fun w => (w, w :: trail)) := by
  have htrail : Leads next member source trail.reverse v := h.trail (v, trail) (by simp)
  refine ⟨fun e he => ?_, fun x hx => ?_, ?_, fun x hx => ?_, ?_⟩
  · rcases List.mem_append.mp he with he | he
    · exact h.trail e (List.mem_cons_of_mem _ he)
    · obtain ⟨w, hw, rfl⟩ := List.mem_map.mp he
      rw [List.mem_reverse] at hw
      rw [List.reverse_cons, leads_concat]
      exact ⟨rfl, v, htrail, (hnew w hw).1, (hnew w hw).2.1⟩
  · have hold : x ∈ new ∨ (x = source ∨ x ∈ seen) := by
      rw [List.mem_append] at hx
      tauto
    rcases hold with hx | hx
    · exact Or.inl ⟨(x, x :: trail), by simp [hx], rfl⟩
    rcases h.covered x hx with ⟨e, he, rfl⟩ | hset
    · rcases List.mem_cons.mp he with rfl | he
      · exact Or.inr hws
      · exact Or.inl ⟨e, List.mem_append_left _ he, rfl⟩
    · exact Or.inr (hset.append new)
  · exact List.nodup_append.mpr ⟨hnodup, h.nodup, fun x hx y hy hxy =>
      (hnew x hx).2.2.1 (hxy ▸ hy)⟩
  · rcases List.mem_append.mp hx with hx | hx
    · exact hn v x (hnew x hx).1
    · exact h.lt x hx
  · intro hg
    rcases List.mem_append.mp hg with hg | hg
    · exact (hnew goal hg).2.2.2 rfl
    · exact h.goal_not_mem hg

/-- **The search** finds a walk that takes an edge, and if it finds none there is none. The
fuel must do for the nodes in the queue and for those not seen yet. -/
theorem trailSearch_spec (hn : ∀ u, ∀ w ∈ next u, w < n) (fuel : Nat) :
    ∀ (seen : List Nat) (queue : Frontier), Searching next member source goal n seen queue →
      queue.length + (n - seen.length) ≤ fuel →
      match trailSearch next member source goal fuel seen queue with
      | some walk => walk ≠ [] ∧ Leads next member source walk goal
      | none => ∀ walk, walk ≠ [] → ¬ Leads next member source walk goal := by
  -- with an empty queue the nodes seen are settled
  have hempty : ∀ seen, Searching next member source goal n seen [] →
      ∀ walk, walk ≠ [] → ¬ Leads next member source walk goal := by
    intro seen h walk hne
    obtain ⟨w, ws, rfl⟩ := List.exists_cons_of_ne_nil hne
    have hset : ∀ x, x = source ∨ x ∈ seen → Settled next member source goal seen x :=
      fun x hx => (h.covered x hx).resolve_left (by simp)
    exact not_leads_of_settled hset ws source w (Or.inl rfl)
  induction fuel with
  | zero =>
    intro seen queue h hfuel
    have : queue = [] := List.length_eq_zero_iff.mp (by omega)
    subst this
    exact hempty seen h
  | succ fuel ih =>
    intro seen queue h hfuel
    cases queue with
    | nil => exact hempty seen h
    | cons e queue =>
      obtain ⟨v, trail⟩ := e
      have htrail : Leads next member source trail.reverse v := h.trail (v, trail) (by simp)
      have hscan := trailScan_spec member source goal trail (next v) seen queue h.goal_not_mem
      rw [trailSearch]
      cases hres : trailScan member source goal trail (next v) seen queue with
      | error walk =>
        rw [hres] at hscan
        obtain ⟨hgoal, hm, rfl⟩ := hscan
        refine ⟨by simp, ?_⟩
        rw [List.reverse_cons, leads_concat]
        exact ⟨rfl, v, htrail, hgoal, hm⟩
      | ok r =>
        obtain ⟨seen', queue'⟩ := r
        rw [hres] at hscan
        obtain ⟨new, rfl, rfl, hnodup, hnew, hws⟩ := hscan
        have h' := h.step hn hnodup hnew hws
        refine ih _ _ h' ?_
        have hlen := h'.length_le
        simp only [List.length_append, List.length_map, List.length_reverse, List.length_cons] at hlen hfuel ⊢
        omega

/-! ### Notes -/

theorem isSome_lookup (origins : Origins) (w : Nat) :
    (origins.lookup w).isSome = (origins.map Prod.fst).contains w := by
  induction origins with
  | nil => rfl
  | cons o origins ih =>
    rw [List.lookup_cons, List.map_cons, List.contains_cons, ← ih]
    cases w == o.1 <;> rfl

/-- A way is still found with more to spend. -/
theorem wayTo_succ {origins : Origins} {fuel x : Nat} {way : List Nat} (h : wayTo source origins fuel x = some way) :
    wayTo source origins (fuel + 1) x = some way := by
  induction fuel generalizing x way with
  | zero =>
    rw [wayTo] at h
    split_ifs at h with hx
    rw [wayTo, if_pos hx, h]
  | succ fuel ih =>
    rw [wayTo] at h ⊢
    split_ifs at h ⊢ with hx
    · exact h
    · obtain ⟨u, hu, hmap⟩ := Option.bind_eq_some_iff.mp h
      obtain ⟨rest, hrest, rfl⟩ := Option.map_eq_some_iff.mp hmap
      rw [hu, Option.bind_some, ih hrest, Option.map_some]

/-- A note on a new node leaves the ways to the others. -/
theorem wayTo_cons {origins : Origins} {fuel u w x : Nat} {way : List Nat} (hw : origins.lookup w = none)
    (h : wayTo source origins fuel x = some way) : wayTo source ((w, u) :: origins) fuel x = some way := by
  induction fuel generalizing x way with
  | zero => exact h
  | succ fuel ih =>
    rw [wayTo] at h ⊢
    split_ifs at h ⊢ with hx
    · exact h
    · obtain ⟨y, hy, hmap⟩ := Option.bind_eq_some_iff.mp h
      obtain ⟨rest, hrest, rfl⟩ := Option.map_eq_some_iff.mp hmap
      have hne : (x == w) = false := by
        rw [beq_eq_false_iff_ne]
        rintro rfl
        cases hw.symm.trans hy
      rw [List.lookup_cons, hne, hy, Option.bind_some, ih hrest, Option.map_some]

/-- The notes are on the nodes seen, and the way to each node of the queue is its trail. -/
structure Noted (source : Nat) (origins : Origins) (seen : List Nat) (queue : Frontier) : Prop where
  keys : origins.map Prod.fst = seen
  ways : ∀ e ∈ queue, wayTo source origins origins.length e.1 = some e.2

/-- A new node is noted with the node it was found from. -/
theorem Noted.note {origins : Origins} {seen trail : List Nat} {queue : Frontier} {v w : Nat}
    (h : Noted source origins seen ((v, trail) :: queue)) (hw : origins.lookup w = none) (hne : w ≠ source) :
    Noted source ((w, v) :: origins) (w :: seen) ((v, trail) :: (queue ++ [(w, w :: trail)])) := by
  refine ⟨by rw [List.map_cons, h.keys], fun e he => ?_⟩
  rw [← List.cons_append, List.mem_append, List.mem_singleton] at he
  rcases he with he | rfl
  · exact wayTo_succ (wayTo_cons hw (h.ways e he))
  · have hv := wayTo_cons (u := v) hw (h.ways (v, trail) (List.mem_cons_self ..))
    rw [List.length_cons, wayTo, if_neg hne, List.lookup_cons, beq_self_eq_true]
    simp only [Option.bind_some, hv, Option.map_some]

/-- **A look at successors** with notes comes to the same as with trails. -/
theorem scan_eq (member : Nat → Bool) (goal : Nat) (ws : List Nat) {v : Nat} {trail : List Nat} :
    ∀ {origins : Origins} {seen : List Nat} {queue : Frontier}, Noted source origins seen ((v, trail) :: queue) →
      match trailScan member source goal trail ws seen queue with
      | .error walk => ∃ origins', scan member source goal v ws origins (queue.map Prod.fst) = .error origins' ∧
          wayTo source origins' origins'.length v = some trail ∧ walk = (goal :: trail).reverse
      | .ok (seen', queue') => ∃ origins',
          scan member source goal v ws origins (queue.map Prod.fst) = .ok (origins', queue'.map Prod.fst) ∧
            Noted source origins' seen' ((v, trail) :: queue') := by
  induction ws with
  | nil => exact fun {origins seen queue} h => ⟨origins, rfl, h⟩
  | cons w ws ih =>
    intro origins seen queue h
    have hseen : (origins.lookup w).isSome = seen.contains w := h.keys ▸ isSome_lookup origins w
    rw [trailScan, scan, hseen]
    split_ifs with h₁ h₂ h₃
    · exact ih h
    · subst h₂
      exact ⟨origins, rfl, h.ways (v, trail) (List.mem_cons_self ..), rfl⟩
    · exact ih h
    · have hw : origins.lookup w = none := by
        rw [← Option.not_isSome_iff_eq_none, hseen]
        exact fun hmem => h₁ (by rw [hmem, Bool.or_true])
      have := ih (h.note hw h₃)
      rwa [List.map_append, List.map_singleton] at this

/-- **The search** with notes finds what the search with trails finds. -/
theorem search_eq_trailSearch (fuel : Nat) : ∀ {origins : Origins} {seen : List Nat} {queue : Frontier},
    Noted source origins seen queue →
      search next member source goal fuel origins (queue.map Prod.fst) =
        trailSearch next member source goal fuel seen queue := by
  induction fuel with
  | zero => exact fun _ => rfl
  | succ fuel ih =>
    intro origins seen queue h
    cases queue with
    | nil => rfl
    | cons e queue =>
      obtain ⟨v, trail⟩ := e
      have hscan := scan_eq member goal (next v) h
      rw [List.map_cons, search, trailSearch]
      cases hres : trailScan member source goal trail (next v) seen queue with
      | error walk =>
        rw [hres] at hscan
        obtain ⟨origins', hscan, hway, rfl⟩ := hscan
        simp only [hscan, hway, Option.map_some]
      | ok r =>
        rw [hres] at hscan
        obtain ⟨origins', hscan, hnoted⟩ := hscan
        simp only [hscan]
        exact ih ⟨hnoted.keys, fun e he => hnoted.ways e (List.mem_cons_of_mem _ he)⟩

/-- At the start nothing is noted. -/
theorem search_start (next : Nat → List Nat) (member : Nat → Bool) (source goal fuel : Nat) :
    search next member source goal fuel [] [source] = trailSearch next member source goal fuel [] [(source, [])] := by
  have hnoted : Noted source [] [] [(source, [])] := by
    refine ⟨rfl, fun e he => ?_⟩
    obtain rfl := List.mem_singleton.mp he
    exact if_pos rfl
  exact search_eq_trailSearch fuel hnoted

end Walk

open Walk

/-- Whether edges lead from `source` to `goal` inside a set of nodes is what the search for
a walk tells, and the walk it finds is one. -/
theorem Arena.walk_spec (a : Arena) (m : Fairness) (member : Nat → Bool) (source goal : Nat)
    (atLeastOne : Bool) (hn : ∀ u, ∀ w ∈ a.next m u, w < a.size) :
    match a.walk m member source goal atLeastOne with
    | some walk => (atLeastOne = true → walk ≠ []) ∧ Leads (a.next m) member source walk goal
    | none => ∀ walk, (atLeastOne = true → walk ≠ []) → ¬ Leads (a.next m) member source walk goal := by
  rw [Arena.walk, search_start]
  split_ifs with h
  · exact ⟨by simp [h.2], h.1⟩
  · have := trailSearch_spec hn (a.size + 1) [] [(source, [])] (searching_start _ member source goal _) (by simp; omega)
    split at this
    · rename_i walk heq
      exact ⟨fun _ => this.1, this.2⟩
    · rename_i heq
      intro walk hwalk hleads
      refine this walk (fun hnil => ?_) hleads
      subst hnil
      exact h ⟨hleads, by simpa using hwalk⟩

end Liveness

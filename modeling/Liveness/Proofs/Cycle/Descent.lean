import Mathlib.Data.List.Nodup
import Mathlib.Data.Nat.Basic
import Mathlib.Order.Basic
import Mathlib.Tactic.Common
import Liveness.Cycle.Components
import Liveness.Proofs.Reachability

/-!
# The search for components

What is true in the course of the search (`Descent.Sound`) is said of the edges looked at so
far, given as a relation, so that each act of the search can be followed by itself: an edge
is taken note of, a low link is lowered, a node is entered, left, or closed off with its
component.

Three facts about low links carry the argument. The low link of a node is the number of a
node on the stack that it leads to (`low_reached`). That of a node which was left is less
than its own number (`low_left`); else it would have been closed off. And where an edge
leads from a node on the stack to another, its end is not below the low links of the nodes
of the path from which the start of the edge was found (`low_covers`).

So if the low link of the last node of the path is its own number when all its edges were
looked at, then no edge leads from the stack above it to the stack below it, and every
node above it leads to it by way of smaller and smaller numbers: it is a component.
-/

namespace Liveness

variable {succ : Nat → List Nat} {n : Nat}

namespace Descent

/-! ### Marks -/

/-- The node was met. -/
def Met (s : Descent) (v : Nat) : Prop := (s.mark? v).isSome = true

/-- The node is marked as one on the stack. -/
def Stacked (s : Descent) (v : Nat) : Prop := ((s.mark? v).map Mark.stacked).getD false = true

/-- The number of a node. -/
def number (s : Descent) (v : Nat) : Nat := ((s.mark? v).map Mark.number).getD 0

/-- The low link of a node. -/
def low (s : Descent) (v : Nat) : Nat := ((s.mark? v).map Mark.low).getD 0

/-- The nodes of the path, the last one first. -/
def nodes (s : Descent) : List Nat := s.path.map Prod.fst

variable {s : Descent} {L L' : Nat → Nat → Prop} {u v w x y i k : Nat} {us : List Nat}
  {rest : List (Nat × Nat)}

theorem getD_modify (marks : Array (Option Mark)) (f : Mark → Mark) (v x : Nat) :
    (marks.modify v (Option.map f)).getD x none =
      if x = v then (marks.getD x none).map f else marks.getD x none := by
  simp only [Array.getD_eq_getD_getElem?, Array.getElem?_modify]
  split_ifs with h h' h'
  · cases marks[x]? <;> rfl
  · exact absurd h.symm h'
  · exact absurd h'.symm h
  · rfl

theorem getD_foldl_modify (f : Mark → Mark) (hf : ∀ m, f (f m) = f m) (c : List Nat) (marks : Array (Option Mark))
    (x : Nat) : (c.foldl (fun marks w => marks.modify w (Option.map f)) marks).getD x none =
      if x ∈ c then (marks.getD x none).map f else marks.getD x none := by
  induction c generalizing marks with
  | nil => rfl
  | cons w c ih =>
    rw [List.foldl_cons, ih, getD_modify]
    by_cases hw : x = w <;> by_cases hc : x ∈ c <;> simp [hw, hc, Function.comp_def, hf]

theorem size_foldl_modify (f : Mark → Mark) (c : List Nat) (marks : Array (Option Mark)) :
    (c.foldl (fun marks w => marks.modify w (Option.map f)) marks).size = marks.size := by
  induction c generalizing marks with
  | nil => rfl
  | cons w c ih => rw [List.foldl_cons, ih, Array.size_modify]

theorem mark?_enter (hv : v < s.marks.size) (x : Nat) :
    (s.enter v).mark? x = if x = v then some ⟨s.count, s.count, true⟩ else s.mark? x := by
  simp only [mark?, enter, Array.getD_eq_getD_getElem?, Array.getElem?_setIfInBounds]
  split_ifs with h h' h'
  · rfl
  · exact absurd h.symm h'
  · exact absurd h'.symm h
  · rfl

theorem mark?_lower (s : Descent) (v k x : Nat) :
    (s.lower v k).mark? x = if x = v then (s.mark? x).map (Mark.lower k) else s.mark? x :=
  getD_modify s.marks _ v x

theorem mark?_close (s : Descent) (v x : Nat) :
    (s.close v).mark? x = if x ∈ (cutAt v s.stack).1 then (s.mark? x).map Mark.unstack else s.mark? x :=
  getD_foldl_modify Mark.unstack (fun _ => rfl) _ s.marks x

theorem Met.lt_size (h : s.Met v) : v < s.marks.size := by
  by_contra hv
  have hnone : s.mark? v = none := by
    rw [mark?, Array.getD_eq_getD_getElem?, Array.getElem?_eq_none (Nat.le_of_not_lt hv), Option.getD_none]
  rw [Met, hnone] at h
  cases h

theorem met_enter (hv : v < s.marks.size) : (s.enter v).Met x ↔ x = v ∨ s.Met x := by
  rw [Met, Met, mark?_enter hv]
  split_ifs with h <;> simp [h]

theorem stacked_enter (hv : v < s.marks.size) : (s.enter v).Stacked x ↔ x = v ∨ s.Stacked x := by
  rw [Stacked, Stacked, mark?_enter hv]
  split_ifs with h <;> simp [h]

theorem number_enter (hv : v < s.marks.size) (x : Nat) :
    (s.enter v).number x = if x = v then s.count else s.number x := by
  rw [number, number, mark?_enter hv]
  split_ifs <;> rfl

theorem low_enter (hv : v < s.marks.size) (x : Nat) :
    (s.enter v).low x = if x = v then s.count else s.low x := by
  rw [low, low, mark?_enter hv]
  split_ifs <;> rfl

theorem met_lower : (s.lower v k).Met x ↔ s.Met x := by
  rw [Met, Met, mark?_lower]
  split_ifs <;> simp

theorem stacked_lower : (s.lower v k).Stacked x ↔ s.Stacked x := by
  rw [Stacked, Stacked, mark?_lower]
  split_ifs <;> simp [Function.comp_def, Mark.lower]

theorem number_lower (s : Descent) (v k : Nat) : (s.lower v k).number = s.number := by
  funext x
  rw [number, number, mark?_lower]
  split_ifs <;> simp [Function.comp_def, Mark.lower]

theorem low_lower (hv : s.Met v) (k x : Nat) :
    (s.lower v k).low x = if x = v then min (s.low v) k else s.low x := by
  obtain ⟨m, hm⟩ := Option.isSome_iff_exists.mp hv
  rw [low, low, low, mark?_lower]
  split_ifs with h
  · simp [h, hm, Mark.lower]
  · rfl

theorem met_close : (s.close v).Met x ↔ s.Met x := by
  rw [Met, Met, mark?_close]
  split_ifs <;> simp

theorem stacked_close : (s.close v).Stacked x ↔ s.Stacked x ∧ x ∉ (cutAt v s.stack).1 := by
  rw [Stacked, Stacked, mark?_close]
  split_ifs with h
  · cases s.mark? x <;> simp [h, Mark.unstack]
  · simp [h]

theorem number_close (s : Descent) (v : Nat) : (s.close v).number = s.number := by
  funext x
  rw [number, number, mark?_close]
  split_ifs <;> simp [Function.comp_def, Mark.unstack]

theorem low_close (s : Descent) (v : Nat) : (s.close v).low = s.low := by
  funext x
  rw [low, low, mark?_close]
  split_ifs <;> simp [Function.comp_def, Mark.unstack]

theorem size_close (s : Descent) (v : Nat) : (s.close v).marks.size = s.marks.size :=
  size_foldl_modify Mark.unstack _ s.marks

/-! ### What is true in the course of the search -/

/-- The components found so far: no edge leads out of them, nor from one to a later one. The
last one is in front. -/
structure Split (succ : Nat → List Nat) (found : List (List Nat)) : Prop where
  isComponent : ∀ c ∈ found, IsComponent succ c
  closed : ∀ u ∈ found.flatten, ∀ w ∈ succ u, w ∈ found.flatten
  apart : found.Pairwise fun d c => ∀ u ∈ c, u ∉ d ∧ ∀ w ∈ succ u, w ∉ d

/-- The marks, the stack, the path and the components fit together. The numbers on the stack
fall from its top on, and so do those on the path, whose nodes are on the stack. -/
structure Tidy (n : Nat) (s : Descent) : Prop where
  size : s.marks.size = n
  met_iff : ∀ v, s.Met v ↔ v ∈ s.stack ∨ v ∈ s.found.flatten
  stacked_iff : ∀ v, s.Stacked v ↔ v ∈ s.stack
  apart : ∀ v ∈ s.stack, v ∉ s.found.flatten
  sorted : s.stack.Pairwise fun u v => s.number v < s.number u
  number_lt : ∀ v ∈ s.stack, s.number v < s.count
  nodes_mem : ∀ v ∈ s.nodes, v ∈ s.stack
  nodes_sorted : s.nodes.Pairwise fun u v => s.number v < s.number u

/-- What is true in the course of the search, if the edges of `L` were looked at. -/
structure Sound (succ : Nat → List Nat) (n : Nat) (L : Nat → Nat → Prop) (s : Descent) : Prop extends Tidy n s where
  split : Split succ s.found
  reaches : ∀ u ∈ s.nodes, ∀ x ∈ s.stack, s.number u ≤ s.number x → Reaches succ u x
  low_le : ∀ x ∈ s.stack, s.low x ≤ s.number x
  low_reached : ∀ x ∈ s.stack, ∃ y ∈ s.stack, s.number y = s.low x ∧ Reaches succ x y
  low_left : ∀ x ∈ s.stack, x ∉ s.nodes → s.low x < s.number x
  low_covers : ∀ u ∈ s.nodes, ∀ x ∈ s.stack, s.number u ≤ s.number x → ∀ y ∈ s.stack, L x y →
    ∃ v ∈ s.nodes, s.number u ≤ s.number v ∧ s.low v ≤ s.number y
  looked_met : ∀ x ∈ s.stack, ∀ y, L x y → s.Met y

theorem Tidy.met_of_mem (h : Tidy n s) (hv : v ∈ s.stack) : s.Met v := (h.met_iff v).mpr (.inl hv)

theorem Tidy.lt_of_mem (h : Tidy n s) (hv : v ∈ s.stack) : v < n := h.size ▸ (h.met_of_mem hv).lt_size

/-- The path may be kept in another way, as long as its nodes are the same. -/
theorem Sound.setPath (h : Sound succ n L s) {path : List (Nat × Nat)} (hpath : path.map Prod.fst = s.nodes) :
    Sound succ n L (s.setPath path) := by
  have hnodes : (s.setPath path).nodes = s.nodes := hpath
  exact
    { size := h.size
      met_iff := h.met_iff
      stacked_iff := h.stacked_iff
      apart := h.apart
      sorted := h.sorted
      number_lt := h.number_lt
      nodes_mem := hnodes ▸ h.nodes_mem
      nodes_sorted := hnodes ▸ h.nodes_sorted
      split := h.split
      reaches := hnodes ▸ h.reaches
      low_le := h.low_le
      low_reached := h.low_reached
      low_left := hnodes ▸ h.low_left
      low_covers := hnodes ▸ h.low_covers
      looked_met := h.looked_met }

/-- What is true of edges is true of fewer edges. -/
theorem Sound.mono (h : Sound succ n L s) (hL : ∀ x y, L' x y → L x y) : Sound succ n L' s where
  toTidy := h.toTidy
  split := h.split
  reaches := h.reaches
  low_le := h.low_le
  low_reached := h.low_reached
  low_left := h.low_left
  low_covers u hu x hx hle y hy hxy := h.low_covers u hu x hx hle y hy (hL x y hxy)
  looked_met x hx y hxy := h.looked_met x hx y (hL x y hxy)

/-- An edge from a node of the path is taken note of, once the low link of the node is no more
than the number of its end. -/
theorem Sound.addEdge (h : Sound succ n L s) (hv : v ∈ s.nodes) (hw : s.Met w)
    (hlow : w ∈ s.stack → s.low v ≤ s.number w) : Sound succ n (fun x y => L x y ∨ x = v ∧ y = w) s where
  toTidy := h.toTidy
  split := h.split
  reaches := h.reaches
  low_le := h.low_le
  low_reached := h.low_reached
  low_left := h.low_left
  low_covers u hu x hx hle y hy hxy := by
    rcases hxy with hxy | ⟨rfl, rfl⟩
    · exact h.low_covers u hu x hx hle y hy hxy
    · exact ⟨x, hv, hle, hlow hy⟩
  looked_met x hx y hxy := by
    rcases hxy with hxy | ⟨-, rfl⟩
    · exact h.looked_met x hx y hxy
    · exact hw

/-- Tidiness is not a matter of low links. -/
theorem Tidy.lower (h : Tidy n s) (v k : Nat) : Tidy n (s.lower v k) where
  size := (Array.size_modify ..).trans h.size
  met_iff x := met_lower.trans (h.met_iff x)
  stacked_iff x := stacked_lower.trans (h.stacked_iff x)
  apart := h.apart
  sorted := number_lower s v k ▸ h.sorted
  number_lt := number_lower s v k ▸ h.number_lt
  nodes_mem := h.nodes_mem
  nodes_sorted := number_lower s v k ▸ h.nodes_sorted

/-- The low link of a node on the stack is lowered to the number of a node there that it leads to. -/
theorem Sound.lower (h : Sound succ n L s) (hv : v ∈ s.stack) (hy : y ∈ s.stack) (hk : s.number y = k)
    (hvy : Reaches succ v y) : Sound succ n L (s.lower v k) := by
  have hlow := low_lower (h.met_of_mem hv) k
  have hle : ∀ x, (s.lower v k).low x ≤ s.low x := by
    intro x
    rw [hlow]
    split_ifs with hx
    · exact hx ▸ Nat.min_le_left _ _
    · exact Nat.le_refl _
  have hnumber := number_lower s v k
  exact
    { toTidy := h.toTidy.lower v k
      split := h.split
      reaches := hnumber ▸ h.reaches
      low_le := fun x hx => hnumber ▸ (hle x).trans (h.low_le x hx)
      low_reached := fun x hx => by
        rw [hnumber, hlow]
        split_ifs with hxv
        · rcases Nat.le_total (s.low v) k with hmin | hmin
          · rw [Nat.min_eq_left hmin, ← hxv]
            exact h.low_reached x hx
          · rw [Nat.min_eq_right hmin]
            exact ⟨y, hy, hk, hxv ▸ hvy⟩
        · exact h.low_reached x hx
      low_left := fun x hx hnodes => hnumber ▸ (hle x).trans_lt (h.low_left x hx hnodes)
      low_covers := fun u hu x hx hux z hz hxz => by
        rw [hnumber] at hux ⊢
        obtain ⟨g, hg, hug, hgz⟩ := h.low_covers u hu x hx hux z hz hxz
        exact ⟨g, hg, hug, (hle g).trans hgz⟩
      looked_met := fun x hx z hxz => met_lower.mpr (h.looked_met x hx z hxz) }

/-! ### A node is entered -/

theorem nodes_enter (s : Descent) (w : Nat) : (s.enter w).nodes = w :: s.nodes := rfl

theorem stack_enter (s : Descent) (w : Nat) : (s.enter w).stack = w :: s.stack := rfl

theorem number_enter_self (hw : w < s.marks.size) : (s.enter w).number w = s.count :=
  (number_enter hw w).trans (if_pos rfl)

theorem low_enter_self (hw : w < s.marks.size) : (s.enter w).low w = s.count :=
  (low_enter hw w).trans (if_pos rfl)

section enter

variable (h : Tidy n s) (hw : w < n) (hnew : ¬s.Met w)
include h hw hnew

theorem Tidy.number_enter_of_mem (hx : x ∈ s.stack) : (s.enter w).number x = s.number x := by
  rw [number_enter (h.size.symm ▸ hw), if_neg]
  rintro rfl
  exact hnew (h.met_of_mem hx)

theorem Tidy.low_enter_of_mem (hx : x ∈ s.stack) : (s.enter w).low x = s.low x := by
  rw [low_enter (h.size.symm ▸ hw), if_neg]
  rintro rfl
  exact hnew (h.met_of_mem hx)

/-- The new node has the greatest number. -/
theorem Tidy.number_enter_lt (hx : x ∈ s.stack) : (s.enter w).number x < (s.enter w).number w := by
  rw [h.number_enter_of_mem hw hnew hx, number_enter_self (h.size.symm ▸ hw)]
  exact h.number_lt x hx

theorem Tidy.enter : Tidy n (s.enter w) := by
  have hsize : w < s.marks.size := h.size.symm ▸ hw
  have hnumber : ∀ x ∈ s.stack, (s.enter w).number x = s.number x := fun x => h.number_enter_of_mem hw hnew
  have hlt : ∀ x ∈ s.stack, (s.enter w).number x < (s.enter w).number w := fun x => h.number_enter_lt hw hnew
  exact
    { size := (Array.size_setIfInBounds ..).trans h.size
      met_iff := fun x => by
        rw [met_enter hsize, h.met_iff, stack_enter, List.mem_cons, or_assoc]
        rfl
      stacked_iff := fun x => by rw [stacked_enter hsize, h.stacked_iff, stack_enter, List.mem_cons]
      apart := by
        rw [stack_enter, List.forall_mem_cons]
        exact ⟨fun hfound => hnew ((h.met_iff w).mpr (.inr hfound)), h.apart⟩
      sorted := by
        rw [stack_enter, List.pairwise_cons]
        refine ⟨hlt, h.sorted.imp_of_mem fun {a b} ha hb hab => ?_⟩
        rwa [hnumber a ha, hnumber b hb]
      number_lt := by
        rw [stack_enter, List.forall_mem_cons, number_enter_self hsize]
        refine ⟨Nat.lt_succ_self _, fun x hx => ?_⟩
        rw [hnumber x hx]
        exact Nat.lt_succ_of_lt (h.number_lt x hx)
      nodes_mem := by
        rw [nodes_enter, stack_enter, List.forall_mem_cons]
        exact ⟨List.mem_cons_self, fun u hu => List.mem_cons_of_mem _ (h.nodes_mem u hu)⟩
      nodes_sorted := by
        rw [nodes_enter, List.pairwise_cons]
        refine ⟨fun u hu => hlt u (h.nodes_mem u hu), h.nodes_sorted.imp_of_mem fun {a b} ha hb hab => ?_⟩
        rwa [hnumber a (h.nodes_mem a ha), hnumber b (h.nodes_mem b hb)] }

end enter

/-- A node is entered that was not met before, and that the nodes of the path lead to. -/
theorem Sound.enter (h : Sound succ n L s) (hw : w < n) (hnew : ¬s.Met w) (hreach : ∀ u ∈ s.nodes, Reaches succ u w) :
    Sound succ n (fun x y => x ≠ w ∧ L x y) (s.enter w) := by
  have hsize : w < s.marks.size := h.size.symm ▸ hw
  have hnumber : ∀ x ∈ s.stack, (s.enter w).number x = s.number x := fun x => h.number_enter_of_mem hw hnew
  have hlow : ∀ x ∈ s.stack, (s.enter w).low x = s.low x := fun x => h.low_enter_of_mem hw hnew
  have hlt : ∀ x ∈ s.stack, (s.enter w).number x < (s.enter w).number w := fun x => h.number_enter_lt hw hnew
  exact
    { toTidy := h.toTidy.enter hw hnew
      split := h.split
      reaches := by
        rw [nodes_enter, stack_enter, List.forall_mem_cons, List.forall_mem_cons]
        refine ⟨⟨fun _ => .refl, fun x hx hle => absurd hle (hlt x hx).not_ge⟩, fun u hu => ?_⟩
        rw [List.forall_mem_cons]
        refine ⟨fun _ => hreach u hu, fun x hx hle => h.reaches u hu x hx ?_⟩
        rwa [hnumber u (h.nodes_mem u hu), hnumber x hx] at hle
      low_le := by
        rw [stack_enter, List.forall_mem_cons, number_enter_self hsize, low_enter_self hsize]
        refine ⟨Nat.le_refl _, fun x hx => ?_⟩
        rw [hnumber x hx, hlow x hx]
        exact h.low_le x hx
      low_reached := by
        rw [stack_enter, List.forall_mem_cons, low_enter_self hsize]
        refine ⟨⟨w, List.mem_cons_self, number_enter_self hsize, .refl⟩, fun x hx => ?_⟩
        obtain ⟨y, hy, hyx, hxy⟩ := h.low_reached x hx
        exact ⟨y, List.mem_cons_of_mem _ hy, by rw [hnumber y hy, hlow x hx, hyx], hxy⟩
      low_left := by
        rw [nodes_enter, stack_enter, List.forall_mem_cons]
        refine ⟨fun hself => absurd List.mem_cons_self hself, fun x hx hxs => ?_⟩
        rw [hnumber x hx, hlow x hx]
        exact h.low_left x hx fun hmem => hxs (List.mem_cons_of_mem _ hmem)
      low_covers := by
        -- the edges looked at neither start nor end in the new node
        rintro u hu x hx hle y hy ⟨hxw, hxy⟩
        replace hx := (List.mem_cons.mp hx).resolve_left hxw
        have hyw : y ≠ w := fun hyw => hnew (hyw ▸ h.looked_met x hx y hxy)
        replace hy := (List.mem_cons.mp hy).resolve_left hyw
        rcases List.mem_cons.mp hu with rfl | hu
        · exact absurd hle (hlt x hx).not_ge
        have hus := h.nodes_mem u hu
        rw [hnumber u hus, hnumber x hx] at hle
        obtain ⟨g, hg, hug, hgy⟩ := h.low_covers u hu x hx hle y hy hxy
        refine ⟨g, List.mem_cons_of_mem _ hg, ?_, ?_⟩
        · rwa [hnumber u hus, hnumber g (h.nodes_mem g hg)]
        · rwa [hlow g (h.nodes_mem g hg), hnumber y hy]
      looked_met := by
        rintro x hx y ⟨hxw, hxy⟩
        exact (met_enter hsize).mpr (.inr (h.looked_met x ((List.mem_cons.mp hx).resolve_left hxw) y hxy)) }

/-! ### A node is left -/

/-- Below each node of the stack, or at it, there is a node of the path. -/
theorem Sound.exists_node_le (h : Sound succ n L s) (hx : x ∈ s.stack) : ∃ u ∈ s.nodes, s.number u ≤ s.number x := by
  -- by way of low links, which are less than the numbers until the path is met
  induction hk : s.number x using Nat.strong_induction_on generalizing x with
  | _ k ih =>
    by_cases hnodes : x ∈ s.nodes
    · exact ⟨x, hnodes, hk.le⟩
    · obtain ⟨y, hy, hyx, -⟩ := h.low_reached x hx
      have hlt : s.number y < k := hyx ▸ hk ▸ h.low_left x hx hnodes
      obtain ⟨u, hu, huy⟩ := ih _ hlt hy rfl
      exact ⟨u, hu, huy.trans hlt.le⟩

theorem Tidy.number_lt_of_mem_tail (h : Tidy n s) (hnodes : s.nodes = v :: us) (hu : u ∈ us) :
    s.number u < s.number v := by
  have hsorted := h.nodes_sorted
  rw [hnodes] at hsorted
  exact List.rel_of_pairwise_cons hsorted hu

theorem Tidy.number_le_of_mem_nodes (h : Tidy n s) (hnodes : s.nodes = v :: us) (hu : u ∈ s.nodes) :
    s.number u ≤ s.number v := by
  rw [hnodes] at hu
  rcases List.mem_cons.mp hu with rfl | hu
  · exact Nat.le_refl _
  · exact (h.number_lt_of_mem_tail hnodes hu).le

/-- Two nodes on the stack have two numbers. -/
theorem Tidy.number_inj (h : Tidy n s) (hx : x ∈ s.stack) (hy : y ∈ s.stack) (hxy : s.number x = s.number y) : x = y := by
  have hnodup : (s.stack.map s.number).Nodup := List.pairwise_map.mpr (h.sorted.imp fun hlt => hlt.ne')
  exact List.inj_on_of_nodup_map hnodup hx hy hxy

/-- The last node of the path is taken from it and stays on the stack, after the node before it has
taken over its low link. -/
theorem Sound.drop (h : Sound succ n L s) (hpath : s.path = (v, i) :: rest) (hrest : rest.map Prod.fst = u :: us)
    (hleft : s.low v < s.number v) (hlow : s.low u ≤ s.low v) : Sound succ n L (s.setPath rest) := by
  have hnodes : s.nodes = v :: u :: us := by rw [nodes, hpath, List.map_cons, hrest]
  have hnodes' : (s.setPath rest).nodes = u :: us := hrest
  have hmem : ∀ x ∈ u :: us, x ∈ s.nodes := fun x hx => hnodes ▸ List.mem_cons_of_mem _ hx
  have hsorted := h.nodes_sorted
  rw [hnodes, List.pairwise_cons] at hsorted
  have hmax : ∀ x ∈ u :: us, s.number x ≤ s.number u := by
    rw [List.forall_mem_cons]
    exact ⟨Nat.le_refl _, fun x hx => (List.rel_of_pairwise_cons hsorted.2 hx).le⟩
  exact
    { size := h.size
      met_iff := h.met_iff
      stacked_iff := h.stacked_iff
      apart := h.apart
      sorted := h.sorted
      number_lt := h.number_lt
      nodes_mem := hnodes' ▸ fun x hx => h.nodes_mem x (hmem x hx)
      nodes_sorted := hnodes' ▸ hsorted.2
      split := h.split
      reaches := hnodes' ▸ fun x hx => h.reaches x (hmem x hx)
      low_le := h.low_le
      low_reached := h.low_reached
      low_left := fun x hx hxs => by
        by_cases hxv : x = v
        · exact hxv ▸ hleft
        · refine h.low_left x hx fun hmem => ?_
          rw [hnodes, List.mem_cons] at hmem
          exact hxs (hnodes' ▸ hmem.resolve_left hxv)
      low_covers := fun x hx z hz hle y hy hzy => by
        rw [hnodes'] at hx ⊢
        obtain ⟨g, hg, hxg, hgy⟩ := h.low_covers x (hmem x hx) z hz hle y hy hzy
        rw [hnodes, List.mem_cons] at hg
        rcases hg with rfl | hg
        · exact ⟨u, List.mem_cons_self, hmax x hx, hlow.trans hgy⟩
        · exact ⟨g, hg, hxg, hgy⟩
      looked_met := h.looked_met }

/-! ### A component is closed off -/

theorem cutAt_append (v : Nat) (l : List Nat) : (cutAt v l).1 ++ (cutAt v l).2 = l := by
  induction l with
  | nil => rfl
  | cons w l ih =>
    rw [cutAt]
    split_ifs
    · rfl
    · rw [List.cons_append, ih]

/-- A list in the order of falling numbers is cut by number. -/
theorem mem_cutAt {f : Nat → Nat} {l : List Nat} (hl : l.Pairwise fun u v => f v < f u) (hv : v ∈ l) (x : Nat) :
    (x ∈ (cutAt v l).1 ↔ x ∈ l ∧ f v ≤ f x) ∧ (x ∈ (cutAt v l).2 ↔ x ∈ l ∧ f x < f v) := by
  induction l with
  | nil => cases hv
  | cons w l ih =>
    rw [List.pairwise_cons] at hl
    rw [cutAt]
    split_ifs with hwv
    · subst hwv
      grind
    · obtain ⟨htop, hrest⟩ := ih hl.2 ((List.mem_cons.mp hv).resolve_left (Ne.symm hwv))
      have hlt := hl.1 v ((List.mem_cons.mp hv).resolve_left (Ne.symm hwv))
      simp only [List.mem_cons, htop, hrest]
      grind

theorem Split.cons {c : List Nat} {found : List (List Nat)} (h : Split succ found) (hc : IsComponent succ c)
    (hstays : ∀ u ∈ c, ∀ w ∈ succ u, w ∈ c ∨ w ∈ found.flatten) (hapart : ∀ u ∈ c, u ∉ found.flatten) :
    Split succ (c :: found) where
  isComponent := List.forall_mem_cons.mpr ⟨hc, h.isComponent⟩
  closed u hu w hw := by
    rw [List.flatten_cons, List.mem_append] at hu ⊢
    rcases hu with hu | hu
    · exact hstays u hu w hw
    · exact .inr (h.closed u hu w hw)
  apart := by
    refine List.pairwise_cons.mpr ⟨fun d hd u hu => ?_, h.apart⟩
    have hfound : u ∈ found.flatten := List.mem_flatten.mpr ⟨d, hd, hu⟩
    exact ⟨fun huc => hapart u huc hfound, fun w hw hwc => hapart w hwc (h.closed u hfound w hw)⟩

theorem Tidy.mem_top (h : Tidy n s) (hv : v ∈ s.stack) :
    x ∈ (cutAt v s.stack).1 ↔ x ∈ s.stack ∧ s.number v ≤ s.number x := (mem_cutAt h.sorted hv x).1

theorem Tidy.mem_below (h : Tidy n s) (hv : v ∈ s.stack) :
    x ∈ (cutAt v s.stack).2 ↔ x ∈ s.stack ∧ s.number x < s.number v := (mem_cutAt h.sorted hv x).2

theorem Tidy.close (h : Tidy n s) (hnodes : s.nodes = v :: us) (hrest : rest.map Prod.fst = us) :
    Tidy n ((s.close v).setPath rest) := by
  have hv : v ∈ s.stack := h.nodes_mem v (hnodes ▸ List.mem_cons_self)
  have hmem : ∀ x, x ∈ s.stack ↔ x ∈ (cutAt v s.stack).1 ∨ x ∈ (cutAt v s.stack).2 := by
    intro x
    rw [← List.mem_append, cutAt_append]
  have hnot : ∀ x, x ∈ (cutAt v s.stack).2 → x ∉ (cutAt v s.stack).1 := by
    intro x hx hxv
    exact absurd ((h.mem_below hv).mp hx).2 ((h.mem_top hv).mp hxv).2.not_gt
  have hsub : (cutAt v s.stack).2.Sublist s.stack := by
    have hsublist := List.sublist_append_right (cutAt v s.stack).1 (cutAt v s.stack).2
    rwa [cutAt_append] at hsublist
  have hnumber : ((s.close v).setPath rest).number = s.number := number_close s v
  have hnodes' : ((s.close v).setPath rest).nodes = us := hrest
  have hstack : ((s.close v).setPath rest).stack = (cutAt v s.stack).2 := rfl
  have hfound : ((s.close v).setPath rest).found = (cutAt v s.stack).1 :: s.found := rfl
  exact
    { size := (size_close s v).trans h.size
      met_iff := fun x => by
        rw [hstack, hfound, List.flatten_cons, List.mem_append, or_left_comm, ← or_assoc, ← hmem]
        exact met_close.trans (h.met_iff x)
      stacked_iff := fun x => by
        refine stacked_close.trans ?_
        rw [h.stacked_iff, hstack, hmem, or_and_right, and_iff_left_of_imp (hnot x)]
        simp
      apart := fun x hx => by
        rw [hfound, List.flatten_cons, List.mem_append, not_or]
        exact ⟨hnot x hx, h.apart x (hsub.subset hx)⟩
      sorted := hnumber ▸ h.sorted.sublist hsub
      number_lt := hnumber ▸ fun x hx => h.number_lt x (hsub.subset hx)
      nodes_mem := hnodes' ▸ fun u hu =>
        (h.mem_below hv).mpr ⟨h.nodes_mem u (hnodes ▸ List.mem_cons_of_mem _ hu), h.number_lt_of_mem_tail hnodes hu⟩
      nodes_sorted := by
        have hsorted := h.nodes_sorted
        rw [hnodes, List.pairwise_cons] at hsorted
        rw [hnodes', hnumber]
        exact hsorted.2 }

section close

variable (h : Sound succ n L s) (hnodes : s.nodes = v :: us) (hlow : s.low v = s.number v)
  (hL : ∀ x ∈ s.stack, s.number v ≤ s.number x → ∀ y ∈ succ x, L x y)
include h hnodes hlow hL

/-- No edge leads from the stack above the last node of the path to the stack below it. -/
theorem Sound.stays_of_edge (hx : x ∈ s.stack) (hvx : s.number v ≤ s.number x) (hy : y ∈ succ x) :
    (y ∈ s.stack ∧ s.number v ≤ s.number y) ∨ y ∈ s.found.flatten := by
  have hxy := hL x hx hvx y hy
  rcases (h.met_iff y).mp (h.looked_met x hx y hxy) with hys | hyf
  · obtain ⟨g, hg, hvg, hgy⟩ := h.low_covers v (hnodes ▸ List.mem_cons_self) x hx hvx y hys hxy
    rw [hnodes, List.mem_cons] at hg
    rcases hg with rfl | hg
    · exact .inl ⟨hys, hlow ▸ hgy⟩
    · exact absurd hvg (h.number_lt_of_mem_tail hnodes hg).not_ge
  · exact .inr hyf

theorem Sound.stays (hx : x ∈ s.stack) (hvx : s.number v ≤ s.number x) (hxy : Reaches succ x y) :
    (y ∈ s.stack ∧ s.number v ≤ s.number y) ∨ y ∈ s.found.flatten := by
  refine hxy.mem_of_closed (p := fun y => (y ∈ s.stack ∧ s.number v ≤ s.number y) ∨ y ∈ s.found.flatten) ?_
    (.inl ⟨hx, hvx⟩)
  rintro z (⟨hz, hvz⟩ | hz) w hw
  · exact h.stays_of_edge hnodes hlow hL hz hvz hw
  · exact .inr (h.split.closed z hz w hw)

/-- Every node of the stack above the last node of the path leads to it. -/
theorem Sound.reaches_last (hx : x ∈ s.stack) (hvx : s.number v ≤ s.number x) : Reaches succ x v := by
  have hv := h.nodes_mem v (hnodes ▸ List.mem_cons_self)
  induction hk : s.number x using Nat.strong_induction_on generalizing x with
  | _ k ih =>
    by_cases hxv : x = v
    · exact hxv ▸ .refl
    · have hxs : x ∉ s.nodes := fun hxs =>
        hxv (h.number_inj hx hv ((h.number_le_of_mem_nodes hnodes hxs).antisymm hvx))
      obtain ⟨y, hy, hyx, hxy⟩ := h.low_reached x hx
      have hlt : s.number y < k := hyx ▸ hk ▸ h.low_left x hx hxs
      -- the low link leads to no node below `v`, since no edge does
      rcases h.stays hnodes hlow hL hx hvx hxy with ⟨-, hvy⟩ | hyf
      · exact hxy.trans (ih _ hlt hy hvy rfl)
      · exact absurd hyf (h.apart y hy)

theorem Sound.isComponent_cutAt : IsComponent succ (cutAt v s.stack).1 := by
  have hmem := hnodes ▸ List.mem_cons_self
  have hv := h.nodes_mem v hmem
  refine ⟨?_, v, fun x => ?_⟩
  · have hsub := List.sublist_append_left (cutAt v s.stack).1 (cutAt v s.stack).2
    rw [cutAt_append] at hsub
    exact (h.sorted.sublist hsub).imp fun {a b} hlt (hab : a = b) => hlt.ne (hab ▸ rfl)
  · rw [h.mem_top hv]
    constructor
    · rintro ⟨hx, hvx⟩
      exact ⟨h.reaches v hmem x hx hvx, h.reaches_last hnodes hlow hL hx hvx⟩
    · rintro ⟨hvx, hxv⟩
      refine (h.stays hnodes hlow hL hv (Nat.le_refl _) hvx).resolve_right fun hxf => h.apart v hv ?_
      exact hxv.mem_of_closed h.split.closed hxf

/-- The last node of the path is taken from it, and the stack down to it is a component. -/
theorem Sound.close (hrest : rest.map Prod.fst = us) : Sound succ n L ((s.close v).setPath rest) := by
  have hv : v ∈ s.stack := h.nodes_mem v (hnodes ▸ List.mem_cons_self)
  have hbelow := fun x => h.mem_below (x := x) hv
  have hsub : ∀ x ∈ (cutAt v s.stack).2, x ∈ s.stack := fun x hx => ((hbelow x).mp hx).1
  have hus : ∀ u ∈ us, u ∈ s.nodes := fun u hu => hnodes ▸ List.mem_cons_of_mem _ hu
  have hnumber : ((s.close v).setPath rest).number = s.number := number_close s v
  have hlow' : ((s.close v).setPath rest).low = s.low := low_close s v
  have hnodes' : ((s.close v).setPath rest).nodes = us := hrest
  exact
    { toTidy := h.toTidy.close hnodes hrest
      split := by
        refine h.split.cons (h.isComponent_cutAt hnodes hlow hL) (fun x hx w hw => ?_) fun x hx => ?_
        · rw [h.mem_top hv] at hx ⊢
          exact h.stays_of_edge hnodes hlow hL hx.1 hx.2 hw
        · exact h.apart x ((h.mem_top hv).mp hx).1
      reaches := by
        rw [hnodes', hnumber]
        exact fun u hu x hx => h.reaches u (hus u hu) x (hsub x hx)
      low_le := by
        rw [hnumber, hlow']
        exact fun x hx => h.low_le x (hsub x hx)
      low_reached := by
        rw [hnumber, hlow']
        intro x hx
        obtain ⟨hxs, hxv⟩ := (hbelow x).mp hx
        obtain ⟨y, hy, hyx, hxy⟩ := h.low_reached x hxs
        have hyv : s.number y < s.number v := hyx ▸ (h.low_le x hxs).trans_lt hxv
        exact ⟨y, (hbelow y).mpr ⟨hy, hyv⟩, hyx, hxy⟩
      low_left := by
        rw [hnumber, hlow', hnodes']
        intro x hx hxs
        obtain ⟨hx, hxv⟩ := (hbelow x).mp hx
        refine h.low_left x hx fun hmem => ?_
        rw [hnodes, List.mem_cons] at hmem
        rcases hmem with rfl | hmem
        · exact hxv.ne rfl
        · exact hxs hmem
      low_covers := by
        rw [hnumber, hlow', hnodes']
        intro u hu x hx hux y hy hxy
        obtain ⟨hy, hyv⟩ := (hbelow y).mp hy
        obtain ⟨g, hg, hug, hgy⟩ := h.low_covers u (hus u hu) x (hsub x hx) hux y hy hxy
        rw [hnodes, List.mem_cons] at hg
        rcases hg with rfl | hg
        · exact absurd hgy (hlow ▸ hyv.not_ge)
        · exact ⟨g, hg, hug, hgy⟩
      looked_met := fun x hx y hxy => met_close.mpr (h.looked_met x (hsub x hx) y hxy) }

end close

end Descent

end Liveness

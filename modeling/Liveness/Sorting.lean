/-!
# Sorting

A list is sorted by putting its elements, from the last to the first, each into its
place. The recursion follows the list, so that a sorted list computes in a proof, too.
-/

namespace Liveness

variable {α : Type}

/-- Put an element into a sorted list, before the first that does not come before it. -/
def insertSorted (le : α → α → Bool) (a : α) : List α → List α
  | [] => [a]
  | b :: rest => if le a b then a :: b :: rest else b :: insertSorted le a rest

/-- The elements in order; those that count as equal stay as they were. -/
def sortBy (le : α → α → Bool) : List α → List α
  | [] => []
  | a :: rest => insertSorted le a (sortBy le rest)

theorem insertSorted_perm (le : α → α → Bool) (a : α) (as : List α) : (insertSorted le a as).Perm (a :: as) := by
  induction as with
  | nil => exact .refl _
  | cons b rest ih =>
    rw [insertSorted]
    split
    · exact .refl _
    · exact (ih.cons b).trans (.swap ..)

theorem sortBy_perm (le : α → α → Bool) (as : List α) : (sortBy le as).Perm as := by
  induction as with
  | nil => exact .refl _
  | cons a rest ih => exact (insertSorted_perm le a _).trans (ih.cons a)

@[simp] theorem mem_sortBy {le : α → α → Bool} {a : α} {as : List α} : a ∈ sortBy le as ↔ a ∈ as :=
  (sortBy_perm le as).mem_iff

@[simp] theorem length_sortBy (le : α → α → Bool) (as : List α) : (sortBy le as).length = as.length :=
  (sortBy_perm le as).length_eq

theorem insertSorted_congr {le le' : α → α → Bool} {a : α} {as : List α} (h : ∀ b ∈ as, le a b = le' a b) :
    insertSorted le a as = insertSorted le' a as := by
  induction as with
  | nil => rfl
  | cons b rest ih =>
    rw [insertSorted, insertSorted, h b (by simp), ih fun c hc => h c (by simp [hc])]

/-- Only the comparisons of elements of the list count. -/
theorem sortBy_congr {le le' : α → α → Bool} {as : List α} (h : ∀ a ∈ as, ∀ b ∈ as, le a b = le' a b) :
    sortBy le as = sortBy le' as := by
  induction as with
  | nil => rfl
  | cons a rest ih =>
    rw [sortBy, sortBy, ih fun b hb c hc => h b (by simp [hb]) c (by simp [hc])]
    exact insertSorted_congr fun b hb => h a (by simp) b (by simp [mem_sortBy.mp hb])

/-- An element is put where it keeps a sorted list sorted, if any two elements can be compared
and comparisons chain. -/
theorem pairwise_insertSorted {le : α → α → Bool} (htrans : ∀ a b c, le a b = true → le b c = true → le a c = true)
    (htotal : ∀ a b, le a b = true ∨ le b a = true) (a : α) {bs : List α} (h : bs.Pairwise fun a b => le a b = true) :
    (insertSorted le a bs).Pairwise fun a b => le a b = true := by
  induction h with
  | nil => exact List.pairwise_singleton _ a
  | @cons b rest hb hrest ih =>
    rw [insertSorted]
    split
    · rename_i hab
      refine .cons (fun c hc => ?_) (.cons hb hrest)
      rcases List.mem_cons.mp hc with rfl | hc
      · exact hab
      · exact htrans a b c hab (hb c hc)
    · rename_i hab
      refine .cons (fun c hc => ?_) ih
      rcases List.mem_cons.mp ((insertSorted_perm le a rest).mem_iff.mp hc) with rfl | hc
      · exact (htotal b c).resolve_right hab
      · exact hb c hc

theorem pairwise_sortBy {le : α → α → Bool} (htrans : ∀ a b c, le a b = true → le b c = true → le a c = true)
    (htotal : ∀ a b, le a b = true ∨ le b a = true) (as : List α) :
    (sortBy le as).Pairwise fun a b => le a b = true := by
  induction as with
  | nil => exact .nil
  | cons a rest ih => exact pairwise_insertSorted htrans htotal a ih

end Liveness

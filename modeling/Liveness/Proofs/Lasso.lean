import Mathlib.Data.List.Chain
import Liveness.Lasso

/-!
# Lassos are behaviours

A path to a state and a cycle from the state to itself may repeat states. In the lasso
made from them neighbours differ, so if each state of the path and the cycle is the one
before it or follows it by a step, the states of the lasso follow each other by steps. Moving
the loop back keeps this, the step that closes the loop included.
-/

namespace Liveness.Lasso

variable {R : Fingerprint → Fingerprint → Prop}

/-! ### Merging equal neighbours -/

theorem squeeze_ne_nil (a : Fingerprint) (as : List Fingerprint) : squeeze (a :: as) ≠ [] := by
  induction as generalizing a with
  | nil => simp [squeeze]
  | cons b as ih =>
    rw [squeeze]
    split_ifs
    · exact ih b
    · simp

theorem head?_squeeze (as : List Fingerprint) : (squeeze as).head? = as.head? := by
  fun_induction squeeze as with
  | case1 => rfl
  | case2 a => rfl
  | case3 b rest ih => exact ih
  | case4 a b rest hab ih => rfl

theorem getLast?_squeeze (as : List Fingerprint) : (squeeze as).getLast? = as.getLast? := by
  fun_induction squeeze as with
  | case1 => rfl
  | case2 a => rfl
  | case3 b rest ih => rw [ih, List.getLast?_cons_cons]
  | case4 a b rest hab ih =>
    obtain ⟨c, cs, hcs⟩ := List.exists_cons_of_ne_nil (squeeze_ne_nil b rest)
    rw [hcs, List.getLast?_cons_cons, ← hcs, ih, List.getLast?_cons_cons]

/-- Neighbours differ, and what led from one to the next still does. -/
theorem isChain_squeeze {as : List Fingerprint} (h : as.IsChain fun a b => a = b ∨ R a b) :
    (squeeze as).IsChain fun a b => a ≠ b ∧ R a b := by
  fun_induction squeeze as with
  | case1 => exact List.isChain_nil
  | case2 a => exact List.isChain_singleton a
  | case3 b rest ih => exact ih (List.isChain_cons_cons.mp h).2
  | case4 a b rest hab ih =>
    obtain ⟨hstep, hrest⟩ := List.isChain_cons_cons.mp h
    refine List.isChain_cons.mpr ⟨fun c hc => ?_, ih hrest⟩
    rw [head?_squeeze] at hc
    obtain rfl : b = c := by simpa using hc
    exact ⟨hab, hstep.resolve_left hab⟩

/-- Merging a path through `a` merges what comes before and after by itself. -/
theorem squeeze_append (xs : List Fingerprint) (a : Fingerprint) (ys : List Fingerprint) :
    squeeze (xs ++ a :: ys) = (squeeze (xs ++ [a])).dropLast ++ squeeze (a :: ys) := by
  induction xs with
  | nil => rfl
  | cons x xs ih =>
    cases xs with
    | nil =>
      simp only [List.cons_append, List.nil_append, squeeze]
      split_ifs
      · rfl
      · rfl
    | cons y xs =>
      simp only [List.cons_append, squeeze] at ih ⊢
      split_ifs
      · exact ih
      · rw [List.dropLast_cons_of_ne_nil (squeeze_ne_nil _ _), ih]
        rfl

/-! ### Moving the loop back -/

/-- The states of the path differ from their neighbours and follow each other by steps, and so
does the state at `loop` follow the last one. -/
structure Closes (R : Fingerprint → Fingerprint → Prop) (path : List Fingerprint) (loop : Nat) : Prop where
  chain : path.IsChain fun a b => a ≠ b ∧ R a b
  closing : ∃ a b, path.getLast? = some b ∧ path[loop]? = some a ∧ b ≠ a ∧ R b a

theorem rewind_spec {loop : Nat} : ∀ {path : List Fingerprint}, Closes R path loop →
    Closes R (rewind loop path).1 (rewind loop path).2 ∧ (rewind loop path).1.head? = path.head? := by
  induction loop with
  | zero => exact fun h => ⟨h, rfl⟩
  | succ loop ih =>
    intro path h
    rw [rewind]
    split_ifs with hlast
    · -- The last state goes. It equals the state at `loop`, so the one before it leads there.
      obtain ⟨a, b, hb, ha, hne, -⟩ := h.closing
      obtain ⟨init, rfl⟩ := List.getLast?_eq_some_iff.mp hb
      rw [hb] at hlast
      have hloop : loop + 1 < init.length := by
        by_contra hle
        rw [List.getElem?_append_right (Nat.le_of_not_lt hle)] at ha
        exact hne (List.mem_singleton.mp (List.mem_of_getElem? ha)).symm
      rw [List.getElem?_append_left (by omega)] at hlast
      have hinit : init ≠ [] := List.ne_nil_of_length_pos (by omega)
      have hc := List.getLast?_eq_some_getLast hinit
      obtain ⟨hchain, -, hstep⟩ := List.isChain_append.mp h.chain
      obtain ⟨hcloses, hhead⟩ := ih ⟨hchain, b, _, hc, hlast, hstep _ hc b rfl⟩
      rw [List.dropLast_concat]
      exact ⟨hcloses, hhead.trans (List.head?_append_of_ne_nil init hinit).symm⟩
    · exact ⟨h, rfl⟩

/-! ### The lasso of a path and a cycle -/

/-- The states of the lasso follow each other by steps, and the loop is closed by one. -/
structure Follows (R : Fingerprint → Fingerprint → Prop) (l : Lasso) : Prop where
  chain : l.path.IsChain R
  closing : ∀ i, l.ending = .backTo i → ∃ a b, l.path[i]? = some a ∧ l.path.getLast? = some b ∧ R b a

theorem Closes.follows {path : List Fingerprint} {loop : Nat} (h : Closes R path loop) :
    (close path loop).Follows R := by
  refine ⟨h.chain.imp fun _ _ hab => hab.2, fun i hi => ?_⟩
  obtain ⟨a, b, hb, ha, -, hstep⟩ := h.closing
  rw [close] at hi
  split_ifs at hi
  obtain rfl := Ending.backTo.inj hi
  exact ⟨a, b, ha, hb, hstep⟩

/-- A path to a cycle of more than one state, without the repeated state at its end. -/
theorem closes_dropLast {a : Fingerprint} {pre cycle : List Fingerprint}
    (hchain : (pre ++ cycle).IsChain fun a b => a ≠ b ∧ R a b) (hhead : cycle.head? = some a)
    (hlast : cycle.getLast? = some a) (hlen : pre.length + 1 ≠ (pre ++ cycle).length) :
    Closes R (pre ++ cycle).dropLast pre.length ∧ (pre ++ cycle).dropLast.head? = (pre ++ cycle).head? := by
  obtain ⟨init, rfl⟩ := List.getLast?_eq_some_iff.mp hlast
  have hinit : init ≠ [] := by
    rintro rfl
    simp at hlen
  rw [List.head?_append_of_ne_nil init hinit] at hhead
  rw [← List.append_assoc] at hchain ⊢
  rw [List.dropLast_concat, List.head?_append_of_ne_nil _ (List.append_ne_nil_of_right_ne_nil pre hinit)]
  obtain ⟨hpre, -, hstep⟩ := List.isChain_append.mp hchain
  have hc := List.getLast?_eq_some_getLast (List.append_ne_nil_of_right_ne_nil pre hinit)
  refine ⟨⟨hpre, a, _, hc, ?_, hstep _ hc a rfl⟩, rfl⟩
  rw [List.getElem?_append_right (Nat.le_refl _), Nat.sub_self, ← List.head?_eq_getElem?, hhead]

/-- There is a lasso if the cycle starts and ends where the path ends. -/
theorem exists_ofCycle {path cycle : List Fingerprint} {start : Fingerprint} (hpath : path.getLast? = some start)
    (hhead : cycle.head? = some start) (hlast : cycle.getLast? = some start) : ∃ l, ofCycle path cycle = .ok l := by
  simp only [ofCycle, hpath, hhead, hlast, and_self, if_true]
  split_ifs
  · exact ⟨_, rfl⟩
  · exact ⟨_, rfl⟩

/-- Only a cycle that starts and ends where the path ends makes a lasso. -/
theorem ofCycle_eq_ok {path cycle : List Fingerprint} {l : Lasso} (hl : ofCycle path cycle = .ok l) :
    ∃ start, path.getLast? = some start ∧ cycle.head? = some start ∧ cycle.getLast? = some start := by
  unfold ofCycle at hl
  split at hl
  · cases hl
  · rename_i start hstart
    by_cases hcycle : cycle.head? = some start ∧ cycle.getLast? = some start
    · exact ⟨start, hstart, hcycle⟩
    · rw [if_neg hcycle] at hl
      cases hl

/-- What `ofCycle` makes of a path and a cycle that fit together, in terms of what comes before the
cycle. -/
theorem ofCycle_concat_cons {a : Fingerprint} {xs ys pre : List Fingerprint} (hlast : (a :: ys).getLast? = some a)
    (hpre : (squeeze (xs ++ [a])).dropLast = pre) :
    ofCycle (xs ++ [a]) (a :: ys) =
      if pre.length + 1 = (pre ++ squeeze (a :: ys)).length then .ok (close (pre ++ squeeze (a :: ys)) pre.length)
      else .ok (close (rewind pre.length (pre ++ squeeze (a :: ys)).dropLast).1
        (rewind pre.length (pre ++ squeeze (a :: ys)).dropLast).2) := by
  have hlen : (squeeze (xs ++ [a])).length - 1 = pre.length := by rw [← hpre, List.length_dropLast]
  have hmerged : squeeze (xs ++ [a] ++ ys) = pre ++ squeeze (a :: ys) := by
    rw [List.append_assoc, List.singleton_append, squeeze_append, hpre]
  simp only [ofCycle, List.getLast?_concat, List.head?_cons, hlast, and_self, if_true, List.tail_cons, hlen, hmerged]

/-- **The lasso of a path and a cycle follows the steps of both**, and starts as the path does. -/
theorem ofCycle_follows {path cycle : List Fingerprint}
    (hchain : (path ++ cycle.tail).IsChain fun a b => a = b ∨ R a b) {l : Lasso} (hl : ofCycle path cycle = .ok l) :
    l.Follows R ∧ l.path.head? = path.head? := by
  obtain ⟨start, hstart, hfirst, hend⟩ := ofCycle_eq_ok hl
  obtain ⟨xs, rfl⟩ := List.getLast?_eq_some_iff.mp hstart
  obtain ⟨ys, rfl⟩ := List.head?_eq_some_iff.mp hfirst
  have hmerged := isChain_squeeze hchain
  have hhead := head?_squeeze (xs ++ [start] ++ ys)
  have hlast := getLast?_squeeze (start :: ys)
  rw [hend] at hlast
  simp only [List.tail_cons, List.append_assoc, List.singleton_append] at hmerged hhead ⊢
  rw [squeeze_append xs start ys] at hmerged hhead
  rw [ofCycle_concat_cons hend rfl] at hl
  generalize (squeeze (xs ++ [start])).dropLast = pre at hl hmerged hhead
  have hxs : (xs ++ [start]).head? = (xs ++ start :: ys).head? := by cases xs <;> rfl
  rw [hxs]
  by_cases hlen : pre.length + 1 = (pre ++ squeeze (start :: ys)).length
  · rw [if_pos hlen] at hl
    obtain rfl := Except.ok.inj hl
    refine ⟨⟨hmerged.imp fun _ _ hab => hab.2, fun i hi => ?_⟩, hhead⟩
    rw [close, if_pos hlen] at hi
    cases hi
  · rw [if_neg hlen] at hl
    obtain rfl := Except.ok.inj hl
    obtain ⟨hcloses, hdrop⟩ := closes_dropLast hmerged (head?_squeeze (start :: ys)) hlast hlen
    obtain ⟨hrewound, hrewind⟩ := rewind_spec hcloses
    exact ⟨hrewound.follows, (hrewind.trans hdrop).trans hhead⟩

/-! ### Where the loop starts -/

theorem length_squeeze_le (as : List Fingerprint) : (squeeze as).length ≤ as.length := by
  fun_induction squeeze as with
  | case1 => exact Nat.le_refl _
  | case2 a => exact Nat.le_refl _
  | case3 b rest ih => exact ih.trans (Nat.le_succ _)
  | case4 a b rest hab ih => exact Nat.succ_le_succ ih

theorem rewind_le (loop : Nat) : ∀ path, (rewind loop path).2 ≤ loop := by
  induction loop with
  | zero => exact fun _ => Nat.le_refl _
  | succ loop ih =>
    intro path
    rw [rewind]
    split_ifs
    · exact (ih _).trans (Nat.le_succ _)
    · exact Nat.le_refl _

theorem eq_of_close {path : List Fingerprint} {loop i : Nat} (h : (close path loop).ending = .backTo i) : i = loop := by
  rw [close] at h
  split_ifs at h
  exact (Ending.backTo.inj h).symm

/-- **The loop starts on the path to the cycle**, if there is one. -/
theorem index_lt_of_ofCycle {path cycle : List Fingerprint} {l : Lasso} (hl : ofCycle path cycle = .ok l) {i : Nat}
    (hi : l.ending = .backTo i) : i < path.length := by
  obtain ⟨start, hstart, hfirst, hend⟩ := ofCycle_eq_ok hl
  have hpos : 0 < path.length := List.length_pos_of_ne_nil (by
    rintro rfl
    cases hstart)
  have hlen := length_squeeze_le path
  simp only [ofCycle, hstart, hfirst, hend, and_self, if_true] at hl
  split_ifs at hl
  · obtain rfl := Except.ok.inj hl
    have := eq_of_close hi
    omega
  · obtain rfl := Except.ok.inj hl
    have hle := rewind_le ((squeeze path).length - 1) (squeeze (path ++ cycle.tail)).dropLast
    have := eq_of_close hi
    omega

end Liveness.Lasso

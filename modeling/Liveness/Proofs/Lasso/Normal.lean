import Mathlib.Data.List.GetD
import Mathlib.Order.Monotone.Basic
import Liveness.Proofs.Lasso

/-!
# The normal form of a lasso

A path and a list of states that is repeated after it stand for an infinite sequence
(`unroll`), and so does a lasso. The lasso of a path and a cycle stands for the sequence of
the two in which states that are repeated finitely often are merged, and it is in normal
form: neighbours differ, and the loop starts as early as it can (`ofCycle_normalizes`).

Two facts about sequences carry this. Merging neighbours in the path and in the repeated
list merges them in the sequence (`merges_unroll`), even where the list ends as it starts.
Moving the start of the repeated list along the sequence changes nothing
(`unroll_append_loop`), which is what moving the loop back does.
-/

namespace Liveness.Lasso

/-! ### Infinite sequences -/

/-- The states of `path`, and after them those of `loop` over and over. -/
def unroll (path loop : List Fingerprint) (n : Nat) : Fingerprint :=
  if n < path.length then path.getD n 0 else loop.getD ((n - path.length) % loop.length) 0

theorem unroll_append (xs path loop : List Fingerprint) (n : Nat) :
    unroll (xs ++ path) loop n = if n < xs.length then xs.getD n 0 else unroll path loop (n - xs.length) := by
  unfold unroll
  rw [List.length_append]
  by_cases hxs : n < xs.length
  · rw [if_pos (by omega), if_pos hxs, List.getD_append _ _ _ _ hxs]
  · rw [if_neg hxs]
    by_cases hpath : n < xs.length + path.length
    · rw [if_pos hpath, if_pos (by omega), List.getD_append_right _ _ _ _ (by omega)]
    · rw [if_neg hpath, if_neg (by omega), Nat.sub_add_eq]

/-- The repeated list may start later, with what it started with at its end. -/
theorem unroll_append_loop {xs ys : List Fingerprint} (h : xs ++ ys ≠ []) (path : List Fingerprint) :
    unroll path (xs ++ ys) = unroll (path ++ xs) (ys ++ xs) := by
  funext n
  rw [unroll_append path xs]
  by_cases hpath : n < path.length
  · rw [unroll, if_pos hpath, if_pos hpath]
  rw [unroll, if_neg hpath, if_neg hpath, unroll, List.length_append, List.length_append]
  generalize n - path.length = k
  have hpos : 0 < xs.length + ys.length := List.length_append ▸ List.length_pos_of_ne_nil h
  by_cases hxs : k < xs.length
  · rw [if_pos hxs, Nat.mod_eq_of_lt (by omega), List.getD_append _ _ _ _ hxs]
  · -- Past `xs` both lists are read at the same place of the sequence.
    rw [if_neg hxs, Nat.add_comm ys.length]
    have hlt := Nat.mod_lt (k - xs.length) hpos
    have hmod : k % (xs.length + ys.length) =
        (xs.length + (k - xs.length) % (xs.length + ys.length)) % (xs.length + ys.length) := by
      rw [Nat.add_mod_mod, Nat.add_sub_cancel' (by omega)]
    rw [hmod]
    generalize (k - xs.length) % (xs.length + ys.length) = q at hlt ⊢
    by_cases hys : q < ys.length
    · rw [Nat.mod_eq_of_lt (by omega), List.getD_append_right _ _ _ _ (by omega), List.getD_append _ _ _ _ hys,
        Nat.add_sub_cancel_left]
    · have hq : xs.length + q - (xs.length + ys.length) = q - ys.length := by omega
      rw [Nat.mod_eq_sub_mod (by omega), hq, Nat.mod_eq_of_lt (by omega), List.getD_append _ _ _ _ (by omega),
        List.getD_append_right _ _ _ _ (by omega)]

/-- Where there is no path, the repeated list is the path. -/
theorem unroll_nil {loop : List Fingerprint} (h : loop ≠ []) : unroll [] loop = unroll loop loop := by
  have hrotate := @unroll_append_loop loop [] (by rwa [List.append_nil]) []
  rwa [List.append_nil] at hrotate

/-! ### Merging repeated states of a sequence -/

/-- The sequence `τ` is `σ` with states merged that are repeated finitely often: there are times
`0 = t 0 < t 1 < ⋯` such that from the time `t n` until `t (n + 1)` the state of `σ` is the state
`n` of `τ`. -/
def Merges (σ τ : Nat → Fingerprint) : Prop :=
  ∃ t : Nat → Nat, t 0 = 0 ∧ StrictMono t ∧ ∀ n j, t n ≤ j → j < t (n + 1) → σ j = τ n

/-- It is enough that a first state of `σ`, some times repeated, is the first state of `τ`, and
that the rest of the two sequences is related in the same way. -/
theorem merges_of_forall {P : (Nat → Fingerprint) → (Nat → Fingerprint) → Prop}
    (hstep : ∀ σ τ, P σ τ → ∃ k, (∀ j ≤ k, σ j = τ 0) ∧ P (fun n => σ (n + (k + 1))) fun n => τ (n + 1))
    {σ τ : Nat → Fingerprint} (h : P σ τ) : Merges σ τ := by
  have hnext : ∀ n x, P (fun j => σ (j + x)) (fun j => τ (j + n)) →
      ∃ y, x < y ∧ (∀ j, x ≤ j → j < y → σ j = τ n) ∧ P (fun j => σ (j + y)) fun j => τ (j + (n + 1)) := by
    intro n x hx
    obtain ⟨k, hfirst, hrest⟩ := hstep _ _ hx
    refine ⟨k + 1 + x, by omega, fun j hj hlt => ?_, ?_⟩
    · have := hfirst (j - x) (by omega)
      rwa [Nat.sub_add_cancel hj, Nat.zero_add] at this
    · simpa only [Nat.add_assoc, Nat.add_comm 1 n] using hrest
  choose next hlt hstay hrest using hnext
  -- The times, each with the relation between what is left at that time.
  let times : (n : Nat) → { x // P (fun j => σ (j + x)) fun j => τ (j + n) } := fun n =>
    n.rec ⟨0, h⟩ fun n x => ⟨next n x.1 x.2, hrest n x.1 x.2⟩
  refine ⟨fun n => (times n).1, rfl, strictMono_nat_of_lt_succ fun n => ?_, fun n => ?_⟩
  · exact hlt n _ (times n).2
  · exact hstay n _ (times n).2

/-- A list that is not empty starts with a state, some times repeated. -/
theorem exists_replicate (a : Fingerprint) (as : List Fingerprint) :
    ∃ k rest, a :: as = List.replicate (k + 1) a ++ rest ∧ squeeze (a :: as) = a :: squeeze rest := by
  induction as generalizing a with
  | nil => exact ⟨0, [], rfl, rfl⟩
  | cons b as ih =>
    rw [squeeze]
    by_cases hab : a = b
    · obtain ⟨k, rest, has, hsqueeze⟩ := ih b
      subst hab
      exact ⟨k + 1, rest, by rw [has]; rfl, by rw [if_pos rfl, hsqueeze]⟩
    · exact ⟨0, b :: as, rfl, by rw [if_neg hab]⟩

/-- **Merging neighbours in the path and in the repeated list merges them in the sequence.** -/
theorem merges_unroll {loop : List Fingerprint} (hloop : loop ≠ []) (path : List Fingerprint) :
    Merges (unroll path loop) (unroll (squeeze path) (squeeze loop)) := by
  apply merges_of_forall (P := fun σ τ => ∃ path, σ = unroll path loop ∧ τ = unroll (squeeze path) (squeeze loop)) _
    ⟨path, rfl, rfl⟩
  rintro _ _ ⟨path, rfl, rfl⟩
  obtain ⟨b, bs, hbs⟩ := List.exists_cons_of_ne_nil hloop
  -- At the end of the path the next round of the loop is the path.
  obtain ⟨a, as, hpath, hsqueeze⟩ : ∃ a as, unroll path loop = unroll (a :: as) loop ∧
      unroll (squeeze path) (squeeze loop) = unroll (squeeze (a :: as)) (squeeze loop) := by
    cases path with
    | nil =>
      have hsqueeze : squeeze loop ≠ [] := hbs ▸ squeeze_ne_nil b bs
      exact ⟨b, bs, hbs ▸ unroll_nil hloop, hbs ▸ unroll_nil hsqueeze⟩
    | cons a as => exact ⟨a, as, rfl, rfl⟩
  obtain ⟨k, rest, has, hrest⟩ := exists_replicate a as
  rw [hpath, hsqueeze, hrest, has]
  refine ⟨k, fun j hj => ?_, rest, ?_, ?_⟩
  · rw [unroll_append, List.length_replicate, if_pos (by omega), List.getD_replicate _ (by omega)]
    rfl
  · funext n
    rw [unroll_append, List.length_replicate, if_neg (by omega), Nat.add_sub_cancel]
  · funext n
    exact (unroll_append [a] _ _ _).trans (if_neg (by simp))

/-! ### The sequence of a lasso -/

/-- Where the loop of a lasso starts. A lasso that stutters loops in its last state. -/
def entry (l : Lasso) : Nat :=
  match l.ending with
  | .backTo i => i
  | .stuttering => l.path.length - 1

/-- The infinite sequence a lasso stands for: its path, and then again and again what the path
holds from the start of the loop on. -/
def sequence (l : Lasso) : Nat → Fingerprint := unroll l.path (l.path.drop l.entry)

theorem entry_close (path : List Fingerprint) (loop : Nat) : (close path loop).entry = loop := by
  unfold close entry
  by_cases hloop : loop + 1 = path.length
  · simp only [hloop, if_true]
    omega
  · simp only [hloop, if_false]

theorem sequence_close (path : List Fingerprint) (loop : Nat) :
    (close path loop).sequence = unroll path (path.drop loop) := by
  rw [sequence, entry_close]
  rfl

/-- Moving the loop back leaves the sequence as it is. -/
theorem unroll_rewind {loop : Nat} : ∀ {path : List Fingerprint}, loop < path.length →
    unroll (rewind loop path).1 ((rewind loop path).1.drop (rewind loop path).2) = unroll path (path.drop loop) := by
  induction loop with
  | zero => exact fun _ => rfl
  | succ loop ih =>
    intro path hloop
    rw [rewind]
    split_ifs with hlast
    · have hne : path ≠ [] := List.ne_nil_of_length_pos (by omega)
      obtain ⟨init, b, rfl⟩ := (List.eq_nil_or_concat' path).resolve_left hne
      rw [List.length_append, List.length_singleton] at hloop
      rw [List.getLast?_concat, List.getElem?_append_left (by omega)] at hlast
      obtain ⟨hlt, hget⟩ := List.getElem?_eq_some_iff.mp hlast
      -- The state before the loop is the first one of the longer loop.
      rw [List.dropLast_concat, ih hlt, List.drop_eq_getElem_cons hlt, hget,
        List.drop_append_of_le_length (by omega)]
      exact @unroll_append_loop [b] (init.drop (loop + 1)) (List.cons_ne_nil b _) init
    · rfl

/-- The loop is moved back as far as it can be. -/
theorem rewind_stops (loop : Nat) : ∀ path : List Fingerprint,
    (rewind loop path).2 = 0 ∨ (rewind loop path).1[(rewind loop path).2 - 1]? ≠ (rewind loop path).1.getLast? := by
  induction loop with
  | zero => exact fun _ => .inl rfl
  | succ loop ih =>
    intro path
    rw [rewind]
    split_ifs with hlast
    · exact ih path.dropLast
    · exact .inr hlast

theorem rewind_of_stop {loop : Nat} {path : List Fingerprint} (h : loop = 0 ∨ path[loop - 1]? ≠ path.getLast?) :
    rewind loop path = (path, loop) := by
  cases loop with
  | zero => rfl
  | succ loop =>
    rw [Nat.add_sub_cancel] at h
    rw [rewind, if_neg (h.resolve_left (Nat.succ_ne_zero loop))]

/-! ### The two shapes of a lasso -/

theorem squeeze_cons_of_head? {a : Fingerprint} {as : List Fingerprint} (h : as.head? = some a) :
    squeeze (a :: as) = squeeze as := by
  obtain ⟨rest, rfl⟩ := List.head?_eq_some_iff.mp h
  rw [squeeze, if_pos rfl]

theorem squeeze_replicate_append {a : Fingerprint} {as : List Fingerprint} (h : as.head? = some a) (n : Nat) :
    squeeze (List.replicate n a ++ as) = squeeze as := by
  induction n with
  | zero => rfl
  | succ n ih =>
    have hhead : (List.replicate n a ++ as).head? = some a := by cases n <;> simp [List.replicate_succ, h]
    rw [List.replicate_succ, List.cons_append, squeeze_cons_of_head? hhead, ih]

theorem squeeze_replicate (a : Fingerprint) (n : Nat) : squeeze (List.replicate (n + 1) a) = [a] := by
  rw [List.replicate_succ']
  exact squeeze_replicate_append rfl n

theorem squeeze_concat_eq (xs : List Fingerprint) (a : Fingerprint) :
    squeeze (xs ++ [a]) = (squeeze (xs ++ [a])).dropLast ++ [a] :=
  squeeze_append xs a []

theorem squeeze_concat {a : Fingerprint} {as : List Fingerprint} (h : as.getLast? ≠ some a) :
    squeeze (as ++ [a]) = squeeze as ++ [a] := by
  fun_induction squeeze as with
  | case1 => rfl
  | case2 b =>
    have hba : b ≠ a := fun hba => h (hba ▸ rfl)
    simp [squeeze, hba]
  | case3 b rest ih =>
    rw [List.getLast?_cons_cons] at h
    rw [← ih h]
    exact squeeze_cons_of_head? rfl
  | case4 b c rest hbc ih =>
    rw [List.getLast?_cons_cons] at h
    rw [List.cons_append, List.cons_append, squeeze, if_neg hbc, ← List.cons_append, ih h]
    rfl

/-- The two shapes of a cycle from `a` to `a`: all its states are `a`, or it comes back to `a` from
another state and stays there. -/
theorem exists_eq_append_replicate {a : Fingerprint} {cycle : List Fingerprint} (hhead : cycle.head? = some a)
    (hlast : cycle.getLast? = some a) :
    (∃ n, cycle = List.replicate (n + 1) a) ∨
      ∃ round n, cycle = round ++ List.replicate (n + 1) a ∧ round.head? = some a ∧ round.getLast? ≠ some a := by
  obtain ⟨init, rfl⟩ := List.getLast?_eq_some_iff.mp hlast
  clear hlast
  induction init using List.reverseRecOn with
  | nil => exact .inl ⟨0, rfl⟩
  | append_singleton init b ih =>
    have hinit : (init ++ [b]).head? = some a := by
      rwa [List.head?_append_of_ne_nil _ (by simp)] at hhead
    by_cases hba : b = a
    · subst hba
      rcases ih hinit with ⟨n, hn⟩ | ⟨round, n, hround, hfirst, hend⟩
      · exact .inl ⟨n + 1, by rw [hn, ← List.replicate_succ']⟩
      · exact .inr ⟨round, n + 1, by rw [hround, List.append_assoc, ← List.replicate_succ'], hfirst, hend⟩
    · exact .inr ⟨init ++ [b], 0, rfl, hinit, by simpa using hba⟩

theorem squeeze_append_replicate {a : Fingerprint} {round : List Fingerprint} (h : round.getLast? ≠ some a) (n : Nat) :
    squeeze (round ++ List.replicate (n + 1) a) = squeeze round ++ [a] := by
  rw [List.replicate_succ, squeeze_append, ← List.replicate_succ, squeeze_replicate, squeeze_concat h,
    List.dropLast_concat]

/-- A cycle of one state is stuttering. -/
theorem ofCycle_of_squeeze_eq_singleton {a : Fingerprint} {ys : List Fingerprint} (h : squeeze (a :: ys) = [a])
    (xs : List Fingerprint) : ofCycle (xs ++ [a]) (a :: ys) = .ok ⟨squeeze (xs ++ [a]), .stuttering⟩ := by
  have hlast : (a :: ys).getLast? = some a := by rw [← getLast?_squeeze, h]; rfl
  rw [ofCycle_concat_cons hlast rfl, h, if_pos (by simp), close, if_pos (by simp), ← squeeze_concat_eq]

/-- A cycle that leaves its first state is a loop, moved back as far as possible. -/
theorem ofCycle_of_squeeze_eq_concat {a : Fingerprint} {ys loop : List Fingerprint}
    (h : squeeze (a :: ys) = loop ++ [a]) (hloop : loop ≠ []) {xs pre : List Fingerprint}
    (hpre : (squeeze (xs ++ [a])).dropLast = pre) :
    ofCycle (xs ++ [a]) (a :: ys) =
      .ok (close (rewind pre.length (pre ++ loop)).1 (rewind pre.length (pre ++ loop)).2) := by
  have hlast : (a :: ys).getLast? = some a := by rw [← getLast?_squeeze, h, List.getLast?_concat]
  have hlen := List.length_pos_of_ne_nil hloop
  rw [ofCycle_concat_cons hlast hpre, h, if_neg (by simp; omega), ← List.append_assoc, List.dropLast_concat]

/-! ### Lassos in normal form -/

/-- Neighbours of the path differ. A loop has more than one state and does not end as it starts,
and it cannot be moved back: no state comes before it, or not the one it ends with. -/
structure Normal (l : Lasso) : Prop where
  apart : l.path.IsChain (· ≠ ·)
  turn : ∀ i, l.ending = .backTo i → i + 1 < l.path.length ∧ l.path[i]? ≠ l.path.getLast? ∧
    (i = 0 ∨ l.path[i - 1]? ≠ l.path.getLast?)

theorem Closes.lt {R : Fingerprint → Fingerprint → Prop} {path : List Fingerprint} {loop : Nat}
    (h : Closes R path loop) : loop + 1 < path.length := by
  obtain ⟨a, b, hb, ha, hne, -⟩ := h.closing
  obtain ⟨hlt, -⟩ := List.getElem?_eq_some_iff.mp ha
  have hend : loop ≠ path.length - 1 := by
    rintro rfl
    rw [List.getLast?_eq_getElem?, ha] at hb
    exact hne (Option.some.inj hb).symm
  omega

theorem Closes.normal {R : Fingerprint → Fingerprint → Prop} {path : List Fingerprint} {loop : Nat}
    (h : Closes R path loop) (hstop : loop = 0 ∨ path[loop - 1]? ≠ path.getLast?) : (close path loop).Normal := by
  refine ⟨h.chain.imp fun _ _ hab => hab.1, fun i hi => ?_⟩
  obtain rfl := eq_of_close hi
  obtain ⟨a, b, hb, ha, hne, -⟩ := h.closing
  refine ⟨h.lt, fun hab => hne ?_, hstop⟩
  exact Option.some.inj (hb.symm.trans (hab.symm.trans ha))

theorem squeeze_of_isChain {as : List Fingerprint} (h : as.IsChain (· ≠ ·)) : squeeze as = as := by
  fun_induction squeeze as with
  | case1 => rfl
  | case2 a => rfl
  | case3 b rest ih => exact absurd rfl (List.isChain_cons_cons.mp h).1
  | case4 a b rest hab ih => rw [ih (List.isChain_cons_cons.mp h).2]

/-- **A lasso in normal form is the lasso of its path to the loop and of the loop.** -/
theorem Normal.ofCycle_eq {l : Lasso} (h : l.Normal) (hne : l.path ≠ []) :
    ofCycle (l.path.take (l.entry + 1)) (l.path.drop l.entry ++ l.path[l.entry]?.toList) = .ok l := by
  obtain ⟨path, ending⟩ := l
  obtain ⟨apart, turn⟩ := h
  simp only at apart turn hne
  cases ending with
  | stuttering =>
    obtain ⟨init, a, rfl⟩ := (List.eq_nil_or_concat' path).resolve_left hne
    have hentry : entry ⟨init ++ [a], .stuttering⟩ = init.length := by simp [entry]
    rw [hentry, List.take_of_length_le (by simp), List.drop_left, List.getElem?_concat_length]
    exact (ofCycle_of_squeeze_eq_singleton (squeeze_replicate a 1) init).trans (by rw [squeeze_of_isChain apart])
  | backTo i =>
    obtain ⟨hlt, hends, hstop⟩ := turn i rfl
    have hi : i < path.length := by omega
    simp only [entry]
    rw [List.getElem?_eq_getElem hi] at hends ⊢
    have htake : path.take i ++ [path[i]] = path.take (i + 1) := by simp
    have hdrop : path[i] :: path.drop (i + 1) = path.drop i := List.getElem_cons_drop hi
    -- No neighbours are equal, also where the loop is closed.
    have hchain : (path.take i ++ (path.drop i ++ [path[i]])).IsChain (· ≠ ·) := by
      rw [← List.append_assoc, List.take_append_drop]
      refine List.isChain_append.mpr ⟨apart, List.isChain_singleton _, fun b hb a ha hba => hends ?_⟩
      rw [hb, hba, ← ha]
      rfl
    have hround : squeeze (path[i] :: (path.drop (i + 1) ++ [path[i]])) = path.drop i ++ [path[i]] := by
      rw [← List.cons_append, hdrop]
      exact squeeze_of_isChain hchain.right_of_append
    have hpre : (squeeze (path.take i ++ [path[i]])).dropLast = path.take i := by
      rw [htake, squeeze_of_isChain (apart.take (i + 1)), ← htake, List.dropLast_concat]
    have hloop : path.drop i ≠ [] := hdrop ▸ List.cons_ne_nil _ _
    have hofCycle := ofCycle_of_squeeze_eq_concat hround hloop hpre
    rw [List.take_append_drop, List.length_take_of_le (by omega), rewind_of_stop hstop, ← List.cons_append, hdrop,
      htake, close, if_neg hlt.ne] at hofCycle
    exact hofCycle

/-! ### The lasso of a path and a cycle -/

theorem isChain_ne_squeeze (as : List Fingerprint) : (squeeze as).IsChain fun a b => a ≠ b ∧ True :=
  isChain_squeeze ((List.pairwise_of_forall fun _ _ => .inr trivial).isChain)

/-- A cycle of one state: the lasso merges the path and stutters. -/
theorem merges_stuttering (xs : List Fingerprint) (a : Fingerprint) (n : Nat) :
    Merges (unroll (xs ++ [a]) (List.replicate (n + 1) a)) (sequence ⟨squeeze (xs ++ [a]), .stuttering⟩) := by
  have hdrop : (squeeze (xs ++ [a])).drop ((squeeze (xs ++ [a])).length - 1) = squeeze (List.replicate (n + 1) a) := by
    rw [squeeze_concat_eq, squeeze_replicate]
    simp
  simp only [sequence, entry, hdrop]
  exact merges_unroll (List.cons_ne_nil a (List.replicate n a)) (xs ++ [a])

section Round

variable {xs round pre : List Fingerprint} {a : Fingerprint}

/-- A cycle that leaves its first state: what it repeats at its end belongs to its next round. -/
theorem merges_round (hhead : round.head? = some a) (hpre : (squeeze (xs ++ [a])).dropLast = pre) (n : Nat) :
    Merges (unroll (xs ++ [a]) (round ++ List.replicate (n + 1) a)) (unroll (pre ++ squeeze round) (squeeze round)) := by
  have hpath : squeeze (xs ++ [a] ++ round) = pre ++ squeeze round := by
    rw [List.append_assoc, List.singleton_append, squeeze_append, hpre, squeeze_cons_of_head? hhead]
  have hloop : List.replicate (n + 1) a ++ round ≠ [] := List.cons_ne_nil _ _
  have hmerges := merges_unroll hloop (xs ++ [a] ++ round)
  rwa [hpath, squeeze_replicate_append hhead, ← unroll_append_loop (by simp)] at hmerges

/-- The merged path with the merged round differs from its neighbours, also where the round is closed. -/
theorem closes_round (hhead : round.head? = some a) (hend : round.getLast? ≠ some a)
    (hpre : (squeeze (xs ++ [a])).dropLast = pre) :
    Closes (fun _ _ => True) (pre ++ squeeze round) pre.length := by
  obtain ⟨rest, rfl⟩ := List.head?_eq_some_iff.mp hhead
  have hchain := isChain_ne_squeeze (xs ++ a :: (rest ++ [a]))
  rw [squeeze_append, hpre, ← List.cons_append, squeeze_concat hend] at hchain
  have hfirst : (squeeze (a :: rest) ++ [a]).head? = some a := by
    rw [List.head?_append_of_ne_nil _ (squeeze_ne_nil a rest), head?_squeeze, hhead]
  have hcloses := (closes_dropLast hchain hfirst List.getLast?_concat (by simpa using squeeze_ne_nil a rest)).1
  rwa [← List.append_assoc, List.dropLast_concat] at hcloses

end Round

/-- **The normal form of a lasso.** A path and a cycle from its last state to itself have a lasso.
It stands for the sequence of the path and the repeated cycle, states merged that are repeated
finitely often, it is in normal form, and it stutters exactly if the cycle has only one state. The
lasso of its own path to the loop and of its own loop is the same again. -/
theorem ofCycle_normalizes {path cycle : List Fingerprint} {start : Fingerprint} (hpath : path.getLast? = some start)
    (hhead : cycle.head? = some start) (hlast : cycle.getLast? = some start) :
    ∃ l, ofCycle path cycle = .ok l ∧ Merges (unroll path cycle) l.sequence ∧ l.Normal ∧
      (l.ending = .stuttering ↔ ∀ a ∈ cycle, ∀ b ∈ cycle, a = b) ∧
      ofCycle (l.path.take (l.entry + 1)) (l.path.drop l.entry ++ l.path[l.entry]?.toList) = .ok l := by
  obtain ⟨xs, rfl⟩ := List.getLast?_eq_some_iff.mp hpath
  rcases exists_eq_append_replicate hhead hlast with ⟨n, rfl⟩ | ⟨round, n, rfl, hfirst, hend⟩
  · have hnormal : Normal ⟨squeeze (xs ++ [start]), .stuttering⟩ := by
      refine ⟨(isChain_ne_squeeze _).imp fun _ _ hab => hab.1, fun i hi => ?_⟩
      cases hi
    have hne : squeeze (xs ++ [start]) ≠ [] := squeeze_concat_eq xs start ▸ List.concat_ne_nil _ _
    refine ⟨_, ofCycle_of_squeeze_eq_singleton (squeeze_replicate start n) xs, merges_stuttering xs start n, hnormal,
      iff_of_true rfl fun a ha b hb => ?_, hnormal.ofCycle_eq hne⟩
    exact (List.eq_of_mem_replicate ha).trans (List.eq_of_mem_replicate hb).symm
  · generalize hpre : (squeeze (xs ++ [start])).dropLast = pre
    have hcloses := closes_round hfirst hend hpre
    have hsequence := unroll_rewind (Nat.lt_of_succ_lt hcloses.lt)
    rw [List.drop_left] at hsequence
    have hrewound := (rewind_spec hcloses).1
    have hnormal := hrewound.normal (rewind_stops pre.length (pre ++ squeeze round))
    have hne := List.ne_nil_of_length_pos (Nat.zero_lt_of_lt hrewound.lt)
    refine ⟨_, ?_, ?_, hnormal, iff_of_false (fun hstutters => ?_) fun hall => hend ?_, hnormal.ofCycle_eq hne⟩
    · obtain ⟨rest, rfl⟩ := List.head?_eq_some_iff.mp hfirst
      exact ofCycle_of_squeeze_eq_concat (squeeze_append_replicate hend n) (squeeze_ne_nil start rest) hpre
    · rw [sequence_close, hsequence]
      exact merges_round hfirst hpre n
    · rw [close, if_neg hrewound.lt.ne] at hstutters
      cases hstutters
    · -- The round has a last state, which would be the first one too.
      have hround : round ≠ [] := List.ne_nil_of_mem (List.mem_of_head? hfirst)
      have hlast := hall _ (List.mem_append_left _ (List.getLast_mem hround)) start (by simp)
      rw [List.getLast?_eq_some_getLast hround, hlast]

/-- A path that runs into the cycle before its end: the loop moves back to where it does. -/
theorem ofCycle_normalizes_rewound :
    ofCycle [1, 2, 3, 2] [2, 3, 3, 2, 2] = .ok ⟨[1, 2, 3], .backTo 1⟩ ∧
      Merges (unroll [1, 2, 3, 2] [2, 3, 3, 2, 2]) (unroll [1, 2, 3] [2, 3]) := by
  have hpath : ([1, 2, 3, 2] : List Fingerprint).getLast? = some 2 := rfl
  have hhead : ([2, 3, 3, 2, 2] : List Fingerprint).head? = some 2 := rfl
  have hlasso : ofCycle [1, 2, 3, 2] [2, 3, 3, 2, 2] = .ok ⟨[1, 2, 3], .backTo 1⟩ := by decide
  obtain ⟨l, hl, hmerges, -⟩ := ofCycle_normalizes hpath hhead rfl
  obtain rfl := Except.ok.inj (hl.symm.trans hlasso)
  exact ⟨hlasso, hmerges⟩

end Liveness.Lasso

import Mathlib.Algebra.Order.BigOperators.Group.List
import Mathlib.Algebra.Order.Ring.Nat
import Mathlib.Tactic.Common
import Liveness.Histogram

/-!
# What a histogram holds

A histogram is known by the samples that went into it: each degree is counted as often as it came,
and the number and the sum of the samples are kept beside. As long as the samples can be counted by a
machine word none is refused, since the sum has two of them.
-/

namespace Liveness.Histogram

variable {h : Histogram} {ds es : List UInt64}

/-- The histogram holds the given samples and no others. -/
structure Holds (h : Histogram) (ds : List UInt64) : Prop where
  count : ∀ degree, h.count degree = ds.count degree
  observations : h.observations = ds.length
  sum : h.sum = (ds.map UInt64.toNat).sum

theorem holds_nil (name : String) : Holds { name } [] :=
  ⟨fun degree => by simp [count], rfl, rfl⟩

theorem sum_toNat_le (ds : List UInt64) : (ds.map UInt64.toNat).sum ≤ ds.length * (wordLimit - 1) := by
  rw [← List.length_map UInt64.toNat]
  refine List.sum_le_card_nsmul _ _ fun n hn => ?_
  obtain ⟨d, -, rfl⟩ := List.mem_map.mp hn
  exact Nat.le_pred_of_lt d.toNat_lt

/-- The sum of as many samples as can be counted has room in two machine words. -/
theorem sum_toNat_lt (hlen : ds.length < wordLimit) : (ds.map UInt64.toNat).sum < wordLimit * wordLimit := by
  calc (ds.map UInt64.toNat).sum ≤ ds.length * (wordLimit - 1) := sum_toNat_le ds
    _ ≤ wordLimit * (wordLimit - 1) := Nat.mul_le_mul_right _ (Nat.le_of_lt hlen)
    _ < wordLimit * wordLimit := by decide

theorem count_insert (h : Histogram) (degree degree' : UInt64) (n : Nat) :
    count { h with buckets := h.buckets.insert degree n } degree' =
      if degree = degree' then n else h.count degree' := by
  simp [count, Std.ExtTreeMap.getD_insert, Std.LawfulEqCmp.compare_eq_iff_eq]

/-! ### Samples and histograms go in the same way -/

/-- Each degree as often as it is counted. -/
def expand (buckets : List (UInt64 × Nat)) : List UInt64 := buckets.flatMap fun p => List.replicate p.2 p.1

theorem expand_cons (p : UInt64 × Nat) (ps : List (UInt64 × Nat)) :
    expand (p :: ps) = List.replicate p.2 p.1 ++ expand ps := List.flatMap_cons

theorem applyAll_append {steps rest : List (Histogram → Except Defect Histogram)} {h' : Histogram}
    (hsteps : h.applyAll steps = (.ok (), h')) : h.applyAll (steps ++ rest) = h'.applyAll rest := by
  induction steps generalizing h with
  | nil =>
    obtain rfl : h = h' := congrArg Prod.snd hsteps
    rfl
  | cons step steps ih =>
    rw [List.cons_append, applyAll]
    rw [applyAll] at hsteps
    cases hstep : step h with
    | ok h₁ =>
      rw [hstep] at hsteps
      exact ih hsteps
    | error d =>
      rw [hstep] at hsteps
      cases hsteps

/-- **One bucket is added**, as long as its samples can be counted with the others. -/
theorem addBucket_of_count (degree : UInt64) {n : Nat} (hcount : ∀ degree, h.count degree = ds.count degree)
    (hlen : ds.length + n < wordLimit) :
    h.addBucket degree n = .ok { h with buckets := h.buckets.insert degree (h.count degree + n) } ∧
      ∀ degree', count { h with buckets := h.buckets.insert degree (h.count degree + n) } degree' =
        (ds ++ List.replicate n degree).count degree' := by
  have hroom : h.count degree + n < wordLimit := by
    rw [hcount]
    exact Nat.lt_of_le_of_lt (Nat.add_le_add_right List.count_le_length n) hlen
  refine ⟨?_, fun degree' => ?_⟩
  · rw [addBucket, addWords, if_pos hroom]
    rfl
  · rw [count_insert, List.count_append, List.count_replicate, hcount, hcount]
    by_cases hd : degree = degree'
    · simp [hd]
    · simp [hd]

/-- **Buckets are added**, as long as all their samples can be counted with the others. -/
theorem applyAll_addBucket {ps : List (UInt64 × Nat)} (hcount : ∀ degree, h.count degree = ds.count degree)
    (hlen : (ds ++ expand ps).length < wordLimit) :
    ∃ buckets, h.applyAll (ps.map fun p h => h.addBucket p.1 p.2) = (.ok (), { h with buckets }) ∧
      (∀ degree, count { h with buckets } degree = (ds ++ expand ps).count degree) ∧
      ∀ degree ∈ buckets, degree ∈ h.buckets ∨ degree ∈ ps.map Prod.fst := by
  induction ps generalizing h ds with
  | nil =>
    refine ⟨h.buckets, rfl, fun degree => ?_, fun _ hd => .inl hd⟩
    rw [hcount, expand, List.flatMap_nil, List.append_nil]
  | cons p ps ih =>
    rw [expand_cons, ← List.append_assoc] at hlen ⊢
    have hroom : ds.length + p.2 < wordLimit := by
      simp only [List.length_append, List.length_replicate] at hlen
      omega
    obtain ⟨hstep, hcount'⟩ := addBucket_of_count p.1 hcount hroom
    obtain ⟨buckets, happly, hbuckets, hkeys⟩ := ih hcount' hlen
    refine ⟨buckets, ?_, hbuckets, fun degree hd => ?_⟩
    · rw [List.map_cons, applyAll, hstep]
      exact happly
    · rw [List.map_cons, List.mem_cons]
      rcases hkeys degree hd with hin | hin
      · rcases Std.ExtTreeMap.mem_insert.mp hin with heq | hin
        · exact .inr (.inl (Std.LawfulEqCmp.compare_eq_iff_eq.mp heq).symm)
        · exact .inl hin
      · exact .inr (.inr hin)

/-- **Samples go in with their buckets**, whether one sample or those of a histogram. -/
theorem Holds.absorb {ps : List (UInt64 × Nat)} (hh : h.Holds ds) (hps : (expand ps).Perm es)
    (hlen : (ds ++ es).length < wordLimit) :
    ∃ h', h.applyAll (ps.map (fun p h => h.addBucket p.1 p.2) ++
        [(·.addObservations es.length), (·.addSum (es.map UInt64.toNat).sum)]) = (.ok (), h') ∧
      h'.Holds (ds ++ es) ∧ ∀ degree ∈ h'.buckets, degree ∈ h.buckets ∨ degree ∈ ps.map Prod.fst := by
  have hperm : (ds ++ expand ps).Perm (ds ++ es) := hps.append_left ds
  have hsum := sum_toNat_lt hlen
  rw [List.map_append, List.sum_append, ← hh.sum] at hsum
  obtain ⟨buckets, happly, hcount, hbuckets⟩ := applyAll_addBucket hh.count (hperm.length_eq ▸ hlen)
  rw [List.length_append, ← hh.observations] at hlen
  refine ⟨{ h with
    buckets
    observations := h.observations + es.length
    sum := h.sum + (es.map UInt64.toNat).sum }, ?_, ⟨fun degree => ?_, ?_, ?_⟩, hbuckets⟩
  · rw [applyAll_append happly]
    simp only [applyAll, addObservations, addSum, addWords, if_pos hlen, if_pos hsum, bind, Except.bind, pure, Except.pure]
  · rw [← hperm.count_eq, ← hcount]
    rfl
  · rw [List.length_append, ← hh.observations]
  · rw [List.map_append, List.sum_append, ← hh.sum]

/-- **A sample is added**, if it can be counted. -/
theorem Holds.add {degree : UInt64} (hh : h.Holds ds) (hlen : (ds ++ [degree]).length < wordLimit) :
    ∃ h', h.add degree = (.ok (), h') ∧ h'.Holds (ds ++ [degree]) := by
  have hps : (expand [(degree, 1)]).Perm [degree] := List.Perm.refl _
  obtain ⟨h', hadd, hholds, -⟩ := hh.absorb hps hlen
  exact ⟨h', hadd, hholds⟩

/-- **Samples are added**, if all can be counted. -/
theorem Holds.addAll {more : List UInt64} : ∀ {h : Histogram} {ds : List UInt64}, h.Holds ds →
    (ds ++ more).length < wordLimit → ∃ h', h.addAll more = (.ok (), h') ∧ h'.Holds (ds ++ more) := by
  induction more with
  | nil => exact fun hh _ => ⟨_, rfl, by rwa [List.append_nil]⟩
  | cons degree more ih =>
    intro h ds hh hlen
    rw [List.append_cons] at hlen ⊢
    obtain ⟨h₁, hadd, hh₁⟩ := hh.add (Nat.lt_of_le_of_lt (by simp) hlen)
    obtain ⟨h', haddAll, hh'⟩ := ih hh₁ hlen
    exact ⟨h', by rw [Histogram.addAll, hadd]; exact haddAll, hh'⟩

end Liveness.Histogram

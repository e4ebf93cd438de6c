import Mathlib.Data.List.Perm.Basic
import Liveness.Proofs.Histogram

/-!
# Histograms merge in any order

A histogram comes about by samples that are added and by histograms that are merged into others, in any
order and any shape (`Assembly`). Whatever the shape, it holds the samples of all its parts, with a bucket
for each degree among them and for no other. So two histograms of the same samples agree
(`Assembly.build_canonical`), and the number and the sum of the samples, which are kept apart, are always
those that the buckets give.
-/

namespace Liveness.Histogram

variable {h k : Histogram} {ds es : List UInt64}

/-! ### The samples that buckets stand for -/

theorem length_expand (ps : List (UInt64 × Nat)) : (expand ps).length = (ps.map Prod.snd).sum := by
  induction ps with
  | nil => rfl
  | cons p ps ih => rw [expand_cons, List.length_append, List.length_replicate, ih, List.map_cons, List.sum_cons]

theorem sum_expand (ps : List (UInt64 × Nat)) :
    ((expand ps).map UInt64.toNat).sum = (ps.map fun p => p.1.toNat * p.2).sum := by
  induction ps with
  | nil => rfl
  | cons p ps ih =>
    rw [expand_cons, List.map_append, List.sum_append, ih, List.map_cons, List.sum_cons, List.map_replicate,
      List.sum_replicate_nat, Nat.mul_comm]

theorem count_expand_of_notMem {ps : List (UInt64 × Nat)} {degree : UInt64} (h : ∀ p ∈ ps, p.1 ≠ degree) :
    (expand ps).count degree = 0 := by
  refine List.count_eq_zero.mpr fun hmem => ?_
  obtain ⟨p, hp, hrep⟩ := List.mem_flatMap.mp hmem
  exact h p hp (List.eq_of_mem_replicate hrep).symm

theorem count_expand {ps : List (UInt64 × Nat)} (hdistinct : ps.Pairwise fun p q => p.1 ≠ q.1) {degree : UInt64}
    {n : Nat} (hmem : (degree, n) ∈ ps) : (expand ps).count degree = n := by
  induction ps with
  | nil => cases hmem
  | cons p ps ih =>
    obtain ⟨hne, hdistinct⟩ := List.pairwise_cons.mp hdistinct
    rw [expand_cons, List.count_append, List.count_replicate]
    rcases List.mem_cons.mp hmem with rfl | hmem
    · rw [count_expand_of_notMem fun q hq => (hne q hq).symm]
      simp
    · rw [ih hdistinct hmem]
      simp [hne _ hmem]

/-- The buckets of a histogram stand for the samples that it holds. -/
theorem Holds.expand_perm (hh : h.Holds ds) : (expand h.buckets.toList).Perm ds := by
  have hdistinct : h.buckets.toList.Pairwise fun p q => p.1 ≠ q.1 := by
    refine List.Pairwise.imp ?_ (Std.ExtTreeMap.distinct_keys_toList (t := h.buckets))
    intro p q hne heq
    exact hne (Std.LawfulEqCmp.compare_eq_iff_eq.mpr heq)
  have hcount : ∀ degree, (expand h.buckets.toList).count degree = h.count degree := by
    intro degree
    rw [Histogram.count, Std.ExtTreeMap.getD_eq_getD_getElem?]
    cases hget : h.buckets[degree]? with
    | none =>
      refine count_expand_of_notMem fun p hp heq => ?_
      rw [← heq, Std.ExtTreeMap.mem_toList_iff_getElem?_eq_some.mp hp] at hget
      cases hget
    | some n => exact count_expand hdistinct (Std.ExtTreeMap.mem_toList_iff_getElem?_eq_some.mpr hget)
  exact List.perm_iff_count.mpr fun degree => (hcount degree).trans (hh.count degree)

/-! ### No bucket but those of the samples -/

/-- The histogram holds the given samples, and has no bucket but theirs. -/
structure Exactly (h : Histogram) (ds : List UInt64) : Prop extends Holds h ds where
  filled : ∀ degree ∈ h.buckets, degree ∈ ds

theorem exactly_nil (name : String) : Exactly { name } [] :=
  ⟨holds_nil name, fun _ hd => absurd hd Std.ExtTreeMap.not_mem_empty⟩

/-- Samples go in with their buckets, and no bucket comes but theirs. -/
theorem Exactly.absorb {ps : List (UInt64 × Nat)} (hh : h.Exactly ds) (hps : (expand ps).Perm es)
    (hkeys : ∀ p ∈ ps, p.1 ∈ es) (hlen : (ds ++ es).length < wordLimit) :
    ∃ h', h.applyAll (ps.map (fun p h => h.addBucket p.1 p.2) ++
        [(·.addObservations es.length), (·.addSum (es.map UInt64.toNat).sum)]) = (.ok (), h') ∧
      h'.Exactly (ds ++ es) := by
  obtain ⟨h', happly, hholds, hbuckets⟩ := hh.toHolds.absorb hps hlen
  refine ⟨h', happly, hholds, fun degree hd => ?_⟩
  rw [List.mem_append]
  rcases hbuckets degree hd with hin | hin
  · exact .inl (hh.filled degree hin)
  · obtain ⟨p, hp, rfl⟩ := List.mem_map.mp hin
    exact .inr (hkeys p hp)

theorem Exactly.add {degree : UInt64} (hh : h.Exactly ds) (hlen : (ds ++ [degree]).length < wordLimit) :
    ∃ h', h.add degree = (.ok (), h') ∧ h'.Exactly (ds ++ [degree]) := by
  have hps : (expand [(degree, 1)]).Perm [degree] := List.Perm.refl _
  exact hh.absorb hps (by simp) hlen

theorem Exactly.merge (hh : h.Exactly ds) (hk : k.Exactly es) (hlen : (ds ++ es).length < wordLimit) :
    ∃ h', h.merge k = (.ok (), h') ∧ h'.Exactly (ds ++ es) := by
  have hkeys : ∀ p ∈ k.buckets.toList, p.1 ∈ es := by
    intro p hp
    refine hk.filled p.1 (Std.ExtTreeMap.mem_iff_isSome_getElem?.mpr ?_)
    rw [Std.ExtTreeMap.mem_toList_iff_getElem?_eq_some.mp hp]
    rfl
  have habsorb := hh.absorb hk.expand_perm hkeys hlen
  rw [← hk.observations, ← hk.sum] at habsorb
  exact habsorb

/-! ### What the samples determine -/

theorem Exactly.getElem? (hh : h.Exactly ds) (degree : UInt64) :
    h.buckets[degree]? = if degree ∈ ds then some (ds.count degree) else none := by
  have hcount := hh.count degree
  rw [Histogram.count, Std.ExtTreeMap.getD_eq_getD_getElem?] at hcount
  cases hget : h.buckets[degree]? with
  | none =>
    rw [hget] at hcount
    rw [if_neg (List.count_eq_zero.mp hcount.symm)]
  | some n =>
    have hmem : degree ∈ h.buckets := Std.ExtTreeMap.mem_iff_isSome_getElem?.mpr (by rw [hget]; rfl)
    rw [hget] at hcount
    rw [if_pos (hh.filled degree hmem), ← hcount]
    rfl

/-- The number and the sum of the samples are those that the buckets give, no bucket is empty, and the sum has
room in two machine words. -/
structure Coherent (h : Histogram) : Prop where
  observations : h.observations = (h.buckets.toList.map Prod.snd).sum
  sum : h.sum = (h.buckets.toList.map fun p => p.1.toNat * p.2).sum
  filled : ∀ p ∈ h.buckets.toList, p.2 ≠ 0
  room : h.sum < wordLimit * wordLimit

theorem Exactly.coherent (hh : h.Exactly ds) (hlen : ds.length < wordLimit) : h.Coherent where
  observations := by rw [hh.observations, ← hh.expand_perm.length_eq, length_expand]
  sum := by rw [hh.sum, ← (hh.expand_perm.map UInt64.toNat).sum_eq, sum_expand]
  filled := by
    intro p hp
    have hget := Std.ExtTreeMap.mem_toList_iff_getElem?_eq_some.mp hp
    rw [hh.getElem?] at hget
    split_ifs at hget with hmem
    rw [← Option.some.inj hget]
    exact (List.count_pos_iff.mpr hmem).ne'
  room := hh.sum ▸ sum_toNat_lt hlen

/-- The histograms count the same, whatever their names. -/
structure Agrees (h k : Histogram) : Prop where
  buckets : h.buckets = k.buckets
  observations : h.observations = k.observations
  sum : h.sum = k.sum

theorem Exactly.agrees (hh : h.Exactly ds) (hk : k.Exactly es) (hperm : ds.Perm es) : h.Agrees k where
  buckets := by
    refine Std.ExtTreeMap.ext_getElem? fun degree => ?_
    rw [hh.getElem?, hk.getElem?, hperm.count_eq]
    exact if_congr hperm.mem_iff rfl rfl
  observations := by rw [hh.observations, hk.observations, hperm.length_eq]
  sum := by rw [hh.sum, hk.sum, (hperm.map UInt64.toNat).sum_eq]

/-! ### Any shape -/

/-- How a histogram comes about. -/
inductive Assembly where
  /-- A new histogram. -/
  | start (name : String)
  /-- One more sample. -/
  | add (a : Assembly) (degree : UInt64)
  /-- The samples of another histogram too. -/
  | merge (a other : Assembly)

namespace Assembly

/-- The samples that go in, in order. -/
def samples : Assembly → List UInt64
  | start _ => []
  | add a degree => a.samples ++ [degree]
  | merge a other => a.samples ++ other.samples

/-- The histogram after an operation, unless it ended in a defect. -/
def finish : Except Defect Unit × Histogram → Except Defect Histogram
  | (.ok _, h) => .ok h
  | (.error d, _) => .error d

/-- Do what the assembly says, up to the first defect. -/
def build : Assembly → Except Defect Histogram
  | start name => .ok { name }
  | add a degree => do finish ((← a.build).add degree)
  | merge a other => do
    let h ← a.build
    let k ← other.build
    finish (h.merge k)

/-- **An assembly succeeds**, if all its samples can be counted, and holds them all. -/
theorem exists_build (a : Assembly) (hlen : a.samples.length < wordLimit) :
    ∃ h, a.build = .ok h ∧ h.Exactly a.samples := by
  induction a with
  | start name => exact ⟨_, rfl, exactly_nil name⟩
  | add a degree ih =>
    rw [samples] at hlen ⊢
    obtain ⟨h, hbuild, hh⟩ := ih (Nat.lt_of_le_of_lt (by simp) hlen)
    obtain ⟨h', hadd, hh'⟩ := hh.add hlen
    refine ⟨h', ?_, hh'⟩
    rw [build, hbuild]
    exact congrArg finish hadd
  | merge a other iha iho =>
    rw [samples] at hlen ⊢
    obtain ⟨h, hbuild, hh⟩ := iha (Nat.lt_of_le_of_lt (by simp) hlen)
    obtain ⟨k, hother, hk⟩ := iho (Nat.lt_of_le_of_lt (by simp) hlen)
    obtain ⟨h', hmerge, hh'⟩ := hh.merge hk hlen
    refine ⟨h', ?_, hh'⟩
    rw [build, hbuild, hother]
    exact congrArg finish hmerge

/-- **Histograms merge in any order.** Samples that can be counted by a machine word go in without a defect,
however they are ordered, split and merged, and the histogram counts each degree as often as it came. Two
histograms of the same samples have the same buckets, the same number and the same sum, which agree with one
another. -/
theorem build_canonical (a b : Assembly) (hperm : a.samples.Perm b.samples) (hlen : a.samples.length < wordLimit) :
    ∃ h k, a.build = .ok h ∧ b.build = .ok k ∧ h.Agrees k ∧ h.Holds a.samples ∧ h.Coherent ∧ k.Coherent := by
  have hlen' : b.samples.length < wordLimit := hperm.length_eq ▸ hlen
  obtain ⟨h, hbuild, hh⟩ := a.exists_build hlen
  obtain ⟨k, hother, hk⟩ := b.exists_build hlen'
  exact ⟨h, k, hbuild, hother, hh.agrees hk hperm, hh.toHolds, hh.coherent hlen, hk.coherent hlen'⟩

/-- Three samples in two histograms, the second merged into the first. -/
def inTwo : Assembly := merge (add (add (start "out") 2) 4) (add (start "in") 2)

/-- The samples in another order, some added after a merge. -/
def inTurns : Assembly := add (add (merge (start "all") (add (start "in") 2)) 2) 4

theorem build_canonical_inTwo :
    inTwo.samples.Perm inTurns.samples ∧ inTwo.samples.length < wordLimit ∧
      ∃ h k, inTwo.build = .ok h ∧ inTurns.build = .ok k ∧ h.Agrees k ∧ h.Coherent ∧ h.count 2 = 2 ∧ h.sum = 8 := by
  have hperm : inTwo.samples.Perm inTurns.samples := by decide
  have hlen : inTwo.samples.length < wordLimit := by decide
  obtain ⟨h, k, hbuild, hother, hagrees, hholds, hcoherent, -⟩ := build_canonical inTwo inTurns hperm hlen
  exact ⟨hperm, hlen, h, k, hbuild, hother, hagrees, hcoherent, hholds.count 2, hholds.sum⟩

end Assembly

end Liveness.Histogram

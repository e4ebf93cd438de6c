import Mathlib.Data.List.Chain
import Mathlib.Data.List.Perm.Subperm
import Liveness.Store.Path
import Liveness.Proofs.Outcome
import Liveness.Proofs.Store.Keys

/-!
# Paths to a node

The walk from parent to parent gives the states of a path that starts at a node without
a parent and leads from each node to one that was first reached from it. The cache of
records that were read does not change what is found. Where parents lead down to a node
without coming to a node twice, the walk finds the way (`IsTrace.path_spec`).
-/

namespace Liveness.Store

variable {s : Store} {c : PathCache} {k : Key}

/-- The parents remembered are those in the records. -/
def Recalls (s : Store) (c : PathCache) : Prop :=
  ∀ offset parent, c.parents.lookup offset = some parent → ∃ n, s.log.read offset = .ok n ∧ n.parent = parent

theorem recalls_empty (s : Store) : s.Recalls {} := fun _ _ hlookup => by cases hlookup

/-- The node `k` was first reached from `parent`. -/
def HasParent (s : Store) (k : Key) (parent : Option Key) : Prop := ∃ n, s.Holds k n ∧ n.parent = parent

theorem HasParent.unique {p q : Option Key} (hp : s.HasParent k p) (hq : s.HasParent k q) : p = q := by
  obtain ⟨n, hn, rfl⟩ := hp
  obtain ⟨n', hn', rfl⟩ := hq
  rw [hn.unique hn']

/-- The parent of a node is found, unless the node was never seen. -/
theorem parentOf_spec (h : s.Intact) (hc : s.Recalls c) :
    (s.parentOf k).Meets c (fun parent c' => s.Recalls c' ∧ s.HasParent k parent)
      (fun f _ => f = .error (.unknownNode k) ∧ s.isUnseen k = true) := by
  have hholds : ∀ {slot n}, s.slot? k = some slot → s.node k = .ok n → s.Holds k n :=
    fun hslot hn => ⟨isUnseen_eq_false_iff.mpr ⟨_, hslot⟩, hn⟩
  unfold parentOf
  split
  · rename_i hslot
    exact ⟨rfl, isUnseen_iff.mpr hslot⟩
  · rename_i parent hslot
    exact ⟨hc, _, hholds hslot (by rw [node, hslot]), rfl⟩
  · rename_i offset hslot
    have hnode : s.node k = s.log.read offset := by rw [node, hslot]
    refine Change.Meets.bind (Q := fun a c' => a = c ∧ c' = c) ⟨rfl, rfl⟩ ?_
    rintro c c' ⟨rfl, rfl⟩
    cases hlookup : c'.parents.lookup offset with
    | some parent =>
      obtain ⟨n, hn, hparent⟩ := hc offset parent hlookup
      exact ⟨hc, n, hholds hslot (hnode.trans hn), hparent⟩
    | none =>
      obtain ⟨n, hn, -⟩ := h.readable k offset hslot
      refine Change.Meets.bind (Q := fun n' c => n' = n ∧ c = c') ?_ ?_
      · exact Change.Meets.lift (fun n' hn' => ⟨Except.ok.inj (hn'.symm.trans hn), rfl⟩)
          fun f hf => by rw [hn] at hf; cases hf
      rintro n' c ⟨rfl, rfl⟩
      refine ⟨fun offset' parent hparent => ?_, n', hholds hslot (hnode.trans hn), rfl⟩
      rw [List.lookup_cons] at hparent
      split at hparent
      · rename_i heq
        rw [beq_iff_eq.mp heq]
        exact ⟨n', hn, Option.some.inj hparent⟩
      · exact hc offset' parent hparent

/-- The keys are those of a path: it starts at a node without a parent, and each node was first
reached from the one before it. -/
structure IsDescent (s : Store) (ks : List Key) : Prop where
  root : ∃ k, ks.head? = some k ∧ s.HasParent k none
  chain : ks.IsChain fun q k => s.HasParent k (some q)

theorem IsDescent.concat {ks : List Key} {q : Key} (h : s.IsDescent ks) (hlast : ks.getLast? = some q)
    (hk : s.HasParent k (some q)) : s.IsDescent (ks ++ [k]) := by
  obtain ⟨root, hroot, hparent⟩ := h.root
  refine ⟨⟨root, by rw [List.head?_append, hroot]; rfl, hparent⟩, ?_⟩
  refine List.isChain_append.mpr ⟨h.chain, List.isChain_singleton k, fun q' hq' k' hk' => ?_⟩
  obtain rfl : q = q' := Option.some.inj (hlast.symm.trans hq')
  obtain rfl : k = k' := Option.some.inj hk'
  exact hk

theorem walkBack_spec (h : s.Intact) (goal : Key) (fuel : Nat) : ∀ k path c, s.Recalls c →
    (s.walkBack goal fuel (some k) path).Meets c
      (fun path' _ => ∃ ks, path' = ks.map Key.fp ++ path ∧ ks.getLast? = some k ∧ s.IsDescent ks)
      (fun f _ => ¬ f.IsCounterexample) := by
  induction fuel with
  | zero => exact fun k path c hc => id
  | succ fuel ih =>
    intro k path c hc
    refine ((parentOf_spec h hc).mono (fun _ _ hq => hq) ?_).bind ?_
    · rintro f _ ⟨rfl, -⟩
      exact id
    rintro (_ | q) c ⟨hc, hparent⟩
    · have hend : s.walkBack goal fuel none (k.fp :: path) = Pure.pure (k.fp :: path) := by cases fuel <;> rfl
      rw [hend]
      exact ⟨[k], rfl, rfl, ⟨k, rfl, hparent⟩, List.isChain_singleton k⟩
    · refine (ih q (k.fp :: path) c hc).imp ?_
      rintro path' _ ⟨ks, rfl, hlast, hdescent⟩
      exact ⟨ks ++ [k], by simp, by simp, hdescent.concat hlast hparent⟩

/-- A path is a walk back from its node, if one more than the number of nodes is a word. -/
theorem path_eq_walkBack (hsize : s.size.toNat + 1 < 2 ^ 64) (k : Key) :
    s.path k = s.walkBack k (s.size.toNat + 1 + 1) (some k) [] := by
  have hlimit : s.size.toNat + 1 < wordLimit := hsize
  rw [path, addWords, if_pos hlimit]
  rfl

/-- **The path to a node descends to it from parent to child.** -/
theorem pathTo_spec (h : s.Intact) (k : Key) :
    (∃ ks, s.pathTo k = .ok (ks.map Key.fp) ∧ ks.getLast? = some k ∧ s.IsDescent ks) ∨
      ∃ f, s.pathTo k = .error f ∧ ¬ f.IsCounterexample := by
  have hpath : (s.path k).Meets {}
      (fun path' _ => ∃ ks : List Key, path' = ks.map Key.fp ∧ ks.getLast? = some k ∧ s.IsDescent ks)
      (fun f _ => ¬ f.IsCounterexample) := by
    refine Change.Meets.bind (Q := fun _ c => c = {}) ?_ ?_
    · cases addWords s.size.toNat 1 with
      | ok limit => rfl
      | error d => exact id
    · rintro limit c rfl
      refine (walkBack_spec h k _ k [] {} (recalls_empty s)).imp ?_
      rintro path' _ ⟨ks, rfl, hks⟩
      exact ⟨ks, by rw [List.append_nil], hks⟩
  unfold pathTo
  rcases hrun : s.path k {} with ⟨f | path, c⟩
  · exact .inr ⟨f, rfl, hpath.of_error hrun⟩
  · obtain ⟨ks, rfl, hks⟩ := hpath.of_ok hrun
    exact .inl ⟨ks, rfl, hks⟩

/-- Going back puts states in front of those found already. -/
theorem walkBack_isSuffix (s : Store) (goal : Key) (fuel : Nat) : ∀ (k? : Option Key) (path : List Fingerprint)
    (c : PathCache), (s.walkBack goal fuel k? path).Meets c
      (fun path' _ => (k?.map Key.fp).toList ++ path <:+ path') (fun _ _ => True) := by
  induction fuel with
  | zero =>
    intro k? path c
    cases k? with
    | none => exact List.suffix_refl path
    | some k => trivial
  | succ fuel ih =>
    intro k? path c
    cases k? with
    | none => exact List.suffix_refl path
    | some k =>
      refine (Change.meets_true (s.parentOf k) c).bind fun parent c' _ => (ih parent (k.fp :: path) c').mono ?_ fun _ _ _ => trivial
      intro path' _ hpath'
      exact (List.suffix_append _ _).trans hpath'

/-- **The path to a node ends at its state**, whatever else the files hold. -/
theorem getLast?_of_pathTo {path : List Fingerprint} (h : s.pathTo k = .ok path) : path.getLast? = some k.fp := by
  have hpath : (s.path k).Meets {} (fun path' _ => [k.fp] <:+ path') (fun _ _ => True) := by
    refine Change.Meets.bind (Q := fun _ _ => True)
      (Change.Meets.lift (fun _ _ => trivial) fun _ _ => trivial) fun limit c _ => ?_
    exact s.walkBack_isSuffix k (limit + 1) (some k) [] c
  rcases hrun : s.path k {} with ⟨f | path', c⟩
  · rw [pathTo, hrun] at h
    cases h
  · rw [pathTo, hrun] at h
    obtain rfl := Except.ok.inj h
    obtain ⟨init, rfl⟩ := hpath.of_ok hrun
    exact List.getLast?_concat

/-- The path is found in the table and the log, and nowhere else. -/
theorem path_congr {s' : Store} (hparent : ∀ k, s'.parentOf k = s.parentOf k) (hsize : s'.size = s.size) (k : Key) :
    s'.path k = s.path k := by
  have hwalk : ∀ goal fuel k path, s'.walkBack goal fuel k path = s.walkBack goal fuel k path := by
    intro goal fuel
    induction fuel with
    | zero => exact fun k path => by cases k <;> rfl
    | succ fuel ih =>
      intro k path
      cases k with
      | none => rfl
      | some k => simp only [walkBack, hparent, ih]
  simp only [path, hwalk, hsize]

/-! ### Paths that are found -/

/-- The keys lead down to `k`, and none comes twice. -/
structure IsTrace (s : Store) (k : Key) (ks : List Key) : Prop where
  descent : s.IsDescent ks
  last : ks.getLast? = some k
  nodup : ks.Nodup
  seen : ∀ l ∈ ks, s.isUnseen l = false

/-- The trace of a parent is continued to a child that is not on it. -/
theorem IsTrace.concat {ks : List Key} {q : Key} (h : s.IsTrace q ks) (hk : s.HasParent k (some q)) (hnot : k ∉ ks) :
    s.IsTrace k (ks ++ [k]) := by
  refine ⟨h.descent.concat h.last hk, by simp, ?_, fun l hl => ?_⟩
  · refine List.nodup_append.mpr ⟨h.nodup, List.nodup_singleton k, fun l hl k' hk' => ?_⟩
    rw [List.mem_singleton.mp hk']
    exact fun heq => hnot (heq ▸ hl)
  · rcases List.mem_append.mp hl with hl | hl
    · exact h.seen l hl
    · obtain ⟨n, hn, -⟩ := hk
      rw [List.mem_singleton.mp hl]
      exact hn.1

/-- A trace stays one as long as no node changes its parent. -/
theorem IsTrace.mono {s' : Store} {ks : List Key} (h : s.IsTrace k ks)
    (hparent : ∀ l parent, s.HasParent l parent → s'.HasParent l parent)
    (hseen : ∀ l, s.isUnseen l = false → s'.isUnseen l = false) : s'.IsTrace k ks := by
  obtain ⟨root, hroot, hnone⟩ := h.descent.root
  exact ⟨⟨⟨root, hroot, hparent root none hnone⟩, h.descent.chain.imp fun q l hl => hparent l (some q) hl⟩, h.last,
    h.nodup, fun l hl => hseen l (h.seen l hl)⟩

/-- A trace is no longer than the graph has nodes. -/
theorem IsTrace.length_le {ks : List Key} (h : s.IsTrace k ks) : ks.length ≤ s.keys.length :=
  (h.nodup.subperm fun l hl => mem_keys_iff.mpr (h.seen l hl)).length_le

/-- **The walk back along a descent finds it**, if it may be long enough. -/
theorem walkBack_of_descent (h : s.Intact) (goal : Key) (ks : List Key) : ∀ k fuel path c, s.IsDescent ks →
    ks.getLast? = some k → ks.length ≤ fuel → s.Recalls c →
    (s.walkBack goal fuel (some k) path).Meets c (fun path' c' => path' = ks.map Key.fp ++ path ∧ s.Recalls c')
      (fun _ _ => False) := by
  induction ks using List.reverseRecOn with
  | nil => exact fun k fuel path c _ hlast => by cases hlast
  | append_singleton ks k' ih =>
    intro k fuel path c hdescent hlast hfuel hc
    obtain rfl : k' = k := by simpa using hlast
    rw [List.length_append, List.length_singleton] at hfuel
    obtain ⟨fuel, rfl⟩ : ∃ fuel', fuel = fuel' + 1 := Nat.exists_eq_succ_of_ne_zero (by omega)
    obtain ⟨hchain, -, hstep⟩ := List.isChain_append.mp hdescent.chain
    obtain ⟨root, hroot, hnone⟩ := hdescent.root
    -- The last node has no parent if it is the only one, and else the one before it.
    have hparent : s.HasParent k' ks.getLast? := by
      cases hks : ks.getLast? with
      | none =>
        obtain rfl : ks = [] := List.getLast?_eq_none_iff.mp hks
        obtain rfl : k' = root := Option.some.inj hroot
        exact hnone
      | some q => exact hstep q hks k' rfl
    refine ((parentOf_spec h hc).mono (fun _ _ hq => hq) fun f _ hf => ?_).bind ?_
    · obtain ⟨n, hn, -⟩ := hparent
      rw [hn.1] at hf
      cases hf.2
    intro parent c ⟨hc, hparent'⟩
    rw [hparent'.unique hparent]
    cases hks : ks.getLast? with
    | none =>
      obtain rfl : ks = [] := List.getLast?_eq_none_iff.mp hks
      rw [walkBack]
      exact ⟨rfl, hc⟩
    | some q =>
      have hne : ks ≠ [] := fun hnil => by rw [hnil] at hks; cases hks
      have hhead : ks.head? = some root := by rwa [List.head?_append_of_ne_nil _ hne] at hroot
      refine (ih q fuel (k'.fp :: path) c ⟨⟨root, hhead, hnone⟩, hchain⟩ hks (by omega) hc).imp ?_
      intro path' c' ⟨hpath, hc'⟩
      exact ⟨by simp [hpath], hc'⟩

/-- **The path to a node with a trace is found**, with whatever cache. -/
theorem IsTrace.path_spec {ks : List Key} (hks : s.IsTrace k ks) (h : s.Intact) (hcounted : s.Counted)
    (hsize : s.keys.length + 1 < 2 ^ 64) (hc : s.Recalls c) :
    ∃ c', s.path k c = (.ok (ks.map Key.fp), c') ∧ s.Recalls c' := by
  have hlen : s.size.toNat = s.keys.length := hcounted.toNat_size (by omega)
  have hwalk := walkBack_of_descent h k ks k (s.size.toNat + 1 + 1) [] c hks.descent hks.last
    (hks.length_le.trans (by omega)) hc
  rw [List.append_nil, ← path_eq_walkBack (by omega)] at hwalk
  obtain ⟨path, c', hrun, rfl, hc'⟩ := hwalk.exists_ok fun _ _ => id
  exact ⟨c', hrun, hc'⟩

end Liveness.Store

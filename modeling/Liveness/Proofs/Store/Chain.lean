import Mathlib.Data.List.Chain
import Mathlib.Logic.Relation
import Liveness.Proofs.Store.Path
import Liveness.Proofs.Store.Plain

/-!
# Chains of parents

Nothing keeps the parents named in a store from leading round in a circle, or to a node of
which nothing is known. The chain of parents of a node then does one of three things: it
comes to a node without a parent, it strays to an unknown node, or it runs round for ever.
The walk back from the node always ends, and says which of the three it is
(`path_tells_chain`), also if some of the parents were remembered from earlier walks.
-/

namespace Liveness

open Relation

namespace Plain

/-- The parent in what is known of a node. -/
def Content.parent : Content → Option Key
  | .recorded parent => parent
  | .written n => n.parent

/-- The parent of a node, if something is known of the node. -/
def parent? (a : Plain) (k : Key) : Option (Option Key) := (a.content k).map Content.parent

/-- The node `q` is the parent of `k`. -/
def Back (a : Plain) (k q : Key) : Prop := a.parent? k = some (some q)

/-- The keys are the chain of parents from `k` to a node without a parent. -/
structure IsLineage (a : Plain) (k : Key) (ks : List Key) : Prop where
  head : ks.head? = some k
  chain : ks.IsChain a.Back
  root : ∃ r, ks.getLast? = some r ∧ a.parent? r = some none

/-- The chain of parents from `k` comes to the node `l`, of which nothing is known. -/
def StraysTo (a : Plain) (k l : Key) : Prop := ReflTransGen a.Back k l ∧ a.parent? l = none

/-- The chain of parents from `k` comes to a node for a second time. -/
def IsCyclic (a : Plain) (k : Key) : Prop := ∃ l, ReflTransGen a.Back k l ∧ TransGen a.Back l l

variable {a : Plain} {k l q : Key} {ks : List Key}

theorem Back.unique {q' : Key} (h : a.Back k q) (h' : a.Back k q') : q = q' :=
  Option.some.inj (Option.some.inj (h.symm.trans h'))

theorem rightUnique_back (a : Plain) : Relator.RightUnique a.Back := fun _ _ _ hq hq' => Back.unique hq hq'

/-! ### The three ends of a chain -/

/-- A chain that has a parent put in front of it. -/
theorem IsLineage.cons (hk : a.Back k q) (h : a.IsLineage q ks) : a.IsLineage k (k :: ks) := by
  obtain ⟨r, hlast, hroot⟩ := h.root
  refine ⟨rfl, List.isChain_cons.mpr ⟨?_, h.chain⟩, r, ?_, hroot⟩
  · intro q' hq'
    obtain rfl : q = q' := Option.some.inj (h.head.symm.trans hq')
    exact hk
  · rw [List.getLast?_cons, hlast]
    rfl

/-- A lineage is followed from its first node to its last. -/
theorem IsLineage.exists_root (h : a.IsLineage k ks) : ∃ r, ReflTransGen a.Back k r ∧ a.parent? r = some none := by
  obtain ⟨hhead, hchain, r, hlast, hroot⟩ := h
  obtain ⟨qs, rfl⟩ := List.head?_eq_some_iff.mp hhead
  refine ⟨r, List.relationReflTransGen_of_exists_isChain_cons qs hchain ?_, hroot⟩
  exact Option.some.inj ((List.getLast?_eq_some_getLast (List.cons_ne_nil k qs)).symm.trans hlast)

/-- A node has one lineage at most. -/
theorem IsLineage.unique (h : a.IsLineage k ks) : ∀ {ks'}, a.IsLineage k ks' → ks = ks' := by
  obtain ⟨hhead, hchain, r, hlast, hroot⟩ := h
  obtain ⟨qs, rfl⟩ := List.head?_eq_some_iff.mp hhead
  clear hhead
  induction qs generalizing k with
  | nil =>
    intro ks' h'
    obtain rfl : k = r := Option.some.inj hlast
    obtain ⟨qs', rfl⟩ := List.head?_eq_some_iff.mp h'.head
    cases qs' with
    | nil => rfl
    | cons q' qs' =>
      have hback : a.Back k q' := (List.isChain_cons_cons.mp h'.chain).1
      rw [Back, hroot] at hback
      cases hback
  | cons q qs ih =>
    intro ks' h'
    obtain ⟨hback, hchain⟩ := List.isChain_cons_cons.mp hchain
    obtain ⟨qs', rfl⟩ := List.head?_eq_some_iff.mp h'.head
    obtain ⟨r', hlast', hroot'⟩ := h'.root
    cases qs' with
    | nil =>
      obtain rfl : k = r' := Option.some.inj hlast'
      rw [Back, hroot'] at hback
      cases hback
    | cons q' qs' =>
      obtain ⟨hback', hchain'⟩ := List.isChain_cons_cons.mp h'.chain
      obtain rfl := hback.unique hback'
      rw [List.getLast?_cons_cons] at hlast hlast'
      rw [ih hchain hlast ⟨rfl, hchain', r', hlast', hroot'⟩]

/-- A chain that runs round goes on. -/
theorem IsCyclic.exists_back (h : a.IsCyclic k) : ∃ q, a.Back k q := by
  obtain ⟨l, hl, hround⟩ := h
  rcases hl.cases_head with rfl | ⟨q, hq, -⟩
  · obtain ⟨q, hq, -⟩ := TransGen.head'_iff.mp hround
    exact ⟨q, hq⟩
  · exact ⟨q, hq⟩

/-- A chain that runs round still does after one step. -/
theorem IsCyclic.step (h : a.IsCyclic k) (hq : a.Back k q) : a.IsCyclic q := by
  obtain ⟨l, hl, hround⟩ := h
  rcases hl.cases_head with rfl | ⟨q', hq', hl⟩
  · obtain ⟨q', hq', hback⟩ := TransGen.head'_iff.mp hround
    obtain rfl := hq.unique hq'
    exact ⟨k, hback, hround⟩
  · obtain rfl := hq.unique hq'
    exact ⟨l, hl, hround⟩

/-- A chain that runs round has no end. -/
theorem IsCyclic.exists_back_of_reaches (h : a.IsCyclic k) (hl : ReflTransGen a.Back k l) : ∃ q, a.Back l q := by
  induction hl using ReflTransGen.head_induction_on with
  | refl => exact h.exists_back
  | head hback _ ih => exact ih (h.step hback)

/-- Two ends of one chain are the same. -/
theorem eq_of_ends (hk : ReflTransGen a.Back k l) (hl : ¬ ∃ q, a.Back l q) (hk' : ReflTransGen a.Back k q)
    (hq : ¬ ∃ r, a.Back q r) : l = q := by
  have hstays : ∀ {x y}, ReflTransGen a.Back x y → (¬ ∃ r, a.Back x r) → x = y := by
    intro x y hxy hx
    rcases hxy.cases_head with heq | ⟨r, hr, -⟩
    · exact heq
    · exact absurd ⟨r, hr⟩ hx
  rcases hk.total_of_right_unique a.rightUnique_back hk' with hlq | hql
  · exact hstays hlq hl
  · exact (hstays hql hq).symm

theorem not_back_of_parent? {o : Option (Option Key)} (h : a.parent? l = o) (ho : ∀ q, o ≠ some (some q)) :
    ¬ ∃ q, a.Back l q := not_exists.mpr fun q hq => ho q (h.symm.trans hq)

theorem StraysTo.not_back (h : a.StraysTo k l) : ¬ ∃ q, a.Back l q :=
  not_back_of_parent? h.2 fun _ heq => by cases heq

/-- A chain strays to one node only. -/
theorem StraysTo.unique (h : a.StraysTo k l) (h' : a.StraysTo k q) : l = q :=
  eq_of_ends h.1 h.not_back h'.1 h'.not_back

theorem StraysTo.not_isCyclic (h : a.StraysTo k l) : ¬ a.IsCyclic k :=
  fun hcyclic => h.not_back (hcyclic.exists_back_of_reaches h.1)

theorem IsLineage.not_isCyclic (h : a.IsLineage k ks) : ¬ a.IsCyclic k := by
  intro hcyclic
  obtain ⟨r, hr, hroot⟩ := h.exists_root
  exact not_back_of_parent? hroot (fun _ heq => by cases heq) (hcyclic.exists_back_of_reaches hr)

theorem IsLineage.not_straysTo (h : a.IsLineage k ks) : ¬ a.StraysTo k l := by
  intro hstrays
  obtain ⟨r, hr, hroot⟩ := h.exists_root
  have hend : ¬ ∃ q, a.Back r q := not_back_of_parent? hroot fun _ heq => by cases heq
  obtain rfl := eq_of_ends hr hend hstrays.1 hstrays.not_back
  rw [hstrays.2] at hroot
  cases hroot

/-- What the walk back from `k` should come to, by what the chain of parents does. -/
inductive ComesTo (a : Plain) (k : Key) : Outcome (List Fingerprint) → Prop where
  /-- The states on the chain, the last first. -/
  | root {ks : List Key} : a.IsLineage k ks → ComesTo a k (.ok (ks.map Key.fp).reverse)
  /-- The first node of which nothing is known. -/
  | unknown {l : Key} : a.StraysTo k l → ComesTo a k (.error (.error (.unknownNode l)))
  /-- Damage. -/
  | round : a.IsCyclic k → ComesTo a k (.error (.corrupt 0 (.parentCycle k)))

/-- **No chain has two ends.** -/
theorem ComesTo.unique {r r' : Outcome (List Fingerprint)} (h : a.ComesTo k r) (h' : a.ComesTo k r') : r = r' := by
  cases h with
  | root hks =>
    cases h' with
    | root hks' => rw [hks.unique hks']
    | unknown hstrays => exact absurd hstrays hks.not_straysTo
    | round hcyclic => exact absurd hcyclic hks.not_isCyclic
  | unknown hstrays =>
    cases h' with
    | root hks => exact absurd hstrays hks.not_straysTo
    | unknown hstrays' => rw [hstrays.unique hstrays']
    | round hcyclic => exact absurd hcyclic hstrays.not_isCyclic
  | round hcyclic =>
    cases h' with
    | root hks => exact absurd hcyclic hks.not_isCyclic
    | unknown hstrays => exact absurd hcyclic hstrays.not_isCyclic
    | round _ => rfl

/-- Each node of a chain but the last has a parent. -/
theorem exists_back_of_mem_dropLast : ∀ {ks : List Key}, ks.IsChain a.Back → l ∈ ks.dropLast → ∃ q, a.Back l q
  | x :: y :: ks, hchain, hl => by
    obtain ⟨hback, hchain⟩ := List.isChain_cons_cons.mp hchain
    rw [List.dropLast_cons_cons] at hl
    rcases List.mem_cons.mp hl with rfl | hl
    · exact ⟨y, hback⟩
    · exact exists_back_of_mem_dropLast hchain hl

/-- A chain that comes to more nodes than there are runs round. -/
theorem isCyclic_of_length (known : List Key) (hknown : ∀ l, a.parent? l ≠ none → l ∈ known)
    (hchain : (k :: ks).IsChain a.Back) (hlen : known.length < ks.length) : a.IsCyclic k := by
  by_contra hcyclic
  have hpairwise : (k :: ks).Pairwise (TransGen a.Back) :=
    List.isChain_iff_pairwise.mp (hchain.imp fun _ _ => TransGen.single)
  have hreach : ∀ l ∈ k :: ks, ReflTransGen a.Back k l := by
    intro l hl
    rcases List.mem_cons.mp hl with rfl | hl
    · exact .refl
    · exact ((List.pairwise_cons.mp hpairwise).1 l hl).to_reflTransGen
  have hnodup : (k :: ks).Nodup := by
    refine hpairwise.imp_of_mem fun {x y} hx _ hxy heq => hcyclic ⟨x, hreach x hx, ?_⟩
    exact heq ▸ hxy
  have hsub : (k :: ks).dropLast ⊆ known := by
    intro l hl
    obtain ⟨q, hq⟩ := exists_back_of_mem_dropLast hchain hl
    exact hknown l (by rw [hq]; exact Option.some_ne_none _)
  have hle := ((hnodup.sublist (List.dropLast_sublist _)).subperm hsub).length_le
  rw [List.length_dropLast, List.length_cons, Nat.add_sub_cancel] at hle
  omega

end Plain

namespace Store

variable {s : Store} {a : Plain} {k : Key} {c : PathCache}

/-! ### The walk back -/

/-- The parents in the store are those of the plain graph. -/
theorem Matches.hasParent_iff (h : s.Matches a) {parent : Option Key} :
    s.HasParent k parent ↔ a.parent? k = some parent := by
  have hunseen := h.isUnseen k
  have hnode := h.node k
  rw [Plain.node] at hnode
  rw [HasParent, Plain.parent?]
  constructor
  · intro hheld
    obtain ⟨n, hn, hparent⟩ := hheld
    rw [hn.1] at hunseen
    obtain rfl := Except.ok.inj (hn.2.symm.trans hnode)
    cases hcontent : a.content k with
    | none => rw [hcontent] at hunseen; cases hunseen
    | some content =>
      rw [hcontent] at hparent
      cases content <;> exact congrArg some hparent
  · intro hparent
    obtain ⟨content, hcontent, rfl⟩ := Option.map_eq_some_iff.mp hparent
    rw [hcontent] at hunseen hnode
    refine ⟨_, ⟨hunseen, hnode⟩, ?_⟩
    cases content <;> rfl

theorem Matches.isUnseen_iff (h : s.Matches a) : s.isUnseen k = true ↔ a.parent? k = none := by
  rw [h.isUnseen, Plain.parent?, Option.map_eq_none_iff, Option.isNone_iff_eq_none]

/-- A node of which nothing is known has no parent, and nothing is remembered of it. -/
theorem parentOf_of_isUnseen (h : s.isUnseen k = true) (c : PathCache) :
    s.parentOf k c = (.error (.error (.unknownNode k)), c) := by
  rw [parentOf, Store.isUnseen_iff.mp h]
  rfl

/-- The parent is the one of the plain graph. -/
theorem Follows.meets_parentOf (h : s.Follows a) (hc : s.Recalls c) :
    (s.parentOf k).Meets c (fun parent c' => s.Recalls c' ∧ a.parent? k = some parent)
      (fun f c' => s.Recalls c' ∧ f = .error (.unknownNode k) ∧ a.parent? k = none) := by
  cases hk : s.isUnseen k with
  | true =>
    rw [Change.Meets, parentOf_of_isUnseen hk]
    exact ⟨hc, rfl, h.isMatch.isUnseen_iff.mp hk⟩
  | false =>
    refine (parentOf_spec h.intact hc).mono ?_ ?_
    · intro parent c' hread
      obtain ⟨hc', hparent⟩ := hread
      exact ⟨hc', h.isMatch.hasParent_iff.mp hparent⟩
    · intro f c' hread
      obtain ⟨-, hunseen⟩ := hread
      rw [hk] at hunseen
      cases hunseen

/-- **The walk back follows the chain of parents.** It stops at a node without a parent, at an
unknown node, or when it has gone as far as it may. -/
theorem Follows.meets_walkBack (h : s.Follows a) (goal : Key) (fuel : Nat) : ∀ k path c, s.Recalls c →
    (s.walkBack goal fuel (some k) path).Meets c
      (fun path' c' => s.Recalls c' ∧ ∃ ks, a.IsLineage k ks ∧ path' = (ks.map Key.fp).reverse ++ path)
      (fun f c' => s.Recalls c' ∧ ((∃ l, f = .error (.unknownNode l) ∧ a.StraysTo k l) ∨
        f = .corrupt 0 (.parentCycle goal) ∧ ∃ ks, (k :: ks).IsChain a.Back ∧ ks.length = fuel)) := by
  induction fuel with
  | zero => exact fun k path c hc => ⟨hc, .inr ⟨rfl, [], List.isChain_singleton k, rfl⟩⟩
  | succ fuel ih =>
    intro k path c hc
    rw [walkBack]
    refine ((h.meets_parentOf hc).mono (fun _ _ hq => hq) ?_).bind ?_
    · intro f c' hread
      obtain ⟨hc', hf, hunknown⟩ := hread
      exact ⟨hc', .inl ⟨k, hf, .refl, hunknown⟩⟩
    intro parent c' hread
    obtain ⟨hc', hparent⟩ := hread
    cases parent with
    | none =>
      have hend : s.walkBack goal fuel none (k.fp :: path) = Pure.pure (k.fp :: path) := by cases fuel <;> rfl
      rw [hend]
      exact ⟨hc', [k], ⟨rfl, List.isChain_singleton k, k, rfl, hparent⟩, rfl⟩
    | some q =>
      refine (ih q (k.fp :: path) c' hc').mono ?_ ?_
      · intro path' c'' hwalk
        obtain ⟨hc'', ks, hks, hpath'⟩ := hwalk
        exact ⟨hc'', k :: ks, hks.cons hparent, by simp [hpath']⟩
      · intro f c'' hwalk
        obtain ⟨hc'', hf⟩ := hwalk
        refine ⟨hc'', hf.imp ?_ ?_⟩
        · intro hstray
          obtain ⟨l, hl, hstrays, hunknown⟩ := hstray
          exact ⟨l, hl, .head hparent hstrays, hunknown⟩
        · intro hround
          obtain ⟨hf, ks, hchain, hlen⟩ := hround
          exact ⟨hf, q :: ks, .cons_cons hparent hchain, by rw [List.length_cons, hlen]⟩

/-- The path to a node is what its chain of parents comes to. -/
theorem Follows.path_comesTo (h : s.Follows a) (hcount : s.keys.length + 1 < 2 ^ 64) (k : Key) (hc : s.Recalls c) :
    a.ComesTo k (s.path k c).1 ∧ s.Recalls (s.path k c).2 := by
  have hlen : s.size.toNat = s.keys.length := h.counted.toNat_size (by omega)
  have hwalk := h.meets_walkBack k (s.size.toNat + 1 + 1) k [] c hc
  rw [← path_eq_walkBack (by omega)] at hwalk
  rcases hrun : s.path k c with ⟨f | path, c'⟩
  · obtain ⟨hc', hf⟩ := hwalk.of_error hrun
    refine ⟨?_, hc'⟩
    rcases hf with ⟨l, rfl, hstrays⟩ | ⟨rfl, ks, hchain, hlen⟩
    · exact .unknown hstrays
    · -- The walk passed more nodes than there are in the graph.
      refine .round (Plain.isCyclic_of_length s.keys (fun l hl => ?_) hchain (by omega))
      rw [mem_keys_iff, ← Bool.not_eq_true, h.isMatch.isUnseen_iff]
      exact hl
  · obtain ⟨hc', ks, hks, rfl⟩ := hwalk.of_ok hrun
    rw [List.append_nil]
    exact ⟨.root hks, hc'⟩

/-- What is remembered after the paths to some nodes were asked for. -/
def recalled (s : Store) (ks : List Key) : PathCache := ks.foldl (fun c k => (s.path k c).2) {}

/-- Walks that came to nothing leave right parents behind as well. -/
theorem Follows.recalls_recalled (h : s.Follows a) (hcount : s.keys.length + 1 < 2 ^ 64) (ks : List Key) :
    s.Recalls (s.recalled ks) := by
  refine List.foldlRecOn _ _ (recalls_empty s) ?_
  intro c hc k _
  exact (h.path_comesTo hcount k hc).2

/-- **The path to a node tells what its chain of parents does**, whatever parents were named
and whatever paths were asked for before. There is a path exactly if the chain comes to a node
without a parent, and it is the states on the chain, the last first. An unknown node is
reported exactly if the chain strays to it, and damage exactly if the chain runs round. It
does one of the three. -/
theorem path_tells_chain {folder : String} {taken : List String} {index : Nat}
    (hcreate : create folder taken index = .ok s) {ops : List Operation} (hops : ∀ op ∈ ops, op.Valid)
    (hcount : (s.run ops).keys.length + 1 < 2 ^ 64) (served : List Key) (k : Key) :
    let a := Plain.run {} ops
    let r := ((s.run ops).path k ((s.run ops).recalled served)).1
    (∀ path, r = .ok path ↔ ∃ ks, a.IsLineage k ks ∧ path = (ks.map Key.fp).reverse) ∧
      (∀ l, r = .error (.error (.unknownNode l)) ↔ a.StraysTo k l) ∧
      ((∃ offset damage, r = .error (.corrupt offset damage)) ↔ a.IsCyclic k) ∧
      (a.IsCyclic k → r = .error (.corrupt 0 (.parentCycle k))) ∧
      ((∃ ks, a.IsLineage k ks) ∨ (∃ l, a.StraysTo k l) ∨ a.IsCyclic k) := by
  obtain ⟨hlog, htable, hroots, hsize⟩ := create_eq_ok hcreate
  have hstart : s.Follows {} := .empty hlog htable hroots hsize
  have h := hstart.run hops
  intro a r
  have hr : a.ComesTo k r := (h.path_comesTo hcount k (h.recalls_recalled hcount served)).1
  refine ⟨fun path => ⟨fun heq => ?_, ?_⟩, fun l => ⟨fun heq => ?_, fun hstrays => hr.unique (.unknown hstrays)⟩,
    ⟨?_, fun hcyclic => ⟨_, _, hr.unique (.round hcyclic)⟩⟩, fun hcyclic => hr.unique (.round hcyclic), ?_⟩
  · rw [heq] at hr
    cases hr with
    | root hks => exact ⟨_, hks, rfl⟩
  · intro hlineage
    obtain ⟨ks, hks, hpath⟩ := hlineage
    rw [hpath]
    exact hr.unique (.root hks)
  · rw [heq] at hr
    cases hr with
    | unknown hstrays => exact hstrays
  · intro hcorrupt
    obtain ⟨offset, damage, heq⟩ := hcorrupt
    rw [heq] at hr
    cases hr with
    | round hcyclic => exact hcyclic
  · generalize r = o at hr
    cases hr with
    | root hks => exact .inl ⟨_, hks⟩
    | unknown hstrays => exact .inr (.inl ⟨_, hstrays⟩)
    | round hcyclic => exact .inr (.inr hcyclic)

/-- A node without steps can be written. -/
theorem valid_bare (k : Key) (parent : Option Key) :
    Operation.Valid (.edit (.addNode { key := k, parent := parent })) := by
  have hbuilt : Node.Built { key := k, parent := parent } := .new k parent
  refine ⟨hbuilt, (Node.tidy_new k parent).storable ?_⟩
  have hparent : (Node.encodeParent parent).length ≤ 13 := by
    cases parent <;> simp [Node.encodeParent, Key.encode, bytes64, bytes32]
  rw [Node.length_encode]
  change 24 + (Node.encodeParent parent).length + (0 + 7) / 8 + 4 * 0 < 2 ^ 29
  omega

/-- A history after which the node 2 descends from the root 1, the nodes 3 and 4 are parents
of each other, 5 comes from 3, the parent of 6 is unknown, and 7 comes from 6. -/
def tangledHistory : List Operation :=
  [.edit (.addRoot ⟨1, 0⟩), .edit (.record ⟨2, 0⟩ ⟨1, 0⟩), .edit (.record ⟨3, 0⟩ ⟨1, 0⟩),
    .edit (.addNode { key := ⟨3, 0⟩, parent := some ⟨4, 0⟩ }),
    .edit (.addNode { key := ⟨4, 0⟩, parent := some ⟨3, 0⟩ }),
    .edit (.record ⟨5, 0⟩ ⟨3, 0⟩), .edit (.addNode { key := ⟨6, 0⟩, parent := some ⟨9, 0⟩ }),
    .edit (.record ⟨7, 0⟩ ⟨6, 0⟩)]

theorem path_tells_chain_tangledHistory : ∃ s, create "graph" [] 0 = .ok s ∧ (∀ op ∈ tangledHistory, op.Valid) ∧
    (s.run tangledHistory).keys.length + 1 < 2 ^ 64 ∧
    let g := s.run tangledHistory
    let c := g.recalled [⟨7, 0⟩, ⟨4, 0⟩]
    (g.path ⟨2, 0⟩ c).1 = .ok [1, 2] ∧ (g.path ⟨7, 0⟩ c).1 = .error (.error (.unknownNode ⟨9, 0⟩)) ∧
      (g.path ⟨5, 0⟩ c).1 = .error (.corrupt 0 (.parentCycle ⟨5, 0⟩)) := by
  have hvalid : ∀ op ∈ tangledHistory, op.Valid := by
    simp only [tangledHistory, List.forall_mem_cons, List.not_mem_nil, false_imp_iff, implies_true, and_true]
    exact ⟨trivial, trivial, trivial, valid_bare _ _, valid_bare _ _, trivial, valid_bare _ _, trivial⟩
  obtain ⟨s, hs⟩ : ∃ s, create "graph" [] 0 = .ok s := ⟨_, rfl⟩
  obtain ⟨hlog, htable, hroots, hsize⟩ := create_eq_ok hs
  have hfollows : (s.run tangledHistory).Follows (Plain.run {} tangledHistory) :=
    (Follows.empty hlog htable hroots hsize).run hvalid
  have hcount : (s.run tangledHistory).keys.length + 1 < 2 ^ 64 := by
    rw [hfollows.refines.perm_keys.length_eq]
    exact show 7 + 1 < 2 ^ 64 by decide
  have hchains := path_tells_chain hs hvalid hcount [⟨7, 0⟩, ⟨4, 0⟩]
  refine ⟨s, hs, hvalid, hcount, ((hchains ⟨2, 0⟩).1 _).mpr ?_, ((hchains ⟨7, 0⟩).2.1 _).mpr ?_,
    (hchains ⟨5, 0⟩).2.2.2.1 ?_⟩
  · exact ⟨[⟨2, 0⟩, ⟨1, 0⟩], ⟨rfl, .cons_cons rfl (.singleton _), ⟨1, 0⟩, rfl, rfl⟩, rfl⟩
  · have h76 : (Plain.run {} tangledHistory).Back ⟨7, 0⟩ ⟨6, 0⟩ := rfl
    exact ⟨.head h76 (.single rfl), rfl⟩
  · have h34 : (Plain.run {} tangledHistory).Back ⟨3, 0⟩ ⟨4, 0⟩ := rfl
    exact ⟨⟨3, 0⟩, .single rfl, .head h34 (.single rfl)⟩

/-- Damage is reported of a node without a parent, if its record does not fit. -/
theorem path_after_overlongHistory : ∃ s, create "graph" [] 0 = .ok s ∧
    (Plain.run {} overlongHistory).IsLineage ⟨0, 0⟩ [⟨0, 0⟩] ∧ ¬ (Plain.run {} overlongHistory).IsCyclic ⟨0, 0⟩ ∧
    (s.run overlongHistory).pathTo ⟨0, 0⟩ = .error (.corrupt 0 .trailing) := by
  have hlineage : (Plain.run {} overlongHistory).IsLineage ⟨0, 0⟩ [⟨0, 0⟩] :=
    ⟨rfl, .singleton _, ⟨0, 0⟩, rfl, rfl⟩
  obtain ⟨s, hs, hsize⟩ : ∃ s, create "graph" [] 0 = .ok s ∧ ∀ n, (s.addNode n).size = 1 := ⟨_, rfl, fun _ => rfl⟩
  exact ⟨s, hs, hlineage, hlineage.not_isCyclic, pathTo_addNode_unchecked (create_eq_ok hs).1 (hsize _)⟩

end Store

end Liveness

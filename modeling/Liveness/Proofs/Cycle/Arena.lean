import Mathlib.Data.Finset.Card
import Mathlib.Data.List.Forall2
import Mathlib.Tactic.Common
import Liveness.Cycle.Arena
import Liveness.Proofs.Outcome
import Liveness.Proofs.Store.Reach
import Liveness.Proofs.Store.Table

/-!
# The graph in memory is the reachable graph

Loading a graph gives its reachable part: the nodes are the reachable keys, each once,
and the edges of a node are the steps in its record, in their order (`load_spec`).
Loading fails only if a reachable record cannot be read or a reachable point is outside
the tableau.

Each round but the last expands a written node that no round before it expanded, so
there are no more rounds than keys in the table and one.
-/

namespace Liveness

theorem exists_of_forall₂_left {α β : Type} {R : α → β → Prop} {xs : List α} {ys : List β}
    (h : List.Forall₂ R xs ys) {x : α} (hx : x ∈ xs) : ∃ y ∈ ys, R x y := by
  induction h with
  | nil => cases hx
  | cons hxy _ ih =>
    rcases List.mem_cons.mp hx with rfl | hx
    · exact ⟨_, by simp, hxy⟩
    · obtain ⟨y, hy, hR⟩ := ih hx
      exact ⟨y, by simp [hy], hR⟩

theorem exists_of_forall₂_right {α β : Type} {R : α → β → Prop} {xs : List α} {ys : List β}
    (h : List.Forall₂ R xs ys) {y : β} (hy : y ∈ ys) : ∃ x ∈ xs, R x y :=
  exists_of_forall₂_left (List.Forall₂.flip h) hy

namespace Arena

variable {σ : Type} {s : Store} {p : Property σ} {a b : Arena}

/-- The node with number `v` has the key `k`. -/
def HasKey (a : Arena) (v : Nat) (k : Key) : Prop := ∃ x, a.vertices[v]? = some x ∧ x.key = k

/-- An edge in memory is the step of a record. -/
def Matches (a : Arena) (e : Edge) (t : Step) : Prop := e.actions = t.actions ∧ a.HasKey e.target t.target

/-- A node in memory has the checks and the steps of its record, if it was written. -/
def Loaded (s : Store) (a : Arena) (x : Vertex) : Prop :=
  if s.isWritten x.key = true then
    ∃ n, s.node x.key = .ok n ∧ x.stateBits = n.stateBits ∧ List.Forall₂ a.Matches x.edges n.steps
  else x.stateBits = .empty ∧ x.edges = []

/-- The node with number `v`, if there is one, is loaded. -/
def LoadedAt (s : Store) (a : Arena) (v : Nat) : Prop := ∀ x, a.vertices[v]? = some x → Loaded s a x

/-- A reachable record cannot be read, or it cannot be told whether a reachable node is
accepting. -/
def Broken (s : Store) (p : Property σ) : Prop :=
  ∃ k, s.Reachable k ∧ ((∀ r, accepts p k ≠ .ok r) ∨ (s.isWritten k = true ∧ ∀ n, s.node k ≠ .ok n))

/-- The nodes in memory are distinct reachable nodes; those not written have no edges. -/
structure Loading (s : Store) (p : Property σ) (a : Arena) : Prop where
  inj : ∀ u v k, a.HasKey u k → a.HasKey v k → u = v
  reachable : ∀ v k, a.HasKey v k → s.Reachable k
  accepting : ∀ (v : Nat) (x : Vertex), a.vertices[v]? = some x → accepts p x.key = .ok x.accepting
  unwritten : ∀ (v : Nat) (x : Vertex), a.vertices[v]? = some x → s.isWritten x.key = false →
    x.stateBits = .empty ∧ x.edges = []

/-- The nodes of `a` are the first of `b`. -/
def IsStartOf (a b : Arena) : Prop := a.size ≤ b.size ∧ ∀ v < a.size, b.vertices[v]? = a.vertices[v]?

/-- The nodes of `a` keep their numbers in `b`. -/
def Keeps (a b : Arena) : Prop := a.size ≤ b.size ∧ ∀ v k, a.HasKey v k → b.HasKey v k

theorem lt_size_of_getElem? {v : Nat} {x : Vertex} (h : a.vertices[v]? = some x) : v < a.size :=
  (Array.getElem?_eq_some_iff.mp h).1

theorem HasKey.lt_size {v : Nat} {k : Key} (h : a.HasKey v k) : v < a.size := by
  obtain ⟨x, hx, -⟩ := h
  exact lt_size_of_getElem? hx

theorem IsStartOf.refl (a : Arena) : a.IsStartOf a := ⟨le_rfl, fun _ _ => rfl⟩

theorem IsStartOf.trans {c : Arena} (h : a.IsStartOf b) (h' : b.IsStartOf c) : a.IsStartOf c :=
  ⟨h.1.trans h'.1, fun v hv => (h'.2 v (hv.trans_le h.1)).trans (h.2 v hv)⟩

theorem IsStartOf.keeps (h : a.IsStartOf b) : a.Keeps b := by
  refine ⟨h.1, fun v k hk => ?_⟩
  have hv := hk.lt_size
  obtain ⟨x, hx, rfl⟩ := hk
  exact ⟨x, (h.2 v hv).trans hx, rfl⟩

theorem Keeps.refl (a : Arena) : a.Keeps a := ⟨le_rfl, fun _ _ h => h⟩

theorem Keeps.trans {c : Arena} (h : a.Keeps b) (h' : b.Keeps c) : a.Keeps c :=
  ⟨h.1.trans h'.1, fun v k hk => h'.2 v k (h.2 v k hk)⟩

theorem Matches.mono (h : a.Keeps b) {e : Edge} {t : Step} (he : a.Matches e t) : b.Matches e t :=
  ⟨he.1, h.2 _ _ he.2⟩

theorem Loaded.mono (h : a.Keeps b) {x : Vertex} (hx : Loaded s a x) : Loaded s b x := by
  unfold Loaded at hx ⊢
  split_ifs at hx ⊢ with hw
  · obtain ⟨n, hn, hbits, hedges⟩ := hx
    exact ⟨n, hn, hbits, hedges.imp fun _ _ he => he.mono h⟩
  · exact hx

/-! ### Numbering -/

theorem find?_eq_some {k : Key} {v : Nat} (h : a.find? k = some v) : a.HasKey v k := by
  obtain ⟨hv, hk, -⟩ := Array.findIdx?_eq_some_iff_getElem.mp h
  exact ⟨a.vertices[v], Array.getElem?_eq_getElem hv, by simpa using hk⟩

theorem find?_eq_none {k : Key} (h : a.find? k = none) (v : Nat) : ¬ a.HasKey v k := by
  rintro ⟨x, hx, rfl⟩
  have := Array.findIdx?_eq_none_iff.mp h x (Array.mem_of_getElem? hx)
  simp at this

/-- A key gets a number, and the nodes there keep theirs. -/
theorem intern_spec (h : Loading s p a) {k : Key} (hk : s.Reachable k) :
    Outcome.Meets (a.intern p k) (fun r => r.2.HasKey r.1 k ∧ Loading s p r.2 ∧ a.IsStartOf r.2) (Broken s p) := by
  unfold intern
  cases hf : a.find? k with
  | some v => exact ⟨find?_eq_some hf, h, IsStartOf.refl a⟩
  | none =>
    cases hacc : accepts p k with
    | error d =>
      simp only [Fault.ofDefect, Except.mapError]
      exact ⟨k, hk, Or.inl fun r hr => by rw [hacc] at hr; cases hr⟩
    | ok r =>
      set b : Arena := ⟨a.vertices.push { key := k, accepting := r }⟩ with hb
      show b.HasKey a.size k ∧ Loading s p b ∧ a.IsStartOf b
      have hget : ∀ v, b.vertices[v]? =
          if v = a.size then some { key := k, accepting := r } else a.vertices[v]? :=
        fun v => Array.getElem?_push
      -- a node is the new one or was there before
      have hcases : ∀ v x, b.vertices[v]? = some x →
          (v = a.size ∧ { key := k, accepting := r } = x) ∨ a.vertices[v]? = some x := by
        intro v x hx
        rw [hget] at hx
        split_ifs at hx with hv
        · exact Or.inl ⟨hv, Option.some.inj hx⟩
        · exact Or.inr hx
      have hkeys : ∀ v l, b.HasKey v l → (v = a.size ∧ l = k) ∨ a.HasKey v l := by
        rintro v l ⟨x, hx, rfl⟩
        rcases hcases v x hx with ⟨hv, rfl⟩ | hx
        · exact Or.inl ⟨hv, rfl⟩
        · exact Or.inr ⟨x, hx, rfl⟩
      have hstart : a.IsStartOf b := by
        refine ⟨by simp [hb, size], fun v hv => ?_⟩
        rw [hget, if_neg hv.ne]
      refine ⟨⟨_, by rw [hget, if_pos rfl], rfl⟩, ⟨?_, ?_, ?_, ?_⟩, hstart⟩
      · intro u v l hu hv
        rcases hkeys u l hu with ⟨rfl, rfl⟩ | hu' <;> rcases hkeys v _ hv with ⟨rfl, hl⟩ | hv'
        · rfl
        · exact absurd hv' (find?_eq_none hf v)
        · exact absurd (hl ▸ hu') (find?_eq_none hf u)
        · exact h.inj u v l hu' hv'
      · intro v l hl
        rcases hkeys v l hl with ⟨-, rfl⟩ | hl'
        · exact hk
        · exact h.reachable v l hl'
      · intro v x hx
        rcases hcases v x hx with ⟨-, rfl⟩ | hx
        · exact hacc
        · exact h.accepting v x hx
      · intro v x hx hw
        rcases hcases v x hx with ⟨-, rfl⟩ | hx
        · exact ⟨rfl, rfl⟩
        · exact h.unwritten v x hx hw

/-- Steps become edges, in their order. -/
theorem internSteps_spec (steps : List Step) : ∀ a : Arena, Loading s p a →
    (∀ e ∈ steps, s.Reachable e.target) →
    Outcome.Meets (internSteps p a steps)
      (fun r => List.Forall₂ r.2.Matches r.1 steps ∧ Loading s p r.2 ∧ a.IsStartOf r.2) (Broken s p) := by
  induction steps with
  | nil => exact fun a h _ => ⟨.nil, h, IsStartOf.refl a⟩
  | cons e steps ih =>
    intro a h hsteps
    rw [internSteps]
    refine (intern_spec h (hsteps e (by simp))).bind ?_
    rintro ⟨v, b⟩ ⟨hv, hb, hab⟩
    refine (ih b hb fun f hf => hsteps f (by simp [hf])).bind ?_
    rintro ⟨edges, c⟩ ⟨hedges, hc, hbc⟩
    exact ⟨.cons ⟨rfl, hbc.keeps.2 _ _ hv⟩ hedges, hc, hab.trans hbc⟩

/-! ### Expanding -/

/-- To give a node its checks and edges changes no key. -/
theorem hasKey_modify {f : Vertex → Vertex} (hf : ∀ x, (f x).key = x.key) (v u : Nat) (k : Key) :
    HasKey ⟨b.vertices.modify v f⟩ u k ↔ b.HasKey u k := by
  unfold HasKey
  simp only [Array.getElem?_modify]
  split_ifs with hu
  · cases b.vertices[u]? <;> simp [hf]
  · exact Iff.rfl

/-- Expanding a node loads it and leaves loaded what was. Nothing changes unless the node
was written. -/
theorem expand_spec (h : Loading s p a) (v : Nat) :
    Outcome.Meets (expand s p a v) (fun b => Loading s p b ∧ a.Keeps b ∧ LoadedAt s b v ∧
      (∀ u < a.size, LoadedAt s a u → LoadedAt s b u) ∧
      (b = a ∨ ∃ k, a.HasKey v k ∧ s.isWritten k = true)) (Broken s p) := by
  unfold expand
  cases hx : a.vertices[v]? with
  | none =>
    exact ⟨h, Keeps.refl a, fun x hx' => (by rw [hx] at hx'; cases hx'), fun _ _ h => h, Or.inl rfl⟩
  | some x =>
    have hreach : s.Reachable x.key := h.reachable v _ ⟨x, hx, rfl⟩
    by_cases hw : s.isWritten x.key = true
    · simp only [hw, if_true]
      cases hn : s.node x.key with
      | error e => exact ⟨x.key, hreach, Or.inr ⟨hw, fun n hn' => by rw [hn] at hn'; cases hn'⟩⟩
      | ok n =>
        refine (internSteps_spec n.steps a h fun e he => .step hreach ⟨hw, n, hn, he⟩).bind ?_
        rintro ⟨edges, b⟩ ⟨hedges, hb, hab⟩
        set f : Vertex → Vertex := fun vertex => { vertex with stateBits := n.stateBits, edges := edges }
        set c : Arena := ⟨b.vertices.modify v f⟩ with hc
        have hkey : ∀ u k, c.HasKey u k ↔ b.HasKey u k := hasKey_modify (f := f) (fun _ => rfl) v
        have hbc : b.Keeps c := ⟨by simp [hc, size], fun u k => (hkey u k).mpr⟩
        have hbv : b.vertices[v]? = some x := (hab.2 v (lt_size_of_getElem? hx)).trans hx
        -- a node is the one expanded or as it was before
        have hcases : ∀ u y, c.vertices[u]? = some y → (u = v ∧ f x = y) ∨ (u ≠ v ∧ b.vertices[u]? = some y) := by
          intro u y hy
          have hget : c.vertices[u]? = if v = u then (b.vertices[u]?).map f else b.vertices[u]? := Array.getElem?_modify
          rw [hget] at hy
          split_ifs at hy with huv
          · rw [← huv, hbv] at hy
            exact Or.inl ⟨huv.symm, Option.some.inj hy⟩
          · exact Or.inr ⟨Ne.symm huv, hy⟩
        have hloaded : Loaded s c (f x) := by
          unfold Loaded
          rw [if_pos hw]
          exact ⟨n, hn, rfl, hedges.imp fun _ _ he => he.mono hbc⟩
        refine ⟨⟨fun u w k hu hw => ?_, fun u k hu => ?_, fun u y hy => ?_, fun u y hy hyw => ?_⟩,
          hab.keeps.trans hbc, fun y hy => ?_, fun u hu hload y hy => ?_, Or.inr ⟨x.key, ⟨x, hx, rfl⟩, hw⟩⟩
        · exact hb.inj u w k ((hkey u k).mp hu) ((hkey w k).mp hw)
        · exact hb.reachable u k ((hkey u k).mp hu)
        · rcases hcases u y hy with ⟨-, rfl⟩ | ⟨-, hy⟩
          · exact hb.accepting v x hbv
          · exact hb.accepting u y hy
        · rcases hcases u y hy with ⟨-, rfl⟩ | ⟨-, hy⟩
          · exact absurd (hw.symm.trans hyw) (by decide)
          · exact hb.unwritten u y hy hyw
        · rcases hcases v y hy with ⟨-, rfl⟩ | ⟨huv, -⟩
          · exact hloaded
          · exact absurd rfl huv
        · rcases hcases u y hy with ⟨-, rfl⟩ | ⟨-, hy⟩
          · exact hloaded
          · rw [hab.2 u hu] at hy
            exact (hload y hy).mono (hab.keeps.trans hbc)
    · simp only [hw]
      refine ⟨h, Keeps.refl a, fun y hy => ?_, fun _ _ h => h, Or.inl rfl⟩
      rw [hx] at hy
      cases hy
      unfold Loaded
      rw [if_neg hw]
      exact h.unwritten v x hx (by simpa using hw)

/-- Expanding the nodes from number `i` on, `len` of them. -/
theorem foldlM_expand_spec (len : Nat) : ∀ (i : Nat) (a : Arena), i + len ≤ a.size → Loading s p a →
    (∀ u < i, LoadedAt s a u) →
    Outcome.Meets ((List.range' i len).foldlM (expand s p) a) (fun b => Loading s p b ∧ a.Keeps b ∧
      (∀ u < i + len, LoadedAt s b u) ∧
      (b = a ∨ ∃ v k, i ≤ v ∧ v < i + len ∧ b.HasKey v k ∧ s.isWritten k = true)) (Broken s p) := by
  induction len with
  | zero => exact fun i a _ h hload => ⟨h, Keeps.refl a, hload, Or.inl rfl⟩
  | succ len ih =>
    intro i a hi h hload
    rw [List.range'_succ]
    refine (expand_spec h i).bind ?_
    rintro b ⟨hb, hab, hbi, hkeep, hnew⟩
    have hload' : ∀ u < i + 1, LoadedAt s b u := by
      intro u hu
      rcases Nat.lt_succ_iff_lt_or_eq.mp hu with hu | rfl
      · exact hkeep u (by omega) (hload u hu)
      · exact hbi
    refine (ih (i + 1) b (by have := hab.1; omega) hb hload').mono ?_
    rintro c ⟨hc, hbc, hcl, hnew'⟩
    refine ⟨hc, hab.trans hbc, fun u hu => hcl u (by omega), ?_⟩
    rcases hnew' with rfl | ⟨v, k, hv, hv', hk, hw⟩
    · rcases hnew with rfl | ⟨k, hk, hw⟩
      · exact Or.inl rfl
      · exact Or.inr ⟨i, k, le_rfl, by omega, hab.2 i k hk, hw⟩
    · exact Or.inr ⟨v, k, by omega, by omega, hk, hw⟩

/-! ### All rounds -/

open Classical in
/-- The written nodes that have no number below `start`. -/
noncomputable def pending (s : Store) (a : Arena) (start : Nat) : Finset Key :=
  s.keys.toFinset.filter fun k => s.isWritten k = true ∧ ∀ v < start, ¬ a.HasKey v k

open Classical in
theorem card_pending_le (s : Store) (a : Arena) (start : Nat) : (pending s a start).card ≤ s.keys.length :=
  (Finset.card_filter_le _ _).trans s.keys.toFinset_card_le

/-- A round that expands a written node leaves fewer of them. -/
theorem card_pending_lt {start stop v : Nat} {k : Key} (hb : Loading s p b) (hab : a.Keeps b) (hv : start ≤ v)
    (hv' : v < stop) (hk : b.HasKey v k) (hw : s.isWritten k = true) :
    (pending s b stop).card < (pending s a start).card := by
  apply Finset.card_lt_card
  rw [Finset.ssubset_iff_of_subset]
  · refine ⟨k, ?_, ?_⟩
    · simp only [pending, Finset.mem_filter, List.mem_toFinset]
      refine ⟨Store.mem_keys_of_isWritten hw, hw, fun u hu hku => ?_⟩
      have := hb.inj u v k (hab.2 u k hku) hk
      omega
    · simp only [pending, Finset.mem_filter, not_and]
      exact fun _ _ h => h v hv' hk
  · intro l
    simp only [pending, Finset.mem_filter]
    rintro ⟨hl, hlw, hnew⟩
    exact ⟨hl, hlw, fun u hu hlu => hnew u (by omega) (hab.2 u l hlu)⟩

/-- With fuel for a round per pending node and one, every node is loaded in the end. -/
theorem grow_spec (fuel : Nat) : ∀ (start : Nat) (a : Arena), start ≤ a.size → Loading s p a →
    (∀ u < start, LoadedAt s a u) → (start = a.size ∨ (pending s a start).card + 1 ≤ fuel) →
    Outcome.Meets (grow s p fuel start a) (fun b => Loading s p b ∧ a.Keeps b ∧ ∀ u, LoadedAt s b u)
      (Broken s p) := by
  have hend : ∀ a : Arena, Loading s p a → (∀ u < a.size, LoadedAt s a u) →
      Loading s p a ∧ a.Keeps a ∧ ∀ u, LoadedAt s a u :=
    fun a h hload => ⟨h, Keeps.refl a, fun u x hx => hload u (lt_size_of_getElem? hx) x hx⟩
  induction fuel with
  | zero =>
    intro start a _ h hload hfuel
    obtain rfl : start = a.size := by omega
    exact hend a h hload
  | succ fuel ih =>
    intro start a hstart h hload hfuel
    rw [grow]
    split_ifs with hlt
    · refine (foldlM_expand_spec (a.size - start) start a (by omega) h hload).bind ?_
      rintro b ⟨hb, hab, hloaded, hnew⟩
      have hsize : start + (a.size - start) = a.size := by omega
      rw [hsize] at hloaded hnew
      refine (ih a.size b hab.1 hb hloaded ?_).mono fun c hc => ⟨hc.1, hab.trans hc.2.1, hc.2.2⟩
      rcases hnew with rfl | ⟨v, k, hv, hv', hk, hw⟩
      · exact Or.inl rfl
      · right
        have := card_pending_lt hb hab hv hv' hk hw
        omega
    · obtain rfl : start = a.size := by omega
      exact hend a h hload

/-- The graph of the roots has a number for each of them. -/
theorem ofRoots_spec (s : Store) (p : Property σ) :
    Outcome.Meets (ofRoots s p) (fun a => Loading s p a ∧ ∀ k ∈ s.roots, ∃ v, a.HasKey v k) (Broken s p) := by
  have hstep := Outcome.meets_foldlM (f := fun (a : Arena) k => do return (← a.intern p k).2) (E := Broken s p)
    (P := fun rest a => Loading s p a ∧ (∀ k ∈ rest, k ∈ s.roots) ∧
      ∀ k ∈ s.roots, k ∈ rest ∨ ∃ v, a.HasKey v k) ?_ s.roots {} ?_
  · exact hstep.mono fun a ha => ⟨ha.1, fun k hk => (ha.2.2 k hk).resolve_left (by simp)⟩
  · rintro k rest a ⟨h, hrest, hroots⟩
    refine (intern_spec h (.root (hrest k (by simp)))).bind ?_
    rintro ⟨v, b⟩ ⟨hv, hb, hab⟩
    refine ⟨hb, fun l hl => hrest l (by simp [hl]), fun l hl => ?_⟩
    rcases hroots l hl with hl' | ⟨u, hu⟩
    · rcases List.mem_cons.mp hl' with rfl | hl'
      · exact Or.inr ⟨v, hv⟩
      · exact Or.inl hl'
    · exact Or.inr ⟨u, hab.keeps.2 u l hu⟩
  · refine ⟨⟨?_, ?_, ?_, ?_⟩, fun _ hk => hk, fun _ hk => Or.inl hk⟩
    · rintro u v k ⟨x, hx, -⟩
      simp at hx
    · rintro v k ⟨x, hx, -⟩
      simp at hx
    · intro v x hx
      simp at hx
    · intro v x hx
      simp at hx

/-- The graph in memory is the reachable part of the store's graph: its nodes are the
reachable keys, each once, with the checks and the steps of their records. -/
structure Represents (s : Store) (p : Property σ) (a : Arena) : Prop extends Loading s p a where
  loaded : ∀ v, LoadedAt s a v
  complete : ∀ k, s.Reachable k → ∃ v, a.HasKey v k

/-- **Loading gives the reachable graph**, unless a reachable record or point is bad. -/
theorem load_spec (s : Store) (p : Property σ) : Outcome.Meets (load s p) (Represents s p) (Broken s p) := by
  refine (ofRoots_spec s p).bind ?_
  rintro a ⟨ha, hroots⟩
  have hcard : (pending s a 0).card + 1 ≤ s.keys.length + 1 := by
    have := card_pending_le s a 0
    omega
  refine (grow_spec (s.keys.length + 1) 0 a (by omega) ha (by omega) (Or.inr hcard)).mono ?_
  rintro b ⟨hb, hab, hload⟩
  refine ⟨hb, hload, fun k hk => ?_⟩
  induction hk with
  | root hk =>
    obtain ⟨v, hv⟩ := hroots _ hk
    exact ⟨v, hab.2 v _ hv⟩
  | @step k e _ he ih =>
    obtain ⟨v, x, hx, rfl⟩ := ih
    obtain ⟨hw, n, hn, hmem⟩ := he
    have hx' := hload v x hx
    rw [Loaded, if_pos hw] at hx'
    obtain ⟨n', hn', -, hedges⟩ := hx'
    obtain rfl : n = n' := Except.ok.inj (hn.symm.trans hn')
    obtain ⟨f, -, -, hf⟩ := exists_of_forall₂_right hedges hmem
    exact ⟨f.target, hf⟩

end Arena

end Liveness

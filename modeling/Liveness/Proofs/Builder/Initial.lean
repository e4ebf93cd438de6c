import Liveness.Proofs.Builder.Tracking
import Liveness.Proofs.Tableau

/-!
# The roots of initial states

An initial state gets a root at each initial point of the tableau that allows it, or one
root if there is no tableau. A new root has no steps, so it is complete only if its state
was not expanded yet; this is why initial states are added before they are expanded.
-/

namespace Liveness

namespace Property

variable {σ : Type}

/-- The points that a behaviour may start at with the state `s`. -/
def startPoints (p : Property σ) (s : σ) : List UInt32 :=
  match p.tableau with
  | none => [Key.noPoint]
  | some t => (t.initial.filter fun n => n.allows s).map Tableau.Node.index

/-- The nodes that a behaviour may start at with the state `s`. -/
def startKeys [ModelState σ] (p : Property σ) (s : σ) : List Key :=
  (p.startPoints s).map (Key.mk (fingerprint s))

/-- A node of the state `s` may have the point: the point is one of the tableau and allows the
state. Without a tableau there is only one point. -/
def AllowsAt (p : Property σ) (point : UInt32) (s : σ) : Prop :=
  match p.tableau with
  | none => point = Key.noPoint
  | some t => ∃ n, t.node point = .ok n ∧ n.allows s = true

/-- A root may have the point. -/
def IsInitial (p : Property σ) (point : UInt32) : Prop :=
  match p.tableau with
  | none => point = Key.noPoint
  | some t => point.toNat < t.initCount

variable {p : Property σ} {s : σ} {point : UInt32}

/-- **A behaviour starts at the initial points that allow its first state.** -/
theorem mem_startPoints : point ∈ p.startPoints s ↔ p.AllowsAt point s ∧ p.IsInitial point := by
  unfold startPoints AllowsAt IsInitial
  cases p.tableau with
  | none => simp
  | some t =>
    constructor
    · intro h
      obtain ⟨n, hn, rfl⟩ := List.mem_map.mp h
      obtain ⟨hinitial, hallows⟩ := List.mem_filter.mp hn
      obtain ⟨i, hi⟩ := List.mem_iff_getElem?.mp hinitial
      rw [Tableau.initial, List.getElem?_take] at hi
      split_ifs at hi with hlt
      rw [Array.getElem?_toList] at hi
      have hindex := t.index_eq i n hi
      exact ⟨⟨n, Tableau.node_eq_ok_iff.mpr (by rwa [hindex]), hallows⟩, by rwa [hindex]⟩
    · rintro ⟨⟨n, hn, hallows⟩, hlt⟩
      have hn := Tableau.node_eq_ok_iff.mp hn
      refine List.mem_map.mpr ⟨n, List.mem_filter.mpr ⟨?_, hallows⟩, UInt32.toNat_inj.mp (t.index_eq _ n hn)⟩
      refine List.mem_iff_getElem?.mpr ⟨point.toNat, ?_⟩
      rwa [Tableau.initial, List.getElem?_take, if_pos hlt, Array.getElem?_toList]

theorem isPoint_of_start (h : point ∈ p.startPoints s) : p.IsPoint point := by
  obtain ⟨hallows, -⟩ := mem_startPoints.mp h
  unfold AllowsAt at hallows
  unfold IsPoint
  cases ht : p.tableau with
  | none => rwa [ht] at hallows
  | some t =>
    rw [ht] at hallows
    obtain ⟨n, hn, -⟩ := hallows
    exact (Array.getElem?_eq_some_iff.mp (Tableau.node_eq_ok_iff.mp hn)).1

end Property

namespace Store

/-- Make nodes roots, one after the other. -/
def addRoots (s : Store) (ks : List Key) : Store := ks.foldl addRoot s

variable {s : Store} {k l : Key}

/-- A root is read as a node without steps, as it was before. -/
@[simp] theorem node_addRoot (s : Store) (k l : Key) : (s.addRoot k).node l = s.node l := by
  rw [addRoot_eq]
  change (s.seeRoot k).node l = s.node l
  rw [seeRoot]
  split_ifs with hk
  · unfold node
    rw [slot?_insert]
    split_ifs with hl
    · rw [hl, isUnseen_iff.mp hk]
    · rfl
  · rfl

theorem isUnseen_addRoots (ks : List Key) : ∀ s : Store, (s.addRoots ks).isUnseen l = (decide (l ∉ ks) && s.isUnseen l) := by
  induction ks with
  | nil => simp [addRoots]
  | cons k ks ih =>
    intro s
    rw [addRoots, List.foldl_cons, ← addRoots, ih, isUnseen_addRoot, ← Bool.and_assoc]
    by_cases hl : l = k <;> simp [hl]

@[simp] theorem isDone_addRoots (ks : List Key) (fp : Fingerprint) :
    ∀ s : Store, (s.addRoots ks).isDone fp = s.isDone fp := by
  induction ks with
  | nil => exact fun s => rfl
  | cons k ks ih => exact fun s => (ih (s.addRoot k)).trans (isDone_addRoot s k fp)

@[simp] theorem node_addRoots (ks : List Key) (l : Key) : ∀ s : Store, (s.addRoots ks).node l = s.node l := by
  induction ks with
  | nil => exact fun s => rfl
  | cons k ks ih => exact fun s => (ih (s.addRoot k)).trans (node_addRoot s k l)

/-- The list of roots after some are added depends on the list before. -/
theorem roots_addRoots_congr (ks : List Key) : ∀ {s s' : Store}, s.roots = s'.roots →
    (s.addRoots ks).roots = (s'.addRoots ks).roots := by
  induction ks with
  | nil => exact fun h => h
  | cons k ks ih =>
    intro s s' h
    refine ih ?_
    rw [addRoot_eq, addRoot_eq, h]

theorem mem_roots_addRoots (ks : List Key) : ∀ s : Store, l ∈ (s.addRoots ks).roots ↔ l ∈ s.roots ∨ l ∈ ks := by
  induction ks with
  | nil => simp [addRoots]
  | cons k ks ih =>
    intro s
    rw [addRoots, List.foldl_cons, ← addRoots, ih, mem_roots_addRoot, List.mem_cons, or_assoc]

end Store

/-- An initial state may be given with any fingerprint. -/
theorem Builder.addInitial_eq_addRoots {σ : Type} (p : Property σ) (s : σ) (fp : Fingerprint) (store : Store) :
    Builder.addInitial p s fp store = store.addRoots ((p.startPoints s).map (Key.mk fp)) := by
  unfold Builder.addInitial Property.startPoints Store.addRoots
  cases p.tableau with
  | none => rfl
  | some t => rw [List.map_map, List.foldl_map]; rfl

theorem Builder.addInitial_eq {σ : Type} [ModelState σ] (p : Property σ) (s : σ) (store : Store) :
    Builder.addInitial p s (fingerprint s) store = store.addRoots (p.startKeys s) :=
  addInitial_eq_addRoots p s (fingerprint s) store

namespace Exploration

variable {σ : Type} [ModelState σ] {X : Exploration σ} {s : Store} {s₀ : σ}

theorem Lawful.addRoots {ks : List Key} (hks : ∀ k ∈ ks, X.IsKey k ∧ X.IsStart k) :
    ∀ {s : Store}, X.Lawful s → X.Lawful (s.addRoots ks) := by
  induction ks with
  | nil => exact fun h => h
  | cons k ks ih =>
    intro s h
    obtain ⟨hkey, hstart⟩ := hks k (by simp)
    exact ih (fun l hl => hks l (by simp [hl])) (h.addRoot hkey hstart)

/-- **A lawful graph stays lawful when an initial state is added.** -/
theorem Lawful.addInitial (h : X.Lawful s) (hs₀ : X.states s₀) (hstart : X.starts s₀) :
    X.Lawful (Builder.addInitial X.property s₀ (fingerprint s₀) s) := by
  rw [Builder.addInitial_eq]
  refine Lawful.addRoots (fun k hk => ?_) h
  obtain ⟨point, hpoint, rfl⟩ := List.mem_map.mp hk
  exact ⟨⟨Property.isPoint_of_start hpoint, s₀, hs₀, rfl⟩, s₀, ⟨hs₀, rfl⟩, hstart⟩

/-- New roots of a state that was not expanded leave all nodes of expanded states complete. -/
theorem Settled.addInitial (h : X.Settled s)
    (hnew : s.isDone (fingerprint s₀) = false ∨ ∀ k ∈ X.property.startKeys s₀, s.isUnseen k = false) :
    X.Settled (Builder.addInitial X.property s₀ (fingerprint s₀) s) := by
  rw [Builder.addInitial_eq]
  rintro k ⟨hdone, hpoint, hseen⟩
  rw [Store.isDone_addRoots] at hdone
  have hdue : X.Due s k := by
    refine ⟨hdone, hpoint, hseen.imp_right fun hseen => ?_⟩
    by_cases hk : k ∈ X.property.startKeys s₀
    · refine hnew.resolve_left (fun hnot => ?_) k hk
      obtain ⟨point, -, rfl⟩ := List.mem_map.mp hk
      rw [hnot] at hdone
      cases hdone
    · simpa [Store.isUnseen_addRoots, hk] using hseen
  obtain ⟨n, hn, hrequired⟩ := h k hdue
  exact ⟨n, by rwa [Store.node_addRoots], hrequired⟩

/-- If not all successors are handed over no node must have any step. -/
theorem Lawful.settled_of_not_full (h : X.Lawful s) (hfull : ¬ X.full) : X.Settled s := by
  intro k _
  obtain ⟨n, hn, -⟩ := h.intact.exists_node k
  exact ⟨n, hn, fun l hl => absurd hl.1 hfull⟩

theorem Settled.of_empty (htable : s.table = ∅) : X.Settled s := by
  rintro k ⟨hdone, -⟩
  rw [Store.isDone, Table.row, htable] at hdone
  simp at hdone

end Exploration

end Liveness

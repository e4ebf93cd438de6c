import Mathlib.Data.List.Nodup
import Mathlib.Data.List.ProdSigma
import Mathlib.Data.List.Perm.Subperm
import Liveness.Builder.Next
import Liveness.Proofs.Store.View

/-!
# Lawful graphs

The graph of a property is built from states of a model whose fingerprints tell them
apart. In a *lawful* graph every node belongs to such a state, every step stays in its
state or is a step of the model, no node has two steps to the same node, every parent has
a step to its child, and a node without a parent belongs to a state behaviours may start
in. A lawful graph stays lawful when lawful nodes are written to it, as long as their records
fit the log.
-/

namespace Liveness

/-- The fingerprints tell the states apart, and the steps of the model do not leave them. -/
structure Model.Faithful {σ : Type} [ModelState σ] (m : Model σ) (states : σ → Prop) : Prop where
  next_mem : ∀ s, states s → ∀ t ∈ m.next s, states t
  injective : ∀ s t, states s → states t → fingerprint s = fingerprint t → s = t

namespace Property

variable {σ : Type}

/-- The number of nodes that a state may have. -/
def pointCount (p : Property σ) : Nat :=
  match p.tableau with
  | none => 1
  | some t => t.size

/-- A point of the tableau, or the one point when there is none. -/
def IsPoint (p : Property σ) (point : UInt32) : Prop :=
  match p.tableau with
  | none => point = Key.noPoint
  | some t => point.toNat < t.size

theorem isPoint_of_lt {p : Property σ} {t : Tableau σ} (h : p.tableau = some t) {point : UInt32}
    (hpoint : point.toNat < t.size) : p.IsPoint point := by
  rw [IsPoint, h]
  exact hpoint

/-- All points. -/
def points (p : Property σ) : List UInt32 :=
  match p.tableau with
  | none => [Key.noPoint]
  | some t => (List.range t.size).map UInt32.ofNat

theorem length_points (p : Property σ) : p.points.length = p.pointCount := by
  rw [points, pointCount]
  split <;> simp

theorem mem_points {p : Property σ} {point : UInt32} (h : p.IsPoint point) : point ∈ p.points := by
  rw [IsPoint] at h
  rw [points]
  split at h
  · simp [h]
  · exact List.mem_map.mpr ⟨point.toNat, List.mem_range.mpr h, UInt32.ofNat_toNat⟩

end Property

/-- The states that are explored and what is promised of them. -/
structure Exploration (σ : Type) [ModelState σ] where
  /-- The model. -/
  model : Model σ
  /-- The property. -/
  property : Property σ
  /-- The states that occur. -/
  states : σ → Prop
  /-- The states behaviours start in. -/
  starts : σ → Prop
  /-- The checks handed over are those of the property. -/
  exact : Prop
  /-- The successors handed over are all that the search follows. -/
  full : Prop
  faithful : model.Faithful states

namespace Exploration

variable {σ : Type} [ModelState σ] (X : Exploration σ)

/-- The node `k` belongs to the state `s`. -/
def At (k : Key) (s : σ) : Prop := X.states s ∧ fingerprint s = k.fp

/-- There may be a node `k`. -/
def IsKey (k : Key) : Prop := X.property.IsPoint k.point ∧ ∃ s, X.At k s

/-- The node `k` belongs to a state that behaviours start in. -/
def IsStart (k : Key) : Prop := ∃ s, X.At k s ∧ X.starts s

/-- The node `k` may have the step `e`. -/
def IsStep (k : Key) (e : Step) : Prop :=
  ∃ s t, X.At k s ∧ X.At e.target t ∧ (t = s ∨ t ∈ X.model.next s) ∧ X.property.IsPoint e.target.point ∧
    (X.exact → ∀ i, e.actions.get i = (X.property.actionBits s t).get i)

/-- The node `k` may have the state checks `b`. -/
def IsState (k : Key) (b : Bits) : Prop :=
  X.exact → ∀ s, X.At k s → ∀ i, b.get i = (X.property.stateBits s).get i

/-- The node may stand in the graph. -/
structure Admits (s : Store) (k : Key) (n : Node) : Prop where
  key : n.key = k
  isKey : X.IsKey k
  tidy : n.Tidy
  nodup : n.targets.Nodup
  step : ∀ e ∈ n.steps, X.IsStep k e
  seen : ∀ e ∈ n.steps, s.isUnseen e.target = false
  parent : match n.parent with
    | none => X.IsStart k
    | some q => ∃ actions, X.IsStep q ⟨k, actions⟩

/-- The store can be read and all its nodes may stand in the graph. -/
structure Lawful (s : Store) : Prop where
  intact : s.Intact
  admits : ∀ k n, s.Holds k n → X.Admits s k n
  state : ∀ k n, s.isWritten k = true → s.Holds k n → X.IsState k n.stateBits
  root : ∀ k ∈ s.roots, X.IsKey k

variable {X} {s : Store} {k : Key} {n : Node}

theorem At.unique {t u : σ} (ht : X.At k t) (hu : X.At k u) : t = u :=
  X.faithful.injective t u ht.1 hu.1 (ht.2.trans hu.2.symm)

theorem IsStep.isKey {e : Step} (h : X.IsStep k e) : X.IsKey e.target := by
  obtain ⟨-, t, -, ht, -, hpoint, -⟩ := h
  exact ⟨hpoint, t, ht⟩

theorem Admits.mono {s' : Store} (h : X.Admits s k n)
    (hseen : ∀ l, s.isUnseen l = false → s'.isUnseen l = false) : X.Admits s' k n :=
  { h with seen := fun e he => hseen _ (h.seen e he) }

/-- A node without checks and steps may stand in the graph if its key and its parent may. -/
theorem admits_recorded (s : Store) (hk : X.IsKey k) {parent : Option Key}
    (hparent : match parent with
      | none => X.IsStart k
      | some q => ∃ actions, X.IsStep q ⟨k, actions⟩) :
    X.Admits s k { key := k, parent := parent } where
  key := rfl
  isKey := hk
  tidy := Node.tidy_new k parent
  nodup := by simp [Node.targets_eq, Node.steps_eq_nil]
  step := fun e he => by simp [Node.steps_eq_nil] at he
  seen := fun e he => by simp [Node.steps_eq_nil] at he
  parent := hparent

/-! ### Changes of a lawful graph -/

theorem Lawful.of_empty (hlog : s.log = {}) (htable : s.table = ∅) (hroots : s.roots = []) : X.Lawful s := by
  refine ⟨Store.Intact.of_empty hlog htable, fun k n hn => ?_, fun k n _ hn => ?_, by simp [hroots]⟩
  · exact absurd hn (Store.not_holds_of_empty htable k n)
  · exact absurd hn (Store.not_holds_of_empty htable k n)

/-- The node that an edge leads to is recorded. -/
theorem Lawful.record (h : X.Lawful s) {parent : Key} {actions : Bits} (hstep : X.IsStep parent ⟨k, actions⟩) :
    X.Lawful (s.record k parent) := by
  have hseen : ∀ l, s.isUnseen l = false → (s.record k parent).isUnseen l = false := fun l hl => by simp [hl]
  refine ⟨h.intact.record k parent, fun l n hl => ?_, fun l n hw hl => ?_, by simpa using h.root⟩
  · rcases Store.holds_record.mp hl with hl | ⟨-, rfl, rfl⟩
    · exact (h.admits l n hl).mono hseen
    · exact admits_recorded _ hstep.isKey ⟨actions, hstep⟩
  · rw [Store.isWritten_record] at hw
    rcases Store.holds_record.mp hl with hl | ⟨hnew, rfl, -⟩
    · exact h.state l n hw hl
    · rw [Store.isUnseen_of_isWritten hw] at hnew
      cases hnew

/-- A state that behaviours start in gets a root. -/
theorem Lawful.addRoot (h : X.Lawful s) (hk : X.IsKey k) (hstart : X.IsStart k) : X.Lawful (s.addRoot k) := by
  have hseen : ∀ l, s.isUnseen l = false → (s.addRoot k).isUnseen l = false :=
    fun l hl => by simp [Store.isUnseen_addRoot, hl]
  refine ⟨h.intact.addRoot k, fun l n hl => ?_, fun l n hw hl => ?_, fun l hl => ?_⟩
  · rcases Store.holds_addRoot.mp hl with hl | ⟨-, rfl, rfl⟩
    · exact (h.admits l n hl).mono hseen
    · exact admits_recorded _ hk hstart
  · rw [Store.isWritten_addRoot] at hw
    rcases Store.holds_addRoot.mp hl with hl | ⟨hnew, rfl, -⟩
    · exact h.state l n hw hl
    · rw [Store.isUnseen_of_isWritten hw] at hnew
      cases hnew
  · rcases Store.mem_roots_addRoot.mp hl with hl | rfl
    · exact h.root l hl
    · exact hk

theorem Lawful.setDone (h : X.Lawful s) (fp : Fingerprint) : X.Lawful (s.setDone fp) := by
  refine ⟨h.intact.setDone fp, fun l n hl => ?_, fun l n hw hl => ?_, h.root⟩
  · exact (h.admits l n (Store.holds_setDone.mp hl)).mono fun l hl => by simpa using hl
  · exact h.state l n (by simpa using hw) (Store.holds_setDone.mp hl)

/-- In the form that reading gives a node may stand in the graph as well. -/
theorem Admits.normal (h : X.Admits s k n) : X.Admits s k n.normal :=
  { h with tidy := h.tidy.normal }

/-- A node that may stand in the graph is written. -/
theorem Lawful.addNode (h : X.Lawful s) (hn : X.Admits s k n) (hstate : X.IsState k n.stateBits)
    (hfits : (s.addNode n).log.Fits) : X.Lawful (s.addNode n) := by
  have hstorable := h.intact.storable hn.tidy hfits
  have hseen : ∀ l, s.isUnseen l = false → (s.addNode n).isUnseen l = false := fun l hl => by simp [hl]
  refine ⟨h.intact.addNode hn.tidy.whole hstorable, fun l n' hl => ?_, fun l n' hw hl => ?_, by simpa using h.root⟩
  · rcases Store.holds_addNode h.intact hn.tidy.whole hstorable |>.mp hl with ⟨rfl, rfl⟩ | ⟨-, hl⟩
    · rw [hn.key]
      exact hn.normal.mono hseen
    · exact (h.admits l n' hl).mono hseen
  · rcases Store.holds_addNode h.intact hn.tidy.whole hstorable |>.mp hl with ⟨rfl, rfl⟩ | ⟨hne, hl⟩
    · rw [hn.key]
      intro hexact t ht i
      rw [Node.get_stateBits_normal]
      exact hstate hexact t ht i
    · rw [Store.isWritten_addNode, decide_eq_false hne, Bool.false_or] at hw
      exact h.state l n' hw hl

end Exploration

end Liveness

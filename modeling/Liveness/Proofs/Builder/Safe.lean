import Liveness.Proofs.Store.Keys
import Liveness.Proofs.Store.Reading
import Liveness.Proofs.Builder.Next

/-!
# A first expansion breaks no precondition

The builder relies on what it cannot see at once: a node has as many action checks on all its
steps, a state that is expanded gains steps, points are points of the tableau, bits lie inside
their rows, and the room that is asked for does not go below zero.

What makes all that true is that *a node is written only when its state is marked as expanded*
(`Store.Sane`). So the nodes of a state that is expanded for the first time are empty, and so
are those that turn up late: they are listed once, and none of them is written before its turn
comes (`Store.Pending`).

What may still go wrong is a size. A state may have more successors than a buffer can hold
steps, and the words that count may run out. `Property.Roomy` says that they do not.
-/

namespace Liveness

/-! ### Sizes that outgrow the machine -/

/-- A word or a buffer was too small. -/
def Defect.IsOverflow : Defect → Prop
  | .addOverflow | .mulOverflow | .capacityOverflow => True
  | _ => False

/-- If the fault is a defect, then a word or a buffer was too small, and there was no room. -/
def Fault.Excused (f : Fault) (room : Prop) : Prop := ∀ d, f = .defect d → d.IsOverflow ∧ ¬ room

theorem Fault.Excused.mono {f : Fault} {room room' : Prop} (h : f.Excused room) (hroom : room' → room) :
    f.Excused room' :=
  fun d hd => ⟨(h d hd).1, fun hr => (h d hd).2 (hroom hr)⟩

theorem Fault.excused_of_ne {f : Fault} (room : Prop) (h : ∀ d, f ≠ .defect d) : f.Excused room :=
  fun d hd => absurd hd (h d)

/-- A loop whose turns keep something, and end with a defect of a kind if they end with one. -/
theorem foldlM_defect {β ι : Type} {f : β → ι → Except Defect β} {P : β → Prop} {E : Defect → Prop} {xs : List ι}
    (hf : ∀ x ∈ xs, ∀ b, P b → (∀ b', f b x = .ok b' → P b') ∧ ∀ d, f b x = .error d → E d) :
    ∀ b, P b → (∀ b', xs.foldlM f b = .ok b' → P b') ∧ ∀ d, xs.foldlM f b = .error d → E d := by
  induction xs with
  | nil =>
    intro b hb
    refine ⟨fun b' h => ?_, fun d h => by cases h⟩
    obtain rfl := Except.ok.inj h
    exact hb
  | cons x xs ih =>
    intro b hb
    rw [List.foldlM_cons]
    obtain ⟨hok, herror⟩ := hf x (by simp) b hb
    cases hx : f b x with
    | error d =>
      refine ⟨fun b' h => (by cases h), fun d' h => ?_⟩
      obtain rfl := Except.error.inj h
      exact herror _ hx
    | ok b₁ => exact ih (fun y hy => hf y (by simp [hy])) b₁ (hok b₁ hx)

/-- A loop whose turns keep something and make a size grow by no more than `cost` each. -/
theorem Change.meets_foldlM_cost {σ β ι : Type} {f : β → ι → Change σ β} {P : β → σ → Prop} {E : Fault → σ → Prop}
    (size : β → Nat) (cost bound : Nat) {xs : List ι}
    (hf : ∀ x ∈ xs, ∀ b s, P b s → size b + cost ≤ bound →
      Meets (f b x) s (fun b' s' => P b' s' ∧ size b' ≤ size b + cost) E) :
    ∀ b s, P b s → size b + xs.length * cost ≤ bound →
      Meets (xs.foldlM f b) s (fun b' s' => P b' s' ∧ size b' ≤ size b + xs.length * cost) E := by
  induction xs with
  | nil => exact fun b s h _ => ⟨h, by simp⟩
  | cons x xs ih =>
    intro b s h hbound
    rw [List.length_cons, Nat.add_mul, Nat.one_mul] at hbound ⊢
    rw [List.foldlM_cons]
    refine (hf x (by simp) b s h (by omega)).bind ?_
    rintro b₁ s₁ ⟨h₁, hsize₁⟩
    refine (ih (fun y hy => hf y (by simp [hy])) b₁ s₁ h₁ (by omega)).mono ?_ fun _ _ he => he
    rintro b₂ s₂ ⟨h₂, hsize₂⟩
    exact ⟨h₂, by omega⟩

/-- The place of the checks on a step can be told, unless there are too many. -/
theorem excused_mulWords {i count width : Nat} (hi : i < count) {room : Prop} (hroom : room → width * count ≤ wordLimit) :
    (∀ d, mulWords i width = .error d → d.IsOverflow ∧ ¬ room) ∧
      (room → ∀ j, mulWords i width = .ok j → j + width ≤ wordLimit) := by
  have hplace : i * width + width ≤ width * count := by
    rw [← Nat.succ_mul, Nat.mul_comm width]
    exact Nat.mul_le_mul_right _ hi
  rw [mulWords]
  split_ifs with hlimit
  · refine ⟨fun d hd => (by cases hd), fun hr j hj => ?_⟩
    obtain rfl := Except.ok.inj hj
    exact hplace.trans (hroom hr)
  · refine ⟨fun d hd => ?_, fun hr j hj => by cases hj⟩
    obtain rfl := Except.error.inj hd
    refine ⟨trivial, fun hr => hlimit ?_⟩
    rcases Nat.eq_zero_or_pos width with rfl | hpos
    · exact Nat.lt_of_le_of_lt (Nat.le_of_eq (Nat.mul_zero i)) (by decide)
    · have := hroom hr
      omega

namespace Node

variable {n : Node} {width : Nat}

/-- The node has the given number of action checks on its steps, if it has any. -/
structure Uniform (n : Node) (width : Nat) : Prop where
  whole : n.Whole
  width : n.words.size = 0 ∨ n.width = width

theorem Uniform.used_eq (h : n.Uniform width) : n.used = n.degree * stepLen width := by
  rcases h.width with hempty | hwidth
  · rw [degree, used, hempty, Nat.zero_div, Nat.zero_mul]
  · rw [used, h.whole, hwidth]

theorem Uniform.widen (h : n.Uniform width) : n.widen width = { n with width := width } := by
  rw [Node.widen]
  split_ifs with hempty
  · rfl
  · have hsize : n.words.size ≠ 0 := by simpa using hempty
    rw [← h.width.resolve_left hsize]

/-- **A step is added unless there is no room for it.** -/
theorem Uniform.overflow_of_addStep (h : n.Uniform width) {target : Key} {row : Bits} {offset hint : Nat} {d : Defect}
    {n' : Node} (hd : n.addStep target width row offset hint = (.error d, n')) :
    d.IsOverflow ∧ ¬ (stepLen width * (n.degree + max hint 1) ≤ maxCapacity ∧ offset + width ≤ wordLimit) := by
  have hused : used { n with width := width } = n.degree * stepLen width := h.used_eq
  rw [addStep, h.widen, if_neg (by simp)] at hd
  cases hreserve : reserve { n with width := width } hint with
  | error d' =>
    rw [hreserve] at hd
    obtain rfl := Except.error.inj (Prod.mk.inj hd).1
    rw [reserve] at hreserve
    split at hreserve
    · rw [mulWords] at hreserve
      split at hreserve
      · change (if _ + _ ≤ maxCapacity then _ else _) = _ at hreserve
        split at hreserve
        · cases hreserve
        · rename_i hcapacity
          obtain rfl := Except.error.inj hreserve
          refine ⟨trivial, fun hroom => hcapacity ?_⟩
          rw [hused, Nat.mul_comm n.degree, ← Nat.mul_add]
          exact hroom.1
      · rename_i hword
        obtain rfl := Except.error.inj hreserve
        refine ⟨trivial, fun hroom => hword ?_⟩
        have hle : stepLen width * max hint 1 ≤ stepLen width * (n.degree + max hint 1) :=
          Nat.mul_le_mul_left _ (Nat.le_add_left _ _)
        exact Nat.lt_of_le_of_lt (hle.trans hroom.1) (by decide)
    · cases hreserve
  | ok r =>
    rw [hreserve] at hd
    simp only at hd
    split at hd
    · cases (Prod.mk.inj hd).1
    · rename_i hlimit
      obtain rfl := Except.error.inj (Prod.mk.inj hd).1
      exact ⟨trivial, fun hroom => hlimit (.inr hroom.2)⟩

end Node

/-! ### Checks -/

namespace Property

variable {σ : Type} {p : Property σ}

/-- Truth values that fit into a row are written, unless their places leave a machine word. -/
theorem overflow_of_write {row : Bits} (hrow : row.Sized) {offset : Nat} {vs : List Bool}
    (hfits : offset + vs.length ≤ row.len) :
    (∀ row', write row offset vs = .ok row' → row'.Sized ∧ row'.len = row.len) ∧
      ∀ d, write row offset vs = .error d → d = .addOverflow ∧ wordLimit < offset + vs.length := by
  refine foldlM_defect (P := fun r : Bits => r.Sized ∧ r.len = row.len) (fun x hx r hr => ?_) row ⟨hrow, rfl⟩
  obtain ⟨v, i⟩ := x
  have hi := List.snd_lt_of_mem_zipIdx hx
  simp only [addWords]
  split
  · obtain ⟨r', hput, hsized, hlen, -⟩ := Bits.put_spec hr.1 (i := offset + i) (by rw [hr.2]; omega) v
    change (∀ b', (r.put (offset + i) v).mapError Defect.ofMisuse = .ok b' → _) ∧
      ∀ d, (r.put (offset + i) v).mapError Defect.ofMisuse = .error d → _
    rw [hput]
    refine ⟨fun b' hb' => ?_, fun d hd => by cases hd⟩
    obtain rfl := Except.ok.inj hb'
    exact ⟨hsized, hlen.trans hr.2⟩
  · rename_i hlimit
    refine ⟨fun b' hb' => (by cases hb'), fun d hd => ?_⟩
    obtain rfl := Except.error.inj hd
    exact ⟨rfl, by omega⟩

/-- **The checks on a state and its steps can be made**, unless there are more results than
machine words. -/
theorem overflow_of_evaluate {s : σ} {successors : List σ} {d : Defect} (h : p.evaluate s successors = .error d) :
    d.IsOverflow ∧ wordLimit < p.width * successors.length := by
  have hloop := foldlM_defect (f := fun row (x : σ × Nat) => p.writeActions s x.1 row (x.2 * p.width))
    (P := fun r : Bits => r.Sized ∧ r.len = p.width * successors.length)
    (E := fun d => d = .addOverflow ∧ wordLimit < p.width * successors.length)
    (fun x (hx : x ∈ successors.zipIdx) r hr => by
      have hi := List.snd_lt_of_mem_zipIdx hx
      have hplace : x.2 * p.width + (p.actionChecks.map (· s x.1)).length ≤ p.width * successors.length := by
        rw [List.length_map, ← width, ← Nat.succ_mul, Nat.mul_comm p.width]
        exact Nat.mul_le_mul_right _ hi
      obtain ⟨hok, herror⟩ := overflow_of_write hr.1 (hr.2 ▸ hplace)
      exact ⟨fun r' hr' => ⟨(hok r' hr').1, (hok r' hr').2.trans hr.2⟩,
        fun d hd => ⟨(herror d hd).1, Nat.lt_of_lt_of_le (herror d hd).2 hplace⟩⟩)
    (.zeros (p.width * successors.length)) ⟨Bits.sized_zeros _, rfl⟩
  unfold evaluate at h
  cases hrow : p.writeSteps s successors (.zeros (p.width * successors.length)) with
  | error d' =>
    rw [hrow] at h
    obtain rfl := Except.error.inj h
    obtain ⟨rfl, hlimit⟩ := hloop.2 d' hrow
    exact ⟨trivial, hlimit⟩
  | ok row => rw [hrow] at h; cases h

end Property

/-- The bits of points and successors lie inside their row. -/
theorem Builder.exists_consistency {σ : Type} (t : Tableau σ) (successors : List σ) :
    ∃ row, consistency t successors = .ok row := by
  have hloop := foldlM_defect (f := fun row (n : Tableau.Node σ) => successors.zipIdx.foldlM (fun row (x : σ × Nat) =>
      if n.allows x.1 then (row.set (n.index.toNat * successors.length + x.2)).mapError Defect.ofMisuse
      else .ok row) row)
    (P := fun r : Bits => r.len = t.size * successors.length) (E := fun _ => False)
    (fun n (hn : n ∈ t.nodes.toList) r hr => by
      refine foldlM_defect (P := fun r : Bits => r.len = t.size * successors.length) (fun x hx r hr => ?_) r hr
      have hi := List.snd_lt_of_mem_zipIdx hx
      obtain ⟨j, hj⟩ := List.mem_iff_getElem?.mp hn
      rw [Array.getElem?_toList] at hj
      have hindex : n.index.toNat < t.size := by
        rw [t.index_eq j n hj]
        exact (Array.getElem?_eq_some_iff.mp hj).1
      have hplace : n.index.toNat * successors.length + x.2 < r.len := by
        have hle := Nat.mul_le_mul_right successors.length (Nat.succ_le_of_lt hindex)
        rw [Nat.succ_mul] at hle
        rw [hr]
        omega
      simp only [Bits.set, if_pos hplace]
      split_ifs
      · refine ⟨fun b' hb' => ?_, fun d hd => by cases hd⟩
        obtain rfl := Except.ok.inj hb'
        exact hr
      · refine ⟨fun b' hb' => ?_, fun d hd => by cases hd⟩
        obtain rfl := Except.ok.inj hb'
        exact hr)
    (.zeros (t.size * successors.length)) rfl
  cases hrow : consistency t successors with
  | error d => exact (hloop.2 d hrow).elim
  | ok row => exact ⟨row, rfl⟩

/-! ### What a graph keeps -/

namespace Store

variable {σ : Type} {p : Property σ} {expanded : Fingerprint → Prop} {s : Store} {k : Key} {ks : List Key}

/-- The points of the nodes are points of the tableau, the states marked as expanded are the
given ones, and only nodes of such states are written. -/
structure Sane (p : Property σ) (expanded : Fingerprint → Prop) (s : Store) : Prop where
  counted : s.Counted
  points : ∀ k, s.isUnseen k = false → p.IsPoint k.point
  done : ∀ fp, s.isDone fp = true ↔ expanded fp
  written : ∀ k, s.isWritten k = true → expanded k.fp

/-- Nodes that wait to be expanded: each is listed once, it was seen but not written, and its state
is marked as expanded. -/
structure Pending (expanded : Fingerprint → Prop) (s : Store) (ks : List Key) : Prop where
  nodup : ks.Nodup
  waits : ∀ k ∈ ks, s.isUnseen k = false ∧ s.isWritten k = false ∧ expanded k.fp

theorem Sane.of_empty (htable : s.table = ∅) (hsize : s.size = 0) : s.Sane p fun _ => False where
  counted := .of_empty htable hsize
  points := by
    intro k hk
    rw [isUnseen_eq_false_iff] at hk
    simp [slot?_of_empty htable] at hk
  done := by simp [isDone, Table.row, htable]
  written := by simp [isWritten, slot?_of_empty htable]

/-- A change that sees nodes at points and writes nodes of expanded states only. -/
theorem Sane.see {s' : Store} (h : s.Sane p expanded) (hcounted : s'.Counted)
    (hseen : ∀ l, s'.isUnseen l = false → p.IsPoint l.point ∨ s.isUnseen l = false)
    (hdone : ∀ fp, s'.isDone fp = s.isDone fp) (hwritten : ∀ l, s'.isWritten l = true → expanded l.fp) :
    s'.Sane p expanded where
  counted := hcounted
  points := fun l hl => (hseen l hl).elim id (h.points l)
  done := fun fp => by rw [hdone, h.done]
  written := hwritten

theorem Sane.record (h : s.Sane p expanded) (hk : p.IsPoint k.point) (parent : Key) :
    (s.record k parent).Sane p expanded := by
  refine h.see (h.counted.record k parent) (fun l hl => ?_) (fun fp => by simp) (by simpa using h.written)
  by_cases hlk : l = k
  · exact .inl (hlk ▸ hk)
  · exact .inr (by simpa [hlk] using hl)

theorem Sane.addRoot (h : s.Sane p expanded) (hk : p.IsPoint k.point) : (s.addRoot k).Sane p expanded := by
  refine h.see (h.counted.addRoot k) (fun l hl => ?_) (fun fp => by simp) (by simpa using h.written)
  by_cases hlk : l = k
  · exact .inl (hlk ▸ hk)
  · exact .inr (by simpa [isUnseen_addRoot, hlk] using hl)

theorem Sane.setDone (h : s.Sane p expanded) (fp : Fingerprint) :
    (s.setDone fp).Sane p fun g => expanded g ∨ g = fp where
  counted := h.counted.setDone fp
  points := by simpa using h.points
  done := by
    intro g
    rw [isDone_setDone, Bool.or_eq_true, decide_eq_true_iff, h.done, or_comm]
  written := fun k hk => .inl (h.written k (by simpa using hk))

theorem Sane.addNode (h : s.Sane p expanded) {n : Node} (hkey : n.key = k) (hpoint : p.IsPoint k.point)
    (hdone : expanded k.fp) : (s.addNode n).Sane p expanded := by
  subst hkey
  refine h.see (h.counted.addNode n) (fun l hl => ?_) (fun fp => by simp) fun l hl => ?_
  · by_cases hlk : l = n.key
    · exact .inl (hlk ▸ hpoint)
    · exact .inr (by simpa [hlk] using hl)
  · rw [isWritten_addNode, Bool.or_eq_true, decide_eq_true_iff] at hl
    rcases hl with rfl | hl
    · exact hdone
    · exact h.written l hl

theorem Sane.draw (h : s.Sane p expanded) (d : Drawings) : Sane p expanded { s with drawings := d } where
  counted := ⟨h.counted.tidy, h.counted.size_eq⟩
  points := h.points
  done := h.done
  written := h.written

/-- The nodes of a state that was not expanded were not written. -/
theorem Sane.isWritten_eq_false (h : s.Sane p expanded) (hk : ¬ expanded k.fp) : s.isWritten k = false := by
  cases hw : s.isWritten k with
  | false => rfl
  | true => exact absurd (h.written k hw) hk

/-- A state has no more nodes than there are points. -/
theorem Sane.length_pointsAt (h : s.Sane p expanded) (fp : Fingerprint) : (s.pointsAt fp).length ≤ p.pointCount := by
  rw [← p.length_points]
  refine (List.subperm_of_subset (h.counted.tidy fp) fun point hpoint => ?_).length_le
  exact Property.mem_points (h.points ⟨fp, point⟩ (mem_pointsAt.mp hpoint))

theorem Pending.mono {s' : Store} (h : s.Pending expanded ks) (hseen : ∀ k ∈ ks, s.isUnseen k = false → s'.isUnseen k = false)
    (hwritten : ∀ k ∈ ks, s'.isWritten k = s.isWritten k) : s'.Pending expanded ks where
  nodup := h.nodup
  waits := by
    intro k hk
    obtain ⟨hunseen, hunwritten, hexpanded⟩ := h.waits k hk
    exact ⟨hseen k hk hunseen, (hwritten k hk).trans hunwritten, hexpanded⟩

/-- When a state is marked as expanded its nodes wait. -/
theorem Sane.pending_setDone (h : s.Sane p expanded) {fp : Fingerprint} (hfp : ¬ expanded fp) :
    (s.setDone fp).Pending (fun g => expanded g ∨ g = fp) (((s.setDone fp).pointsAt fp).map (Key.mk fp)) := by
  refine ⟨List.Nodup.map (fun x y hxy => congrArg Key.point hxy) (h.counted.setDone fp |>.tidy fp), fun k hk => ?_⟩
  obtain ⟨point, hpoint, rfl⟩ := List.mem_map.mp hk
  refine ⟨mem_pointsAt.mp hpoint, ?_, .inr rfl⟩
  rw [isWritten_setDone]
  exact h.isWritten_eq_false hfp

theorem Pending.record (h : s.Pending expanded ks) (target parent : Key) : (s.record target parent).Pending expanded ks :=
  h.mono (fun k _ hk => by simp [hk]) fun k _ => by simp

/-- A node that turns up joins those that wait. -/
theorem Pending.push (h : s.Pending expanded ks) {target : Key} (hnew : s.isUnseen target = true)
    (hdone : expanded target.fp) (parent : Key) : (s.record target parent).Pending expanded (target :: ks) where
  nodup := by
    refine List.nodup_cons.mpr ⟨fun hmem => ?_, h.nodup⟩
    rw [(h.waits target hmem).1] at hnew
    cases hnew
  waits := by
    intro k hk
    rcases List.mem_cons.mp hk with rfl | hk
    · refine ⟨by simp, ?_, hdone⟩
      rw [isWritten_record]
      cases hw : s.isWritten k with
      | false => rfl
      | true => rw [isUnseen_of_isWritten hw] at hnew; cases hnew
    · exact (h.record target parent).waits k hk

/-- To write the first of them leaves the others to wait. -/
theorem Pending.addNode {n : Node} (hkey : n.key = k) (h : s.Pending expanded (k :: ks)) :
    (s.addNode n).Pending expanded ks := by
  subst hkey
  obtain ⟨hnot, hnodup⟩ := List.nodup_cons.mp h.nodup
  refine Pending.mono ⟨hnodup, fun k hk => h.waits k (List.mem_cons_of_mem _ hk)⟩ (fun k _ hk => by simp [hk]) ?_
  intro k hk
  have hne : k ≠ n.key := by
    rintro rfl
    exact hnot hk
  simp [isWritten_addNode, hne]

end Store

/-! ### Room -/

namespace Property

variable {σ : Type} {p : Property σ}

/-- The most points that a point leads to, and the number of points. -/
def spread (p : Property σ) : Nat :=
  match p.tableau with
  | none => 1
  | some t => t.size + (t.nodes.toList.map fun n => n.successors.length).foldr max 0

/-- The steps of a state with so many successors fit into a buffer, and the results of its checks
can be counted. -/
structure Roomy (p : Property σ) (count : Nat) : Prop where
  words : Node.stepLen p.width * (2 * ((count + 1) * p.spread)) ≤ Node.maxCapacity
  bits : p.width * (count + 1) ≤ wordLimit

theorem le_foldr_max {x : Nat} {xs : List Nat} (h : x ∈ xs) : x ≤ xs.foldr max 0 := by
  induction xs with
  | nil => cases h
  | cons y ys ih =>
    rw [List.foldr_cons]
    rcases List.mem_cons.mp h with rfl | h
    · exact Nat.le_max_left _ _
    · exact (ih h).trans (Nat.le_max_right _ _)

theorem le_spread {t : Tableau σ} (ht : p.tableau = some t) {point : UInt32} {n : Tableau.Node σ}
    (hn : t.node point = .ok n) : t.size + n.successors.length ≤ p.spread := by
  have hmem : n ∈ t.nodes.toList := Array.mem_toList_iff.mpr (Array.mem_of_getElem? (Tableau.node_eq_ok_iff.mp hn))
  have hmax := le_foldr_max (List.mem_map_of_mem (f := fun n : Tableau.Node σ => n.successors.length) hmem)
  simp only [spread, ht]
  omega

/-- Room for some steps is room for fewer. -/
theorem Roomy.of_le {count steps : Nat} (h : p.Roomy count) (hle : steps ≤ 2 * ((count + 1) * p.spread)) :
    Node.stepLen p.width * steps ≤ Node.maxCapacity :=
  (Nat.mul_le_mul_left _ hle).trans h.words

theorem Roomy.mono {count count' : Nat} (h : p.Roomy count') (hle : count ≤ count') : p.Roomy count where
  words := h.of_le (Nat.mul_le_mul_left 2 (Nat.mul_le_mul_right _ (Nat.succ_le_succ hle)))
  bits := (Nat.mul_le_mul_left _ (Nat.succ_le_succ hle)).trans h.bits

/-- Room for the steps of a state at a point, and for what may be reserved with them. -/
theorem Roomy.next {count points size steps : Nat} (h : p.Roomy count) (hspread : size + points ≤ p.spread)
    (hsteps : steps ≤ count * size) :
    Node.stepLen p.width * (count * points + steps) ≤ Node.maxCapacity ∧ p.width * count ≤ wordLimit := by
  refine ⟨h.of_le ?_, (Nat.mul_le_mul_left _ (Nat.le_succ _)).trans h.bits⟩
  calc count * points + steps
      ≤ count * (points + size) := by
        rw [Nat.mul_add]
        omega
    _ ≤ (count + 1) * p.spread := Nat.mul_le_mul (Nat.le_succ _) (by omega)
    _ ≤ 2 * ((count + 1) * p.spread) := by omega

/-- Room for the steps of a node that turned up late, which may stay in its state too. -/
theorem Roomy.late {count points total : Nat} (h : p.Roomy count) (hspread : points ≤ p.spread)
    (htotal : total ≤ count * points + points) :
    Node.stepLen p.width * ((points + count * points) + total) ≤ Node.maxCapacity ∧ p.width ≤ wordLimit := by
  have hle := Nat.mul_le_mul_left (count + 1) hspread
  rw [Nat.add_mul, Nat.one_mul] at hle
  exact ⟨h.of_le (by omega), (Nat.le_mul_of_pos_right _ (Nat.succ_pos _)).trans h.bits⟩

theorem exists_node_of_isPoint {t : Tableau σ} (ht : p.tableau = some t) {point : UInt32} (h : p.IsPoint point) :
    ∃ n, t.node point = .ok n := by
  simp only [IsPoint, ht] at h
  exact ⟨t.nodes[point.toNat], Tableau.node_eq_ok_iff.mpr (Array.getElem?_eq_getElem h)⟩

theorem isPoint_of_mem_successors {t : Tableau σ} (ht : p.tableau = some t) {i j : UInt32} {n : Tableau.Node σ}
    (hn : t.node i = .ok n) (hj : j ∈ n.successors) : p.IsPoint j := by
  simp only [IsPoint, ht]
  exact Tableau.lt_size_of_mem_successors hn hj

end Property

/-! ### Links -/

namespace Builder

variable {σ : Type} {p : Property σ} {expanded : Fingerprint → Prop} {b : Builder} {k target origin : Key}
  {n : Node} {rest : List Key} {work : List (Expansion σ)} {g : Growth σ} {row : Bits} {offset hint : Except Defect Nat}
  {room : Prop} {t : Tableau σ} {m : Model σ}

/-- **A link is made unless there is no room for it**, and what is recorded is its target. -/
theorem link_safe {width : Nat} (hn : n.Uniform width) (hoffset : ∀ d, offset = .error d → d.IsOverflow ∧ ¬ room)
    (hhint : ∃ j, hint = .ok j)
    (hroom : room → ∀ i j, offset = .ok i → hint = .ok j →
      Node.stepLen width * (n.degree + max j 1) ≤ Node.maxCapacity ∧ i + width ≤ wordLimit) :
    (link n target width row offset hint origin).Meets b
      (fun r b' => (r.1.Uniform width ∧ r.1.key = n.key ∧ r.1.degree ≤ n.degree + 1) ∧
        (r.2 = false ∧ b'.store = b.store ∨
          r.2 = true ∧ b.store.isUnseen target = true ∧ b'.store = b.store.record target origin))
      (fun f b' => f.Excused room ∧ b' = b) := by
  obtain ⟨j, rfl⟩ := hhint
  refine meets_link (fun _ _ => ⟨⟨hn, rfl, Nat.le_succ _⟩, .inl ⟨rfl, rfl⟩⟩) (fun _ i j' n' _ _ hadd => ?_)
    fun _ d hd => ⟨fun d' hd' => ?_, rfl⟩
  · obtain ⟨hwhole, hsteps, hwidth, hsame⟩ := Node.addStep_spec hn.whole hadd
    have hdegree : n'.degree ≤ n.degree + 1 := by
      rw [← Node.length_steps, hsteps, List.length_append, Node.length_steps, List.length_singleton]
    refine ⟨⟨⟨hwhole, .inr hwidth⟩, hsame.key, hdegree⟩, ?_⟩
    cases hunseen : b.store.isUnseen target with
    | true => exact .inr ⟨rfl, rfl, rfl⟩
    | false => exact .inl ⟨rfl, Store.record_of_seen hunseen origin⟩
  · obtain rfl := Fault.defect.inj hd'
    rcases hd with hd | hd | ⟨i, j', n', hi, hj, hadd⟩
    · exact hoffset d hd
    · cases hd
    · obtain ⟨hoverflow, hnone⟩ := hn.overflow_of_addStep hadd
      exact ⟨hoverflow, fun hr => hnone (hroom hr i j' hi hj)⟩

/-- The node `k` in the course of its expansion: the others that wait are `rest` and those on the
list. -/
structure Expanding (p : Property σ) (expanded : Fingerprint → Prop) (k : Key) (rest : List Key) (g : Growth σ)
    (s : Store) : Prop where
  sane : s.Sane p expanded
  pending : s.Pending expanded (k :: (rest ++ g.2.map Expansion.key))
  uniform : g.1.Uniform p.width
  key : g.1.key = k

/-- What is left when a call ends with a fault: a sane graph; and no precondition is broken, unless
there was no room, or there are as many nodes as machine words. -/
def Unharmed (p : Property σ) (expanded : Fingerprint → Prop) (room : Prop) (f : Fault) (b : Builder) : Prop :=
  b.store.Sane p expanded ∧ f.Excused (room ∧ b.store.keys.length + 1 < wordLimit)

theorem link_expanding (h : Expanding p expanded k rest (n, work) b.store) (htarget : p.IsPoint target.point) {done : Bool}
    (hdone : done = true → expanded target.fp) (u : σ) (hoffset : ∀ d, offset = .error d → d.IsOverflow ∧ ¬ room)
    (hhint : ∃ j, hint = .ok j)
    (hroom : room → ∀ i j, offset = .ok i → hint = .ok j →
      Node.stepLen p.width * (n.degree + max j 1) ≤ Node.maxCapacity ∧ i + p.width ≤ wordLimit) :
    (link n target p.width row offset hint origin).Meets b
      (fun r b' => Expanding p expanded k rest (r.1, if r.2 && done then ⟨u, target⟩ :: work else work) b'.store ∧
        r.1.degree ≤ n.degree + 1) (Unharmed p expanded room) := by
  refine (link_safe h.uniform hoffset hhint hroom).mono ?_ ?_
  · rintro ⟨n', new⟩ b' ⟨⟨huniform, hkey, hdegree⟩, ⟨rfl, hstore⟩ | ⟨rfl, hunseen, hstore⟩⟩
    · refine ⟨⟨?_, ?_, huniform, hkey.trans h.key⟩, hdegree⟩
      · rw [hstore]
        exact h.sane
      · rw [hstore]
        exact h.pending
    · refine ⟨⟨?_, ?_, huniform, hkey.trans h.key⟩, hdegree⟩
      · rw [hstore]
        exact h.sane.record htarget origin
      · rw [hstore]
        cases hd : done with
        | false => exact h.pending.record target origin
        | true =>
          have hpush := h.pending.push hunseen (hdone hd) origin
          have hperm : (target :: (k :: (rest ++ work.map Expansion.key))).Perm
              (k :: (rest ++ (target :: work.map Expansion.key))) :=
            (List.Perm.swap k target _).trans (List.Perm.cons k List.perm_middle.symm)
          exact ⟨hperm.nodup_iff.mp hpush.nodup, fun l hl => hpush.waits l (hperm.mem_iff.mpr hl)⟩
  · rintro f b' ⟨hf, rfl⟩
    exact ⟨h.sane, hf.mono And.left⟩

/-! ### Nodes of the state that is expanded -/

variable [ModelState σ] {batch : Batch σ}

theorem nextStep_safe (hwidth : batch.checks.width = p.width) {bound : Nat}
    (hroom : room → Node.stepLen p.width * (bound + batch.room) ≤ Node.maxCapacity ∧
      p.width * batch.successors.length ≤ wordLimit)
    (used : Nat) {u : σ} {i : Nat} (hi : i < batch.successors.length) {done : Bool}
    (hdone : done = true → expanded (fingerprint u)) {point : UInt32} (hpoint : p.IsPoint point)
    (h : Expanding p expanded k rest g b.store) (hbound : g.1.degree + 1 ≤ bound) :
    (nextStep batch used u i done g point).Meets b
      (fun g' b' => Expanding p expanded k rest g' b'.store ∧ g'.1.degree ≤ g.1.degree + 1)
      (Unharmed p expanded room) := by
  obtain ⟨hoffset, hplace⟩ := excused_mulWords hi fun hr => (hroom hr).2
  refine meets_nextStep (fun _ => ?_) fun _ => ⟨h, Nat.le_succ _⟩
  rw [hwidth]
  refine link_expanding h hpoint hdone u hoffset ⟨_, rfl⟩ ?_
  intro hr j₁ j₂ hj₁ hj₂
  obtain rfl := Except.ok.inj hj₂
  refine ⟨(Nat.mul_le_mul_left _ ?_).trans (hroom hr).1, hplace hr j₁ hj₁⟩
  omega

theorem nextSteps_safe (hwidth : batch.checks.width = p.width) {bound : Nat}
    (hroom : room → Node.stepLen p.width * (bound + batch.room) ≤ Node.maxCapacity ∧
      p.width * batch.successors.length ≤ wordLimit)
    (used : Nat) {points : List UInt32} (hpoints : ∀ point ∈ points, p.IsPoint point) {x : σ × Nat}
    (hx : x ∈ batch.successors.zipIdx) (h : Expanding p expanded k rest g b.store)
    (hbound : g.1.degree + points.length ≤ bound) :
    (nextSteps batch used points g x).Meets b
      (fun g' b' => Expanding p expanded k rest g' b'.store ∧ g'.1.degree ≤ g.1.degree + points.length)
      (Unharmed p expanded room) := by
  have hdone : b.store.isDone (fingerprint x.1) = true → expanded (fingerprint x.1) := (h.sane.done _).mp
  have hloop := Change.meets_foldlM_cost (P := fun g (b : Builder) => Expanding p expanded k rest g b.store)
    (fun g => g.1.degree) 1 bound
    (fun point hpoint g b hg hbound => nextStep_safe hwidth hroom used (List.snd_lt_of_mem_zipIdx hx) hdone
      (hpoints point hpoint) hg hbound) g b h (by rwa [Nat.mul_one])
  rw [Nat.mul_one] at hloop
  exact meets_nextSteps hloop

/-! ### Writing a node -/

omit [ModelState σ] in
theorem snapshot_safe (h : b.store.Sane p expanded) :
    (snapshot p).Meets b (fun _ b' => ∃ d, b'.store = { b.store with drawings := d }) (Unharmed p expanded room) := by
  refine meets_snapshot (fun d _ _ _ => ⟨d, rfl⟩) (fun title f _ hf => ⟨h, ?_⟩) fun _ _ _ _ => ⟨h, ?_⟩
  · refine Fault.excused_of_ne _ ?_
    rintro d rfl
    exact b.store.proper_draw p.tableau title d hf
  · exact Fault.excused_of_ne _ fun d hd => by cases hd

omit [ModelState σ] in
theorem Expanding.sane_addNode {s : Store} (h : Expanding p expanded k rest g s) :
    (s.addNode g.1.trim).Sane p expanded := by
  obtain ⟨hseen, -, hdone⟩ := h.pending.waits k (by simp)
  exact h.sane.addNode h.key (h.sane.points k hseen) hdone

omit [ModelState σ] in
/-- The node is written, and the others still wait. -/
theorem write_safe (h : Expanding p expanded k rest g b.store) :
    (onStore (fun s => s.addNode g.1.trim) >>= fun _ => snapshot p).Meets b
      (fun _ b' => b'.store.Sane p expanded ∧ b'.store.Pending expanded (rest ++ g.2.map Expansion.key))
      (Unharmed p expanded room) := by
  have hpending : (b.store.addNode g.1.trim).Pending expanded (rest ++ g.2.map Expansion.key) :=
    .addNode h.key h.pending
  refine (meets_onStore _).bind ?_
  rintro _ b' rfl
  refine (snapshot_safe h.sane_addNode).imp ?_
  rintro _ b' ⟨d, hd⟩
  rw [hd]
  exact ⟨h.sane_addNode.draw d, hpending.nodup, hpending.waits⟩

omit [ModelState σ] in
/-- A node that had no steps is written. -/
theorem meets_keep_empty {before : Nat} (hbefore : before = 0) {Q : Unit → Builder → Prop} {E : Fault → Builder → Prop}
    (h : (onStore (fun s => s.addNode n.trim) >>= fun _ => snapshot p).Meets b Q E) :
    (keep p n before false).Meets b Q E :=
  meets_keep (fun _ => h) fun _ hpos _ => absurd hbefore (Nat.ne_of_gt hpos)

/-- **The node of a state at one point**, which was not written before, is expanded. -/
theorem expandPoint_safe (ht : p.tableau = some t) (hwidth : batch.checks.width = p.width)
    (hbatch : batch.room ≤ batch.successors.length * p.pointCount) (hroom : room → p.Roomy batch.successors.length)
    {fp : Fingerprint} {x : UInt32 × Nat} (hsane : b.store.Sane p expanded)
    (hpending : b.store.Pending expanded (⟨fp, x.1⟩ :: (rest ++ work.map Expansion.key))) :
    (expandPoint p t batch fp false work x).Meets b
      (fun work' b' => b'.store.Sane p expanded ∧ b'.store.Pending expanded (rest ++ work'.map Expansion.key))
      (Unharmed p expanded room) := by
  obtain ⟨point, j⟩ := x
  obtain ⟨hseen, hunwritten, -⟩ := hpending.waits ⟨fp, point⟩ (by simp)
  obtain ⟨tnode, htnode⟩ := Property.exists_node_of_isPoint ht (hsane.points _ hseen)
  obtain ⟨parent, hnode⟩ := b.store.node_of_not_written hunwritten
  have hstart : Expanding p expanded ⟨fp, point⟩ rest
      (({ key := ⟨fp, point⟩, parent := parent } : Node).setState batch.checks.state, work) b.store :=
    ⟨hsane, hpending, ⟨Node.whole_of_size_eq_zero rfl, .inl rfl⟩, rfl⟩
  have hspread := Property.le_spread ht htnode
  rw [show p.pointCount = t.size by rw [Property.pointCount, ht]] at hbatch
  have hroom' : room → Node.stepLen p.width * (batch.successors.length * tnode.successors.length + batch.room) ≤
      Node.maxCapacity ∧ p.width * batch.successors.length ≤ wordLimit := fun hr => (hroom hr).next hspread hbatch
  refine meets_expandPoint (fun d hd => by rw [htnode] at hd; cases hd) (fun f hf => by rw [hnode] at hf; cases hf)
    fun tnode' n htnode' hn => ?_
  obtain rfl := Except.ok.inj (htnode'.symm.trans htnode)
  obtain rfl := Except.ok.inj (hn.symm.trans hnode)
  refine (Change.meets_foldlM_cost (P := fun g (b : Builder) => Expanding p expanded ⟨fp, point⟩ rest g b.store)
    (fun g => g.1.degree) tnode'.successors.length (batch.successors.length * tnode'.successors.length)
    (fun x hx g b hg hbound => nextSteps_safe hwidth hroom' _
      (fun point => Property.isPoint_of_mem_successors ht htnode) hx hg hbound) _ b hstart ?_).imp ?_
  · rw [List.length_zipIdx]
    change 0 / _ + _ ≤ _
    rw [Nat.zero_div, Nat.zero_add]
  · rintro g b' ⟨hg, -⟩
    exact meets_keep_empty (Nat.zero_div _) (write_safe hg)

/-! ### Nodes that turned up late -/

variable {e : Expansion σ}

omit [ModelState σ] in
/-- A step out of a node that turned up late. -/
theorem link_late {bound total : Nat}
    (hroom : room → Node.stepLen p.width * (bound + total) ≤ Node.maxCapacity ∧ p.width ≤ wordLimit)
    (h : Expanding p expanded k rest (n, work) b.store) (hbound : n.degree + 1 ≤ bound) (htarget : p.IsPoint target.point)
    {done : Bool} (hdone : done = true → expanded target.fp) (u : σ) {i : Nat} (hi : i ≤ total) :
    (link n target p.width row (.ok 0) (subWords total i) origin).Meets b
      (fun r b' => Expanding p expanded k rest (r.1, if r.2 && done then ⟨u, target⟩ :: work else work) b'.store ∧
        r.1.degree ≤ n.degree + 1) (Unharmed p expanded room) := by
  refine link_expanding h htarget hdone u (fun d hd => by cases hd) ⟨total - i, if_pos hi⟩ ?_
  intro hr j₁ j₂ hj₁ hj₂
  obtain rfl := Except.ok.inj hj₁
  rw [subWords, if_pos hi] at hj₂
  obtain rfl := Except.ok.inj hj₂
  refine ⟨(Nat.mul_le_mul_left _ ?_).trans (hroom hr).1, by rw [Nat.zero_add]; exact (hroom hr).2⟩
  omega

omit [ModelState σ] in
/-- The steps that stay in the state. -/
theorem stutter_safe (ht : p.tableau = some t) {bound total : Nat}
    (hroom : room → Node.stepLen p.width * (bound + total) ≤ Node.maxCapacity ∧ p.width ≤ wordLimit)
    (xs : List (UInt32 × Nat)) (hxs : ∀ x ∈ xs, p.IsPoint x.1 ∧ x.2 ≤ total) :
    ∀ (g : Growth σ) (b : Builder), Expanding p expanded e.key rest g b.store → g.1.degree + xs.length ≤ bound →
      (stutter p t e row total xs g).Meets b
        (fun r b' => Expanding p expanded e.key rest r.1 b'.store ∧ r.1.1.degree ≤ g.1.degree + xs.length)
        (Unharmed p expanded room) := by
  intro g b h hbound
  refine meets_stutter (P := fun left g' (b : Builder) => Expanding p expanded e.key rest g' b.store ∧
      g'.1.degree + left ≤ g.1.degree + xs.length)
    (fun x hx _ _ _ d _ hd => ?_) (fun _ _ _ hg => ⟨hg.1, by omega⟩) (fun x hx tnode _ _ left n work b hg => ?_)
    (fun _ _ hg => hg) g b ⟨h, Nat.le_refl _⟩
  · obtain ⟨tnode, htnode⟩ := Property.exists_node_of_isPoint ht (hxs x hx).1
    rw [htnode] at hd
    cases hd
  · obtain ⟨hg, hleft⟩ := hg
    obtain ⟨hpoint, hi⟩ := hxs x hx
    change n.degree + (left + 1) ≤ _ at hleft
    have htarget : p.IsPoint (Key.mk e.key.fp x.1).point := hpoint
    have hdone : true = true → expanded (Key.mk e.key.fp x.1).fp := fun _ => (hg.pending.waits e.key (by simp)).2.2
    refine (link_late hroom hg (by omega) htarget hdone e.state hi).imp ?_
    rintro r b' ⟨hg', hdegree⟩
    rw [Bool.and_true] at hg'
    have hle : r.1.degree + left ≤ g.1.degree + xs.length := by omega
    exact ⟨fun _ => ⟨hg', Nat.le_of_add_right_le hle⟩, fun _ => ⟨hg', hle⟩⟩

theorem lateStep_safe (ht : p.tableau = some t) {bound total : Nat}
    (hroom : room → Node.stepLen p.width * (bound + total) ≤ Node.maxCapacity ∧ p.width ≤ wordLimit) (u : σ)
    {done : Bool} (hdone : done = true → expanded (fingerprint u)) {i : Nat} (hi : i ≤ total) {point : UInt32}
    (hpoint : p.IsPoint point) (h : Expanding p expanded k rest g b.store) (hbound : g.1.degree + 1 ≤ bound) :
    (lateStep p t e u row done (subWords total i) g point).Meets b
      (fun g' b' => Expanding p expanded k rest g' b'.store ∧ g'.1.degree ≤ g.1.degree + 1)
      (Unharmed p expanded room) := by
  obtain ⟨tnode, htnode⟩ := Property.exists_node_of_isPoint ht hpoint
  have htarget : p.IsPoint (Key.mk (fingerprint u) point).point := hpoint
  exact meets_lateStep (fun d hd => by rw [htnode] at hd; cases hd)
    (fun _ _ _ => link_late hroom h hbound htarget hdone u hi) fun _ _ _ => ⟨h, Nat.le_succ _⟩

theorem lateSteps_safe (ht : p.tableau = some t) {points : List UInt32} (hpoints : ∀ point ∈ points, p.IsPoint point)
    {successors : List σ} {bound : Nat}
    (hroom : room → Node.stepLen p.width * (bound + successors.length * points.length) ≤ Node.maxCapacity ∧
      p.width ≤ wordLimit)
    {x : σ × Nat} (hx : x ∈ successors.zipIdx) (h : Expanding p expanded k rest g b.store)
    (hbound : g.1.degree + points.length ≤ bound) :
    (lateSteps p t e points (successors.length * points.length) g x).Meets b
      (fun g' b' => Expanding p expanded k rest g' b'.store ∧ g'.1.degree ≤ g.1.degree + points.length)
      (Unharmed p expanded room) := by
  obtain ⟨u, i⟩ := x
  have hi : i < successors.length := List.snd_lt_of_mem_zipIdx hx
  have hplace : ∀ j < points.length, i * points.length + j ≤ successors.length * points.length := by
    intro j hj
    have hle := Nat.mul_le_mul_right points.length (Nat.succ_le_of_lt hi)
    rw [Nat.succ_mul] at hle
    omega
  have hdone : b.store.isDone (fingerprint u) = true → expanded (fingerprint u) := (h.sane.done _).mp
  have hloop := Change.meets_foldlM_cost (P := fun g (b : Builder) => Expanding p expanded k rest g b.store)
    (f := fun g (x : UInt32 × Nat) => lateStep p t e u (p.actionBits e.state u) (b.store.isDone (fingerprint u))
      (subWords (successors.length * points.length) (i * points.length + x.2)) g x.1)
    (fun g => g.1.degree) 1 bound
    (fun x (hx : x ∈ points.zipIdx) g b hg hbound =>
      lateStep_safe ht hroom u hdone (hplace x.2 (List.snd_lt_of_mem_zipIdx hx))
        (hpoints x.1 (List.fst_mem_of_mem_zipIdx hx)) hg hbound) g b h (by rwa [Nat.mul_one, List.length_zipIdx])
  rw [Nat.mul_one, List.length_zipIdx] at hloop
  exact meets_lateSteps hloop

/-- **A node that turned up late** is expanded. -/
theorem expandOne_safe (ht : p.tableau = some t) (hroom : room → p.Roomy (m.successors e.state).length)
    (hsane : b.store.Sane p expanded) (hpending : b.store.Pending expanded ((e :: work).map Expansion.key)) :
    (expandOne p m t e work).Meets b
      (fun r b' => b'.store.Sane p expanded ∧ ∀ work', r = .ok work' → b'.store.Pending expanded (work'.map Expansion.key))
      (Unharmed p expanded room) := by
  obtain ⟨hseen, hunwritten, -⟩ := hpending.waits e.key (by simp)
  obtain ⟨tnode, htnode⟩ := Property.exists_node_of_isPoint ht (hsane.points _ hseen)
  obtain ⟨parent, hnode⟩ := b.store.node_of_not_written hunwritten
  have hpoints : ∀ point ∈ tnode.successors, p.IsPoint point := fun _ => Property.isPoint_of_mem_successors ht htnode
  have hstart : Expanding p expanded e.key []
      (({ key := e.key, parent := parent } : Node).setState (p.stateBits e.state), work) b.store :=
    ⟨hsane, hpending, ⟨Node.whole_of_size_eq_zero rfl, .inl rfl⟩, rfl⟩
  have hspread := Property.le_spread ht htnode
  have hroom' : ∀ total, total ≤ (m.successors e.state).length * tnode.successors.length + tnode.successors.length →
      room → Node.stepLen p.width * ((tnode.successors.length + (m.successors e.state).length * tnode.successors.length) +
        total) ≤ Node.maxCapacity ∧ p.width ≤ wordLimit :=
    fun total htotal hr => (hroom hr).late (Nat.le_of_add_left_le hspread) htotal
  have hzero : ∀ bits, (({ key := e.key, parent := parent } : Node).setState bits).degree = 0 := fun _ => Nat.zero_div _
  refine meets_expandOne (fun d hd => by rw [htnode] at hd; cases hd) (fun f hf => by rw [hnode] at hf; cases hf)
    fun tnode' n htnode' hn => ?_
  obtain rfl := Except.ok.inj (htnode'.symm.trans htnode)
  obtain rfl := Except.ok.inj (hn.symm.trans hnode)
  refine (stutter_safe ht (hroom' _ (Nat.le_add_left _ _)) tnode'.successors.zipIdx
    (fun x hx => ⟨hpoints _ (List.fst_mem_of_mem_zipIdx hx), Nat.le_of_lt (List.snd_lt_of_mem_zipIdx hx)⟩) _ b hstart
    (by rw [hzero, List.length_zipIdx]; omega)).imp ?_
  rintro ⟨g, violated⟩ b' ⟨hg, hdegree⟩
  rw [hzero, List.length_zipIdx, Nat.zero_add] at hdegree
  change g.1.degree ≤ _ at hdegree
  refine ⟨fun _ => ⟨fun _ => ?_, fun _ => ?_⟩, fun _ => ?_⟩
  · exact ⟨hg.sane_addNode, fun work' h => by cases h⟩
  · exact ⟨hg.sane, fun work' h => by cases h⟩
  · refine (Change.meets_foldlM_cost (P := fun g (b : Builder) => Expanding p expanded e.key [] g b.store)
      (fun g => g.1.degree) tnode'.successors.length _
      (fun x hx g b hg hbound => lateSteps_safe ht hpoints (hroom' _ (Nat.le_add_right _ _)) hx hg hbound) g b' hg
      (by rw [List.length_zipIdx]; omega)).imp ?_
    rintro g b'' ⟨hg, -⟩
    refine ⟨fun _ => ?_, fun _ => ⟨hg.sane, fun work' hwork' => ?_⟩⟩
    · refine (write_safe hg).imp ?_
      rintro _ b₃ ⟨hsane', hpending'⟩
      refine ⟨hsane', fun work' hwork' => ?_⟩
      obtain rfl := Except.ok.inj hwork'
      exact hpending'
    · obtain rfl := Except.ok.inj hwork'
      have hrest := hg.pending
      exact ⟨(List.nodup_cons.mp hrest.nodup).2, fun l hl => hrest.waits l (List.mem_cons_of_mem _ hl)⟩

theorem expandLate_safe (ht : p.tableau = some t) (hroom : room → ∀ s, p.Roomy (m.successors s).length)
    (hsane : b.store.Sane p expanded) (hpending : b.store.Pending expanded (work.map Expansion.key)) :
    (expandLate p m t work).Meets b (fun _ b' => b'.store.Sane p expanded) (Unharmed p expanded room) := by
  refine meets_expandLate (meets_expandAll (I := fun _ work (b : Builder) => b.store.Sane p expanded ∧
      b.store.Pending expanded (work.map Expansion.key))
    (fun _ _ h => h.1) (fun _ _ _ h => h.1) (fun _ e work b h => ?_) _ work b ⟨hsane, hpending⟩)
  refine (expandOne_safe ht (fun hr => hroom hr e.state) h.1 h.2).imp ?_
  rintro r b' ⟨hsane', hpending'⟩
  exact ⟨fun _ _ => hsane', fun work' hwork' => ⟨hsane', hpending' work' hwork'⟩⟩

/-! ### Whole calls -/

variable {fp : Fingerprint} {successors : List σ} {checks : StepChecks}

omit [ModelState σ] in
/-- The path of a violation can be told, unless there are as many nodes as machine words. -/
theorem answer_safe (h : b.store.Sane p expanded) (violation : Option Key) :
    (answer violation).Meets b (fun _ b' => b'.store.Sane p expanded) (Unharmed p expanded room) := by
  refine meets_answer (fun _ => h) (fun key f _ hf => ⟨h, ?_⟩) fun _ _ _ _ _ _ => h
  rintro d rfl
  obtain ⟨rfl, hlimit⟩ := b.store.overflow_of_pathTo hf
  refine ⟨trivial, fun hr => ?_⟩
  have hsize : b.store.size.toNat = b.store.keys.length := by
    rw [h.counted.size_eq]
    exact UInt64.toNat_ofNat_of_lt' (Nat.lt_of_succ_lt hr.2)
  omega

theorem addProduct_safe (ht : p.tableau = some t) (hwidth : checks.width = p.width)
    (hroom : room → p.Roomy successors.length ∧ ∀ s, p.Roomy (m.successors s).length) (h : b.store.Sane p expanded)
    (hfp : ¬ expanded fp) :
    (addProduct p m t fp successors checks false).Meets b (fun _ b' => b'.store.Sane p fun g => expanded g ∨ g = fp)
      (Unharmed p (fun g => expanded g ∨ g = fp) room) := by
  obtain ⟨consistent, hconsistent⟩ := exists_consistency t successors
  have hsane := h.setDone fp
  have hcount : ((b.store.setDone fp).pointsAt fp).length * successors.length ≤ successors.length * p.pointCount := by
    rw [Nat.mul_comm]
    exact Nat.mul_le_mul_left _ (hsane.length_pointsAt fp)
  have hpending : (b.store.setDone fp).Pending (fun g => expanded g ∨ g = fp)
      (((b.store.setDone fp).pointsAt fp).zipIdx.map (Key.mk fp ∘ Prod.fst) ++
        ([] : List (Expansion σ)).map Expansion.key) := by
    rw [← List.map_map, List.zipIdx_map_fst, List.map_nil, List.append_nil]
    exact h.pending_setDone hfp
  refine meets_addProduct (meets_expandState (fun d hd => by rw [hconsistent] at hd; cases hd) fun _ _ => ?_)
  refine (Change.meets_foldlM (P := fun (xs : List (UInt32 × Nat)) work (b : Builder) =>
      b.store.Sane p (fun g => expanded g ∨ g = fp) ∧
        b.store.Pending (fun g => expanded g ∨ g = fp) (xs.map (Key.mk fp ∘ Prod.fst) ++ work.map Expansion.key))
    (fun x xs work b hb => expandPoint_safe ht hwidth hcount (fun hr => (hroom hr).1) hb.1 hb.2) _ []
    { b with store := b.store.setDone fp } ⟨hsane, hpending⟩).imp ?_
  rintro work b' ⟨hsane', hpending'⟩
  refine (expandLate_safe ht (fun hr => (hroom hr).2) hsane' hpending').imp ?_
  exact fun violation b'' hsane'' => answer_safe hsane'' violation

omit [ModelState σ] in
theorem plainStep_safe (hplain : p.tableau = none) (hwidth : checks.width = p.width) {fps : List Fingerprint} {bound : Nat}
    (hroom : room → Node.stepLen p.width * (bound + fps.length) ≤ Node.maxCapacity ∧ p.width * fps.length ≤ wordLimit)
    {x : Fingerprint × Nat} (hx : x ∈ fps.zipIdx) (hsane : b.store.Sane p expanded) (hn : n.Uniform p.width)
    (hbound : n.degree + 1 ≤ bound) :
    (plainStep checks fps.length n x).Meets b
      (fun n' b' => (b'.store.Sane p expanded ∧ n'.Uniform p.width ∧ n'.key = n.key) ∧ n'.degree ≤ n.degree + 1)
      (Unharmed p expanded room) := by
  obtain ⟨fp, i⟩ := x
  have hi : i < fps.length := List.snd_lt_of_mem_zipIdx hx
  obtain ⟨hoffset, hplace⟩ := excused_mulWords hi fun hr => (hroom hr).2
  have hpoint : p.IsPoint Key.noPoint := by rw [Property.IsPoint, hplain]
  have hsub : subWords fps.length i = .ok (fps.length - i) := if_pos (Nat.le_of_lt hi)
  have hfits : room → ∀ j₁ j₂, mulWords i p.width = .ok j₁ → subWords fps.length i = .ok j₂ →
      Node.stepLen p.width * (n.degree + max j₂ 1) ≤ Node.maxCapacity ∧ j₁ + p.width ≤ wordLimit := by
    intro hr j₁ j₂ hj₁ hj₂
    obtain rfl := Except.ok.inj (hsub.symm.trans hj₂)
    refine ⟨(Nat.mul_le_mul_left _ ?_).trans (hroom hr).1, hplace hr j₁ hj₁⟩
    omega
  refine meets_plainStep ?_
  rw [hwidth]
  refine (link_safe hn hoffset ⟨_, hsub⟩ hfits).mono ?_ ?_
  · rintro ⟨n', new⟩ b' ⟨⟨huniform, hkey, hdegree⟩, hstore⟩
    refine ⟨⟨?_, huniform, hkey⟩, hdegree⟩
    rcases hstore with ⟨-, hstore⟩ | ⟨-, -, hstore⟩
    · rw [hstore]
      exact hsane
    · rw [hstore]
      exact hsane.record hpoint _
  · rintro f b' ⟨hf, rfl⟩
    exact ⟨hsane, hf.mono And.left⟩

omit [ModelState σ] in
theorem addPlain_safe (hplain : p.tableau = none) (hwidth : checks.width = p.width) {fps : List Fingerprint}
    (hroom : room → p.Roomy fps.length) (h : b.store.Sane p expanded) (hfp : ¬ expanded fp) :
    (addPlain p fp fps checks false).Meets b (fun _ b' => b'.store.Sane p fun g => expanded g ∨ g = fp)
      (Unharmed p (fun g => expanded g ∨ g = fp) room) := by
  have hsane := h.setDone fp
  have hpoint : p.IsPoint Key.noPoint := by rw [Property.IsPoint, hplain]
  have hunwritten : (b.store.setDone fp).isWritten ⟨fp, Key.noPoint⟩ = false := by
    rw [Store.isWritten_setDone]
    exact h.isWritten_eq_false hfp
  obtain ⟨parent, hnode⟩ := (b.store.setDone fp).node_of_not_written hunwritten
  have hzero : ∀ bits, (({ key := ⟨fp, Key.noPoint⟩, parent := parent } : Node).setState bits).degree = 0 :=
    fun _ => Nat.zero_div _
  have hroom' : room → Node.stepLen p.width * (fps.length + fps.length) ≤ Node.maxCapacity ∧
      p.width * fps.length ≤ wordLimit := by
    intro hr
    have hspread : p.spread = 1 := by rw [Property.spread, hplain]
    refine ⟨(hroom hr).of_le ?_, (Nat.mul_le_mul_left _ (Nat.le_succ _)).trans (hroom hr).bits⟩
    rw [hspread]
    omega
  refine meets_addPlain (fun f hf => by rw [hnode] at hf; cases hf) fun n hn => ?_
  obtain rfl := Except.ok.inj (hn.symm.trans hnode)
  refine (Change.meets_foldlM_cost (P := fun n (b : Builder) => b.store.Sane p (fun g => expanded g ∨ g = fp) ∧
      n.Uniform p.width ∧ n.key = ⟨fp, Key.noPoint⟩) Node.degree 1 fps.length
    (fun x hx n b hn hbound => (plainStep_safe hplain hwidth hroom' hx hn.1 hn.2.1 hbound).imp
      fun n' b' hn' => ⟨⟨hn'.1.1, hn'.1.2.1, hn'.1.2.2.trans hn.2.2⟩, hn'.2⟩) _
    { b with store := b.store.setDone fp } ⟨hsane, ⟨Node.whole_of_size_eq_zero rfl, .inl rfl⟩, rfl⟩ ?_).imp ?_
  · rw [hzero, List.length_zipIdx]
    omega
  · rintro n b' ⟨⟨hsane', -, hkey⟩, -⟩
    have hsane'' : (b'.store.addNode n.trim).Sane p fun g => expanded g ∨ g = fp :=
      hsane'.addNode hkey hpoint (.inr rfl)
    refine meets_keep_empty (Nat.zero_div _) ((meets_onStore _).bind ?_)
    rintro _ b'' rfl
    refine (snapshot_safe hsane'').imp ?_
    rintro _ b'' ⟨d, hd⟩
    rw [hd]
    exact hsane''.draw d

/-- **A first expansion of a state breaks no precondition**, unless there is no room. -/
theorem addNext_safe (hwidth : checks.width = p.width)
    (hroom : room → p.Roomy successors.length ∧ ∀ s, p.Roomy (m.successors s).length) (h : b.store.Sane p expanded)
    (hfp : ¬ expanded fp) :
    (addNext p m fp successors checks false).Meets b (fun _ b' => b'.store.Sane p fun g => expanded g ∨ g = fp)
      (Unharmed p (fun g => expanded g ∨ g = fp) room) := by
  refine meets_addNext (fun t ht => addProduct_safe ht hwidth hroom h hfp) fun hplain => ?_
  refine addPlain_safe hplain hwidth (fun hr => ?_) h hfp
  rw [List.length_map]
  exact (hroom hr).1

end Builder

end Liveness

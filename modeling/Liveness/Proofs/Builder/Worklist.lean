import Liveness.Proofs.Builder.Turn

/-!
# The list of late expansions

Late expansions make work for each other: the nodes that turn up while a node is expanded are
put on the list of those to expand. The loop over the list has no bound of its own
(`Builder.Unrolls`), and the model may lead on to new states without end.

The loop ends nevertheless. A node is put on the list only when it is seen for the first time,
so it is never there again, and only if its state was expanded (`Builder.Queue`). There is no
such node beyond the expanded states at the points of the tableau, and these are finitely many
(`Builder.late_expansions_end`).
-/

namespace Liveness

/-- The states marked as expanded. -/
def Store.doneStates (s : Store) : List Fingerprint := (Std.ExtTreeMap.keys s.table).filter s.isDone

theorem Store.mem_doneStates {s : Store} {fp : Fingerprint} : fp ∈ s.doneStates ↔ s.isDone fp = true := by
  rw [doneStates, List.mem_filter, Std.ExtTreeMap.mem_keys]
  refine ⟨fun h => h.2, fun h => ⟨?_, h⟩⟩
  by_contra hmem
  rw [isDone, Table.row, Std.ExtTreeMap.getD_eq_fallback hmem] at h
  cases h

theorem Store.nodup_doneStates (s : Store) : s.doneStates.Nodup := by
  refine List.Nodup.filter _ ?_
  exact (Table.pairwise_states s.table).imp UInt64.ne_of_lt

theorem Store.length_doneStates_le {s s' : Store} (h : ∀ fp, s'.isDone fp = s.isDone fp) :
    s.doneStates.length ≤ s'.table.size := by
  have hsub : s.doneStates ⊆ Std.ExtTreeMap.keys s'.table := by
    intro fp hfp
    rw [mem_doneStates, ← h, ← mem_doneStates] at hfp
    exact List.mem_of_mem_filter hfp
  rw [← Std.ExtTreeMap.length_keys]
  exact (s.nodup_doneStates.subperm hsub).length_le

theorem Tableau.lt_size_of_node {σ : Type} {t : Tableau σ} {i : UInt32} {n : Node σ} (h : t.node i = .ok n) :
    i.toNat < t.size :=
  (Array.getElem?_eq_some_iff.mp (node_eq_ok_iff.mp h)).1

namespace Builder

variable {σ : Type} {p : Property σ} {m : Model σ} {t : Tableau σ} {b : Builder} {work : List (Expansion σ)}
  {e : Expansion σ} {base s s' : Store} {past : List Key}

/-! ### What is on the list -/

/-- The nodes on the list and those that were on it are all different. None of them was seen in
`base`, and each is seen now, is of a state that is marked as expanded, and is at a point of
the tableau. -/
structure Queue (t : Tableau σ) (base : Store) (past : List Key) (work : List (Expansion σ)) (s : Store) : Prop where
  nodup : (work.map Expansion.key ++ past).Nodup
  new : ∀ k ∈ work.map Expansion.key ++ past, base.isUnseen k = true
  seen : ∀ k ∈ work.map Expansion.key ++ past, s.isUnseen k = false
  place : ∀ k ∈ work.map Expansion.key ++ past, base.isDone k.fp = true ∧ k.point.toNat < t.size
  onward : Onward base s

theorem Queue.empty (t : Tableau σ) (s : Store) : Queue t s [] [] s :=
  ⟨List.nodup_nil, fun _ hk => (by cases hk), fun _ hk => (by cases hk), fun _ hk => (by cases hk), .refl s⟩

theorem Queue.mono (h : Queue t base past work s) (hs : Onward s s') : Queue t base past work s' :=
  ⟨h.nodup, h.new, fun k hk => hs.within k (h.seen k hk), h.place, h.onward.trans hs⟩

/-- The first node is taken from the list. -/
theorem Queue.pop (h : Queue t base past (e :: work) s) : Queue t base (e.key :: past) work s := by
  have hperm : (work.map Expansion.key ++ e.key :: past).Perm ((e :: work).map Expansion.key ++ past) :=
    List.perm_middle
  exact ⟨hperm.nodup_iff.mpr h.nodup, fun k hk => h.new k (hperm.mem_iff.mp hk),
    fun k hk => h.seen k (hperm.mem_iff.mp hk), fun k hk => h.place k (hperm.mem_iff.mp hk), h.onward⟩

/-- A node that was not seen before is put on the list. -/
theorem Queue.push (h : Queue t base past work s) {k parent : Key} (hk : s.isUnseen k = true)
    (hplace : base.isDone k.fp = true ∧ k.point.toNat < t.size) (u : σ) :
    Queue t base past (⟨u, k⟩ :: work) (s.record k parent) := by
  have hnot : k ∉ work.map Expansion.key ++ past := by
    intro hmem
    rw [h.seen k hmem] at hk
    cases hk
  have hbase : base.isUnseen k = true := by
    by_contra hseen
    rw [h.onward.within k (Bool.eq_false_of_not_eq_true hseen)] at hk
    cases hk
  have hseen : (s.record k parent).isUnseen k = false := by simp
  have honward : Onward s (s.record k parent) := onward_record s k parent
  refine ⟨List.nodup_cons.mpr ⟨hnot, h.nodup⟩, ?_, ?_, ?_, h.onward.trans honward⟩
  · exact List.forall_mem_cons.mpr ⟨hbase, h.new⟩
  · exact List.forall_mem_cons.mpr ⟨hseen, (h.mono honward).seen⟩
  · exact List.forall_mem_cons.mpr ⟨hplace, h.place⟩

/-- There are no more nodes on the list than expanded states at points. -/
theorem Queue.length_le (h : Queue t base past work s) :
    work.length + past.length ≤ base.doneStates.length * t.size := by
  let place : Key → Fingerprint × Nat := fun k => (k.fp, k.point.toNat)
  have hinj : Function.Injective place := by
    intro k l hkl
    obtain ⟨hfp, hpoint⟩ := Prod.ext_iff.mp hkl
    cases k
    cases l
    exact congrArg₂ Key.mk hfp (UInt32.toNat_inj.mp hpoint)
  have hsub : (work.map Expansion.key ++ past).map place ⊆ base.doneStates ×ˢ List.range t.size := by
    intro x hx
    obtain ⟨k, hk, rfl⟩ := List.mem_map.mp hx
    obtain ⟨hdone, hpoint⟩ := h.place k hk
    exact List.mem_product.mpr ⟨Store.mem_doneStates.mpr hdone, List.mem_range.mpr hpoint⟩
  have hle := ((h.nodup.map hinj).subperm hsub).length_le
  rwa [List.length_map, List.length_append, List.length_map, List.length_product, List.length_range] at hle

/-! ### What keeps it -/

/-- A link whose target is put on the list if it is new and `wanted`. -/
theorem Queue.link (h : Queue t base past work b.store) (n : Node) (target : Key) (width : Nat) (row : Bits)
    (offset hint : Except Defect Nat) (origin : Key) (u : σ) (wanted : Bool)
    (hplace : wanted = true → base.isDone target.fp = true) (hpoint : target.point.toNat < t.size) :
    (Builder.link n target width row offset hint origin).Meets b
      (fun r b' => Queue t base past (if r.2 && wanted then ⟨u, target⟩ :: work else work) b'.store)
      (fun _ _ => True) := by
  refine meets_link (fun _ _ => h) (fun _ _ _ _ _ _ _ => ?_) fun _ _ _ => trivial
  split_ifs with hput
  · obtain ⟨hunseen, hwanted⟩ := Bool.and_eq_true_iff.mp hput
    exact h.push hunseen ⟨hplace hwanted, hpoint⟩ u
  · exact h.mono (onward_record _ _ _)

/-- A node is written, and the graph is drawn. -/
theorem write_onward (p : Property σ) (n : Node) :
    (onStore (fun s => s.addNode n) >>= fun _ => snapshot p).Meets b (fun _ b' => Onward b.store b'.store)
      (fun _ _ => True) := by
  refine (meets_onStore _).bind ?_
  intro _ b₁ hb₁
  refine (snapshot_frame p).mono ?_ fun _ _ _ => trivial
  intro _ b₂ hdrawn
  obtain ⟨d, hd⟩ := hdrawn
  rw [hd, hb₁]
  exact ⟨fun k hk => (Store.isUnseen_addNode b.store n k).trans (by simp [hk]), Store.isDone_addNode b.store n⟩

theorem keep_onward (p : Property σ) (n : Node) (before : Nat) (revisits : Bool) :
    (keep p n before revisits).Meets b (fun _ b' => Onward b.store b'.store) (fun _ _ => True) :=
  meets_keep (fun _ => write_onward p n.trim) fun _ _ _ => ⟨fun _ => .refl _, fun _ => trivial⟩

/-- The steps that stay in the state put new nodes of it on the list. -/
theorem Queue.stutter (p : Property σ) (hdone : base.isDone e.key.fp = true) (row : Bits) (total : Nat)
    (xs : List (UInt32 × Nat)) : ∀ (g : Growth σ) (b : Builder), Queue t base past g.2 b.store →
      (Builder.stutter p t e row total xs g).Meets b (fun r b' => Queue t base past r.1.2 b'.store)
        (fun _ _ => True) := by
  refine meets_stutter (P := fun _ g (b : Builder) => Queue t base past g.2 b.store)
    (fun _ _ _ _ _ _ _ _ => trivial) (fun _ _ _ h => h) (fun x _ tnode htnode _ _ n work b h => ?_) fun _ _ h => h
  refine (h.link n ⟨e.key.fp, x.1⟩ _ _ _ _ _ e.state true (fun _ => hdone) (Tableau.lt_size_of_node htnode)).imp ?_
  intro r b' hr
  rw [Bool.and_true] at hr
  exact ⟨fun _ => hr, fun _ => hr⟩

variable [ModelState σ] {g : Growth σ}

theorem Queue.nextStep (h : Queue t base past g.2 b.store) (batch : Batch σ) (used : Nat) (u : σ) (i : Nat)
    {done : Bool} (hdone : done = true → base.isDone (fingerprint u) = true) {point : UInt32}
    (hpoint : point.toNat < t.size) :
    (Builder.nextStep batch used u i done g point).Meets b (fun g' b' => Queue t base past g'.2 b'.store)
      (fun _ _ => True) :=
  meets_nextStep (fun _ => h.link g.1 ⟨fingerprint u, point⟩ _ _ _ _ g.1.key u done hdone hpoint) fun _ => h

theorem Queue.lateStep (h : Queue t base past g.2 b.store) (p : Property σ) (e : Expansion σ) (u : σ) (row : Bits)
    {done : Bool} (hdone : done = true → base.isDone (fingerprint u) = true) (room : Except Defect Nat)
    (point : UInt32) :
    (Builder.lateStep p t e u row done room g point).Meets b (fun g' b' => Queue t base past g'.2 b'.store)
      (fun _ _ => True) :=
  meets_lateStep (fun _ _ => trivial) (fun _ htnode _ => h.link g.1 ⟨fingerprint u, point⟩ _ _ _ _ e.key u done hdone
    (Tableau.lt_size_of_node htnode)) fun _ _ _ => h

/-- Expanding a node of the state puts new nodes on the list. -/
theorem Queue.expandPoint (h : Queue t base past work b.store) (p : Property σ) (batch : Batch σ) (fp : Fingerprint)
    (revisits : Bool) (x : UInt32 × Nat) :
    (Builder.expandPoint p t batch fp revisits work x).Meets b (fun work' b' => Queue t base past work' b'.store)
      (fun _ _ => True) := by
  refine meets_expandPoint (fun _ _ => trivial) (fun _ _ => trivial) fun tnode n htnode _ => ?_
  refine (Change.meets_foldlM_mem (P := fun (g : Growth σ) (b : Builder) => Queue t base past g.2 b.store)
    (fun y _ g b hg => ?_) _ b h).imp ?_
  · refine meets_nextSteps (Change.meets_foldlM_mem
      (P := fun (g : Growth σ) (b : Builder) => Queue t base past g.2 b.store) (fun point hpoint g b' hg' => ?_) g b hg)
    exact hg'.nextStep batch _ y.1 y.2 (fun hdone => (hg.onward.done_eq _).symm.trans hdone)
      (Tableau.lt_size_of_mem_successors htnode hpoint)
  · intro g b' hg
    exact (keep_onward p g.1 n.degree revisits).imp fun _ b'' honward => hg.mono honward

/-- **An expansion puts only new nodes on the list.** -/
theorem Queue.expandOne (h : Queue t base past (e :: work) b.store) (p : Property σ) (m : Model σ) :
    (Builder.expandOne p m t e work).Meets b
      (fun r b' => ∀ work', r = .ok work' → Queue t base (e.key :: past) work' b'.store) (fun _ _ => True) := by
  have hdone := (h.place e.key (by simp)).1
  refine meets_expandOne (fun _ _ => trivial) (fun _ _ => trivial) fun tnode n htnode _ => ?_
  refine (Queue.stutter p hdone _ _ _ (n.setState (p.stateBits e.state), work) b h.pop).imp ?_
  intro r b' hg
  refine ⟨fun _ => ⟨fun _ work' hwork' => (by cases hwork'), fun _ work' hwork' => (by cases hwork')⟩, fun _ => ?_⟩
  refine (Change.meets_foldlM_mem (P := fun (g : Growth σ) (b : Builder) => Queue t base (e.key :: past) g.2 b.store)
    (fun y _ g b hg => ?_) r.1 b' hg).imp ?_
  · obtain ⟨u, i⟩ := y
    refine meets_lateSteps (Change.meets_foldlM_mem
      (P := fun (g : Growth σ) (b : Builder) => Queue t base (e.key :: past) g.2 b.store)
      (fun x _ g b' hg' => ?_) g b hg)
    exact hg'.lateStep p e u _ (fun hdone => (hg.onward.done_eq _).symm.trans hdone) _ x.1
  · intro g b'' hg
    refine ⟨fun _ => (write_onward p g.1.trim).imp ?_, fun _ work' hwork' => ?_⟩
    · intro _ b₃ honward work' hwork'
      obtain rfl := Except.ok.inj hwork'
      exact hg.mono honward
    · obtain rfl := Except.ok.inj hwork'
      exact hg

/-! ### The loop -/

/-- The loop over the list without a bound: the nodes that it takes from the list, in this
order, and what it comes to. -/
inductive Unrolls (p : Property σ) (m : Model σ) (t : Tableau σ) :
    List (Expansion σ) → Builder → List Key → Outcome (Option Key) × Builder → Prop where
  /-- The list is empty. -/
  | empty (b : Builder) : Unrolls p m t [] b [] (.ok none, b)
  /-- The expansion fails. -/
  | fault {e : Expansion σ} {work : List (Expansion σ)} {b b' : Builder} {f : Fault} :
    expandOne p m t e work b = (.error f, b') → Unrolls p m t (e :: work) b [e.key] (.error f, b')
  /-- The node shows a violation. -/
  | violation {e : Expansion σ} {work : List (Expansion σ)} {b b' : Builder} {k : Key} :
    expandOne p m t e work b = (.ok (.error k), b') → Unrolls p m t (e :: work) b [e.key] (.ok (some k), b')
  /-- The loop goes on with the list that is left. -/
  | turn {e : Expansion σ} {work work' : List (Expansion σ)} {b b' : Builder} {ks : List Key}
    {r : Outcome (Option Key) × Builder} : expandOne p m t e work b = (.ok (.ok work'), b') →
    Unrolls p m t work' b' ks r → Unrolls p m t (e :: work) b (e.key :: ks) r

/-- With enough fuel the bound does not show. -/
theorem Unrolls.expandAll_eq {ks : List Key} {r : Outcome (Option Key) × Builder} (h : Unrolls p m t work b ks r) :
    ∀ fuel, ks.length ≤ fuel → expandAll p m t fuel work b = r := by
  induction h with
  | empty b =>
    intro fuel _
    cases fuel <;> rfl
  | @fault e work b b' f hone =>
    intro fuel hfuel
    obtain ⟨fuel, rfl⟩ := Nat.exists_eq_succ_of_ne_zero (Nat.ne_of_gt hfuel)
    rw [expandAll, Change.bind_apply, hone]
  | @violation e work b b' k hone =>
    intro fuel hfuel
    obtain ⟨fuel, rfl⟩ := Nat.exists_eq_succ_of_ne_zero (Nat.ne_of_gt hfuel)
    rw [expandAll, Change.bind_apply, hone]
    rfl
  | @turn e work work' b b' ks r hone _ ih =>
    intro fuel hfuel
    rw [List.length_cons] at hfuel
    obtain ⟨fuel, rfl⟩ := Nat.exists_eq_succ_of_ne_zero (Nat.ne_of_gt (Nat.zero_lt_of_lt hfuel))
    rw [expandAll, Change.bind_apply, hone]
    exact ih fuel (Nat.le_of_succ_le_succ hfuel)

/-- **The loop keeps the list**: what it takes from the list stays different from what comes. -/
theorem Unrolls.exists_queue {ks : List Key} {r : Outcome (Option Key) × Builder} (h : Unrolls p m t work b ks r) :
    ∀ past, Queue t base past work b.store → ∃ work' s, Queue t base (ks.reverse ++ past) work' s := by
  induction h with
  | empty b => exact fun past hqueue => ⟨[], b.store, hqueue⟩
  | @fault e work b => exact fun past hqueue => ⟨work, b.store, hqueue.pop⟩
  | @violation e work b => exact fun past hqueue => ⟨work, b.store, hqueue.pop⟩
  | @turn e work work' b b' ks r hone _ ih =>
    intro past hqueue
    have hqueue' := (hqueue.expandOne p m).of_ok hone work' rfl
    rw [List.reverse_cons, List.append_assoc]
    exact ih (e.key :: past) hqueue'

/-- **The loop ends**: each turn takes one of finitely many nodes from the list, and none comes
back. -/
theorem Queue.exists_unrolls (p : Property σ) (m : Model σ) (room : Nat) :
    ∀ {past work b}, Queue t base past work b.store →
    base.doneStates.length * t.size ≤ past.length + room → ∃ ks r, Unrolls p m t work b ks r := by
  induction room with
  | zero =>
    intro past work b hqueue hroom
    cases work with
    | nil => exact ⟨[], _, .empty b⟩
    | cons e work =>
      have hle := hqueue.length_le
      rw [List.length_cons] at hle
      omega
  | succ room ih =>
    intro past work b hqueue hroom
    cases work with
    | nil => exact ⟨[], _, .empty b⟩
    | cons e work =>
      rcases hone : Builder.expandOne p m t e work b with ⟨f | k | work', b'⟩
      · exact ⟨[e.key], _, .fault hone⟩
      · exact ⟨[e.key], _, .violation hone⟩
      · have hqueue' := (hqueue.expandOne p m).of_ok hone work' rfl
        obtain ⟨ks, r, hrest⟩ := ih hqueue' (by rw [List.length_cons]; omega)
        exact ⟨e.key :: ks, r, .turn hone hrest⟩

/-! ### Calls -/

theorem expandState_queue (p : Property σ) (t : Tableau σ) (fp : Fingerprint) (successors : List σ)
    (checks : StepChecks) (revisits : Bool) :
    (expandState p t fp successors checks revisits).Meets b
      (fun work b' => Queue t (b.store.setDone fp) [] work b'.store) (fun _ _ => True) :=
  meets_expandState (fun _ _ => trivial) fun _ _ => Change.meets_foldlM_mem
    (P := fun work (b' : Builder) => Queue t (b.store.setDone fp) [] work b'.store)
    (fun x _ _ _ h => h.expandPoint p _ fp revisits x) [] _ (.empty t _)

/-- **Late expansion ends, and expands each node once.** A call expands the nodes of its state
and then runs the loop over those that turned up late. Whatever the graph holds and however
far the model goes on, this loop ends, without its bound as well as with it. The nodes that it
takes from the list are all different and none was seen before the call; each is of a state
marked as expanded and at a point of the tableau, so that there are no more of them than such
pairs. -/
theorem late_expansions_end (ht : p.tableau = some t) (m : Model σ) (fp : Fingerprint) (successors : List σ)
    (checks : StepChecks) (revisits : Bool) (b : Builder) :
    addNext p m fp successors checks revisits =
        (expandState p t fp successors checks revisits >>= fun work => expandLate p m t work >>= answer) ∧
      ∀ work b', expandState p t fp successors checks revisits b = (.ok work, b') →
        (∃ ks r, Unrolls p m t work b' ks r) ∧
        ∀ ks r, Unrolls p m t work b' ks r →
          expandLate p m t work b' = r ∧ ks.Nodup ∧
            (∀ k ∈ ks, b.store.isUnseen k = true ∧ (b.store.setDone fp).isDone k.fp = true ∧ k.point.toNat < t.size) ∧
            ks.length ≤ (b.store.setDone fp).doneStates.length * t.size := by
  constructor
  · rw [addNext, ht]
    exact addProduct_eq p m t fp successors checks revisits
  intro work b' hstate
  have hqueue : Queue t (b.store.setDone fp) [] work b'.store :=
    (expandState_queue p t fp successors checks revisits).of_ok hstate
  refine ⟨hqueue.exists_unrolls p m _ (Nat.le_add_left _ _), ?_⟩
  intro ks r hrun
  obtain ⟨work', s, hend⟩ := hrun.exists_queue [] hqueue
  rw [List.append_nil] at hend
  have hpast : ∀ k ∈ ks, k ∈ work'.map Expansion.key ++ ks.reverse := fun k hk => by simp [hk]
  have hlen : ks.length ≤ (b.store.setDone fp).doneStates.length * t.size := by
    have hle := hend.length_le
    rw [List.length_reverse] at hle
    omega
  refine ⟨?_, List.nodup_reverse.mp (List.nodup_append.mp hend.nodup).2.1, fun k hk => ?_, hlen⟩
  · have hfuel : ks.length ≤ b'.store.table.size * t.size :=
      hlen.trans (Nat.mul_le_mul_right _ (Store.length_doneStates_le hqueue.onward.done_eq))
    exact hrun.expandAll_eq _ hfuel
  · have hnew := hend.new k (hpast k hk)
    rw [Store.isUnseen_setDone] at hnew
    exact ⟨hnew, hend.place k (hpast k hk)⟩

end Builder

/-- A clock that goes on for ever. -/
structure Clock where
  /-- The ticks so far. -/
  ticks : Nat

instance : ModelState Clock := ⟨fun c => .ofNat c.ticks, fun c => toString c.ticks⟩

/-- The clock ticks. -/
def Clock.model : Model Clock where
  initial := [⟨0⟩]
  next := fun c => [⟨c.ticks + 1⟩]

/-- A tableau that moves on once, at any time. -/
def Clock.tableau : Tableau Clock :=
  (Tableau.ofNodes [⟨0, [0, 1], false, fun _ => true⟩, ⟨1, [1], false, fun _ => true⟩] 1).toOption.get (by decide)

/-- A property of the clock that nothing violates. -/
def Clock.property : Property Clock := { name := "clock", tableau := some Clock.tableau }

namespace Builder

/-- The clock's first ticks were expanded before they were reached. -/
def lateClock : Builder :=
  let start : Builder := { store := addInitial Clock.property ⟨0⟩ 0 { folder := "", index := 0 } }
  let second := (addNext Clock.property Clock.model 2 [⟨3⟩] ⟨.empty, .empty, 0⟩ false start).2
  (addNext Clock.property Clock.model 1 [⟨2⟩] ⟨.empty, .empty, 0⟩ false second).2

theorem late_expansions_end_clock : ∃ work b' ks r,
    expandState Clock.property Clock.tableau 0 [⟨1⟩] ⟨.empty, .empty, 0⟩ false lateClock = (.ok work, b') ∧
      work.map Expansion.key = [⟨1, 1⟩, ⟨1, 0⟩] ∧ Unrolls Clock.property Clock.model Clock.tableau work b' ks r ∧
      ks.Nodup ∧ ks.length ≤ 6 := by
  have hwork : (expandState Clock.property Clock.tableau 0 [⟨1⟩] ⟨.empty, .empty, 0⟩ false lateClock).1.toOption.map
      (fun work => work.map Expansion.key) = some [⟨1, 1⟩, ⟨1, 0⟩] := by decide +kernel
  have hcount : (lateClock.store.setDone 0).doneStates.length * Clock.tableau.size = 6 := by decide +kernel
  rcases hstate : expandState Clock.property Clock.tableau 0 [⟨1⟩] ⟨.empty, .empty, 0⟩ false lateClock with
    ⟨f | work, b'⟩
  · rw [hstate] at hwork
    cases hwork
  · rw [hstate] at hwork
    obtain ⟨⟨ks, r, hrun⟩, hall⟩ := (late_expansions_end (p := Clock.property) rfl Clock.model 0 [⟨1⟩]
      ⟨.empty, .empty, 0⟩ false lateClock).2 work b' hstate
    obtain ⟨-, hnodup, -, hlen⟩ := hall ks r hrun
    exact ⟨work, b', ks, r, rfl, Option.some.inj hwork, hrun, hnodup, hcount ▸ hlen⟩

end Builder

end Liveness

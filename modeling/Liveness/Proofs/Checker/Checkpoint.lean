import Liveness.Proofs.Store.Rollback
import Liveness.Proofs.Checker.Calls
import Liveness.Proofs.Monitor.Calls

/-!
# Checkpoints of several graphs

The checker has a checkpoint file for the graph of every property. A checkpoint of the checker
is begun and committed property by property, and nothing ties the files together. So if the
process stops in the midst of a commit, the graphs that are recovered may be those of two
checkpoints (`Checker.recover_stopAfter_mixed`).

Each graph is the one of either checkpoint, and it is known which: the properties whose
commits were done have the graph of the later one, the others that of the earlier one
(`Checker.recover_stopAfter`). All graphs are those of one checkpoint if no commit was done, or all.
-/

namespace Liveness

/-! ### One graph -/

namespace Store

variable {s s' g r : Store} {o : RowOrder} {P Q : Act → Prop}

/-- The act changes the graph or its drawings. -/
def Act.Works : Act → Prop
  | .edit _ | .draw _ => True
  | _ => False

/-- The act does not cut the log. -/
def Act.Appends : Act → Prop
  | .reset | .recover | .reopen => False
  | _ => True

/-- The act leaves the checkpoint and its draft alone. -/
def Act.Spares : Act → Prop
  | .begin _ | .commit => False
  | _ => True

theorem Act.Works.appends {a : Act} (h : a.Works) : a.Appends := by
  cases a <;> trivial

theorem Act.Works.spares {a : Act} (h : a.Works) : a.Spares := by
  cases a <;> trivial

/-- By acts of a kind. -/
def Via (P : Act → Prop) : Store → Store → Prop := Relation.ReflTransGen fun s s' => ∃ a, P a ∧ s' = s.act a

theorem Via.refl (s : Store) : Via P s s := Relation.ReflTransGen.refl

theorem Via.act {a : Act} (ha : P a) (s : Store) : Via P s (s.act a) := .single ⟨a, ha, rfl⟩

theorem Via.trans {s₁ s₂ s₃ : Store} (h : Via P s₁ s₂) (h' : Via P s₂ s₃) : Via P s₁ s₃ :=
  Relation.ReflTransGen.trans h h'

theorem Via.mono (h : Via P s s') (hPQ : ∀ a, P a → Q a) : Via Q s s' :=
  Relation.ReflTransGen.mono (fun _ _ ⟨a, ha, hs⟩ => ⟨a, hPQ a ha, hs⟩) _ _ h

theorem Via.arises (h : Via P s s') (hs : s.Arises) : s'.Arises := by
  induction h with
  | refl => exact hs
  | tail _ hlast ih =>
    obtain ⟨a, -, rfl⟩ := hlast
    exact ih.act a

/-- The log goes on where it was. -/
theorem Via.log (h : Via Act.Appends s s') (hs : s.Arises) : s.log.file.toList <+: s'.log.file.toList := by
  induction h with
  | refl => exact List.prefix_rfl
  | @tail s₁ s₂ hfirst hlast ih =>
    obtain ⟨a, ha, rfl⟩ := hlast
    have hwhole := (Via.arises hfirst hs).anchored.whole
    refine ih.trans ?_
    cases a with
    | edit e => exact (grows_edit hwhole e).log
    | draw drawings => exact List.prefix_rfl
    | begin o => exact log_begin o s₁ ▸ List.prefix_rfl
    | commit => exact log_commit s₁ ▸ List.prefix_rfl
    | reset | recover | reopen => cases ha

theorem checkpoint_begin (o : RowOrder) (s : Store) : (begin o s).2.checkpoint = s.checkpoint := by
  rw [begin_apply]
  split <;> rfl

theorem files_recover (s : Store) :
    (Store.recover s).2.checkpoint = s.checkpoint ∧ (Store.recover s).2.draft = s.draft := by
  rw [recover_apply]
  split <;> exact ⟨rfl, rfl⟩

/-- Only a commit replaces the checkpoint. -/
theorem Via.checkpoint (h : Via (· ≠ .commit) s s') (hs : s.Arises) : s'.checkpoint = s.checkpoint := by
  induction h with
  | refl => rfl
  | @tail s₁ s₂ hfirst hlast ih =>
    obtain ⟨a, ha, rfl⟩ := hlast
    rw [← ih]
    cases a with
    | edit e => exact (grows_edit (Via.arises hfirst hs).anchored.whole e).checkpoint
    | reset | draw | reopen => rfl
    | begin o => exact checkpoint_begin o s₁
    | commit => exact absurd rfl ha
    | recover => exact (files_recover s₁).1

/-- Only to begin and to commit a checkpoint changes the draft. -/
theorem Via.draft (h : Via Act.Spares s s') : s'.draft = s.draft := by
  induction h with
  | refl => rfl
  | @tail s₁ s₂ _ hlast ih =>
    obtain ⟨a, ha, rfl⟩ := hlast
    rw [← ih]
    cases a with
    | edit e => exact draft_edit s₁ e
    | reset | draw | reopen => rfl
    | begin | commit => cases ha
    | recover => exact (files_recover s₁).2

theorem begin_eq_ok (h : begin o g = (.ok (), s)) :
    s.log = g.log ∧ s.checkpoint = g.checkpoint ∧ s.draft = .file (g.snapshot o).encode.toArray := by
  rw [begin_apply] at h
  split at h
  · cases (Prod.mk.inj h).1
  · obtain rfl := (Prod.mk.inj h).2
    exact ⟨rfl, rfl, rfl⟩

theorem commit_eq_ok {bytes : Bytes} (hdraft : s.draft = .file bytes) (h : commit s = (.ok (), s')) :
    s'.log = s.log ∧ s'.checkpoint = .file bytes := by
  rw [commit_apply, hdraft] at h
  split at h
  · cases (Prod.mk.inj h).1
  · cases (Prod.mk.inj h).1
  · cases (Prod.mk.inj h).1
  · obtain rfl := (Prod.mk.inj h).2
    exact ⟨rfl, rfl⟩

/-- A commit that fails leaves the files as they are. -/
theorem commit_of_error {f : Fault} (h : commit s = (.error f, s')) : s' = s := by
  rw [commit_apply] at h
  split at h
  · exact (Prod.mk.inj h).2.symm
  · exact (Prod.mk.inj h).2.symm
  · exact (Prod.mk.inj h).2.symm
  · cases (Prod.mk.inj h).1

/-- A checkpoint of the graph `g` was begun and committed, and none was committed after it. -/
structure Checkpointed (g s : Store) : Prop where
  arises : s.Arises
  checkpoint : ∃ o, s.checkpoint = .file (g.snapshot o).encode.toArray

theorem checkpointed_of_commit (hg : g.Arises) {drafted s₁ committed : Store} (hbegin : begin o g = (.ok (), drafted))
    (hfirst : Via Act.Spares drafted s₁) (hcommit : commit s₁ = (.ok (), committed))
    (hlast : Via (· ≠ .commit) committed s) : Checkpointed g s := by
  have hdrafted : drafted.Arises := by simpa [hbegin] using hg.begin o
  have hdraft : s₁.draft = .file (g.snapshot o).encode.toArray := hfirst.draft.trans (begin_eq_ok hbegin).2.2
  have hcommitted : committed.Arises := by simpa [hcommit] using (hfirst.arises hdrafted).commit
  exact ⟨hlast.arises hcommitted, o, (hlast.checkpoint hcommitted).trans (commit_eq_ok hdraft hcommit).2⟩

/-- The log goes on where it was when the checkpoint was begun. -/
theorem isPrefix_of_commit (hg : g.Arises) {drafted s₁ committed : Store} (hbegin : begin o g = (.ok (), drafted))
    (hfirst : Via Act.Appends drafted s₁) (hcommit : commit s₁ = (.ok (), committed))
    (hlast : Via Act.Appends committed s) : g.log.file.toList <+: s.log.file.toList := by
  have hdrafted : drafted.Arises := by simpa [hbegin] using hg.begin o
  have hcommitted : committed.Arises := by simpa [hcommit] using (hfirst.arises hdrafted).commit
  have hlog : committed.log = s₁.log := by simpa [hcommit] using log_commit s₁
  rw [← (begin_eq_ok hbegin).1]
  exact (hfirst.log hdrafted).trans (hlog ▸ hlast.log hcommitted)

/-- A recovered store: what it holds of the graph `g` if its log has become `file`. -/
structure Restored (g : Store) (file : File) (r : Store) : Prop where
  table : r.table = g.table
  roots : r.roots = g.roots
  size : r.size = g.size
  baseline : r.baseline = g.baseline
  sameGraph_iff : r.SameGraph g ↔ g.log.file.toList <+: file.toList

theorem restored_of_recover (hg : g.Arises) (hcount : g.Countable) {file : File}
    (hcheckpoint : s.checkpoint = .file (g.snapshot o).encode.toArray)
    (hrecover : Store.recover (s.reopenOn file) = (.ok (), r)) : Restored g file r := by
  have hload := loadCheckpoint_snapshot (s := s.reopenOn file) hg.anchored hcount hcheckpoint
  rw [recover_apply, hload] at hrecover
  split_ifs at hrecover with hlen
  · cases (Prod.mk.inj hrecover).1
  · obtain rfl := (Prod.mk.inj hrecover).2
    exact ⟨table_snapshot o g, rfl, rfl, rfl, sameGraph_restore_iff o hg.anchored rfl (Nat.not_lt.mp hlen)⟩

/-- Of two checkpoints the later one is recovered if it was committed, and otherwise the earlier one. -/
theorem Checkpointed.restored {g' drafted : Store} (h : Checkpointed g g') (hg : g.Arises) (hcount : g.Countable)
    (hcount' : g'.Countable) (hbegin : begin o g' = (.ok (), drafted)) (hafter : Via Act.Spares drafted s)
    {done : Prop} [Decidable done] {file : File}
    (hrecover : Store.recover ((if done then (commit s).2 else s).reopenOn file) = (.ok (), r)) :
    Restored (if done then g' else g) file r := by
  obtain ⟨-, hcheckpoint, hdraft⟩ := begin_eq_ok hbegin
  have hdrafted : drafted.Arises := by simpa [hbegin] using h.arises.begin o
  have hspares : ∀ a : Act, a.Spares → a ≠ .commit := by
    rintro a ha rfl
    exact ha
  obtain ⟨o', hearlier⟩ := h.checkpoint
  have hs : s.checkpoint = .file (g.snapshot o').encode.toArray := by
    rw [(hafter.mono hspares).checkpoint hdrafted, hcheckpoint, hearlier]
  split_ifs at hrecover ⊢ with hdone
  · have hcommit := commit_of_file (hafter.draft.trans hdraft) (by rw [hs]; exact fun h => by cases h)
    rw [hcommit] at hrecover
    exact restored_of_recover h.arises hcount' rfl hrecover
  · exact restored_of_recover hg hcount hs hrecover

/-- The numbers of a store, as they can be counted. -/
theorem countable_of_rows (h : s.roots.length < 2 ^ 32 ∧ (∀ e ∈ s.table.toList, e.2.slots.length < 2 ^ 32) ∧
    s.table.size < 2 ^ 64 ∧ s.log.len < 2 ^ 64) : s.Countable := by
  obtain ⟨hroots, hrows, hstates, hlog⟩ := h
  refine ⟨hroots, fun fp => ?_, hstates, hlog⟩
  rw [Store.pointsAt, Table.row, Std.ExtTreeMap.getD_eq_getD_getElem?]
  cases hrow : s.table[fp]? with
  | none => simp [Row.points]
  | some row =>
    have hmem : (fp, row) ∈ s.table.toList := Std.ExtTreeMap.mem_toList_iff_getElem?_eq_some.mpr hrow
    simpa [Row.points] using hrows _ hmem

end Store

variable {σ : Type} [ModelState σ]

/-! ### One expansion -/

namespace Builder

variable {p : Property σ} {o : Offer σ} {k origin : Key} {m : Model σ} {fp : Fingerprint} {successors : List σ}
  {checks : StepChecks} {s s' : Store} {n n' : Node}

theorem Links.via (h : Links p o k origin s n s' n') : Store.Via Store.Act.Works s s' := by
  induction h with
  | refl => exact .refl s
  | @link s' n' n'' e _ _ ih => exact ih.trans (.act (a := .edit (.record e.target origin)) trivial s')

theorem Evolves.via (h : Evolves p m fp successors checks s s') : Store.Via Store.Act.Works s s' := by
  induction h with
  | refl => exact .refl s
  | @tail s₁ s₂ _ hlast ih =>
    refine ih.trans ?_
    cases hlast with
    | setDone => exact .act (a := .edit (.setDone fp)) trivial s₁
    | draw d => exact .act (a := .draw d) trivial s₁
    | @expand s₂ k origin n n' o _ _ _ hlinks =>
      exact hlinks.via.trans (.act (a := .edit (.addNode n'.trim)) trivial s₂)

end Builder

namespace Monitor

variable {P Q : Store.Act → Prop} {w w' : Monitor σ} {m : Model σ} {s : σ} {fp : Fingerprint} {successors : List σ}
  {revisits : Bool}

/-- The monitor of a property has become another one of it, by acts of a kind on its graph. -/
structure Via (P : Store.Act → Prop) (w w' : Monitor σ) : Prop where
  property : w'.property = w.property
  store : Store.Via P w.store w'.store

omit [ModelState σ] in
theorem Via.refl (w : Monitor σ) : Via P w w := ⟨rfl, .refl _⟩

omit [ModelState σ] in
theorem Via.trans {w₁ w₂ w₃ : Monitor σ} (h : Via P w₁ w₂) (h' : Via P w₂ w₃) : Via P w₁ w₃ :=
  ⟨h'.property.trans h.property, h.store.trans h'.store⟩

omit [ModelState σ] in
theorem Via.mono (h : Via P w w') (hPQ : ∀ a, P a → Q a) : Via Q w w' := ⟨h.property, h.store.mono hPQ⟩

omit [ModelState σ] in
theorem commit_of_error {f : Fault} (h : change Store.commit w = (.error f, w')) : w' = w := by
  obtain ⟨hresult, rfl⟩ := Prod.mk.inj h
  have hstore : (Store.commit w.store).2 = w.store := Store.commit_of_error (Change.eq_of_fst hresult)
  change (⟨w.property, { w.builder with store := (Store.commit w.store).2 }⟩ : Monitor σ) = w
  rw [hstore]
  rfl

omit [ModelState σ] in
theorem addInitial_via (s : σ) (fp : Fingerprint) (w : Monitor σ) : Via Store.Act.Works w (w.addInitial s fp) := by
  refine ⟨rfl, ?_⟩
  rw [store_addInitial]
  exact List.foldlRecOn _ _ (.refl _) fun s hs k _ => hs.trans (.act (a := .edit (.addRoot k)) trivial s)

theorem addNext_via {r : Outcome (Option Lasso)} (h : addNext m s fp successors revisits w = (r, w'))
    (hr : ∀ f, r = .error f → ¬ f.IsDefect) : Via Store.Act.Works w w' := by
  rw [addNext_apply] at h
  split at h
  · obtain ⟨hp, hevolves⟩ := addChecked_evolves h hr
    exact ⟨hp, hevolves.via⟩
  · exact absurd trivial (hr _ (Prod.mk.inj h).1.symm)

end Monitor

/-! ### All graphs -/

namespace Checker

variable {P Q : Store.Act → Prop} {c c' : Checker σ} {m : Model σ}

/-- Each monitor has become another one of its property, by acts of a kind on its graph. -/
def Via (P : Store.Act → Prop) (c c' : Checker σ) : Prop := List.Forall₂ (Monitor.Via P) c.monitors c'.monitors

omit [ModelState σ]

theorem Via.refl (c : Checker σ) : Via P c c := List.forall₂_same.mpr fun w _ => .refl w

theorem Via.of_eq (h : c'.monitors = c.monitors) : Via P c c' := by
  rw [Via, h]
  exact Via.refl c

theorem Via.trans {c₁ c₂ c₃ : Checker σ} (h : Via P c₁ c₂) (h' : Via P c₂ c₃) : Via P c₁ c₃ :=
  forall₂_trans h h' fun _ _ _ => .trans

theorem Via.mono (h : Via P c c') (hPQ : ∀ a, P a → Q a) : Via Q c c' := h.imp fun _ _ hw => hw.mono hPQ

theorem Via.map (c : Checker σ) {f : Monitor σ → Monitor σ} (hf : ∀ w, Monitor.Via P w (f w)) :
    Via P c { c with monitors := c.monitors.map f } :=
  List.forall₂_map_right_iff.mpr (List.forall₂_same.mpr fun w _ => hf w)

/-- A change of the monitors in turn, up to the first fault. -/
theorem Via.each {f : Change (Monitor σ) Unit} (hf : ∀ w, Monitor.Via P w (f w).2) (c : Checker σ) :
    Via P c (Checker.each f c).2 := by
  change List.Forall₂ (Monitor.Via P) c.monitors (eachOf f c.monitors).2
  induction c.monitors with
  | nil => exact .nil
  | cons w ws ih =>
    have hw := hf w
    rw [eachOf]
    split
    · rename_i heq
      rw [heq] at hw
      exact .cons hw ih
    · rename_i heq
      rw [heq] at hw
      exact .cons hw (List.forall₂_same.mpr fun w _ => .refl w)

/-- All monitors were changed if there was no fault. -/
theorem forall₂_of_each {f : Change (Monitor σ) Unit} (h : Checker.each f c = (.ok (), c')) :
    List.Forall₂ (fun w w' => f w = (.ok (), w')) c.monitors c'.monitors := by
  obtain ⟨hresult, rfl⟩ := Prod.mk.inj h
  change List.Forall₂ _ c.monitors (eachOf f c.monitors).2
  revert hresult
  induction c.monitors with
  | nil => exact fun _ => .nil
  | cons w ws ih =>
    rw [eachOf]
    rcases hw : f w with ⟨e | _, w'⟩
    · exact fun hresult => by cases hresult
    · exact fun hresult => .cons hw (ih hresult)

/-- The monitors that a call came to were changed, and the others not. -/
theorem via_addSteps {f : Change (Monitor σ) (Option Lasso)}
    (hf : ∀ w r w', f w = (r, w') → (∀ e, r = .error e → ¬ e.IsDefect) → Monitor.Via P w w') (ws : List (Monitor σ))
    (hfound : ∀ e, (addSteps f ws).1 = .error e → ¬ e.IsDefect) :
    List.Forall₂ (Monitor.Via P) ws (addSteps f ws).2 := by
  induction ws with
  | nil => exact .nil
  | cons w ws ih =>
    have hrest : List.Forall₂ (Monitor.Via P) ws ws := List.forall₂_same.mpr fun w _ => .refl w
    rw [addSteps] at hfound ⊢
    rcases hw : f w with ⟨e | _ | lasso, w'⟩
    · rw [hw] at hfound
      exact .cons (hf w _ _ hw fun e' he => hfound e' (by rw [Except.error.inj he])) hrest
    · rw [hw] at hfound
      exact .cons (hf w _ _ hw fun e he => by cases he) (ih hfound)
    · exact .cons (hf w _ _ hw fun e he => by cases he) hrest

theorem Via.gather (c : Checker σ) : Via P c (Checker.gather c) :=
  Via.map c fun _ => ⟨rfl, .refl _⟩

/-- Unless it ends with a defect, the call changes the monitors by acts of a kind. -/
def Moves (P : Store.Act → Prop) {α : Type} (f : Change (Checker σ) α) : Prop :=
  ∀ c, f.Meets c (fun _ c' => Via P c c') fun e c' => e.IsDefect ∨ Via P c c'

theorem Moves.bind {α β : Type} {f : Change (Checker σ) α} {g : α → Change (Checker σ) β} (hf : Moves P f)
    (hg : ∀ a, Moves P (g a)) : Moves P (f >>= g) := by
  intro c
  refine (hf c).bind fun a c' hc' => (hg a c').mono ?_ ?_
  · exact fun _ _ h => hc'.trans h
  · exact fun _ _ h => h.imp_right hc'.trans

theorem Moves.pure {α : Type} (a : α) : Moves P (Pure.pure a : Change (Checker σ) α) := fun c => .refl c

theorem Moves.throw {α : Type} (f : Fault) : Moves P (throw f : Change (Checker σ) α) := fun c => .inr (.refl c)

theorem Moves.lift {α : Type} (r : Outcome α) : Moves P (Outcome.lift r : Change (Checker σ) α) := fun c =>
  Change.Meets.lift (fun _ _ => .refl c) fun _ _ => .inr (.refl c)

theorem Moves.of_modify {f : Checker σ → Checker σ} (hf : ∀ c, Via P c (f c)) : Moves P (modify f) := hf

theorem Moves.forM {ι : Type} {f : ι → Change (Checker σ) Unit} (hf : ∀ x, Moves P (f x)) (xs : List ι) :
    Moves P (xs.forM f) := by
  induction xs with
  | nil => exact .pure ()
  | cons x xs ih => exact (hf x).bind fun _ => ih

theorem Moves.mono {α : Type} {f : Change (Checker σ) α} (h : Moves P f) (hPQ : ∀ a, P a → Q a) : Moves Q f := by
  intro c
  refine (h c).mono ?_ ?_
  · exact fun _ _ hc' => hc'.mono hPQ
  · exact fun _ _ hc' => hc'.imp_right (·.mono hPQ)

theorem Moves.each {f : Change (Monitor σ) Unit} (hf : ∀ w, Monitor.Via P w (f w).2) : Moves P (Checker.each f) := by
  intro c
  have h := Via.each hf c
  unfold Change.Meets
  split
  · rename_i heq
    rwa [heq] at h
  · rename_i heq
    rw [heq] at h
    exact .inr h

theorem Moves.checkWith (resolve : Resolver σ) : Moves Store.Act.Works (Checker.checkWith resolve) := by
  intro c
  refine (checkWith_spec resolve).mono ?_ ?_
  · rintro r c' ⟨-, ⟨-, -, -, hmonitors⟩ | ⟨_, _, _, -, -, -, hmonitors⟩⟩
    · rw [Checker.Via, hmonitors]
      exact Via.map c fun w => ⟨rfl, .act (a := .edit .markChecked) trivial w.store⟩
    · exact .of_eq hmonitors
  · rintro f c' ⟨rfl, -⟩
    exact .inr (.refl c')

end Checker

namespace Checker

variable {P Q : Store.Act → Prop} {c c' : Checker σ} {m : Model σ}

theorem Moves.addNextWith (m : Model σ) (resolve : Resolver σ) (s : σ) (fp : Fingerprint) (successors : List σ)
    (revisits : Bool) : Moves Store.Act.Works (Checker.addNextWith m resolve s fp successors revisits) := by
  intro c
  have hsteps := via_addSteps (P := Store.Act.Works) (f := Monitor.addNext m s fp successors revisits)
    (fun w r w' => Monitor.addNext_via) c.monitors
  have hgather : ∀ {ws : List (Monitor σ)} {c' : Checker σ}, List.Forall₂ (Monitor.Via Store.Act.Works) c.monitors ws →
      c'.monitors = (Checker.gather { c with monitors := ws }).monitors → Via Store.Act.Works c c' := by
    intro ws c' hws hc'
    have hfirst : Via Store.Act.Works c { c with monitors := ws } := hws
    exact (hfirst.trans (Via.gather _)).trans (.of_eq hc')
  refine (addNextWith_spec resolve).mono ?_ ?_
  · rintro _ c' ⟨ws, hws, -, hmonitors⟩
    rw [hws] at hsteps
    exact hgather (hsteps fun e he => by cases he) hmonitors
  · rintro f c' ⟨found, ws, hws, -, hmonitors, hfault⟩
    rw [hws] at hsteps
    rw [or_iff_not_imp_left]
    intro hf
    refine hgather (hsteps ?_) hmonitors
    rintro e rfl
    rcases hfault with he | ⟨_, _, he, -⟩
    · rwa [Except.error.inj he]
    · cases he

theorem Moves.checkTraceHere (m : Model σ) (first : σ) (trace : List σ) :
    Moves Store.Act.Works (Checker.checkTraceHere m first trace) := by
  have hinitial : Moves Store.Act.Works (modify (addInitial first (fingerprint first))) :=
    Moves.of_modify fun c => Via.map c fun w => Monitor.addInitial_via first (fingerprint first) w
  unfold Checker.checkTraceHere
  refine hinitial.bind fun _ => Moves.bind (Moves.forM ?_ _) fun _ => (Moves.checkWith _).bind ?_
  · rintro ⟨s, successors⟩
    exact .addNextWith m _ s _ successors true
  · intro r
    cases r with
    | violated counterexample => exact (Moves.lift _).bind fun v => .throw _
    | noError => exact .pure ()
    | notApplicable => exact .pure ()

theorem Moves.checkTrace (m : Model σ) (trace : List σ) : Moves Store.Act.Spares (Checker.checkTrace m trace) := by
  have hreset : ∀ c : Checker σ, Via Store.Act.Spares c c.reset := fun c =>
    Via.map c fun w => ⟨rfl, .act (a := .reset) trivial w.store⟩
  cases trace with
  | nil => exact .throw _
  | cons first rest =>
    intro c
    have h := (Moves.checkTraceHere m first (first :: rest)).mono (Q := Store.Act.Spares) (fun _ ha => ha.spares) c
    rcases hhere : Checker.checkTraceHere m first (first :: rest) c with ⟨f | _, c'⟩
    · cases f with
      | defect d =>
        rw [Change.Meets, show Checker.checkTrace m (first :: rest) c = (.error (.defect d), c') by
          simp only [Checker.checkTrace, hhere]]
        exact .inl trivial
      | error e =>
        rw [Change.Meets, show Checker.checkTrace m (first :: rest) c = (.error (asTraceFault (.error e)), c'.reset) by
          simp only [Checker.checkTrace, hhere]]
        exact .inr (((h.of_error hhere).resolve_left id).trans (hreset c'))
    · rw [Change.Meets, show Checker.checkTrace m (first :: rest) c = (.ok (), c'.reset) by
        simp only [Checker.checkTrace, hhere]]
      exact (h.of_ok hhere).trans (hreset c')

/-- A call of the checker. -/
inductive Call (σ : Type) where
  /-- An initial state is added. -/
  | initial (s : σ) (fp : Fingerprint)
  /-- The steps of a state are added. -/
  | next (s : σ) (fp : Fingerprint) (successors : List σ)
  /-- The graphs are checked. -/
  | check (force : Bool)
  /-- The graphs are checked for the last time. -/
  | finalCheck
  /-- A behaviour is checked by itself. -/
  | trace (states : List σ)
  /-- The graphs are forgotten. -/
  | reset
  /-- The graphs are recovered. -/
  | recover
  /-- The files of the graphs are opened again. -/
  | reopen
  /-- A checkpoint is begun. -/
  | begin (o : RowOrder)

/-- Make a call, and ignore the report of a check. -/
def call (m : Model σ) : Call σ → Change (Checker σ) Unit
  | .initial s fp => modify (addInitial s fp)
  | .next s fp successors => addNext m s fp successors
  | .check force => do let _ ← check m force
  | .finalCheck => do let _ ← finalCheck m
  | .trace states => checkTrace m states
  | .reset => modify reset
  | .recover => recover
  | .reopen => modify reopen
  | .begin o => begin o

/-- The acts on the graphs that a call consists of. -/
def Call.Allows : Call σ → Store.Act → Prop
  | .initial .. | .next .. | .check _ | .finalCheck => Store.Act.Works
  | .trace _ | .reset | .recover | .reopen => Store.Act.Spares
  | .begin o => (· = .begin o)

/-- The call does not cut the logs. -/
def Call.Appends (a : Call σ) : Prop := ∀ act, a.Allows act → act.Appends

omit [ModelState σ] in
theorem Call.Allows.spares {a : Call σ} {act : Store.Act} (h : a.Allows act) (ha : ∀ o, a ≠ .begin o) : act.Spares := by
  cases a with
  | initial | next | check | finalCheck => exact Store.Act.Works.spares h
  | trace | reset | recover | reopen => exact h
  | begin o => exact absurd rfl (ha o)

omit [ModelState σ] in
theorem Call.Allows.ne_commit {a : Call σ} {act : Store.Act} (h : a.Allows act) : act ≠ .commit := by
  rintro rfl
  cases a <;> cases h

theorem moves_call (m : Model σ) (a : Call σ) : Moves a.Allows (call m a) := by
  cases a with
  | initial s fp => exact .of_modify fun c => Via.map c fun w => Monitor.addInitial_via s fp w
  | next s fp successors =>
    intro c
    rw [Change.Meets, call, addNext_apply]
    exact Moves.addNextWith m _ s fp successors _ c
  | check force =>
    refine Moves.bind (fun c => ?_) fun _ => .pure ()
    rw [Change.Meets, check_apply]
    split_ifs
    · exact Moves.checkWith _ c
    · exact .refl c
  | finalCheck =>
    refine Moves.bind (fun c => ?_) fun _ => .pure ()
    rw [Change.Meets, finalCheck_apply]
    split_ifs
    · exact .refl c
    · exact Moves.checkWith _ c
  | trace states => exact .checkTrace m states
  | reset => exact .of_modify fun c => Via.map c fun w => ⟨rfl, .act (a := .reset) trivial w.store⟩
  | recover =>
    refine (Moves.each fun w => ⟨rfl, .act (a := .recover) trivial w.store⟩).bind fun _ => ?_
    exact Moves.bind (fun c => Change.Meets.get (.refl c)) fun c => (Moves.lift _).bind fun _ => .pure ()
  | reopen => exact .of_modify fun c => Via.map c fun w => ⟨rfl, .act (a := .reopen) trivial w.store⟩
  | begin o => exact .each fun w => ⟨rfl, .act (P := (· = .begin o)) rfl w.store⟩

/-- The checker `c` has become `c'` by calls that came back, the latest first. -/
inductive Runs (m : Model σ) (c : Checker σ) : List (Call σ) → Checker σ → Prop where
  /-- Nothing was called. -/
  | start : Runs m c [] c
  /-- One more call came back. -/
  | call {calls : List (Call σ)} {c' c'' : Checker σ} {a : Call σ} {r : Outcome Unit} : Runs m c calls c' →
    call m a c' = (r, c'') → (∀ f, r = .error f → ¬ f.IsDefect) → Runs m c (a :: calls) c''

theorem Runs.via {calls : List (Call σ)} (h : Runs m c calls c') (hP : ∀ a ∈ calls, ∀ act, a.Allows act → P act) :
    Via P c c' := by
  induction h with
  | start => exact .refl c
  | @call calls c' c'' a r _ hcall hr ih =>
    have hfirst := ih fun a ha => hP a (List.mem_cons_of_mem _ ha)
    have hlast := (moves_call m a).mono (hP a (by simp)) c'
    cases r with
    | ok _ => exact hfirst.trans (hlast.of_ok hcall)
    | error f => exact hfirst.trans ((hlast.of_error hcall).resolve_left (hr f rfl))

/-! ### A commit that stops -/

omit [ModelState σ]

/-- The monitors after the first `j` commits. -/
def commitFirst : Nat → List (Monitor σ) → List (Monitor σ)
  | 0, ws => ws
  | _, [] => []
  | j + 1, w :: ws => (Monitor.change Store.commit w).2 :: commitFirst j ws

/-- The process has stopped in the midst of a commit, after the commits of the first `j` properties. -/
def stopAfter (j : Nat) (c : Checker σ) : Checker σ := { c with monitors := commitFirst j c.monitors }

/-- The change commits the checkpoint of a monitor, or fails and leaves the files as they are: the draft
could not be given the name of the checkpoint. -/
def TriesCommit (f : Change (Monitor σ) Unit) : Prop :=
  ∀ w, f w = Monitor.change Store.commit w ∨ ∃ e, f w = (.error e, w)

/-- Also a commit that fails has stopped after some properties, and one that does not fail after all. -/
theorem TriesCommit.exists_stopAfter {f : Change (Monitor σ) Unit} (hf : TriesCommit f) (c : Checker σ) :
    ∃ j, (each f c).2 = c.stopAfter j ∧ ((each f c).1 = .ok () → j = c.monitors.length) := by
  have hfail : ∀ {w w' : Monitor σ} {e : Fault}, f w = (.error e, w') → w' = w := by
    intro w w' e h
    rcases hf w with hcommit | ⟨e', he'⟩
    · exact Monitor.commit_of_error (hcommit.symm.trans h)
    · exact (Prod.mk.inj (h.symm.trans he')).2
  have hlist : ∀ ws : List (Monitor σ), ∃ j, (eachOf f ws).2 = commitFirst j ws ∧
      ((eachOf f ws).1 = .ok () → j = ws.length) := by
    intro ws
    induction ws with
    | nil => exact ⟨0, rfl, fun _ => rfl⟩
    | cons w ws ih =>
      rw [eachOf]
      split
      · rename_i w' heq
        have hcommit : f w = Monitor.change Store.commit w := (hf w).resolve_right fun ⟨e, he⟩ => by
          cases (Prod.mk.inj (heq.symm.trans he)).1
        obtain ⟨j, hj, hlength⟩ := ih
        refine ⟨j + 1, ?_, fun h => congrArg (· + 1) (hlength h)⟩
        rw [commitFirst, ← hcommit, heq]
        exact congrArg (List.cons _) hj
      · rename_i e w' heq
        exact ⟨0, by rw [hfail heq, commitFirst], fun h => by cases h⟩
  obtain ⟨j, hj, hlength⟩ := hlist c.monitors
  refine ⟨j, ?_, hlength⟩
  exact congrArg (fun ws => ({ c with monitors := ws } : Checker σ)) hj

theorem getElem?_commitFirst {j i : Nat} {ws : List (Monitor σ)} {w : Monitor σ} (h : (commitFirst j ws)[i]? = some w) :
    ∃ w₀, ws[i]? = some w₀ ∧ w = if i < j then (Monitor.change Store.commit w₀).2 else w₀ := by
  induction j, ws using commitFirst.induct generalizing i with
  | case1 ws => exact ⟨w, h, rfl⟩
  | case2 j => simp [commitFirst] at h
  | case3 j w₁ ws ih =>
    cases i with
    | zero => exact ⟨w₁, rfl, (Option.some.inj h).symm⟩
    | succ i =>
      obtain ⟨w₀, hw₀, hw⟩ := ih h
      exact ⟨w₀, hw₀, by simpa using hw⟩

theorem length_commitFirst (j : Nat) (ws : List (Monitor σ)) : (commitFirst j ws).length = ws.length := by
  induction j, ws using commitFirst.induct with
  | case1 ws => rfl
  | case2 j => simp [commitFirst]
  | case3 j w ws ih => exact congrArg (· + 1) ih

/-- The files of the logs have become others. -/
def crash (files : Nat → File) (c : Checker σ) : Checker σ :=
  { c with
    monitors := c.monitors.mapIdx fun i w => w.mapStore fun s => { s with log := { s.log with file := files i } } }

theorem getElem?_reopen_crash {files : Nat → File} {i : Nat} {w : Monitor σ}
    (h : ((c.crash files).reopen).monitors[i]? = some w) :
    ∃ w₀, c.monitors[i]? = some w₀ ∧ w.property = w₀.property ∧ w.store = w₀.store.reopenOn (files i) := by
  rw [reopen, crash, List.getElem?_map, List.getElem?_mapIdx, Option.map_map] at h
  obtain ⟨w₀, hw₀, rfl⟩ := Option.map_eq_some_iff.mp h
  exact ⟨w₀, hw₀, rfl, rfl⟩

theorem forall₂_of_recover (h : recover c = (.ok (), c')) :
    List.Forall₂ (fun w w' => Monitor.change Store.recover w = (.ok (), w')) c.monitors c'.monitors := by
  let All (c' : Checker σ) : Prop :=
    List.Forall₂ (fun w w' => Monitor.change Store.recover w = (.ok (), w')) c.monitors c'.monitors
  have hmeets : (recover : Change (Checker σ) Unit).Meets c (fun _ c' => All c') fun _ _ => True := by
    refine Change.Meets.bind (Q := fun _ => All) ?_ fun _ c₁ hc₁ => ?_
    · unfold Change.Meets
      split
      · exact forall₂_of_each ‹_›
      · trivial
    · refine Change.Meets.bind (Q := fun _ => All) (.get hc₁) fun _ c₂ hc₂ => ?_
      exact Change.Meets.bind (Q := fun _ => All) (.lift (fun _ _ => hc₂) fun _ _ => trivial) fun _ c₃ hc₃ => hc₃
  exact hmeets.of_ok h

/-- What a change of the stores in turn did to one of them. -/
theorem exists_of_change {f : Change Store Unit}
    (h : List.Forall₂ (fun w w' => Monitor.change f w = (.ok (), w')) c.monitors c'.monitors) {i : Nat} {w' : Monitor σ}
    (hw' : c'.monitors[i]? = some w') :
    ∃ w, c.monitors[i]? = some w ∧ w'.property = w.property ∧ f w.store = (.ok (), w'.store) := by
  obtain ⟨w, hw, hchange⟩ := exists_getElem?_of_forall₂ h hw'
  obtain ⟨hresult, rfl⟩ := Prod.mk.inj hchange
  exact ⟨w, hw, rfl, Prod.ext hresult rfl⟩

end Checker

/-! ### Recovery after a stop -/

namespace Checker

variable {m : Model σ}

/-- **A commit that stops leaves each graph at one of two checkpoints.** A checkpoint was begun and
committed, a later one was begun, and its commit stopped after the first `j` properties, as it also
does if it fails. The files are opened again, the logs with whatever bytes the stop has left of them,
and the graphs are recovered. Then the first `j` graphs are those of the later checkpoint and the others
those of the earlier one: their tables, roots and numbers in any case, and all of them if the log still
starts as it did then. It does if no call before the later checkpoint has cut it, and the stop has not
cut what was written when the later checkpoint was begun. The numbers that the two checkpoints
hold must fit their fields (`Store.Countable`): fewer than 2³² roots, and nodes of a state. -/
theorem recover_stopAfter {c drafted c₁ committed c' drafted' c₂ r : Checker σ} {before between after : List (Call σ)}
    (harises : ∀ w ∈ c.monitors, w.store.Arises) (hcount : ∀ w ∈ c.monitors, w.store.Countable)
    (hcount' : ∀ w ∈ c'.monitors, w.store.Countable)
    {o o' : RowOrder} (hbegin : begin o c = (.ok (), drafted)) (hbefore : Runs m drafted before c₁)
    (hspare : ∀ o, .begin o ∉ before) (hcommit : commit c₁ = (.ok (), committed))
    (hbetween : Runs m committed between c') (hbegin' : begin o' c' = (.ok (), drafted'))
    (hafter : Runs m drafted' after c₂) (hspare' : ∀ o, .begin o ∉ after) :
    (∀ f, TriesCommit f → ∃ j, (each f c₂).2 = c₂.stopAfter j ∧ ((each f c₂).1 = .ok () → j = c₂.monitors.length)) ∧
    ∀ (j : Nat) (files : Nat → File), recover ((c₂.stopAfter j).crash files).reopen = (.ok (), r) →
      r.monitors.length = c.monitors.length ∧ ∀ i w, r.monitors[i]? = some w →
        ∃ g g', c.monitors[i]? = some g ∧ c'.monitors[i]? = some g' ∧ w.property = g.property ∧
          Store.Restored (if i < j then g' else g).store (files i) w.store ∧
          ((∀ a ∈ before ++ between, a.Appends) → g'.store.log.file.toList <+: (files i).toList →
            w.store.SameGraph (if i < j then g' else g).store) := by
  refine ⟨fun f hf => hf.exists_stopAfter c₂, fun j files hrecover => ?_⟩
  let uncut : Prop := ∀ a ∈ before ++ between, a.Appends
  have hviaBefore : Via (fun act => act.Spares ∧ (uncut → act.Appends)) drafted c₁ := hbefore.via fun a ha act hact =>
    ⟨hact.spares (by rintro o rfl; exact hspare o ha), fun h => h a (List.mem_append_left _ ha) act hact⟩
  have hviaBetween : Via (fun act => act ≠ .commit ∧ (uncut → act.Appends)) committed c' :=
    hbetween.via fun a ha act hact => ⟨hact.ne_commit, fun h => h a (List.mem_append_right _ ha) act hact⟩
  have hviaAfter : Via Store.Act.Spares drafted' c₂ := hafter.via fun a ha act hact =>
    hact.spares (by rintro o rfl; exact hspare' o ha)
  have hlength : r.monitors.length = c.monitors.length := by
    rw [← (forall₂_of_recover hrecover).length_eq, reopen, List.length_map, crash, List.length_mapIdx, stopAfter,
      length_commitFirst, ← hviaAfter.length_eq, ← (forall₂_of_each hbegin').length_eq, ← hviaBetween.length_eq,
      ← (forall₂_of_each hcommit).length_eq, ← hviaBefore.length_eq, ← (forall₂_of_each hbegin).length_eq]
  refine ⟨hlength, fun i w hw => ?_⟩
  -- The monitor of the property at each of the calls, from the last one back.
  obtain ⟨w₄, hw₄, hp, hrecovered⟩ := exists_of_change (forall₂_of_recover hrecover) hw
  obtain ⟨w₃, hw₃, hp₄, hreopened⟩ := getElem?_reopen_crash hw₄
  obtain ⟨w₂, hw₂, hstopped⟩ := getElem?_commitFirst hw₃
  obtain ⟨d', hd', hp₂, hafter⟩ := exists_getElem?_of_forall₂ hviaAfter hw₂
  obtain ⟨g', hg', hpd', hbegin'⟩ := exists_of_change (forall₂_of_each hbegin') hd'
  obtain ⟨e, he, hpg', hbetween⟩ := exists_getElem?_of_forall₂ hviaBetween hg'
  obtain ⟨w₁, hw₁, hpe, hcommit⟩ := exists_of_change (forall₂_of_each hcommit) he
  obtain ⟨d, hd, hp₁, hbefore⟩ := exists_getElem?_of_forall₂ hviaBefore hw₁
  obtain ⟨g, hg, hpd, hbegin⟩ := exists_of_change (forall₂_of_each hbegin) hd
  have hgarises := harises g (List.mem_of_getElem? hg)
  have hcheckpointed := Store.checkpointed_of_commit hgarises hbegin (hbefore.mono fun _ h => h.1) hcommit
    (hbetween.mono fun _ h => h.1)
  have hproperty : w₃.property = w₂.property ∧
      w₃.store = if i < j then (Store.commit w₂.store).2 else w₂.store := by
    rw [hstopped]
    split_ifs <;> exact ⟨rfl, rfl⟩
  have hrestored : Store.Restored (if i < j then g' else g).store (files i) w.store := by
    rw [hreopened, hproperty.2] at hrecovered
    rw [apply_ite Monitor.store]
    exact hcheckpointed.restored hgarises (hcount g (List.mem_of_getElem? hg)) (hcount' g' (List.mem_of_getElem? hg'))
      hbegin' hafter hrecovered
  refine ⟨g, g', hg, hg', ?_, hrestored, fun huncut hfile => hrestored.sameGraph_iff.mpr ?_⟩
  · rw [hp, hp₄, hproperty.1, hp₂, hpd', hpg', hpe, hp₁, hpd]
  · split_ifs with hj
    · exact hfile
    · exact (Store.isPrefix_of_commit hgarises hbegin (hbefore.mono fun _ h => h.2 huncut) hcommit
        (hbetween.mono fun _ h => h.2 huncut)).trans hfile

/-- A new checker of two properties without a tableau. -/
def ofPair : Checker Counter :=
  { monitors := [⟨{ name := "first" }, { store := { folder := "", index := 0 } }⟩,
      ⟨{ name := "second" }, { store := { folder := "", index := 1 } }⟩], config := { folder := "" } }

/-- The checker with the first state, when the earlier checkpoint is begun. -/
def registered : Checker Counter := ofPair.addInitial ⟨0⟩ 0

/-- The checker with the steps of the first state, when the later checkpoint is begun. -/
def expanded : Checker Counter :=
  (addNext Counter.model ⟨0⟩ 0 [⟨1⟩] (commit (begin default registered).2).2).2

/-- The bytes of the logs as the stop leaves them. -/
def leftover (i : Nat) : File := File.append ((expanded.monitors[i]?.map fun w => w.store.log.file).getD .empty) [7]

theorem arises_registered : ∀ w ∈ registered.monitors, w.store.Arises := by
  have hcreate : ∀ index, Store.create "" [] index = .ok { folder := "", index := index } := fun _ => rfl
  have hmonitors : registered.monitors.map Monitor.store =
      [0, 1].map fun index => Store.edit { folder := "", index := index } (.addRoot ⟨0, Key.noPoint⟩) := rfl
  intro w hw
  obtain ⟨index, -, hindex⟩ := List.mem_map.mp (hmonitors ▸ List.mem_map_of_mem hw)
  exact hindex ▸ .edit _ (.create (hcreate index))

theorem recover_stopAfter_pair :
    begin default registered = (.ok (), (begin default registered).2) ∧ begin default expanded = (.ok (), (begin default expanded).2) ∧
      ∃ r, recover (((begin default expanded).2.stopAfter 1).crash leftover).reopen = (.ok (), r) ∧
        (∃ w g, r.monitors[0]? = some w ∧ expanded.monitors[0]? = some g ∧ w.store.SameGraph g.store) ∧
        ∃ w g, r.monitors[1]? = some w ∧ registered.monitors[1]? = some g ∧ w.store.SameGraph g.store := by
  have hbegin : begin default registered = (.ok (), (begin default registered).2) := Change.eq_ok_of_toOption (by decide +kernel)
  have hbegin' : begin default expanded = (.ok (), (begin default expanded).2) := Change.eq_ok_of_toOption (by decide +kernel)
  have hcommit := Change.eq_ok_of_toOption (r := commit (begin default registered).2) (a := ()) (by decide +kernel)
  have hnext : call Counter.model (.next ⟨0⟩ 0 [⟨1⟩]) (commit (begin default registered).2).2 = (.ok (), expanded) :=
    Change.eq_ok_of_toOption (by decide +kernel)
  have hruns : Runs Counter.model (commit (begin default registered).2).2 [.next ⟨0⟩ 0 [⟨1⟩]] expanded :=
    Runs.call .start hnext fun f hf => by cases hf
  have hcount : ∀ w ∈ registered.monitors, w.store.Countable := fun w hw =>
    Store.countable_of_rows ((by decide +kernel : ∀ w ∈ registered.monitors, w.store.roots.length < 2 ^ 32 ∧
      (∀ e ∈ w.store.table.toList, e.2.slots.length < 2 ^ 32) ∧ w.store.table.size < 2 ^ 64 ∧
      w.store.log.len < 2 ^ 64) w hw)
  have hcount' : ∀ w ∈ expanded.monitors, w.store.Countable := fun w hw =>
    Store.countable_of_rows ((by decide +kernel : ∀ w ∈ expanded.monitors, w.store.roots.length < 2 ^ 32 ∧
      (∀ e ∈ w.store.table.toList, e.2.slots.length < 2 ^ 32) ∧ w.store.table.size < 2 ^ 64 ∧
      w.store.log.len < 2 ^ 64) w hw)
  obtain ⟨r, hrecover⟩ : ∃ r, recover (((begin default expanded).2.stopAfter 1).crash leftover).reopen = (.ok (), r) :=
    ⟨_, Change.eq_ok_of_toOption (by decide +kernel)⟩
  obtain ⟨hlength, hall⟩ := (recover_stopAfter arises_registered hcount hcount' hbegin .start (by simp) hcommit hruns
    hbegin' .start (by simp)).2 1 leftover hrecover
  have huncut : ∀ a ∈ [] ++ [(.next ⟨0⟩ 0 [⟨1⟩] : Call Counter)], a.Appends := by
    intro a ha act hact
    obtain rfl := List.mem_singleton.mp ha
    exact Store.Act.Works.appends hact
  have hfile : ∀ i g', expanded.monitors[i]? = some g' → g'.store.log.file.toList <+: (leftover i).toList := by
    intro i g' hg'
    simp [leftover, hg']
  have htwo : r.monitors.length = 2 := hlength
  have hget : ∀ i < 2, ∃ w, r.monitors[i]? = some w := fun i hi => ⟨_, List.getElem?_eq_getElem (htwo ▸ hi)⟩
  obtain ⟨w₀, hw₀⟩ := hget 0 (by decide)
  obtain ⟨w₁, hw₁⟩ := hget 1 (by decide)
  obtain ⟨_, g₀, -, hg₀, -, -, hsame₀⟩ := hall 0 w₀ hw₀
  obtain ⟨g₁, g₁', hg₁, hg₁', -, -, hsame₁⟩ := hall 1 w₁ hw₁
  exact ⟨hbegin, hbegin', r, hrecover, ⟨w₀, g₀, hw₀, hg₀, hsame₀ huncut (hfile 0 g₀ hg₀)⟩,
    w₁, g₁, hw₁, hg₁, hsame₁ huncut (hfile 1 g₁' hg₁')⟩

/-- **The graphs that are recovered need not be those of one checkpoint.** The commit of the later
checkpoint has stopped after the first of two properties. -/
theorem recover_stopAfter_mixed :
    (begin default registered).1.toOption = some () ∧ (commit (begin default registered).2).1.toOption = some () ∧
      (addNext Counter.model ⟨0⟩ 0 [⟨1⟩] (commit (begin default registered).2).2).1.toOption = some () ∧
      (begin default expanded).1.toOption = some () ∧
      (recover ((begin default expanded).2.stopAfter 1).reopen).1.toOption = some () ∧
      registered.sizes = [1, 1] ∧ expanded.sizes = [2, 2] ∧
      (recover ((begin default expanded).2.stopAfter 1).reopen).2.sizes = [2, 1] := by
  decide +kernel

end Checker

end Liveness

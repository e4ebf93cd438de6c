import Liveness.Builder.Next
import Liveness.Proofs.Store.Path

/-!
# What an expansion does not look at

The roots of a graph are where the search for violations starts. The expansion of a state does
not look at them: it goes by the table and the log alone. Only a drawing shows which nodes are
roots, and no expansion looks at a drawing that was made. So an expansion does the same to two
graphs that differ in their roots and in the texts of their drawings (`Builder.Blind`), and
comes to the same.

This is said of any relation between builders that sees no other difference than that and is kept
by what an expansion does to the store (`Builder.Companions`).
-/

namespace Liveness

/-- The store without its roots and without the texts of its drawings. -/
def Store.bare (s : Store) : Store := { s with roots := [], drawings := { s.drawings with texts := [] } }

/-- The builder of the bare store. -/
def Builder.bare (b : Builder) : Builder := { b with store := b.store.bare }

namespace Store

theorem bare_record (s : Store) (k parent : Key) : (s.record k parent).bare = s.bare.record k parent := by
  change bare (if s.isUnseen k then _ else _) = if s.isUnseen k then _ else _
  split_ifs <;> rfl

theorem bare_addNode (s : Store) (n : Node) : (s.addNode n).bare = s.bare.addNode n := by
  change bare (if s.isUnseen n.key then _ else _) = if s.isUnseen n.key then _ else _
  split_ifs <;> rfl

theorem pathTo_bare (s : Store) (k : Key) : s.bare.pathTo k = s.pathTo k := by
  have hparent : ∀ l, s.bare.parentOf l = s.parentOf l := fun _ => rfl
  have hpath : s.bare.path k = s.path k := path_congr hparent rfl k
  rw [pathTo, hpath, pathTo]

/-- Stores with the same roots that are alike when bare differ in their drawings. -/
theorem eq_of_bare {s s' : Store} (h : s.bare = s'.bare) (hroots : s.roots = s'.roots) :
    s = { s' with drawings := s.drawings } := by
  cases s
  cases s'
  simp only [bare, Store.mk.injEq] at h hroots ⊢
  simp [h, hroots]

/-- A change that an expansion may make: one of the nodes alone. -/
structure Tame (f : Store → Store) : Prop where
  bare : ∀ s, (f s).bare = f s.bare
  roots : ∀ s, (f s).roots = s.roots
  reset : ∀ s, (f s).reset = s.reset

theorem tame_setDone (fp : Fingerprint) : Tame fun s => s.setDone fp := ⟨fun _ => rfl, fun _ => rfl, fun _ => rfl⟩

theorem tame_record (k parent : Key) : Tame fun s => s.record k parent := by
  refine ⟨fun s => s.bare_record k parent, fun s => s.roots_record k parent, fun s => ?_⟩
  rw [record]
  split_ifs <;> rfl

theorem tame_addNode (n : Node) : Tame fun s => s.addNode n := by
  refine ⟨fun s => s.bare_addNode n, fun s => s.roots_addNode n, fun s => ?_⟩
  obtain ⟨size, hs⟩ := addNode_eq s n
  simp only [hs, reset, Log.truncate_zero]

section

variable {σ : Type} (t : Option (Tableau σ)) (number : Nat) {s : Store}

/-- A graph with a node that cannot be read is not drawn. -/
theorem saveDrawing_error {f : Fault} (h : s.keys.mapM s.drawEdges = .error f) :
    saveDrawing t number s = (.error f, s) := by
  have hdraw : s.draw t (drawingTitle s.index number) = .error f := by
    rw [draw, h]
    rfl
  rw [saveDrawing, Change.get_bind_apply, hdraw]
  rfl

theorem saveDrawing_ok {edges : List String} (h : s.keys.mapM s.drawEdges = .ok edges) :
    ∃ texts, saveDrawing t number s =
      if s.drawings.taken.contains (drawingName s.index number) then (.error (.error (.file .isFolder)), s)
      else (.ok (), { s with drawings := { s.drawings with texts := texts } }) := by
  obtain ⟨text, hdraw⟩ : ∃ text, s.draw t (drawingTitle s.index number) = .ok text := by
    rw [draw, h]
    exact ⟨_, rfl⟩
  refine ⟨putText number text s.drawings.texts, ?_⟩
  rw [saveDrawing, Change.get_bind_apply, hdraw]
  split_ifs
  · rfl
  · rfl

/-- Whether a drawing can be saved does not depend on the roots. -/
theorem bare_saveDrawing {s' : Store} (h : s.bare = s'.bare) :
    (saveDrawing t number s).1 = (saveDrawing t number s').1 ∧
      (saveDrawing t number s).2.bare = (saveDrawing t number s').2.bare := by
  have hedges : s.keys.mapM s.drawEdges = s'.keys.mapM s'.drawEdges := congrArg (fun s => s.keys.mapM s.drawEdges) h
  have htaken : s.drawings.taken.contains (drawingName s.index number) =
      s'.drawings.taken.contains (drawingName s'.index number) :=
    congrArg (fun s => s.drawings.taken.contains (drawingName s.index number)) h
  cases hdrawn : s'.keys.mapM s'.drawEdges with
  | error f =>
    rw [saveDrawing_error t number hdrawn, saveDrawing_error t number (hedges.trans hdrawn)]
    exact ⟨rfl, h⟩
  | ok edges =>
    obtain ⟨texts, hsave⟩ := saveDrawing_ok t number (hedges.trans hdrawn)
    obtain ⟨texts', hsave'⟩ := saveDrawing_ok t number hdrawn
    rw [hsave, hsave', htaken]
    split_ifs
    · exact ⟨rfl, h⟩
    · exact ⟨rfl, h⟩

end

end Store

namespace Builder

variable {α β ι σ : Type}

/-- The computation comes to the same on builders that differ in roots and drawings only, and
leaves such builders behind. -/
def Blind (c : Build α) : Prop := ∀ b b', b.bare = b'.bare → (c b).1 = (c b').1 ∧ (c b).2.bare = (c b').2.bare

/-- The relation sees no difference but in roots and drawings, and is kept by all that an expansion does
to builders; but drawing them may end with faults in `E` and `E'`. -/
structure Companions (p : Property σ) (R : Builder → Builder → Prop) (E E' : Fault → Prop) : Prop where
  bare : ∀ {b b' : Builder}, R b b' → b.store.bare = b'.store.bare
  onStore : ∀ {f : Store → Store} {b b' : Builder}, Store.Tame f → R b b' →
    R { b with store := f b.store } { b' with store := f b'.store }
  warn : ∀ (w : Warning) {b b' : Builder}, R b b' →
    R { b with warnings := b.warnings ++ [w] } { b' with warnings := b'.warnings ++ [w] }
  snapshot : Change.Parallel R E E' (snapshot p)

namespace Companions

open Change (Parallel)

variable {p : Property σ} {R : Builder → Builder → Prop} {E E' : Fault → Prop} (h : Companions p R E E')

include h

theorem asks {f : Store → α} (hf : ∀ s, f s.bare = f s) : Parallel R E E' (Builder.asks f) := by
  intro b b' hb
  have hsame : f b.store = f b'.store := by rw [← hf b.store, h.bare hb, hf]
  change Change.Alike R E E' (.ok (f b.store), b) (.ok (f b'.store), b')
  rw [hsame]
  exact Change.alike_of_eq hb

theorem ask {f : Store → Outcome α} (hf : ∀ s, f s.bare = f s) : Parallel R E E' (Builder.ask f) := by
  have hask : Builder.ask f = Builder.asks f >>= fun r => Outcome.lift r := rfl
  rw [hask]
  exact (h.asks hf).bind .lift

theorem node (k : Key) : Parallel R E E' (Builder.ask fun s => s.node k) := h.ask fun _ => rfl

theorem isDone (fp : Fingerprint) : Parallel R E E' (Builder.asks fun s => s.isDone fp) := h.asks fun _ => rfl

theorem change {f : Store → Store} (hf : Store.Tame f) : Parallel R E E' (Builder.onStore f) :=
  .of_modify fun _ _ => h.onStore hf

theorem addNode (n : Node) : Parallel R E E' (Builder.onStore fun s => s.addNode n) := h.change (Store.tame_addNode n)

omit h in
theorem addStep (n : Node) (target : Key) (width : Nat) (row : Bits) (offset hint : Nat) :
    Parallel R E E' (Builder.addStep n target width row offset hint) := by
  rw [Builder.addStep]
  rcases n.addStep target width row offset hint with ⟨d | u, n'⟩
  · exact .throw _
  · exact .pure n'

theorem link (n : Node) (target : Key) (width : Nat) (row : Bits) (offset hint : Except Defect Nat) (origin : Key) :
    Parallel R E E' (Builder.link n target width row offset hint origin) := by
  refine Parallel.bind (h.asks fun _ => rfl) fun unseen => .ite ?_ (.pure _)
  refine Parallel.bind (.lift _) fun i => Parallel.bind (.lift _) fun j =>
    (addStep n target width row i j).bind fun n' => ?_
  exact .ite ((h.change (Store.tame_record target origin)).bind fun _ => .pure _) (.pure _)

theorem keep (n : Node) (before : Nat) (revisits : Bool) : Parallel R E E' (Builder.keep p n before revisits) :=
  .ite ((h.addNode _).bind fun _ => h.snapshot)
    (Parallel.bind (.of_modify fun _ _ => h.warn _) fun _ => .ite (.throw _) (.pure _))

/-! ### Expansions -/

theorem stutter (t : Tableau σ) (e : Expansion σ) (row : Bits) (total : Nat) (xs : List (UInt32 × Nat)) :
    ∀ g, Parallel R E E' (Builder.stutter p t e row total xs g) := by
  induction xs with
  | nil => exact fun g => .pure _
  | cons x xs ih =>
    intro g
    obtain ⟨n, work⟩ := g
    refine Parallel.bind (.lift _) fun tnode => .ite ((h.link _ _ _ _ _ _ _).bind fun r => ?_) (ih _)
    exact .ite (.pure _) (ih _)

theorem plainStep (checks : StepChecks) (count : Nat) (n : Node) (x : Fingerprint × Nat) :
    Parallel R E E' (Builder.plainStep checks count n x) :=
  (h.link _ _ _ _ _ _ _).bind fun _ => .pure _

variable [ModelState σ]

theorem lateStep (t : Tableau σ) (e : Expansion σ) (s : σ) (row : Bits) (done : Bool) (room : Except Defect Nat)
    (g : Growth σ) (point : UInt32) : Parallel R E E' (Builder.lateStep p t e s row done room g point) :=
  Parallel.bind (.lift _) fun _ => .ite ((h.link _ _ _ _ _ _ _).bind fun _ => .pure _) (.pure _)

theorem lateSteps (t : Tableau σ) (e : Expansion σ) (points : List UInt32) (total : Nat) (g : Growth σ) (x : σ × Nat) :
    Parallel R E E' (Builder.lateSteps p t e points total g x) := by
  obtain ⟨s, i⟩ := x
  rw [Builder.lateSteps]
  refine (h.isDone _).bind fun done => .foldlM (fun g y => ?_) _ g
  obtain ⟨point, j⟩ := y
  exact h.lateStep t e s _ done _ g point

theorem expandOne (m : Model σ) (t : Tableau σ) (e : Expansion σ) (work : List (Expansion σ)) :
    Parallel R E E' (Builder.expandOne p m t e work) := by
  refine Parallel.bind (.lift _) fun tnode => (h.node _).bind fun n => (h.stutter _ _ _ _ _ _).bind fun r => ?_
  refine .ite ?_ (Parallel.bind (.foldlM (h.lateSteps t e _ _) _ r.1) fun g => ?_)
  · exact .ite ((h.addNode _).bind fun _ => .pure _) (.pure _)
  · exact .ite ((h.addNode _).bind fun _ => h.snapshot.bind fun _ => .pure _) (.pure _)

theorem expandAll (m : Model σ) (t : Tableau σ) (fuel : Nat) :
    ∀ work, Parallel R E E' (Builder.expandAll p m t fuel work) := by
  induction fuel with
  | zero =>
    intro work
    cases work <;> exact .pure none
  | succ fuel ih =>
    intro work
    cases work with
    | nil => exact .pure none
    | cons e work =>
      refine (h.expandOne m t e work).bind fun r => ?_
      cases r with
      | error k => exact .pure (some k)
      | ok work' => exact ih work'

theorem nextStep (batch : Batch σ) (used : Nat) (s : σ) (i : Nat) (done : Bool) (g : Growth σ) (point : UInt32) :
    Parallel R E E' (Builder.nextStep batch used s i done g point) :=
  .ite ((h.link _ _ _ _ _ _ _).bind fun _ => .pure _) (.pure _)

theorem expandPoint (t : Tableau σ) (batch : Batch σ) (fp : Fingerprint) (revisits : Bool) (work : List (Expansion σ))
    (x : UInt32 × Nat) : Parallel R E E' (Builder.expandPoint p t batch fp revisits work x) := by
  refine Parallel.bind (.lift _) fun tnode => (h.node _).bind fun n => Parallel.bind (.foldlM (fun g y => ?_) _ _)
    fun g => ?_
  · exact (h.isDone _).bind fun done => .foldlM (h.nextStep batch _ y.1 y.2 done) _ g
  · exact (h.keep g.1 _ revisits).bind fun _ => .pure _

/-- **The expansion of a state does the same to companions.** -/
theorem addNext (m : Model σ) (fp : Fingerprint) (successors : List σ) (checks : StepChecks) (revisits : Bool) :
    Parallel R E E' (Builder.addNext p m fp successors checks revisits) := by
  have hdone := h.change (Store.tame_setDone fp)
  rw [Builder.addNext]
  cases p.tableau with
  | some t =>
    refine Parallel.bind (.lift _) fun consistent => hdone.bind fun _ => ?_
    refine Parallel.bind (h.asks fun _ => rfl) fun points => ?_
    refine Parallel.bind (.foldlM (h.expandPoint t _ fp revisits) _ _) fun work => Parallel.bind ?_ fun violation => ?_
    · exact (h.asks fun _ => rfl).bind fun states => h.expandAll m t _ work
    · cases violation with
      | none => exact .pure none
      | some key =>
        refine (h.ask fun s => s.pathTo_bare key).bind fun path => ?_
        cases path.getLast? with
        | none => exact .pure none
        | some last => exact Parallel.bind (.lift _) fun l => .pure (some l)
  | none =>
    refine Parallel.bind ?_ fun _ => .pure none
    refine hdone.bind fun _ => (h.node _).bind fun n => ?_
    exact Parallel.bind (.foldlM (h.plainStep checks _) _ _) fun grown => h.keep grown _ revisits

end Companions

/-! ### Builders that differ in their roots -/

theorem companions_bare (p : Property σ) :
    Companions p (fun b b' => b.bare = b'.bare) (fun _ => False) fun _ => False where
  bare h := congrArg Builder.store h
  onStore {f b b'} hf h := by
    change ({ b with store := (f b.store).bare } : Builder) = { b' with store := (f b'.store).bare }
    rw [hf.bare, hf.bare]
    exact congrArg (fun b : Builder => { b with store := f b.store }) h
  warn w _ _ h := congrArg (fun b : Builder => { b with warnings := b.warnings ++ [w] }) h
  snapshot := by
    intro b b' h
    have hnumber : b.bare.nextDrawing = b'.bare.nextDrawing := congrArg Builder.nextDrawing h
    have hwarnings : b.bare.warnings = b'.bare.warnings := congrArg Builder.warnings h
    change b.nextDrawing = b'.nextDrawing at hnumber
    change b.warnings = b'.warnings at hwarnings
    refine .inr (.inr ?_)
    rw [Builder.snapshot, Change.get_bind_apply, Change.get_bind_apply, hnumber]
    cases b'.nextDrawing with
    | none => exact ⟨rfl, h⟩
    | some number =>
      obtain ⟨hresult, hstore⟩ := Store.bare_saveDrawing p.tableau number (congrArg Builder.store h)
      refine ⟨hresult, ?_⟩
      change Builder.mk (Store.saveDrawing p.tableau number b.store).2.bare (some (number + 1)) b.warnings =
        Builder.mk (Store.saveDrawing p.tableau number b'.store).2.bare (some (number + 1)) b'.warnings
      rw [hstore, hwarnings]

/-- **The expansion of a state does not look at the roots.** -/
theorem Blind.addNext [ModelState σ] (p : Property σ) (m : Model σ) (fp : Fingerprint) (successors : List σ)
    (checks : StepChecks) (revisits : Bool) : Blind (Builder.addNext p m fp successors checks revisits) := by
  intro b b' h
  obtain ⟨_, -, hfalse⟩ | ⟨_, -, hfalse⟩ | hsame :=
    (companions_bare p).addNext m fp successors checks revisits b b' h
  · exact hfalse.elim
  · exact hfalse.elim
  · exact hsame

end Builder

end Liveness

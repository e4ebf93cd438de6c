import Liveness.Proofs.Builder.Blind
import Liveness.Proofs.Checker.Retrace
import Liveness.Proofs.Graph.Damage

/-!
# One behaviour after the other

A checker that has checked a behaviour by itself is as good as new: the graphs are empty again, and
the next behaviour is checked as by a checker just created (`Checker.checkTraces_as_new`). What is
left of a check are warnings, the signal and drawings.

The drawings are numbered on, so that a used checker and a new one draw the same graphs under other
numbers. A name that is taken ends the check with an error, and the new checker may come to it first
only if the used one has skipped it. It skips a number if a graph cannot be drawn because a record
in it is damaged.
-/

namespace Liveness

/-- A file could not be read or written. -/
def Fault.IsFile : Fault → Prop
  | .error (.file _) => True
  | _ => False

/-- A record cannot be read. -/
def Fault.IsDamage : Fault → Prop
  | .error (.corrupt _ _) => True
  | _ => False

/-- The computation fails with no other faults. -/
def Outcome.FailsBy {α : Type} (P : Fault → Prop) (r : Outcome α) : Prop := ∀ f, r = .error f → P f

namespace Outcome

variable {α β : Type} {P : Fault → Prop}

theorem failsBy_ok (a : α) : FailsBy P (.ok a) := fun _ h => by cases h

theorem failsBy_error {f : Fault} (h : P f) : FailsBy P (.error f : Outcome α) := by
  intro g hg
  obtain rfl := Except.error.inj hg
  exact h

theorem FailsBy.bind {r : Outcome α} {f : α → Outcome β} (hr : FailsBy P r) (hf : ∀ a, FailsBy P (f a)) :
    FailsBy P (r >>= f) := by
  cases r with
  | ok a => exact hf a
  | error e => exact failsBy_error (hr e rfl)

theorem FailsBy.mapM {f : α → Outcome β} (hf : ∀ a, FailsBy P (f a)) (as : List α) : FailsBy P (as.mapM f) := by
  induction as with
  | nil => exact failsBy_ok _
  | cons a as ih =>
    rw [List.mapM_cons]
    exact (hf a).bind fun b => ih.bind fun bs => failsBy_ok _

end Outcome

/-! ### Stores that differ in their drawings -/

/-- A record that is not there, or that cannot be read. -/
def Fault.IsUnread (f : Fault) : Prop := f.IsFile ∨ f.IsDamage

open Outcome in
theorem Log.failsBy_read (l : Log) (offset : Nat) : FailsBy Fault.IsUnread (l.read offset) := by
  have hbytes : ∀ position n, FailsBy Fault.IsUnread (l.file.read position n) := by
    intro position n
    rw [File.read]
    split_ifs
    · exact failsBy_ok _
    · exact failsBy_error (.inl trivial)
  have hdecode : ∀ bytes, FailsBy Fault.IsUnread (Node.decode offset bytes) := by
    intro bytes f hf
    have hnone : ∀ n, Node.decode offset bytes ≠ .ok n := fun n hn => by cases hf.symm.trans hn
    obtain ⟨damage, hdamage⟩ := Node.exists_damage hnone
    obtain rfl := Except.error.inj (hf.symm.trans hdamage)
    exact .inr trivial
  rw [read_eq]
  split_ifs
  · exact failsBy_error (.inr trivial)
  · refine (hbytes _ _).bind fun head => ?_
    split_ifs
    · exact failsBy_error (.inr trivial)
    · exact (hbytes _ _).bind hdecode

namespace Store

variable {σ : Type} {s s' : Store}

open Outcome in
theorem failsBy_drawEdges (s : Store) : FailsBy Fault.IsUnread (s.keys.mapM s.drawEdges) := by
  refine .mapM (fun k => FailsBy.bind ?_ fun n => failsBy_ok _) _
  rw [node]
  split
  · exact s.log.failsBy_read _
  · exact failsBy_ok _
  · exact failsBy_ok _

/-- The search does not look at drawings. -/
theorem verdict_congr (hbare : s.bare = s'.bare) (hroots : s.roots = s'.roots) (p : Property σ) :
    s.verdict p = s'.verdict p := by
  rw [eq_of_bare hbare hroots]
  generalize s.drawings = d
  have hgrow : ∀ fuel start a, Arena.grow { s' with drawings := d } p fuel start a = Arena.grow s' p fuel start a := by
    have hexpand : Arena.expand { s' with drawings := d } p = Arena.expand s' p := rfl
    intro fuel
    induction fuel with
    | zero => exact fun _ _ => rfl
    | succ fuel ih => simp only [Arena.grow, hexpand, ih, implies_true]
  have hload : Arena.load { s' with drawings := d } p = Arena.load s' p := by
    simp only [Arena.load, hgrow]
    rfl
  have hpath : ∀ k, pathTo { s' with drawings := d } k = s'.pathTo k := by
    intro k
    have hparent : ∀ l, parentOf { s' with drawings := d } l = s'.parentOf l := fun _ => rfl
    rw [pathTo, path_congr hparent rfl, pathTo]
  simp only [verdict, findViolation, hload, hpath]

theorem bare_addRoots_congr (ks : List Key) : ∀ {s s' : Store}, s.bare = s'.bare →
    (s.addRoots ks).bare = (s'.addRoots ks).bare := by
  have hone : ∀ (s : Store) k, (s.addRoot k).bare = s.bare.seeRoot k := by
    intro s k
    rw [addRoot_eq]
    change bare (if s.isUnseen k then _ else _) = if s.isUnseen k then _ else _
    split_ifs <;> rfl
  induction ks with
  | nil => exact fun h => h
  | cons k ks ih =>
    intro s s' h
    refine ih ?_
    rw [hone, hone, h]

theorem reset_addRoots (ks : List Key) : ∀ s : Store, (s.addRoots ks).reset = s.reset := by
  have hone : ∀ (s : Store) k, (s.addRoot k).reset = s.reset := by
    intro s k
    rw [addRoot_eq, seeRoot]
    split_ifs <;> rfl
  induction ks with
  | nil => exact fun s => rfl
  | cons k ks ih => exact fun s => (ih (s.addRoot k)).trans (hone s k)

theorem reset_reset (s : Store) : s.reset.reset = s.reset := by
  simp only [reset, Log.truncate_zero]

/-- No folder has the name of the drawing. -/
def IsFree (s : Store) (number : Nat) : Prop := s.drawings.taken.contains (drawingName s.index number) = false

theorem isFree_congr (h : s.bare = s'.bare) (number : Nat) : s.IsFree number ↔ s'.IsFree number :=
  iff_of_eq (congrArg (fun s => s.IsFree number) h :)

/-- The graph is empty. -/
structure Vacant (s : Store) : Prop where
  keys : s.keys = []
  roots : s.roots = []
  isDone : ∀ fp, s.isDone fp = false
  size : s.size = 0
  baseline : s.baseline = 1
  log : s.log.len = 0

end Store

/-! ### Builders -/

/-- The fault of a used checker that ends the comparison with a new one: of a file, or if no number of a
drawing is to be skipped, of a record too. -/
def Fault.Stops (tidy : Prop) (f : Fault) : Prop := f.IsFile ∨ tidy ∧ f.IsDamage

/-- The fault of a new checker that ends the comparison with a used one. -/
def Fault.StopsNew (tidy : Prop) (f : Fault) : Prop := ¬ tidy ∧ f.IsFile

namespace Builder

variable {σ : Type} {tidy : Prop} {b b' : Builder}

/-- The builder as it was when it was new. -/
def renew (b : Builder) : Builder where
  store := b.store.reset.bare
  nextDrawing := b.nextDrawing.map fun _ => 0

/-- The builders differ in their drawings only, and both draw or none. If no number was skipped, the first
one has drawn before, and all names up to where it is are free. -/
structure Beside (tidy : Prop) (b b' : Builder) : Prop where
  bare : b.store.bare = b'.store.bare
  roots : b.store.roots = b'.store.roots
  draws : b.nextDrawing.isSome = b'.nextDrawing.isSome
  free : tidy → ∀ number ∈ b.nextDrawing, (∀ behind ∈ b'.nextDrawing, behind ≤ number) ∧
    ∀ i < number, b.store.IsFree i

/-- A change of what a reset forgets. -/
theorem Beside.of_reset (h : b.Beside tidy b') {s s' : Store} (hbare : s.bare = s'.bare) (hroots : s.roots = s'.roots)
    (hreset : s.reset = b.store.reset) : Beside tidy { b with store := s } { b' with store := s' } where
  bare := hbare
  roots := hroots
  draws := h.draws
  free := by
    have hindex : s.index = b.store.index := (congrArg Store.index hreset :)
    have hdrawings : s.drawings = b.store.drawings := (congrArg Store.drawings hreset :)
    simp only [Store.IsFree, hindex, hdrawings]
    exact h.free

theorem renew_of_reset {s : Store} (hreset : s.reset = b.store.reset) : renew { b with store := s } = b.renew := by
  rw [renew, hreset]
  rfl

/-- The name that the second builder comes to is one that the first one has used, or is about to use. -/
theorem Beside.isFree (h : b.Beside tidy b') (htidy : tidy) {number behind : Nat} (hnumber : b.nextDrawing = some number)
    (hbehind : b'.nextDrawing = some behind) (hfree : b.store.IsFree number) : b'.store.IsFree behind := by
  obtain ⟨hle, hbefore⟩ := h.free htidy number hnumber
  rw [← Store.isFree_congr h.bare]
  rcases Nat.lt_or_eq_of_le (hle behind hbehind) with hlt | rfl
  · exact hbefore behind hlt
  · exact hfree

/-- Both builders have gone on to the next number, and may have drawn. -/
theorem Beside.goOn (h : b.Beside tidy b') {number behind : Nat} (hnumber : b.nextDrawing = some number)
    (hbehind : b'.nextDrawing = some behind) (hfree : tidy → b.store.IsFree number) (texts texts' : List (Nat × String)) :
    Beside tidy
        { b with
          store := { b.store with drawings := { b.store.drawings with texts } }, nextDrawing := some (number + 1) }
        { b' with
          store := { b'.store with drawings := { b'.store.drawings with texts := texts' } },
          nextDrawing := some (behind + 1) } where
  bare := h.bare
  roots := h.roots
  draws := rfl
  free := by
    intro htidy
    obtain ⟨hle, hbefore⟩ := h.free htidy number hnumber
    rintro _ ⟨⟩
    refine ⟨?_, fun i hi => ?_⟩
    · rintro _ ⟨⟩
      exact Nat.succ_le_succ (hle behind hbehind)
    · rcases Nat.lt_or_eq_of_le (Nat.le_of_lt_succ hi) with hlt | rfl
      · exact hbefore i hlt
      · exact hfree htidy

/-- Both draw, and the second one can draw if the first one can. -/
theorem Beside.snapshot (h : b.Beside tidy b') (p : Property σ) :
    Change.Alike (fun a a' => a.Beside tidy a' ∧ a.renew = b.renew) (Fault.Stops tidy) (Fault.StopsNew tidy)
      (Builder.snapshot p b) (Builder.snapshot p b') := by
  rw [Builder.snapshot, Change.get_bind_apply, Change.get_bind_apply]
  cases hnumber : b.nextDrawing with
  | none =>
    have hnone : b'.nextDrawing = none := by simpa [hnumber] using h.draws.symm
    rw [hnone]
    exact Change.alike_of_eq ⟨h, rfl⟩
  | some number =>
    obtain ⟨behind, hbehind⟩ : ∃ behind, b'.nextDrawing = some behind :=
      Option.isSome_iff_exists.mp (by rw [← h.draws, hnumber]; rfl)
    have hedges : b.store.keys.mapM b.store.drawEdges = b'.store.keys.mapM b'.store.drawEdges :=
      congrArg (fun s => s.keys.mapM s.drawEdges) h.bare
    have hrenew : { store := b.store.reset.bare, nextDrawing := some 0 } = b.renew := by
      rw [renew, hnumber]
      rfl
    rw [hbehind]
    change Change.Alike _ _ _ ((Store.saveDrawing p.tableau number b.store).1,
        { b with store := (Store.saveDrawing p.tableau number b.store).2, nextDrawing := some (number + 1) })
      ((Store.saveDrawing p.tableau behind b'.store).1,
        { b' with store := (Store.saveDrawing p.tableau behind b'.store).2, nextDrawing := some (behind + 1) })
    cases hdrawn : b'.store.keys.mapM b'.store.drawEdges with
    | error f =>
      rw [Store.saveDrawing_error _ _ hdrawn, Store.saveDrawing_error _ _ (hedges.trans hdrawn)]
      by_cases htidy : tidy
      · exact .inl ⟨f, rfl, (b'.store.failsBy_drawEdges f hdrawn).imp_right fun hf => ⟨htidy, hf⟩⟩
      · exact Change.alike_of_eq ⟨h.goOn hnumber hbehind (fun ht => absurd ht htidy) _ _, hrenew⟩
    | ok edges =>
      obtain ⟨texts, hsave⟩ := Store.saveDrawing_ok p.tableau number (hedges.trans hdrawn)
      obtain ⟨texts', hsave'⟩ := Store.saveDrawing_ok p.tableau behind hdrawn
      rw [hsave, hsave']
      split_ifs with hfolder hfolder' hfolder'
      · exact .inl ⟨_, rfl, .inl trivial⟩
      · exact .inl ⟨_, rfl, .inl trivial⟩
      · refine .inr (.inl ⟨_, rfl, fun htidy => ?_, trivial⟩)
        have hfree := h.isFree htidy hnumber hbehind (Bool.eq_false_iff.mpr hfolder)
        exact Bool.eq_false_iff.mp hfree hfolder'
      · exact Change.alike_of_eq ⟨h.goOn hnumber hbehind (fun _ => Bool.eq_false_iff.mpr hfolder) texts texts', hrenew⟩

theorem companions_beside (p : Property σ) (tidy : Prop) (base : Builder) :
    Companions p (fun b b' => b.Beside tidy b' ∧ b.renew = base) (Fault.Stops tidy) (Fault.StopsNew tidy) where
  bare h := h.1.bare
  onStore {f b b'} hf h := by
    refine ⟨h.1.of_reset ?_ ?_ (hf.reset _), (renew_of_reset (hf.reset _)).trans h.2⟩
    · rw [hf.bare, hf.bare, h.1.bare]
    · rw [hf.roots, hf.roots, h.1.roots]
  warn w _ _ h := ⟨⟨h.1.bare, h.1.roots, h.1.draws, h.1.free⟩, h.2⟩
  snapshot := by
    rintro b b' ⟨h, rfl⟩
    exact h.snapshot p

/-- Once it is reset a builder differs in its drawings from a new one. -/
theorem Beside.reset (h : b.Beside tidy b') : Beside tidy { b with store := b.store.reset } b.renew where
  bare := rfl
  roots := rfl
  draws := by cases hnumber : b.nextDrawing <;> simp [renew, hnumber]
  free := by
    intro htidy number hnumber
    refine ⟨fun behind hbehind => ?_, (h.free htidy number hnumber).2⟩
    obtain ⟨_, -, rfl⟩ := Option.map_eq_some_iff.mp hbehind
    exact Nat.zero_le number

end Builder

/-! ### Monitors -/

variable {σ : Type} {tidy : Prop}

namespace Monitor

variable {w w' : Monitor σ}

/-- The monitor as it was when it was new. -/
def renew (w : Monitor σ) : Monitor σ := ⟨w.property, w.builder.renew⟩

/-- Monitors of the same property that differ in their drawings. -/
structure Beside (tidy : Prop) (w w' : Monitor σ) : Prop where
  property : w'.property = w.property
  builder : w.builder.Beside tidy w'.builder

theorem Beside.markChecked (h : w.Beside tidy w') :
    (w.mapStore Store.markChecked).Beside tidy (w'.mapStore Store.markChecked) := by
  refine ⟨h.property, h.builder.of_reset ?_ h.builder.roots rfl⟩
  exact congrArg Store.markChecked h.builder.bare

theorem Beside.addInitial (h : w.Beside tidy w') (s : σ) (fp : Fingerprint) :
    (w.addInitial s fp).Beside tidy (w'.addInitial s fp) := by
  refine ⟨h.property, h.builder.of_reset ?_ ?_ ?_⟩
  · rw [Builder.addInitial_eq_addRoots, Builder.addInitial_eq_addRoots, h.property]
    exact Store.bare_addRoots_congr _ h.builder.bare
  · rw [Builder.addInitial_eq_addRoots, Builder.addInitial_eq_addRoots, h.property]
    exact Store.roots_addRoots_congr _ h.builder.roots
  · rw [Builder.addInitial_eq_addRoots]
    exact Store.reset_addRoots _ _

theorem renew_addInitial (w : Monitor σ) (s : σ) (fp : Fingerprint) : (w.addInitial s fp).renew = w.renew := by
  refine congrArg (Monitor.mk w.property) (Builder.renew_of_reset ?_)
  rw [Builder.addInitial_eq_addRoots]
  exact Store.reset_addRoots _ _

variable [ModelState σ]

theorem Beside.addNext (h : w.Beside tidy w') (m : Model σ) (s : σ) (fp : Fingerprint) (successors : List σ)
    (revisits : Bool) :
    Change.Alike (fun v v' => v.Beside tidy v' ∧ v.renew = w.renew) (Fault.Stops tidy) (Fault.StopsNew tidy)
      (addNext m s fp successors revisits w) (addNext m s fp successors revisits w') := by
  rw [addNext_apply, addNext_apply, h.property]
  cases w.property.evaluate s successors with
  | error d => exact Change.alike_of_eq ⟨h, rfl⟩
  | ok checks =>
    -- what the builder was like when it was new is the same before and after, so it can be fixed here
    have hbuild := (Builder.companions_beside w.property tidy w.builder.renew).addNext m fp successors checks revisits
      w.builder w'.builder ⟨h.builder, rfl⟩
    dsimp only
    rw [addChecked_apply, addChecked_apply, h.property]
    refine hbuild.imp_right (.imp_right ?_)
    rintro ⟨hresult, hbuilder, hrenew⟩
    exact ⟨hresult, ⟨rfl, hbuilder⟩, congrArg (Monitor.mk w.property) hrenew⟩

end Monitor

/-! ### Checkers -/

theorem map_eq_of_forall₂ {α β γ : Type} {R : α → β → Prop} {f : α → γ} {g : β → γ} {xs : List α} {ys : List β}
    (h : List.Forall₂ R xs ys) (hR : ∀ x y, R x y → f x = g y) : xs.map f = ys.map g := by
  induction h with
  | nil => rfl
  | cons hxy _ ih => rw [List.map_cons, List.map_cons, hR _ _ hxy, ih]

namespace Checker

variable {base c c' : Checker σ}

/-- The checker as it was when it was new. -/
def renew (c : Checker σ) : Checker σ where
  monitors := c.monitors.map Monitor.renew
  config := c.config

/-- Checkers of the same properties that differ in their drawings, warnings and signals. The first one was
like `base` when it was new. -/
structure Beside (tidy : Prop) (base c c' : Checker σ) : Prop where
  config : c'.config = c.config
  monitors : List.Forall₂ (Monitor.Beside tidy) c.monitors c'.monitors
  renew : c.renew = base

theorem Beside.of_monitors (h : Beside tidy base c c') {d d' : Checker σ} (hconfig : d.config = c.config)
    (hconfig' : d'.config = c'.config) (hmonitors : List.Forall₂ (Monitor.Beside tidy) d.monitors d'.monitors)
    (hrenew : d.monitors.map Monitor.renew = c.monitors.map Monitor.renew) : Beside tidy base d d' where
  config := hconfig'.trans (h.config.trans hconfig.symm)
  monitors := hmonitors
  renew := by rw [← h.renew, Checker.renew, Checker.renew, hconfig, hrenew]

/-- The same is done to all monitors. -/
theorem Beside.map (h : Beside tidy base c c') {f : Monitor σ → Monitor σ}
    (hf : ∀ w w', w.Beside tidy w' → (f w).Beside tidy (f w')) (hrenew : ∀ w, (f w).renew = w.renew) :
    Beside tidy base { c with monitors := c.monitors.map f } { c' with monitors := c'.monitors.map f } := by
  refine h.of_monitors rfl rfl ?_ ?_
  · exact List.forall₂_map_left_iff.mpr (List.forall₂_map_right_iff.mpr (h.monitors.imp hf))
  · rw [List.map_map]
    exact List.map_congr_left fun w _ => hrenew w

theorem Beside.gather (h : Beside tidy base c c') : Beside tidy base (Checker.gather c) (Checker.gather c') := by
  have hmap := h.map (f := fun w => { w with builder := { w.builder with warnings := [] } })
    (fun _ _ hw => ⟨hw.property, hw.builder.bare, hw.builder.roots, hw.builder.draws, hw.builder.free⟩) fun _ => rfl
  exact ⟨hmap.config, hmap.monitors, hmap.renew⟩

/-- The steps are added to the monitors of both in the same way. -/
theorem alike_addSteps {f : Change (Monitor σ) (Option Lasso)}
    (hf : ∀ w w', w.Beside tidy w' → Change.Alike (fun v v' => v.Beside tidy v' ∧ v.renew = w.renew) (Fault.Stops tidy)
      (Fault.StopsNew tidy) (f w) (f w')) {ws ws' : List (Monitor σ)} (h : List.Forall₂ (Monitor.Beside tidy) ws ws') :
    Change.Alike (fun vs vs' => List.Forall₂ (Monitor.Beside tidy) vs vs' ∧ vs.map Monitor.renew = ws.map Monitor.renew)
      (Fault.Stops tidy) (Fault.StopsNew tidy) (addSteps f ws) (addSteps f ws') := by
  induction h with
  | nil => exact Change.alike_of_eq ⟨.nil, rfl⟩
  | @cons w w' ws ws' hw hws ih =>
    obtain ⟨e, he, hE⟩ | ⟨e, he, hE⟩ | ⟨hresult, hbeside, hrenew⟩ := hf w w' hw
    · exact .inl ⟨e, by rw [addSteps, Change.eq_of_fst he], hE⟩
    · exact .inr (.inl ⟨e, by rw [addSteps, Change.eq_of_fst he], hE⟩)
    have hfirst : ∀ {vs : List (Monitor σ)}, vs.map Monitor.renew = ws.map Monitor.renew →
        ((f w).2 :: vs).map Monitor.renew = (w :: ws).map Monitor.renew := by
      intro vs hvs
      rw [List.map_cons, List.map_cons, hrenew, hvs]
    rcases hv : f w with ⟨e | _ | lasso, v⟩ <;> rw [hv] at hresult hbeside hfirst
    · rw [addSteps, addSteps, hv, Change.eq_of_fst hresult.symm]
      exact Change.alike_of_eq ⟨.cons hbeside hws, hfirst rfl⟩
    · rw [addSteps, addSteps, hv, Change.eq_of_fst hresult.symm]
      exact ih.imp_right (.imp_right fun hrest => ⟨hrest.1, .cons hbeside hrest.2.1, hfirst hrest.2.2⟩)
    · rw [addSteps, addSteps, hv, Change.eq_of_fst hresult.symm, hw.property]
      exact Change.alike_of_eq ⟨.cons hbeside hws, hfirst rfl⟩

theorem Beside.totalSize (h : Beside tidy base c c') : c'.totalSize = c.totalSize := by
  have hsizes : c.sizes = c'.sizes :=
    map_eq_of_forall₂ h.monitors fun w w' hw => (congrArg Store.size hw.builder.bare :)
  rw [Checker.totalSize, Checker.totalSize, hsizes]

theorem Beside.nameOf (h : Beside tidy base c c') : c'.nameOf = c.nameOf := by
  have hnames : c.monitors.map (·.property.name) = c'.monitors.map (·.property.name) :=
    map_eq_of_forall₂ h.monitors fun w w' hw => by rw [hw.property]
  funext i
  rw [Checker.nameOf, Checker.nameOf, ← List.getElem?_map, ← List.getElem?_map, hnames]

/-- The searches of both come to the same. -/
theorem Beside.round (h : Beside tidy base c c') : c'.round = c.round := by
  have hverdicts : c.monitors.map (fun w => w.store.verdict w.property) =
      c'.monitors.map fun w => w.store.verdict w.property :=
    map_eq_of_forall₂ h.monitors fun w w' hw => by
      rw [hw.property]
      exact Store.verdict_congr hw.builder.bare hw.builder.roots _
  have hverdict : ∀ (c : Checker σ) i, c.verdict i =
      ((c.monitors.map fun w => w.store.verdict w.property)[i]?).getD .clean := by
    intro c i
    rw [Checker.verdict, List.getElem?_map]
    cases c.monitors[i]? <;> rfl
  have hsame : c'.verdict = c.verdict := funext fun i => by rw [hverdict, hverdict, hverdicts]
  rw [Checker.round, Checker.round, hsame, h.config, h.monitors.length_eq]

/-- The checks of both come to the same. -/
theorem Beside.checkWith (h : Beside tidy base c c') (resolve : Resolver σ) :
    Change.Alike (Beside tidy base) (Fault.Stops tidy) (Fault.StopsNew tidy) (Checker.checkWith resolve c)
      (Checker.checkWith resolve c') := by
  rw [Checker.checkWith, Change.get_bind_apply, Change.get_bind_apply, h.totalSize, h.round, h.nameOf]
  refine Change.Alike.bind (Change.Parallel.lift _ _ _ h) fun _ d d' hd => ?_
  rcases c.round with ⟨_ | ⟨⟨i, lasso⟩, violations⟩, failures⟩
  · rcases failures with _ | ⟨⟨i, message⟩, failures⟩
    · exact Change.alike_of_eq (h.map (fun w w' hw => hw.markChecked) fun _ => rfl)
    · exact Change.alike_of_eq hd
  · refine Change.Alike.bind (Change.Parallel.lift _ _ _ hd) fun counterexample d d' hd => ?_
    exact Change.alike_of_eq ⟨hd.config, hd.monitors, hd.renew⟩

/-- Once it is reset a checker differs from a new one in its drawings, warnings and signal. -/
theorem Beside.reset (h : Beside tidy base c c') : Beside tidy base c.reset base where
  config := by
    rw [← h.renew]
    rfl
  monitors := by
    rw [← h.renew]
    refine List.forall₂_map_left_iff.mpr (List.forall₂_map_right_iff.mpr (List.forall₂_same.mpr fun w hw => ?_))
    obtain ⟨w', -, hbeside⟩ := exists_of_forall₂_left h.monitors hw
    exact ⟨rfl, hbeside.builder.reset⟩
  renew := by
    have hmonitors : c.reset.monitors.map Monitor.renew = c.monitors.map Monitor.renew := by
      change (c.monitors.map _).map Monitor.renew = _
      rw [List.map_map]
      refine List.map_congr_left fun w _ => congrArg (Monitor.mk w.property) (Builder.renew_of_reset ?_)
      exact w.builder.store.reset_reset
    rw [← h.renew, Checker.renew, hmonitors]
    rfl

variable [ModelState σ]

theorem parallel_addNextWith (m : Model σ) (resolve : Resolver σ) (s : σ) (fp : Fingerprint) (successors : List σ)
    (revisits : Bool) : Change.Parallel (Beside tidy base) (Fault.Stops tidy) (Fault.StopsNew tidy)
      (addNextWith m resolve s fp successors revisits) := by
  intro c c' h
  have hsteps := alike_addSteps (fun w w' hw => hw.addNext m s fp successors revisits) h.monitors
  rw [addNextWith, Change.get_bind_apply, Change.get_bind_apply]
  generalize addSteps (Monitor.addNext m s fp successors revisits) c.monitors = x at hsteps ⊢
  generalize addSteps (Monitor.addNext m s fp successors revisits) c'.monitors = x' at hsteps ⊢
  obtain ⟨found, ws⟩ := x
  obtain ⟨found', ws'⟩ := x'
  obtain ⟨e, rfl, hE⟩ | ⟨e, rfl, hE⟩ | ⟨rfl, hws, hrenew⟩ := hsteps
  · exact .inl ⟨e, rfl, hE⟩
  · exact .inr (.inl ⟨e, rfl, hE⟩)
  have hadded : Beside tidy base { c with monitors := ws } { c' with monitors := ws' } :=
    h.of_monitors rfl rfl hws hrenew
  refine Change.Alike.bind (Change.alike_of_eq hadded.gather) fun _ d d' hd => ?_
  refine Change.Alike.bind (Change.Parallel.lift _ _ _ hd) fun found d d' hd => ?_
  rcases found with _ | ⟨name, lasso⟩
  · exact Change.alike_of_eq hd
  · refine Change.Alike.bind (Change.Parallel.lift _ _ _ hd) fun counterexample d d' hd => ?_
    have hreport : Change.Alike (Beside tidy base) (Fault.Stops tidy) (Fault.StopsNew tidy) (report d) (report d') :=
      Change.alike_of_eq ⟨hd.config, hd.monitors, hd.renew⟩
    refine hreport.bind fun _ d d' hd => ?_
    exact Change.Alike.bind (Change.Parallel.lift _ _ _ hd) fun violation d d' hd => Change.alike_of_eq hd

theorem parallel_checkTraceHere (m : Model σ) (first : σ) (trace : List σ) :
    Change.Parallel (Beside tidy base) (Fault.Stops tidy) (Fault.StopsNew tidy) (checkTraceHere m first trace) := by
  refine Change.Parallel.bind (.of_modify fun c c' h => ?_) fun _ => Change.Parallel.bind (.forM (fun x => ?_) _)
    fun _ => Change.Parallel.bind (fun c c' h => h.checkWith _) fun r => ?_
  · exact h.map (fun w w' hw => hw.addInitial first _) fun w => w.renew_addInitial first _
  · exact parallel_addNextWith m _ x.1 _ x.2 true
  · cases r with
    | violated counterexample => exact Change.Parallel.bind (.lift _) fun v => .throw _
    | noError => exact .pure ()
    | notApplicable => exact .pure ()

theorem snd_checkTrace {m : Model σ} {first : σ} {rest : List σ}
    (h : ∀ d, (checkTraceHere m first (first :: rest) c).1 ≠ .error (.defect d)) :
    (checkTrace m (first :: rest) c).2 = (checkTraceHere m first (first :: rest) c).2.reset := by
  simp only [checkTrace]
  rcases hhere : checkTraceHere m first (first :: rest) c with ⟨(e | d) | _, c'⟩
  · rfl
  · rw [hhere] at h
    exact absurd rfl (h d)
  · rfl

theorem asTraceFault_of_isUnread {f : Fault} (h : f.IsUnread) : asTraceFault f = f := by
  unfold asTraceFault
  split
  · exact h.elim False.elim False.elim
  · rfl

/-- **A check finds a used checker as it finds a new one, and leaves it so.** -/
theorem Beside.checkTrace (h : Beside tidy base c base) (m : Model σ) (trace : List σ)
    (hused : ∀ f, (Checker.checkTrace m trace c).1 = .error f → ¬ f.IsDefect ∧ ¬ f.Stops tidy)
    (hnew : ∀ f, (Checker.checkTrace m trace base).1 = .error f → ¬ f.StopsNew tidy) :
    (Checker.checkTrace m trace c).1 = (Checker.checkTrace m trace base).1 ∧
      Beside tidy base (Checker.checkTrace m trace c).2 base := by
  cases trace with
  | nil => exact ⟨rfl, h⟩
  | cons first rest =>
    rw [fst_checkTrace] at hused hnew ⊢
    obtain ⟨f, hf, hE⟩ | ⟨f, hf, hE⟩ | ⟨hresult, hbeside⟩ := parallel_checkTraceHere m first (first :: rest) c base h
    · refine absurd hE (hused f ?_).2
      rw [hf]
      exact congrArg Except.error (asTraceFault_of_isUnread (hE.imp_right And.right))
    · refine absurd hE (hnew f ?_)
      rw [hf]
      exact congrArg Except.error (asTraceFault_of_isUnread (.inl hE.2))
    · refine ⟨by rw [fst_checkTrace, hresult], ?_⟩
      rw [snd_checkTrace fun d hd => (hused (.defect d) (by rw [hd]; rfl)).1 trivial]
      exact hbeside.reset

/-! ### Behaviours one after the other -/

/-- Check behaviours one after the other, each with a model: the results, and the checker afterwards. -/
def checkTraces (c : Checker σ) : List (Model σ × List σ) → List (Outcome Unit) × Checker σ
  | [] => ([], c)
  | (m, trace) :: rest =>
    let (result, c) := Checker.checkTrace m trace c
    let (results, c) := c.checkTraces rest
    (result :: results, c)

theorem checkTraces_append (before after : List (Model σ × List σ)) : ∀ c : Checker σ,
    (c.checkTraces (before ++ after)).1 =
      (c.checkTraces before).1 ++ ((c.checkTraces before).2.checkTraces after).1 := by
  induction before with
  | nil => exact fun c => rfl
  | cons x before ih => exact fun c => congrArg (List.cons _) (ih _)

/-- **However many behaviours were checked**, the results are those of a new checker. -/
theorem Beside.checkTraces (calls : List (Model σ × List σ)) : ∀ {c : Checker σ}, Beside tidy base c base →
    (∀ f, .error f ∈ (c.checkTraces calls).1 → ¬ f.IsDefect ∧ ¬ f.Stops tidy) →
    (∀ x ∈ calls, ∀ f, (Checker.checkTrace x.1 x.2 base).1 = .error f → ¬ f.StopsNew tidy) →
    (c.checkTraces calls).1 = calls.map (fun x => (Checker.checkTrace x.1 x.2 base).1) ∧
      Beside tidy base (c.checkTraces calls).2 base := by
  induction calls with
  | nil => exact fun h _ _ => ⟨rfl, h⟩
  | cons x calls ih =>
    intro c h hused hnew
    obtain ⟨m, trace⟩ := x
    rw [Checker.checkTraces] at hused
    obtain ⟨hresult, hbeside⟩ := h.checkTrace m trace (fun f hf => hused f (by rw [← hf]; exact List.mem_cons_self))
      (hnew _ List.mem_cons_self)
    obtain ⟨hresults, hbeside'⟩ := ih hbeside (fun f hf => hused f (List.mem_cons_of_mem _ hf))
      fun x hx => hnew x (List.mem_cons_of_mem _ hx)
    rw [Checker.checkTraces]
    exact ⟨congrArg₂ List.cons hresult hresults, hbeside'⟩

end Checker

/-! ### New checkers -/

namespace Store

theorem Vacant.congr {s s' : Store} (h : s'.Vacant) (hbare : s.bare = s'.bare) (hroots : s.roots = s'.roots) :
    s.Vacant := by
  rw [eq_of_bare hbare hroots]
  exact ⟨h.keys, h.roots, h.isDone, h.size, h.baseline, h.log⟩

theorem vacant_of_create {folder : String} {taken : List String} {index : Nat} {s : Store}
    (h : create folder taken index = .ok s) : s.Vacant ∧ s.reset.bare = s := by
  unfold create at h
  split_ifs at h
  obtain rfl := Except.ok.inj h
  refine ⟨⟨rfl, rfl, fun fp => ?_, rfl, rfl, rfl⟩, ?_⟩
  · simp [isDone, Table.row]
  · simp only [reset, bare, Log.truncate_zero]

end Store

/-- A new monitor is as it will be said to have been when it was new. -/
theorem Monitor.new_of_create {config : Config} {taken : List String} {p : Property σ} {index : Nat} {w : Monitor σ}
    (h : Monitor.create config taken p index = .ok w) :
    w.store.Vacant ∧ w.renew = w ∧ ∀ number ∈ w.builder.nextDrawing, number = 0 := by
  unfold create at h
  cases hs : Store.create config.folder taken index with
  | error f => rw [hs] at h; cases h
  | ok s =>
    obtain ⟨hvacant, hreset⟩ := Store.vacant_of_create hs
    rw [hs] at h
    obtain rfl := Except.ok.inj h
    refine ⟨hvacant, ?_, ?_⟩
    · rw [renew, Builder.renew, hreset]
      cases config.drawing <;> rfl
    · cases config.drawing <;> simp

namespace Checker

variable {ps : List (Property σ)} {config : Config} {taken : List String} {c : Checker σ}

theorem new_of_create (h : Checker.create ps config taken = .ok c) :
    ∀ w ∈ c.monitors, w.store.Vacant ∧ w.renew = w ∧ ∀ number ∈ w.builder.nextDrawing, number = 0 := by
  intro w hw
  obtain ⟨x, -, hx⟩ := exists_of_forall₂_right (forall₂_of_create h) hw
  exact Monitor.new_of_create hx

theorem eq_of_create (h : Checker.create ps config taken = .ok c) :
    c = { monitors := c.monitors, config := c.config } := by
  change (ps.zipIdx.mapM (fun x => Monitor.create config taken x.1 x.2) >>= _) = _ at h
  cases hws : ps.zipIdx.mapM fun x => Monitor.create config taken x.1 x.2 with
  | error f => rw [hws] at h; cases h
  | ok ws =>
    rw [hws] at h
    obtain rfl := Except.ok.inj h
    rfl

theorem beside_of_create (h : Checker.create ps config taken = .ok c) : Beside tidy c c c where
  config := rfl
  monitors := by
    refine List.forall₂_same.mpr fun w hw => ⟨rfl, rfl, rfl, rfl, fun _ number hnumber => ?_⟩
    obtain ⟨-, -, hzero⟩ := new_of_create h w hw
    obtain rfl := hzero number hnumber
    exact ⟨fun behind hbehind => Nat.le_of_eq (hzero behind hbehind), fun i hi => absurd hi (Nat.not_lt_zero i)⟩
  renew := by
    have hmonitors : c.monitors.map Monitor.renew = c.monitors :=
      (List.map_congr_left fun w hw => (new_of_create h w hw).2.1).trans (List.map_id _)
    rw [Checker.renew, hmonitors]
    exact (eq_of_create h).symm

theorem Beside.vacant {c₀ : Checker σ} (h : Beside tidy c₀ c c₀) (hnew : Checker.create ps config taken = .ok c₀) :
    ∀ w ∈ c.monitors, w.store.Vacant := by
  intro w hw
  obtain ⟨w₀, hw₀, hbeside⟩ := exists_of_forall₂_left h.monitors hw
  exact (new_of_create hnew w₀ hw₀).1.congr hbeside.builder.bare hbeside.builder.roots

variable [ModelState σ]

/-- **The check of a behaviour leaves nothing behind**: one after the other, behaviours are checked as by a
new checker, and after each of them all graphs are empty. This holds of all properties and models and
whatever the results are, as long as there is no defect and no file fails. If a record was damaged, no
file must fail on the new checker either. -/
theorem checkTraces_as_new (hcreate : Checker.create ps config taken = .ok c) (calls : List (Model σ × List σ))
    (hused : ∀ f, .error f ∈ (c.checkTraces calls).1 → ¬ f.IsFile ∧ ¬ f.IsDefect)
    (hnew : (∃ f, .error f ∈ (c.checkTraces calls).1 ∧ f.IsDamage) →
      ∀ x ∈ calls, ∀ f, (checkTrace x.1 x.2 c).1 = .error f → ¬ f.IsFile) :
    (c.checkTraces calls).1 = calls.map (fun x => (checkTrace x.1 x.2 c).1) ∧
      ∀ done, done <+: calls → ∀ w ∈ (c.checkTraces done).2.monitors, w.store.Vacant := by
  let tidy : Prop := ¬ ∃ f, .error f ∈ (c.checkTraces calls).1 ∧ f.IsDamage
  have hstart : Beside tidy c c c := beside_of_create hcreate
  have hstops : ∀ f, .error f ∈ (c.checkTraces calls).1 → ¬ f.IsDefect ∧ ¬ f.Stops tidy := by
    intro f hf
    refine ⟨(hused f hf).2, ?_⟩
    rintro (hfile | ⟨htidy, hdamage⟩)
    · exact (hused f hf).1 hfile
    · exact htidy ⟨f, hf, hdamage⟩
  have hstopsNew : ∀ x ∈ calls, ∀ f, (checkTrace x.1 x.2 c).1 = .error f → ¬ f.StopsNew tidy := by
    rintro x hx f hf ⟨hdamage, hfile⟩
    exact hnew (not_not.mp hdamage) x hx f hf hfile
  refine ⟨(hstart.checkTraces calls hstops hstopsNew).1, ?_⟩
  rintro done ⟨rest, rfl⟩
  refine (hstart.checkTraces done (fun f hf => hstops f ?_) fun x hx => hstopsNew x ?_).2.vacant hcreate
  · rw [checkTraces_append]
    exact List.mem_append_left _ hf
  · exact List.mem_append_left _ hx

/-- A behaviour that violates the property with one model and not with another, and one without states. -/
def roundCalls : List (Model Counter × List Counter) :=
  [(Counter.model, [⟨0⟩, ⟨1⟩]), (Counter.still, []), (Counter.still, [⟨0⟩, ⟨1⟩])]

theorem checkTraces_as_new_rounds :
    Checker.create [Counter.rounds] { folder := "" } [] = .ok ofRounds ∧
      (∃ v, (ofRounds.checkTraces roundCalls).1 =
          [.error (.error (.traceViolated v)), .error (.error .emptyTrace), .ok ()] ∧
        roundCalls.map (fun x => (checkTrace x.1 x.2 ofRounds).1) =
          [.error (.error (.traceViolated v)), .error (.error .emptyTrace), .ok ()]) ∧
      ∀ w ∈ (ofRounds.checkTraces roundCalls).2.monitors, w.store.Vacant := by
  have hcreate : Checker.create [Counter.rounds] { folder := "" } [] = .ok ofRounds := rfl
  have hresults : (ofRounds.checkTraces roundCalls).1 = [.error (.error (.traceViolated ⟨"rounds", [0, 1], .backTo 0,
      "Temporal property 'rounds' is violated by the behavior:\nState 1:\n0\n\nState 2:\n1\n\nBack to state 1"⟩)),
      .error (.error .emptyTrace), .ok ()] := by
    decide +kernel
  have hfaults : ∀ f, .error f ∈ (ofRounds.checkTraces roundCalls).1 → ¬ f.IsFile ∧ ¬ f.IsDefect ∧ ¬ f.IsDamage := by
    intro f hf
    rw [hresults] at hf
    obtain rfl | rfl : f = _ ∨ f = _ := by simpa using hf
    · exact ⟨id, id, id⟩
    · exact ⟨id, id, id⟩
  obtain ⟨hsame, hvacant⟩ := checkTraces_as_new hcreate roundCalls (fun f hf => ⟨(hfaults f hf).1, (hfaults f hf).2.1⟩)
    fun hdamage => hdamage.elim fun f hf => absurd hf.2 (hfaults f hf.1).2.2
  exact ⟨hcreate, ⟨_, hresults, hsame ▸ hresults⟩, hvacant roundCalls List.prefix_rfl⟩

end Checker

end Liveness

import Liveness.Proofs.Builder.Rules
import Liveness.Proofs.Store.Edit

/-!
# What every expansion keeps

An expansion records nodes, writes nodes, marks states and draws the graph; it does nothing else
to the store. What these four keep is kept by every part of the building, whatever comes of it:
also if a part ends with a fault in the midst of a node.

So the log only grows. What is proved of a part for a log that fits holds of it without that
condition, if it is claimed only for the case that the log fits in the end (`meets_under`).
-/

namespace Liveness

/-- What all changes of a store keep that an expansion makes. -/
structure Store.Kept (I : Store → Prop) : Prop where
  record : ∀ s k parent, I s → I (s.record k parent)
  addNode : ∀ s n, I s → I (s.addNode n)
  setDone : ∀ s fp, I s → I (s.setDone fp)
  draw : ∀ s d, I s → I { s with drawings := d }

namespace Builder

open Store (Kept)

variable {σ : Type} {I : Store → Prop} {b : Builder} {p : Property σ} {m : Model σ} {t : Tableau σ}

/-- The computation keeps `I`, with a result or without. -/
def Keeps {α : Type} (I : Store → Prop) (c : Build α) (b : Builder) : Prop :=
  I b.store → c.Meets b (fun _ b' => I b'.store) (fun _ b' => I b'.store)

theorem keeps_link (hI : Kept I) (n : Node) (target : Key) (width : Nat) (row : Bits) (offset hint : Except Defect Nat)
    (origin : Key) : Keeps I (link n target width row offset hint origin) b := fun h =>
  meets_link (fun _ _ => h) (fun _ _ _ _ _ _ _ => hI.record _ _ _ h) fun _ _ _ => h

theorem keeps_snapshot (hI : Kept I) (p : Property σ) : Keeps I (snapshot p) b := fun h =>
  meets_snapshot (fun d _ _ _ => hI.draw _ d h) (fun _ _ _ _ => h) fun _ _ _ _ => h

theorem keeps_write (hI : Kept I) (p : Property σ) (n : Node) :
    Keeps I (onStore (fun s => s.addNode n) >>= fun _ => snapshot p) b := by
  intro h
  refine (meets_onStore _).bind ?_
  rintro _ b' rfl
  exact keeps_snapshot hI p (hI.addNode _ n h)

theorem keeps_keep (hI : Kept I) (p : Property σ) (n : Node) (before : Nat) (revisits : Bool) :
    Keeps I (keep p n before revisits) b := fun h =>
  meets_keep (fun _ => keeps_write hI p n.trim h) fun _ _ _ => ⟨fun _ => h, fun _ => h⟩

theorem keeps_stutter (hI : Kept I) (e : Expansion σ) (row : Bits) (total : Nat) (points : List (UInt32 × Nat))
    (g : Growth σ) : Keeps I (stutter p t e row total points g) b := by
  intro h
  refine meets_stutter (P := fun _ _ (b' : Builder) => I b'.store) (fun _ _ _ _ _ _ h _ => h) (fun _ _ _ h => h)
    (fun x _ _ _ _ _ n _ b' h => ?_) (fun _ _ h => h) g b h
  exact (keeps_link hI n ⟨e.key.fp, x.1⟩ p.width row (.ok 0) (subWords total x.2) e.key h).imp fun _ _ h =>
    ⟨fun _ => h, fun _ => h⟩

/-! ### Nodes that turned up late -/

variable [ModelState σ]

theorem keeps_lateSteps (hI : Kept I) (e : Expansion σ) (points : List UInt32) (total : Nat) (g : Growth σ) (x : σ × Nat) :
    Keeps I (lateSteps p t e points total g x) b := by
  intro h
  refine meets_lateSteps (Change.meets_foldlM_mem (P := fun _ (b' : Builder) => I b'.store)
    (fun y _ g b' h => ?_) g b h)
  exact meets_lateStep (fun _ _ => h) (fun _ _ _ => keeps_link hI _ _ _ _ _ _ _ h) fun _ _ _ => h

theorem keeps_expandOne (hI : Kept I) (e : Expansion σ) (work : List (Expansion σ)) :
    Keeps I (expandOne p m t e work) b := by
  intro h
  refine meets_expandOne (fun _ _ => h) (fun _ _ => h) fun tnode n _ _ => ?_
  refine (keeps_stutter hI e _ _ _ _ h).imp fun r b' h => ?_
  refine ⟨fun _ => ⟨fun _ => hI.addNode _ _ h, fun _ => h⟩, fun _ => ?_⟩
  refine (Change.meets_foldlM_mem (P := fun _ (b' : Builder) => I b'.store)
    (fun x _ g b' h => keeps_lateSteps hI e _ _ g x h) r.1 b' h).imp fun g b'' h => ?_
  exact ⟨fun _ => keeps_write hI p g.1.trim h, fun _ => h⟩

theorem keeps_expandLate (hI : Kept I) (work : List (Expansion σ)) : Keeps I (expandLate p m t work) b := by
  intro h
  refine meets_expandLate (meets_expandAll (I := fun _ _ (b' : Builder) => I b'.store) (fun _ _ h => h)
    (fun _ _ _ h => h) (fun _ e work b' h => ?_) _ work b h)
  exact (keeps_expandOne hI e work h).imp fun _ _ h => ⟨fun _ _ => h, fun _ _ => h⟩

/-! ### Nodes of the state that is expanded -/

variable {fp : Fingerprint} {successors : List σ} {checks : StepChecks}

theorem keeps_nextSteps (hI : Kept I) (batch : Batch σ) (used : Nat) (points : List UInt32) (g : Growth σ) (x : σ × Nat) :
    Keeps I (nextSteps batch used points g x) b := by
  intro h
  refine meets_nextSteps (Change.meets_foldlM_mem (P := fun _ (b' : Builder) => I b'.store)
    (fun y _ g b' h => ?_) g b h)
  exact meets_nextStep (fun _ => keeps_link hI _ _ _ _ _ _ _ h) fun _ => h

theorem keeps_expandPoint (hI : Kept I) (batch : Batch σ) (fp : Fingerprint) (revisits : Bool) (work : List (Expansion σ))
    (x : UInt32 × Nat) : Keeps I (expandPoint p t batch fp revisits work x) b := by
  intro h
  refine meets_expandPoint (fun _ _ => h) (fun _ _ => h) fun tnode n _ _ => ?_
  refine (Change.meets_foldlM_mem (P := fun _ (b' : Builder) => I b'.store)
    (fun y _ g b' h => keeps_nextSteps hI batch _ _ g y h) _ b h).imp fun g b' h => ?_
  exact keeps_keep hI p g.1 n.degree revisits h

theorem keeps_expandState (hI : Kept I) (fp : Fingerprint) (successors : List σ) (checks : StepChecks) (revisits : Bool) :
    Keeps I (expandState p t fp successors checks revisits) b := by
  intro h
  refine meets_expandState (fun _ _ => h) fun consistent _ => ?_
  exact Change.meets_foldlM_mem (P := fun _ (b' : Builder) => I b'.store)
    (fun x _ work b' h => keeps_expandPoint hI _ fp revisits work x h) [] _ (hI.setDone _ fp h)

omit [ModelState σ] in
theorem keeps_answer (violation : Option Key) : Keeps I (answer violation) b := fun h =>
  meets_answer (fun _ => h) (fun _ _ _ _ => h) fun _ _ _ _ _ _ => h

/-- **Whatever becomes of an expansion**, it keeps what the changes of the store keep. -/
theorem keeps_addNext (hI : Kept I) (p : Property σ) (m : Model σ) (fp : Fingerprint) (successors : List σ)
    (checks : StepChecks) (revisits : Bool) : Keeps I (addNext p m fp successors checks revisits) b := by
  intro h
  refine meets_addNext (fun t _ => meets_addProduct ?_) fun _ => meets_addPlain (fun _ _ => hI.setDone _ fp h) fun n _ => ?_
  · refine (keeps_expandState hI fp successors checks revisits h).imp fun work b' h => ?_
    exact (keeps_expandLate hI work h).imp fun violation b'' h => keeps_answer violation h
  · refine (Change.meets_foldlM_mem (P := fun _ (b' : Builder) => I b'.store) (fun x _ n' b' h => ?_) _ _
      (hI.setDone _ fp h)).imp fun n' b' h => keeps_keep hI p n' n.degree revisits h
    exact meets_plainStep (keeps_link hI _ _ _ _ _ _ _ h)

end Builder

/-! ### The log grows -/

namespace Store

/-- The store goes on from `s₀`. -/
theorem kept_grows (s₀ : Store) : Kept s₀.Grows where
  record := fun _ k parent h => h.trans (grows_edit h.whole (.record k parent))
  addNode := fun _ n h => h.trans (grows_edit h.whole (.addNode n))
  setDone := fun _ fp h => h.trans (grows_edit h.whole (.setDone fp))
  draw := fun _ _ h => ⟨h.whole, h.log, h.checkpoint⟩

/-- The log is whole, and if it fits then `J` holds. -/
structure Under (s : Store) (J : Prop) : Prop where
  whole : s.log.Whole
  fits : s.log.Fits → J

theorem Under.grow {s s' : Store} {J J' : Prop} (h : s.Under J) (hgrows : s.Grows s') (hJ : J → s'.log.Fits → J') :
    s'.Under J' :=
  ⟨hgrows.whole, fun hfits => hJ (h.fits (hfits.of_isPrefix hgrows.log)) hfits⟩

theorem under_addNode {s : Store} (h : s.log.Whole) (n : Node) : (s.addNode n).Under (s.addNode n).log.Fits :=
  ⟨(grows_edit h (.addNode n)).whole, id⟩

end Store

/-- A part of the building is proved for a log that fits, and claimed if it fits in the end. -/
theorem Builder.meets_under {α : Type} {c : Build α} {b : Builder} {J : Prop} {Q : α → Builder → Prop}
    {E : Fault → Builder → Prop} (h : b.store.Under J) (hgrows : ∀ s₀ : Store, Keeps s₀.Grows c b)
    (hspec : J → c.Meets b (fun a b' => b'.store.log.Fits → Q a b') (fun f b' => b'.store.log.Fits → E f b')) :
    c.Meets b (fun a b' => b'.store.Under (Q a b')) (fun f b' => b'.store.log.Fits → E f b') := by
  have hgrown := hgrows b.store (.refl h.whole)
  by_cases hfits : b.store.log.Fits
  · exact (hgrown.and (hspec (h.fits hfits))).mono (fun a b' hb' => ⟨hb'.1.whole, hb'.2⟩) fun f b' hb' => hb'.2
  · exact hgrown.mono (fun a b' hb' => ⟨hb'.whole, fun hfits' => absurd (hfits'.of_isPrefix hb'.log) hfits⟩)
      fun f b' hb' hfits' => absurd (hfits'.of_isPrefix hb'.log) hfits

end Liveness

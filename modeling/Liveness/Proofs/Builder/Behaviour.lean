import Liveness.Proofs.Lasso
import Liveness.Proofs.Store.Path
import Liveness.Proofs.Builder.Lawful

/-!
# Behaviours of lawful graphs

In a lawful graph a node was first reached from one with a step to it, so the path to a
node is one of the model, states that stay as they are aside. A lasso that is made from
such a path and a cycle of steps is a behaviour of the model.
-/

namespace Liveness.Exploration

variable {σ : Type} [ModelState σ] (X : Exploration σ)

/-- A step of the model leads from a state with the one fingerprint to a state with the other. -/
def Leads (a b : Fingerprint) : Prop :=
  ∃ s t, X.states s ∧ t ∈ X.model.next s ∧ fingerprint s = a ∧ fingerprint t = b

/-- The lasso is a behaviour of the model. -/
structure IsBehaviour (l : Lasso) : Prop where
  start : ∃ s, X.states s ∧ X.starts s ∧ l.path.head? = some (fingerprint s)
  follows : l.Follows X.Leads

/-- The path starts where behaviours do and follows the model, in which a state may stay as
it is. -/
structure IsTrail (path : List Fingerprint) : Prop where
  start : ∃ s, X.states s ∧ X.starts s ∧ path.head? = some (fingerprint s)
  chain : path.IsChain fun a b => a = b ∨ X.Leads a b

variable {X} {s : Store} {k : Key}

theorem IsStep.leads {e : Step} (h : X.IsStep k e) : k.fp = e.target.fp ∨ X.Leads k.fp e.target.fp := by
  obtain ⟨s, t, hs, ht, rfl | hnext, -⟩ := h
  · exact .inl (hs.2.symm.trans ht.2)
  · exact .inr ⟨s, t, hs.1, hnext, hs.2, ht.2⟩

theorem Lawful.isTrail (h : X.Lawful s) {ks : List Key} (hks : s.IsDescent ks) : X.IsTrail (ks.map Key.fp) := by
  refine ⟨?_, ?_⟩
  · obtain ⟨k, hk, n, hn, hparent⟩ := hks.root
    have hstart := (h.admits k n hn).parent
    rw [hparent] at hstart
    obtain ⟨t, ht, hstarts⟩ := hstart
    exact ⟨t, ht.1, hstarts, by rw [List.head?_map, hk, ht.2]; rfl⟩
  · refine List.isChain_map_of_isChain Key.fp (fun q k hk => ?_) hks.chain
    obtain ⟨n, hn, hparent⟩ := hk
    have hstep := (h.admits k n hn).parent
    rw [hparent] at hstep
    obtain ⟨actions, hstep⟩ := hstep
    exact hstep.leads

/-- **The path to a node is one of the model**, if it can be put together. -/
theorem Lawful.pathTo (h : X.Lawful s) (k : Key) :
    (∃ path, s.pathTo k = .ok path ∧ path.getLast? = some k.fp ∧ X.IsTrail path) ∨
      ∃ f, s.pathTo k = .error f ∧ ¬ f.IsCounterexample := by
  rcases Store.pathTo_spec h.intact k with ⟨ks, hpath, hlast, hks⟩ | herror
  · exact .inl ⟨_, hpath, by rw [List.getLast?_map, hlast]; rfl, h.isTrail hks⟩
  · exact .inr herror

/-- A trail and a cycle from its end make a behaviour. -/
theorem IsTrail.isBehaviour {path cycle : List Fingerprint} (h : X.IsTrail path)
    (hcycle : cycle.IsChain fun a b => a = b ∨ X.Leads a b) {l : Lasso} (hl : Lasso.ofCycle path cycle = .ok l) :
    X.IsBehaviour l := by
  obtain ⟨start, hstart, hhead, hlast⟩ := Lasso.ofCycle_eq_ok hl
  obtain ⟨rest, rfl⟩ := List.head?_eq_some_iff.mp hhead
  have hchain : (path ++ rest).IsChain fun a b => a = b ∨ X.Leads a b := by
    refine List.isChain_append.mpr ⟨h.chain, (List.isChain_cons.mp hcycle).2, fun a ha b hb => ?_⟩
    obtain rfl : start = a := Option.some.inj (hstart.symm.trans ha)
    exact (List.isChain_cons.mp hcycle).1 b hb
  obtain ⟨hfollows, hstart⟩ := Lasso.ofCycle_follows hchain hl
  obtain ⟨s, hs, hstarts, hs'⟩ := h.start
  exact ⟨⟨s, hs, hstarts, hstart.trans hs'⟩, hfollows⟩

end Liveness.Exploration

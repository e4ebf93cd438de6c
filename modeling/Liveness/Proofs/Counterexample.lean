import Liveness.Counterexample
import Liveness.Proofs.Builder.Behaviour
import Liveness.Proofs.Cycle.Search

/-!
# Counterexamples as behaviours

A counterexample is a behaviour of the model if it starts in an initial state, goes on
along the steps of the model and, if it goes back to one of its states, does that along a
step as well. The search of a lawful graph only finds lassos that are behaviours, and the
states of such a lasso are found when the model is followed along it.
-/

namespace Liveness

variable {σ : Type}

/-- The counterexample is a behaviour of the model. -/
structure Counterexample.IsBehaviour (m : Model σ) (c : Counterexample σ) : Prop where
  start : ∃ s ∈ m.initial, c.states.head? = some s
  chain : c.states.IsChain fun s t => t ∈ m.next s
  closing : ∀ i, c.ending = .backTo i → ∃ s t, c.states[i]? = some s ∧ c.states.getLast? = some t ∧ s ∈ m.next t

variable [ModelState σ] {X : Exploration σ}

/-! ### Following the model -/

namespace Counterexample

theorem withFingerprint?_eq_some {states : List σ} {s : σ} (hs : s ∈ states)
    (hunique : ∀ t ∈ states, fingerprint t = fingerprint s → t = s) :
    withFingerprint? states (fingerprint s) = some s := by
  cases hfind : withFingerprint? states (fingerprint s) with
  | none => exact absurd (List.find?_eq_none.mp hfind s hs) (by simp)
  | some t =>
    have ht := hunique t (List.mem_of_find?_eq_some hfind) (by simpa using List.find?_some hfind)
    rw [ht]

/-- **The model is followed along its own steps**: the states that are found are those the
steps lead to. -/
theorem follow_spec {fps : List Fingerprint} : ∀ {s : σ}, X.states s → (fingerprint s :: fps).IsChain X.Leads →
    ∃ ts, follow X.model s fps = .ok ts ∧ ts.map fingerprint = fps ∧ (∀ t ∈ ts, X.states t) ∧
      (s :: ts).IsChain fun s t => t ∈ X.model.next s := by
  induction fps with
  | nil => exact fun _ _ => ⟨[], rfl, rfl, by simp, by simp⟩
  | cons fp fps ih =>
    intro s hs hchain
    obtain ⟨⟨s', t, hs', ht, hfp, rfl⟩, hrest⟩ := List.isChain_cons_cons.mp hchain
    obtain rfl := X.faithful.injective s' s hs' hs hfp
    have hstates := X.faithful.next_mem s' hs
    obtain ⟨ts, hts, hpath, hall, hsteps⟩ := ih (hstates t ht) hrest
    refine ⟨t :: ts, ?_, by rw [List.map_cons, hpath], ?_, List.isChain_cons_cons.mpr ⟨ht, hsteps⟩⟩
    · rw [follow]
      split_ifs with hstay
      · obtain rfl := X.faithful.injective s' t hs (hstates t ht) hstay
        simp only [hts, bind, Except.bind, pure, Except.pure]
      · rw [withFingerprint?_eq_some ht fun u hu => X.faithful.injective u t (hstates u hu) (hstates t ht)]
        simp only [hts, bind, Except.bind, pure, Except.pure]
    · rintro u (_ | ⟨_, hu⟩)
      · exact hstates t ht
      · exact hall u hu

/-- **The counterexample of a behaviour**: its states are found, and they are a behaviour. -/
theorem exists_ofLasso {l : Lasso} (h : X.IsBehaviour l) (hinitial : ∀ s, X.starts s ↔ s ∈ X.model.initial)
    (hstates : ∀ s ∈ X.model.initial, X.states s) (name : String) :
    ∃ c, ofLasso (replay X.model) name l = .ok c ∧ c.IsBehaviour X.model := by
  obtain ⟨s, hs, hstart, hhead⟩ := h.start
  rw [hinitial] at hstart
  obtain ⟨fps, hpath⟩ := List.head?_eq_some_iff.mp hhead
  have hchain := h.follows.chain
  rw [hpath] at hchain
  obtain ⟨ts, hts, hfps, hall, hsteps⟩ := follow_spec hs hchain
  have hfound : withFingerprint? X.model.initial (fingerprint s) = some s :=
    withFingerprint?_eq_some hstart fun t ht => X.faithful.injective t s (hstates t ht) hs
  have hmap : l.path = (s :: ts).map fingerprint := by rw [hpath, List.map_cons, hfps]
  have hmem : ∀ t ∈ s :: ts, X.states t := by simpa using ⟨hs, hall⟩
  refine ⟨⟨name, s :: ts, l.ending⟩, ?_, ⟨s, hstart, rfl⟩, hsteps, fun i hi => ?_⟩
  · have hreplay : replay X.model l.path = .ok (s :: ts) := by
      rw [hpath, replay, hfound]
      simp only [hts, bind, Except.bind, pure, Except.pure]
    rw [ofLasso, hreplay]
    rfl
  · obtain ⟨a, b, ha, hb, u, v, hu, hv, rfl, rfl⟩ := h.follows.closing i hi
    rw [hmap, List.getElem?_map, Option.map_eq_some_iff] at ha
    rw [hmap, List.getLast?_map, Option.map_eq_some_iff] at hb
    obtain ⟨x, hx, hxv⟩ := ha
    obtain ⟨y, hy, hyu⟩ := hb
    obtain rfl := X.faithful.injective y u (hmem y (List.mem_of_getLast? hy)) hu hyu
    obtain rfl := X.faithful.injective x v (hmem x (List.mem_of_getElem? hx)) (X.faithful.next_mem y hu v hv) hxv
    exact ⟨x, y, hx, hy, hv⟩

end Counterexample

/-! ### What the search finds -/

namespace Exploration

variable {s : Store}

theorem Lawful.isStep (h : X.Lawful s) {k : Key} {e : Step} (he : s.HasStep k e) : X.IsStep k e := by
  obtain ⟨hw, n, hn, hmem⟩ := he
  exact (h.admits k n ⟨Store.isUnseen_of_isWritten hw, hn⟩).step e hmem

theorem Lawful.isKey_of_reachable (h : X.Lawful s) {k : Key} (hk : s.Reachable k) : X.IsKey k := by
  induction hk with
  | root hk => exact h.root _ hk
  | step _ he _ => exact (h.isStep he).isKey

theorem Lawful.not_broken (h : X.Lawful s) : ¬ Arena.Broken s X.property := by
  refine Store.not_broken (fun k _ _ => ?_) fun t ht k hk => ?_
  · obtain ⟨n, hn, -⟩ := h.intact.exists_node k
    exact ⟨n, hn⟩
  · have hpoint := (h.isKey_of_reachable hk).1
    rwa [Property.IsPoint, ht] at hpoint

/-- A walk in the graph follows the model, in which a state may stay as it is. -/
theorem Lawful.isChain_of_isWalk (h : X.Lawful s) {es : List Step} : ∀ {k l : Key}, s.IsWalk k es l →
    ((k :: es.map Step.target).map Key.fp).IsChain (fun a b => a = b ∨ X.Leads a b) ∧
      ((k :: es.map Step.target).map Key.fp).getLast? = some l.fp := by
  induction es with
  | nil =>
    rintro k l rfl
    exact ⟨by simp, rfl⟩
  | cons e es ih =>
    rintro k l ⟨he, hrest⟩
    obtain ⟨hchain, hlast⟩ := ih hrest
    exact ⟨List.isChain_cons_cons.mpr ⟨(h.isStep he).leads, hchain⟩, hlast⟩

/-- **What the search of a lawful graph finds is a behaviour**, and its path and its cycle
always fit together. -/
theorem Lawful.findViolation (h : X.Lawful s) :
    (∀ l, s.findViolation X.property = .ok (some l) → X.IsBehaviour l) ∧
      ∀ f, s.findViolation X.property = .error f → ¬ f.IsCounterexample := by
  rcases s.findViolation_cases X.property with ⟨hnone, -⟩ | ⟨m, -, k, ts, hfair, hlasso⟩ | ⟨hbroken, -⟩
  · rw [hnone]
    exact ⟨fun l hl => (by cases hl), fun f hf => by cases hf⟩
  · obtain ⟨hchain, hlast⟩ := h.isChain_of_isWalk hfair.walk
    rcases h.pathTo k with ⟨path, hpath, hend, htrail⟩ | ⟨f, hpath, hf⟩
    · obtain ⟨l, hl⟩ := Lasso.exists_ofCycle hend rfl hlast
      rw [hlasso, Store.lassoAt_eq_ok hpath hl]
      refine ⟨fun l' hl' => ?_, fun f hf => by cases hf⟩
      obtain rfl := Option.some.inj (Except.ok.inj hl')
      exact htrail.isBehaviour hchain hl
    · rw [hlasso, Store.lassoAt, hpath]
      refine ⟨fun l hl => (by cases hl), fun f' hf' => ?_⟩
      obtain rfl := Except.error.inj hf'
      exact hf
  · exact absurd hbroken h.not_broken

end Exploration

end Liveness

import Liveness.Proofs.Graph.Cut
import Liveness.Proofs.Property
import Liveness.Proofs.Monitor.Calls

/-!
# Where the nodes, steps and checks of a graph come from

A monitor is called with states of a model whose fingerprints tell them apart, and with the
results of its property's own checks. Then every node of its graph has a reason: its point
allows its state. So has every step: the state that it leads to is the same, or was handed
over as a successor, or is a successor in the model, and the tableau moves to a point that
allows it. The checks that stand with the nodes and the steps are those of the property,
whether the node was expanded with its state or turned up late
(`graph_has_reasons`).

This is followed from the calls to the bytes of the log. Of each written node it is said what
stands in the log at its place (`Accounts.record`), so a graph whose records are too long for
the lengths in the log is no exception: what is read of it is a part of what was written.
-/

namespace Liveness

variable {σ : Type}

namespace Property

variable {p : Property σ} {s t : σ} {point : UInt32}

theorem Moves.allowsAt {source : UInt32} (h : p.Moves source s point) : p.AllowsAt point s := by
  unfold Moves at h
  unfold AllowsAt
  cases ht : p.tableau with
  | none =>
    rw [ht] at h
    exact h
  | some t =>
    rw [ht] at h
    obtain ⟨-, n, -, -, hn, hallows⟩ := h
    exact ⟨n, hn, hallows⟩

/-- Bits that are those of the action checks on a step are its row of checks. -/
theorem ofFn_eq_actionBits {f : Nat → Bool} (h : ∀ a < p.width, f a = (p.actionBits s t).get a) :
    Bits.ofFn p.width f = p.actionBits s t := by
  have hclean : (p.actionBits s t).Clean := Bits.clean_ofFn _ _
  rw [Bits.ofFn_congr h, ← p.len_actionBits s t, hclean.ofFn_get]

end Property

variable [ModelState σ]

namespace Monitor

/-- A call is made with the fingerprint of its state, and the results of the property's checks. -/
def Call.Proper (p : Property σ) (states : σ → Prop) : Call σ → Prop
  | .initial s fp => states s ∧ fp = fingerprint s
  | .next fp successors checks _ => ∃ s, states s ∧ fp = fingerprint s ∧ (∀ t ∈ successors, states t) ∧
      p.evaluate s successors = .ok checks

/-- A call handed over `t` as a successor of the state `s`. -/
def HandedOver (calls : List (Call σ)) (s t : σ) : Prop :=
  ∃ successors checks revisits, .next (fingerprint s) successors checks revisits ∈ calls ∧ t ∈ successors

end Monitor

/-- The calls of a monitor, with what is promised of them. -/
structure Provenance (σ : Type) [ModelState σ] where
  /-- The model. -/
  model : Model σ
  /-- The property. -/
  property : Property σ
  /-- The states that occur. -/
  states : σ → Prop
  /-- The calls. -/
  calls : List (Monitor.Call σ)
  faithful : model.Faithful states
  proper : ∀ c ∈ calls, c.Proper property states
  stateChecks_lt : property.stateChecks.length < 2 ^ 32
  width_lt : property.width < 2 ^ 32

namespace Provenance

variable {P : Provenance σ} {s s' : Store} {k : Key} {u v : σ} {n n' : Node} {e : Step} {o : Offer σ}
  {fp : Fingerprint} {successors : List σ} {checks : StepChecks} {revisits : Bool}

/-- There may be a node `k` of the state `u`. -/
structure IsNode (P : Provenance σ) (k : Key) (u : σ) : Prop where
  mem : P.states u
  fp : fingerprint u = k.fp
  allows : P.property.AllowsAt k.point u

/-- A step may lead from the state `u` to the state `v`. -/
def Follows (P : Provenance σ) (u v : σ) : Prop :=
  P.states v ∧ (v = u ∨ Monitor.HandedOver P.calls u v ∨ v ∈ P.model.successors u)

/-- The node `k` of the state `u` may have the step `e`. -/
def IsStep (P : Provenance σ) (k : Key) (u : σ) (e : Step) : Prop :=
  ∃ v, P.Follows u v ∧ fingerprint v = e.target.fp ∧ P.property.Moves k.point v e.target.point ∧
    e.actions = P.property.actionBits u v

theorem IsNode.unique (hu : P.IsNode k u) (hv : P.states v) (hfp : fingerprint v = k.fp) : v = u :=
  P.faithful.injective v u hv hu.mem (hfp.trans hu.fp.symm)

theorem IsStep.exists_isNode (h : P.IsStep k u e) : ∃ v, P.IsNode e.target v := by
  obtain ⟨v, hv, hfp, hmoves, -⟩ := h
  exact ⟨v, hv.1, hfp, hmoves.allowsAt⟩

/-! ### What is offered -/

/-- The offer is one of states that may follow `u`, with the results of the property's checks. -/
structure Offers (P : Provenance σ) (u : σ) (o : Offer σ) : Prop where
  width : o.width = P.property.width
  state : o.state = P.property.stateBits u
  steps : ∀ x ∈ o.steps, P.Follows u x.1 ∧ x.2 = P.property.actionBits u x.1

/-- What is handed over in a call. -/
theorem offers_handed (hcall : .next (fingerprint u) successors checks revisits ∈ P.calls)
    (hsuccessors : ∀ t ∈ successors, P.states t) (hchecks : P.property.evaluate u successors = .ok checks) :
    P.Offers u (.ofChecks successors checks) := by
  obtain ⟨hstate, hwidth, hactions⟩ := Property.evaluate_spec hchecks
  refine ⟨hwidth, hstate, fun x hx => ?_⟩
  obtain ⟨⟨v, i⟩, hv, rfl⟩ := List.mem_map.mp hx
  have hmem := List.fst_mem_of_mem_zipIdx hv
  refine ⟨⟨hsuccessors v hmem, .inr (.inl ⟨successors, checks, revisits, hcall, hmem⟩)⟩, ?_⟩
  simp only [hwidth]
  exact Property.ofFn_eq_actionBits fun a ha => hactions i v (List.mem_zipIdx_iff_getElem?.mp hv) a ha

/-- What the model gives for a state. -/
theorem offers_late (hu : P.states u) : P.Offers u (.ofState P.property P.model u) := by
  refine ⟨rfl, rfl, fun x hx => ?_⟩
  obtain ⟨v, hv, rfl⟩ := List.mem_map.mp hx
  have hactions : Bits.ofFn P.property.width (fun j => (P.property.actionBits u v).get (0 + j)) =
      P.property.actionBits u v := Property.ofFn_eq_actionBits fun a _ => by rw [Nat.zero_add]
  refine ⟨?_, hactions⟩
  rcases List.mem_cons.mp hv with rfl | hv
  · exact ⟨hu, .inl rfl⟩
  · exact ⟨P.faithful.next_mem u hu v (List.mem_of_mem_filter hv), .inr (.inr hv)⟩

/-- Whether handed over or late, a node is offered what may follow its state. -/
theorem exists_offers (hcall : .next fp successors checks revisits ∈ P.calls)
    (hkey : s.isUnseen k = false → ∃ u, P.IsNode k u)
    (h : Builder.Offered P.property k P.model fp successors checks s o) : ∃ u, P.IsNode k u ∧ P.Offers u o := by
  obtain ⟨u₀, hu₀, rfl, hsuccessors, hchecks⟩ := P.proper _ hcall
  cases h with
  | handed hfp hseen =>
    refine ⟨u₀, ?_, offers_handed hcall hsuccessors hchecks⟩
    rcases hseen with hseen | ⟨hplain, hpoint⟩
    · obtain ⟨u, hu⟩ := hkey hseen
      rwa [hu.unique hu₀ hfp.symm]
    · refine ⟨hu₀, hfp.symm, ?_⟩
      rw [Property.AllowsAt, hplain]
      exact hpoint
  | @late u _ hu hfp hseen _ =>
    have hstate : P.states u := hu.mem hsuccessors fun s hs t ht =>
      P.faithful.next_mem s hs t (List.mem_of_mem_filter ht)
    obtain ⟨u', hu'⟩ := hkey hseen
    obtain rfl := hu'.unique hstate hfp
    exact ⟨u, hu', offers_late hstate⟩

theorem Offers.isStep (h : P.Offers u o) (he : o.Allows P.property k e) : P.IsStep k u e := by
  obtain ⟨v, hv, hfp, hmoves⟩ := he
  obtain ⟨hfollows, hactions⟩ := h.steps _ hv
  exact ⟨v, hfollows, hfp, hmoves, hactions⟩

/-! ### Stores -/

/-- What the node `k` of the state `u` may become in the course of its expansion. -/
structure IsDraft (P : Provenance σ) (k : Key) (u : σ) (n : Node) : Prop where
  key : n.key = k
  whole : n.Whole
  width : n.width < 2 ^ 32
  stateBits : n.stateBits = P.property.stateBits u
  steps : ∀ e ∈ n.steps, P.IsStep k u e

/-- What may be written of the node `k`: it is in the form that reading gives. -/
structure IsRecord (P : Provenance σ) (k : Key) (u : σ) (n : Node) : Prop extends P.IsDraft k u n where
  normal_eq : n.normal = n

/-- All nodes of the store have a reason, and so has what stands in the log in their places. -/
structure Accounts (P : Provenance σ) (s : Store) : Prop where
  whole : s.log.Whole
  key : ∀ l, s.isUnseen l = false → ∃ u, P.IsNode l u
  root : ∀ l ∈ s.roots, s.isUnseen l = false ∧ P.property.IsInitial l.point
  record : ∀ l offset, s.slot? l = some (.written offset) →
    ∃ u n, P.IsNode l u ∧ P.IsRecord l u n ∧ s.log.Has offset n.encode

theorem IsRecord.bits_lt (h : P.IsRecord k u n) : n.stateBits.len < 2 ^ 32 := by
  rw [h.stateBits, Property.len_stateBits]
  exact P.stateChecks_lt

/-- A part of a record that is read as a node has the same checks and some of the steps. -/
theorem IsRecord.of_read (h : P.IsRecord k u n) {l : Log} (hl : l.Whole) {offset : Nat} (hhas : l.Has offset n.encode)
    (hread : l.read offset = .ok n') : n'.key = k ∧ n'.width < 2 ^ 32 ∧ n'.stateBits = P.property.stateBits u ∧
      ∀ e ∈ n'.steps, P.IsStep k u e := by
  rw [Log.read_of_has hl hhas] at hread
  obtain ⟨hkey, hwidth, hbits, hsteps⟩ := Node.steps_of_isPrefix h.bits_lt h.width (List.take_prefix _ _) hread
  have hclean : (P.property.stateBits u).Clean := Bits.clean_ofFn _ _
  refine ⟨hkey.trans h.key, hwidth ▸ h.width, ?_, fun e he => h.steps e (hsteps.subset he)⟩
  rw [hbits, h.stateBits, hclean.ofFn_get]

/-- A record whose length can be written is read as it is. -/
theorem IsRecord.read_eq (h : P.IsRecord k u n) {l : Log} (hl : l.Whole) {offset : Nat} (hhas : l.Has offset n.encode)
    (hlen : n.encode.length < 2 ^ 32) : l.read offset = .ok n := by
  rw [Log.read_of_has hl hhas, Nat.mod_eq_of_lt hlen, List.take_length,
    Node.decode_encode h.whole ⟨h.bits_lt, h.width, hlen⟩, h.normal_eq]

/-- **Whatever is read of a node has a reason.** -/
theorem Accounts.of_node (h : P.Accounts s) (hk : P.IsNode k u) (hn : s.node k = .ok n) :
    n.key = k ∧ n.width < 2 ^ 32 ∧ (∀ e ∈ n.steps, P.IsStep k u e) ∧
      (s.isWritten k = true → n.stateBits = P.property.stateBits u) := by
  unfold Store.node at hn
  unfold Store.isWritten
  split at hn
  · rename_i offset hslot
    obtain ⟨v, g, hv, hg, hhas⟩ := h.record k offset hslot
    obtain rfl := hk.unique hv.mem hv.fp
    obtain ⟨hkey, hwidth, hbits, hsteps⟩ := hg.of_read h.whole hhas hn
    exact ⟨hkey, hwidth, hsteps, fun _ => hbits⟩
  · rename_i hslot
    cases hn
    exact ⟨rfl, Nat.two_pow_pos 32, by simp [Node.steps_eq_nil], by simp [hslot]⟩
  · rename_i hslot
    cases hn
    exact ⟨rfl, Nat.two_pow_pos 32, by simp [Node.steps_eq_nil], by simp [hslot]⟩

/-! ### Changes of a store -/

theorem Accounts.of_empty (hlog : s.log = {}) (htable : s.table = ∅) (hroots : s.roots = []) : P.Accounts s := by
  have hslot := Store.slot?_of_empty htable
  refine ⟨by rw [hlog]; rfl, fun l hl => ?_, by simp [hroots], fun l offset hl => ?_⟩
  · rw [Store.isUnseen_iff.mpr (hslot l)] at hl
    cases hl
  · rw [hslot] at hl
    cases hl

/-- A node that is not written yet. -/
theorem Accounts.insert_recorded (h : P.Accounts s) (hk : P.IsNode k u) (parent : Option Key) :
    P.Accounts (s.insert k (.recorded parent)) := by
  refine ⟨h.whole, fun l hl => ?_, fun l hl => ?_, fun l offset hl => ?_⟩
  · rw [Store.isUnseen_insert] at hl
    by_cases hlk : l = k
    · exact ⟨u, hlk ▸ hk⟩
    · exact h.key l (by simpa [hlk] using hl)
  · obtain ⟨hseen, hinitial⟩ := h.root l hl
    exact ⟨by simp [Store.isUnseen_insert, hseen], hinitial⟩
  · rw [Store.slot?_insert] at hl
    split_ifs at hl
    · cases hl
    · exact h.record l offset hl

theorem Accounts.record_node (h : P.Accounts s) (hk : P.IsNode k u) (parent : Key) : P.Accounts (s.record k parent) :=
  Store.record_cases parent h fun _ => h.insert_recorded hk _

theorem Accounts.addRoot (h : P.Accounts s) (hk : P.IsNode k u) (hinitial : P.property.IsInitial k.point) :
    P.Accounts (s.addRoot k) := by
  have hsee : P.Accounts (s.seeRoot k) := Store.seeRoot_cases h fun _ => h.insert_recorded hk none
  refine ⟨?_, fun l hl => ?_, fun l hl => ?_, fun l offset hl => ?_⟩
  · rw [Store.addRoot_eq]
    exact hsee.whole
  · rw [Store.addRoot_eq] at hl
    exact hsee.key l hl
  · rw [Store.isUnseen_addRoot]
    rcases Store.mem_roots_addRoot.mp hl with hl | rfl
    · exact ⟨by simp [(h.root l hl).1], (h.root l hl).2⟩
    · exact ⟨by simp, hinitial⟩
  · rw [Store.addRoot_eq] at hl ⊢
    exact hsee.record l offset hl

theorem Accounts.setDone (h : P.Accounts s) (fp : Fingerprint) : P.Accounts (s.setDone fp) := by
  refine ⟨h.whole, fun l hl => h.key l (by simpa using hl), fun l hl => ?_, fun l offset hl => ?_⟩
  · rw [Store.isUnseen_setDone]
    exact h.root l hl
  · rw [Store.slot?_setDone] at hl
    exact h.record l offset hl

/-- **A node that has a reason is written.** -/
theorem Accounts.addNode (h : P.Accounts s) (hk : P.IsNode k u) (hn : P.IsRecord k u n) : P.Accounts (s.addNode n) := by
  obtain ⟨size, heq⟩ := Store.addNode_eq s n
  have hlog : (s.addNode n).log = (s.log.append n.encode).2 := by rw [heq]
  refine ⟨?_, fun l hl => ?_, fun l hl => ?_, fun l offset hl => ?_⟩
  · rw [hlog]
    exact Log.whole_append h.whole _
  · rw [Store.isUnseen_addNode, hn.key] at hl
    by_cases hlk : l = k
    · exact ⟨u, hlk ▸ hk⟩
    · exact h.key l (by simpa [hlk] using hl)
  · rw [Store.roots_addNode] at hl
    exact ⟨by simp [(h.root l hl).1], (h.root l hl).2⟩
  · rw [Store.slot?_addNode, hn.key] at hl
    rw [hlog]
    split_ifs at hl with hlk
    · cases hl
      exact ⟨u, n, hlk ▸ hk, hlk ▸ hn, Log.has_append h.whole _⟩
    · obtain ⟨v, g, hv, hg, hhas⟩ := h.record l offset hl
      exact ⟨v, g, hv, hg, hhas.append h.whole _⟩

/-! ### The expansion of a node -/

theorem IsDraft.link (h : P.IsDraft k u n) (hoffers : P.Offers u o) (hlink : Builder.Link P.property o k s n e n') :
    P.IsDraft k u n' := by
  refine ⟨hlink.same.key.trans h.key, hlink.whole, ?_, hlink.same.stateBits.trans h.stateBits, ?_⟩
  · rw [hlink.width, hoffers.width]
    exact P.width_lt
  · rw [hlink.steps]
    intro e' he'
    rcases List.mem_append.mp he' with he' | he'
    · exact h.steps e' he'
    · rw [List.mem_singleton.mp he']
      exact hoffers.isStep hlink.allowed

/-- Step after step is linked, and the nodes that the steps lead to are recorded. -/
theorem Accounts.links {s₀ : Store} {n₀ : Node} {origin : Key} (h : P.Accounts s₀) (hn₀ : P.IsDraft k u n₀)
    (hoffers : P.Offers u o) (hlinks : Builder.Links P.property o k origin s₀ n₀ s n) :
    P.Accounts s ∧ P.IsDraft k u n := by
  induction hlinks with
  | refl => exact ⟨h, hn₀⟩
  | link _ hlink ih =>
    obtain ⟨v, hv⟩ := (hoffers.isStep hlink.allowed).exists_isNode
    exact ⟨ih.1.record_node hv origin, ih.2.link hoffers hlink⟩

/-- When it is trimmed the node is in the form that reading gives. -/
theorem IsDraft.trim (h : P.IsDraft k u n) : P.IsRecord k u n.trim := by
  have hclean : n.stateBits.Clean := h.stateBits ▸ Bits.clean_ofFn _ _
  refine ⟨⟨h.key, h.whole, h.width, h.stateBits, h.steps⟩, ?_⟩
  rw [Node.normal, show n.trim.stateBits = n.stateBits from rfl, hclean.ofFn_get]
  rfl

/-- **A turn gives every node and every step a reason.** -/
theorem Accounts.turn (h : P.Accounts s) (hcall : .next fp successors checks revisits ∈ P.calls)
    (hturn : Builder.Turn P.property P.model fp successors checks s s') : P.Accounts s' := by
  cases hturn with
  | setDone => exact h.setDone fp
  | draw d => exact ⟨h.whole, h.key, h.root, h.record⟩
  | @expand s' k origin n n' o hoffered hn _ hlinks =>
    obtain ⟨u, hk, hoffers⟩ := exists_offers hcall (h.key k) hoffered
    obtain ⟨hkey, hwidth, hsteps, -⟩ := h.of_node hk hn
    have hwhole : n.Whole := Store.whole_of_node hn
    have hstart : P.IsDraft k u (n.setState o.state) := ⟨hkey, hwhole, hwidth, hoffers.state, hsteps⟩
    obtain ⟨haccounts, hend⟩ := h.links hstart hoffers hlinks
    exact haccounts.addNode hk hend.trim

end Provenance

namespace Monitor

/-- **Every node and every step of the graph has a reason, and carries the results of the
property's checks**, after all calls that came back. Roots stand at initial points. A written
node is read unless its record is too long for the lengths in the log. The numbers of the checks
stand there with 32 bits each, and the property has no more of either kind. -/
theorem graph_has_reasons {m : Model σ} {states : σ → Prop} (hm : m.Faithful states) {p : Property σ}
    (hbits : p.stateChecks.length < 2 ^ 32) (hwidth : p.width < 2 ^ 32)
    {config : Config} {taken : List String} {index : Nat} {w₀ : Monitor σ}
    (hw₀ : Monitor.create config taken p index = .ok w₀) {calls : List (Call σ)}
    (hcalls : ∀ c ∈ calls, c.Proper p states) {w : Monitor σ} (hmade : Made m w₀ calls w) :
    (∀ k ∈ w.store.roots, k ∈ w.store.keys ∧ p.IsInitial k.point) ∧
      ∀ k ∈ w.store.keys, ∃ s, states s ∧ fingerprint s = k.fp ∧ p.AllowsAt k.point s ∧
        (∀ n, w.store.node k = .ok n →
          (∀ e ∈ n.steps, ∃ t, states t ∧ fingerprint t = e.target.fp ∧
            (t = s ∨ HandedOver calls s t ∨ t ∈ m.successors s) ∧ p.Moves k.point t e.target.point ∧
            e.actions = p.actionBits s t) ∧
          (w.store.isWritten k = true → n.stateBits = p.stateBits s)) ∧
        ∀ offset, w.store.slot? k = some (.written offset) →
          ∃ n, w.store.log.Has offset n.encode ∧ (n.encode.length < 2 ^ 32 → w.store.node k = .ok n) := by
  let P : Provenance σ := ⟨m, p, states, calls, hm, hcalls, hbits, hwidth⟩
  obtain ⟨hp, hlog, htable, hroots, -⟩ := create_eq_ok hw₀
  have h : P.Accounts w.store := by
    refine (hmade.invariant (I := P.Accounts) (.of_empty hlog htable hroots) ?_ ?_).2
    · intro s fp hc point hpoint store h
      obtain ⟨hs, rfl⟩ := hcalls _ hc
      rw [hp] at hpoint
      obtain ⟨hallows, hinitial⟩ := Property.mem_startPoints.mp hpoint
      exact h.addRoot (u := s) ⟨hs, rfl, hallows⟩ hinitial
    · intro fp successors checks revisits hc store store' h hturn
      rw [hp] at hturn
      exact h.turn hc hturn
  refine ⟨fun k hk => ⟨Store.mem_keys_iff.mpr (h.root k hk).1, (h.root k hk).2⟩, fun k hk => ?_⟩
  obtain ⟨s, hs⟩ := h.key k (Store.mem_keys_iff.mp hk)
  refine ⟨s, hs.mem, hs.fp, hs.allows, fun n hn => ?_, fun offset hoffset => ?_⟩
  · obtain ⟨-, -, hsteps, hstate⟩ := h.of_node hs hn
    refine ⟨fun e he => ?_, hstate⟩
    obtain ⟨t, ⟨ht, hfollows⟩, hfp, hmoves, hactions⟩ := hsteps e he
    exact ⟨t, ht, hfp, hfollows, hmoves, hactions⟩
  · obtain ⟨u, n, -, hn, hhas⟩ := h.record k offset hoffset
    refine ⟨n, hhas, fun hlen => ?_⟩
    rw [Store.node, hoffset]
    exact hn.read_eq h.whole hhas hlen

end Monitor

/-- A property of the counter with a check on states and one on steps. -/
def Counter.watched : Property Counter :=
  { Counter.property with
    stateChecks := [fun c => c.value == 1]
    actionChecks := [fun c d => decide (c.value < d.value)] }

/-- The results of its checks on a state and the steps out of it. -/
def Counter.checks (c : Counter) : StepChecks :=
  (Counter.watched.evaluate c (Counter.model.successors c)).toOption.getD Monitor.noChecks

namespace Monitor

/-- A state of the counter is expanded with the results of the checks. -/
def Call.ofWatched (c : Counter) : Call Counter :=
  .next (fingerprint c) (Counter.model.successors c) (Counter.checks c) false

theorem Call.proper_ofWatched {c : Counter}
    (h : (Counter.watched.evaluate c (Counter.model.successors c)).toOption.isSome = true) :
    (Call.ofWatched c).Proper Counter.watched fun _ => True := by
  refine ⟨c, trivial, rfl, fun _ _ => trivial, ?_⟩
  rw [Counter.checks]
  cases hchecks : Counter.watched.evaluate c (Counter.model.successors c) with
  | ok checks => rfl
  | error d =>
    rw [hchecks] at h
    cases h

/-- A new monitor of the property. -/
def ofWatched : Monitor Counter := ⟨Counter.watched, { store := { folder := "", index := 0 } }⟩

/-- The monitor after a state of the counter was expanded with the results of the checks. -/
def expandWatched (c : Counter) (w : Monitor Counter) : Monitor Counter :=
  (addChecked Counter.model (fingerprint c) (Counter.model.successors c) (Counter.checks c) false w).2

/-- The states are expanded before they are reached, so that the node of the second one turns
up late. -/
def watchedRun : Monitor Counter :=
  (((ofWatched.addInitial ⟨0⟩ 0).expandWatched ⟨2⟩).expandWatched ⟨1⟩).expandWatched ⟨0⟩

theorem graph_has_reasons_watched :
    Made Counter.model ofWatched [.ofWatched ⟨0⟩, .ofWatched ⟨1⟩, .ofWatched ⟨2⟩, .initial ⟨0⟩ 0] watchedRun ∧
      ∃ n, watchedRun.store.node ⟨1, 0⟩ = .ok n ∧ n.stateBits = Counter.watched.stateBits ⟨1⟩ ∧ n.degree = 4 ∧
        ∀ e ∈ n.steps, ∃ c : Counter, c.value = e.target.fp ∧ Counter.watched.Moves 0 c e.target.point ∧
          e.actions = Counter.watched.actionBits ⟨1⟩ c := by
  have hstart : Made Counter.model ofWatched [.initial ⟨0⟩ 0] (ofWatched.addInitial ⟨0⟩ 0) :=
    .initial (⟨0⟩ : Counter) 0 .start
  have hmade : Made Counter.model ofWatched [.ofWatched ⟨0⟩, .ofWatched ⟨1⟩, .ofWatched ⟨2⟩, .initial ⟨0⟩ 0]
      watchedRun :=
    ((hstart.expand (by decide +kernel)).expand (by decide +kernel)).expand (by decide +kernel)
  have hw₀ : Monitor.create { folder := "" } [] Counter.watched 0 = .ok ofWatched := rfl
  have hcalls : ∀ c ∈ [Call.ofWatched ⟨0⟩, .ofWatched ⟨1⟩, .ofWatched ⟨2⟩, .initial ⟨0⟩ 0],
      c.Proper Counter.watched fun _ => True := by
    simp only [List.forall_mem_cons]
    exact ⟨Call.proper_ofWatched (by decide +kernel), Call.proper_ofWatched (by decide +kernel),
      Call.proper_ofWatched (by decide +kernel), ⟨trivial, rfl⟩, fun _ h => by cases h⟩
  obtain ⟨s, -, hfp, -, hread, -⟩ :=
    (graph_has_reasons Counter.faithful_model (by decide) (by decide) hw₀ hcalls hmade).2 ⟨1, 0⟩ (by decide +kernel)
  obtain rfl := Counter.faithful_model.injective s ⟨1⟩ trivial trivial hfp
  have hdegree : (watchedRun.store.node ⟨1, 0⟩).toOption.map Node.degree = some 4 := by decide +kernel
  cases hnode : watchedRun.store.node ⟨1, 0⟩ with
  | error f =>
    rw [hnode] at hdegree
    cases hdegree
  | ok n =>
    rw [hnode] at hdegree
    obtain ⟨hsteps, hstate⟩ := hread n hnode
    refine ⟨hmade, n, rfl, hstate (by decide +kernel), Option.some.inj hdegree, fun e he => ?_⟩
    obtain ⟨c, -, hc, -, hmoves, hactions⟩ := hsteps e he
    exact ⟨c, hc, hmoves, hactions⟩

end Monitor

end Liveness

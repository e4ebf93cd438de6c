import Liveness.Proofs.Builder.Draft

/-!
# Known states

In a graph without a tableau a state has one node, and the state is known once that node
was seen. The expansion of a state makes its successors known. No expansion makes a known
state unknown, whether it comes to an end or not.
-/

namespace Liveness

/-- Every node that was seen in the one store was seen in the other. -/
def Store.Within (s s' : Store) : Prop := ∀ k, s.isUnseen k = false → s'.isUnseen k = false

namespace Builder

open Store (Within)

variable {σ : Type} {b : Builder} {s : Store}

theorem within_record (s : Store) (k parent : Key) : Within s (s.record k parent) := fun l hl => by simp [hl]

/-- A link makes its target known. -/
theorem link_within (n : Node) (target : Key) (width : Nat) (row : Bits) (offset hint : Except Defect Nat)
    (origin : Key) :
    (link n target width row offset hint origin).Meets b
      (fun _ b' => Within b.store b'.store ∧ b'.store.isUnseen target = false)
      (fun _ b' => Within b.store b'.store) := by
  refine meets_link (fun hseen _ => ⟨fun _ hk => hk, hseen⟩) (fun _ _ _ _ _ _ _ => ?_) fun _ _ _ _ hk => hk
  exact ⟨within_record b.store target origin, by simp⟩

/-- Drawing a graph does not change what was seen. -/
theorem snapshot_within (p : Property σ) :
    (snapshot p).Meets b (fun _ b' => Within b.store b'.store) (fun _ b' => Within b.store b'.store) := by
  have hwithin : ∀ b' : Builder, (∃ d, b'.store = { b.store with drawings := d }) → Within b.store b'.store := by
    rintro b' ⟨d, hd⟩ k hk
    rw [hd]
    exact hk
  exact (snapshot_frame p).mono (fun _ => hwithin) fun _ => hwithin

theorem keep_within (p : Property σ) (n : Node) (before : Nat) (revisits : Bool) :
    (keep p n before revisits).Meets b (fun _ b' => Within b.store b'.store)
      (fun _ b' => Within b.store b'.store) := by
  refine meets_keep (fun _ => ?_) fun _ _ _ => ⟨fun _ _ hk => hk, fun _ _ hk => hk⟩
  refine (meets_onStore _).bind ?_
  rintro _ b' rfl
  have hwrite : Within b.store (b.store.addNode n.trim) := fun k hk => by simp [hk]
  exact (snapshot_within p).mono (fun _ _ h k hk => h k (hwrite k hk)) fun _ _ h k hk => h k (hwrite k hk)

/-- **The expansion of a state makes its successors known**, and loses no known state. -/
theorem addPlain_within (p : Property σ) (fp : Fingerprint) (successors : List Fingerprint) (checks : StepChecks)
    (revisits : Bool) :
    (addPlain p fp successors checks revisits).Meets b
      (fun _ b' => Within b.store b'.store ∧ ∀ t ∈ successors, b'.store.isUnseen ⟨t, Key.noPoint⟩ = false)
      (fun _ b' => Within b.store b'.store) := by
  have hdone : Within b.store (b.store.setDone fp) := fun k hk => by simpa using hk
  refine meets_addPlain (fun _ _ => hdone) fun n _ => ?_
  refine (Change.meets_foldlM
    (P := fun rest _ (b' : Builder) => Within b.store b'.store ∧
      ∀ x ∈ successors.zipIdx, x ∈ rest ∨ b'.store.isUnseen ⟨x.1, Key.noPoint⟩ = false)
    (fun x rest n' b' h => ?_) _ _ _ ⟨hdone, fun x hx => .inl hx⟩).imp ?_
  · obtain ⟨hwithin, hknown⟩ := h
    refine meets_plainStep ((link_within _ ⟨x.1, Key.noPoint⟩ _ _ _ _ _).mono ?_ fun _ b'' h k hk =>
      h k (hwithin k hk))
    rintro ⟨n'', new⟩ b'' ⟨hwithin', hx⟩
    refine ⟨fun k hk => hwithin' k (hwithin k hk), fun y hy => ?_⟩
    rcases hknown y hy with hy | hy
    · rcases List.mem_cons.mp hy with rfl | hy
      · exact .inr hx
      · exact .inl hy
    · exact .inr (hwithin' _ hy)
  · rintro n' b' ⟨hwithin, hknown⟩
    refine (keep_within p n' n.degree revisits).mono (fun _ b'' h => ⟨fun k hk => h k (hwithin k hk), fun t ht => ?_⟩)
      fun _ b'' h k hk => h k (hwithin k hk)
    obtain ⟨i, hi⟩ := List.mem_iff_getElem?.mp ht
    exact h _ ((hknown (t, i) (List.mem_zipIdx_iff_getElem?.mpr hi)).resolve_left (by simp))

theorem addNext_within [ModelState σ] {p : Property σ} (hplain : p.tableau = none) (m : Model σ) (fp : Fingerprint)
    (successors : List σ) (checks : StepChecks) (revisits : Bool) :
    (addNext p m fp successors checks revisits).Meets b
      (fun _ b' => Within b.store b'.store ∧
        ∀ t ∈ successors, b'.store.isUnseen ⟨fingerprint t, Key.noPoint⟩ = false)
      (fun _ b' => Within b.store b'.store) := by
  refine meets_addNext (fun t ht => by rw [hplain] at ht; cases ht) fun _ => ?_
  refine (addPlain_within p fp (successors.map fingerprint) checks revisits).imp ?_
  rintro _ b' ⟨hwithin, hknown⟩
  exact ⟨hwithin, fun t ht => hknown _ (List.mem_map_of_mem ht)⟩

end Builder

end Liveness

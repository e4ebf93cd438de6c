import Liveness.Proofs.Builder.Safe
import Liveness.Proofs.Monitor.Ancestry

/-!
# Insertions that break no precondition

A monitor is handed initial states, and states with their successors, in any order; no state is
handed over for expansion twice. The calls may come to anything: a violation, an error of the
file system, or a defect because a size has outgrown the machine. Whatever they come to, the graph
they leave is sane, and so the next call breaks no precondition either.
-/

namespace Liveness.Monitor

variable {σ : Type} {p : Property σ} {w₀ w : Monitor σ} {fps : List Fingerprint} {fp : Fingerprint}

/-- The graph of a monitor of the property is sane, and no state is marked as expanded but those
handed over. -/
def Orderly (p : Property σ) (fps : List Fingerprint) (w : Monitor σ) : Prop :=
  w.property = p ∧ ∃ expanded, w.store.Sane p expanded ∧ ∀ g, expanded g → g ∈ fps

theorem Orderly.of_create {config : Config} {taken : List String} {index : Nat}
    (h : Monitor.create config taken p index = .ok w) : w.Orderly p [] := by
  obtain ⟨hp, -, htable, -, hsize⟩ := create_eq_ok h
  exact ⟨hp, _, .of_empty htable hsize, fun g hg => hg.elim⟩

theorem Orderly.addInitial (h : w.Orderly p fps) (s : σ) (fp : Fingerprint) : (w.addInitial s fp).Orderly p fps := by
  obtain ⟨rfl, expanded, hsane, hexpanded⟩ := h
  refine ⟨rfl, expanded, ?_, hexpanded⟩
  rw [store_addInitial]
  refine List.foldlRecOn _ _ hsane fun store hstore k hk => hstore.addRoot ?_
  obtain ⟨point, hpoint, rfl⟩ := List.mem_map.mp hk
  exact Property.isPoint_of_start hpoint

variable [ModelState σ]

/-- **What the next call does**: it leaves an orderly monitor, and breaks no precondition unless
there is no room. -/
theorem Orderly.addNext (h : w.Orderly p fps) (hfp : fp ∉ fps) (m : Model σ) (s : σ) (successors : List σ) :
    (Monitor.addNext m s fp successors false).Meets w (fun _ w' => w'.Orderly p (fp :: fps))
      (fun f w' => w'.Orderly p (fp :: fps) ∧ f.Excused ((p.Roomy successors.length ∧
        ∀ u, p.Roomy (m.successors u).length) ∧ w'.store.keys.length + 1 < wordLimit)) := by
  obtain ⟨rfl, expanded, hsane, hexpanded⟩ := h
  have hmore : ∀ g, expanded g ∨ g = fp → g ∈ fp :: fps := by
    rintro g (hg | rfl)
    · exact List.mem_cons_of_mem _ (hexpanded g hg)
    · exact List.mem_cons_self
  unfold Change.Meets
  rw [addNext_apply]
  cases hchecks : w.property.evaluate s successors with
  | error d =>
    obtain ⟨hoverflow, hlimit⟩ := Property.overflow_of_evaluate hchecks
    refine ⟨⟨rfl, expanded, hsane, fun g hg => hmore g (.inl hg)⟩, fun d' hd' => ?_⟩
    obtain rfl := Fault.defect.inj hd'
    refine ⟨hoverflow, fun hr => ?_⟩
    have hbits := hr.1.1.bits
    rw [Nat.mul_add] at hbits
    omega
  | ok checks =>
    have hwidth := (Property.evaluate_spec hchecks).2.1
    refine (meets_addChecked (Builder.addNext_safe hwidth (fun hr => hr) hsane fun hg => hfp (hexpanded fp hg))).mono ?_ ?_
    · rintro r w' ⟨hp, hsane'⟩
      exact ⟨hp, _, hsane', hmore⟩
    · rintro f w' ⟨hp, hsane', hexcused⟩
      exact ⟨⟨hp, _, hsane', hmore⟩, hexcused⟩

/-- Calls on the monitor `w₀`, one after the other and whatever each comes to, in which each of the
states `fps` was handed over for expansion once. -/
inductive FirstTime (w₀ : Monitor σ) : List Fingerprint → Monitor σ → Prop
  | start : FirstTime w₀ [] w₀
  | initial {fps : List Fingerprint} {w : Monitor σ} (s : σ) (fp : Fingerprint) :
      FirstTime w₀ fps w → FirstTime w₀ fps (w.addInitial s fp)
  | next {fps : List Fingerprint} {w : Monitor σ} (m : Model σ) (s : σ) (fp : Fingerprint) (successors : List σ) :
      FirstTime w₀ fps w → fp ∉ fps → FirstTime w₀ (fp :: fps) (addNext m s fp successors false w).2

theorem FirstTime.orderly (h : FirstTime w₀ fps w) (h₀ : w₀.Orderly p []) : w.Orderly p fps := by
  induction h with
  | start => exact h₀
  | initial s fp _ ih => exact ih.addInitial s fp
  | next m s fp successors _ hfp ih =>
    exact (ih.addNext hfp m s successors).state (fun _ _ h => h) fun _ _ h => h.1

/-- **First insertions break no precondition.** On a new monitor let states be inserted in any order,
none of them expanded twice, whatever the calls come to. If the next call ends with a defect, then
a word or a buffer was too small: no node has steps of mixed widths, no expansion is in vain, no
index or bit is out of range, and no difference goes below zero. If there is room for the steps of
a state, and for one node more, it ends with no defect at all. -/
theorem firstTime_addNext_safe {config : Config} {taken : List String} {index : Nat}
    (h₀ : Monitor.create config taken p index = .ok w₀) (h : FirstTime w₀ fps w) (hfp : fp ∉ fps) (m : Model σ) (s : σ)
    (successors : List σ) :
    (∀ d, (Monitor.addNext m s fp successors false w).1 = .error (.defect d) → d.IsOverflow) ∧
      (p.Roomy successors.length → (∀ u, p.Roomy (m.successors u).length) →
        (Monitor.addNext m s fp successors false w).2.store.keys.length + 1 < wordLimit →
        ∀ d, (Monitor.addNext m s fp successors false w).1 ≠ .error (.defect d)) := by
  have hcall := (h.orderly (.of_create h₀)).addNext hfp m s successors
  have hdefect : ∀ d, (Monitor.addNext m s fp successors false w).1 = .error (.defect d) →
      d.IsOverflow ∧ ¬ ((p.Roomy successors.length ∧ ∀ u, p.Roomy (m.successors u).length) ∧
        (Monitor.addNext m s fp successors false w).2.store.keys.length + 1 < wordLimit) :=
    fun d hd => (hcall.of_error (Change.eq_of_fst hd)).2 d rfl
  exact ⟨fun d hd => (hdefect d hd).1, fun hroom hlate hkeys d hd => (hdefect d hd).2 ⟨⟨hroom, hlate⟩, hkeys⟩⟩

/-- The states of the counter are expanded, the initial one last. -/
def counterLeaves : Monitor Counter :=
  let w := (addNext Counter.model ⟨2⟩ 2 [⟨2⟩] false (ofLeaves.addInitial ⟨0⟩ 0)).2
  (addNext Counter.model ⟨1⟩ 1 [⟨0⟩, ⟨2⟩] false w).2

/-- The last expansion shows a violation. The next call hands over a state with itself among its
successors, and twice so. -/
theorem firstTime_addNext_safe_leaves :
    FirstTime ofLeaves [0, 1, 2] (addNext Counter.model ⟨0⟩ 0 [⟨1⟩] false counterLeaves).2 ∧
      (addNext Counter.model ⟨0⟩ 0 [⟨1⟩] false counterLeaves).1.toOption.isSome = true ∧
      (addNext Counter.model ⟨0⟩ 0 [⟨1⟩] false counterLeaves).1.toOption ≠ some none ∧
      ∀ d, (addNext Counter.model ⟨7⟩ 7 [⟨7⟩, ⟨7⟩, ⟨0⟩] false
        (addNext Counter.model ⟨0⟩ 0 [⟨1⟩] false counterLeaves).2).1 ≠ .error (.defect d) := by
  have hrun : FirstTime ofLeaves [0, 1, 2] (addNext Counter.model ⟨0⟩ 0 [⟨1⟩] false counterLeaves).2 :=
    .next Counter.model ⟨0⟩ 0 [⟨1⟩] (.next Counter.model ⟨1⟩ 1 [⟨0⟩, ⟨2⟩]
      (.next Counter.model ⟨2⟩ 2 [⟨2⟩] (.initial ⟨0⟩ 0 .start) (by decide)) (by decide)) (by decide)
  have hroomy : Counter.leaves.Roomy 3 := ⟨by decide +kernel, by decide +kernel⟩
  have hlate : ∀ c : Counter, Counter.leaves.Roomy (Counter.model.successors c).length := by
    intro c
    refine hroomy.mono ((List.length_filter_le _ _).trans ?_)
    simp only [Counter.model]
    split_ifs <;> simp
  refine ⟨hrun, by decide +kernel, by decide +kernel, ?_⟩
  have hcreate : Monitor.create { folder := "" } [] Counter.leaves 0 = .ok ofLeaves := rfl
  have hnew : (7 : Fingerprint) ∉ [0, 1, 2] := by decide
  exact (firstTime_addNext_safe hcreate hrun hnew Counter.model ⟨7⟩ [⟨7⟩, ⟨7⟩, ⟨0⟩]).2 hroomy hlate (by decide +kernel)

end Liveness.Monitor

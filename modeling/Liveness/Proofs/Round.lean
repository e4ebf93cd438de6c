import Mathlib.Data.List.Nodup
import Liveness.Round

/-!
# A round searches every graph

Whatever worker takes which property, each property is in one place at any time: in the queue,
with a worker, or in the list of the searches that ended (`Pool.Shared`). Each turn of a worker
that has something to do takes a property from the queue or ends a search, and as long as there
is something to do, some worker has. So at the end of a round the graph of every property
has been searched once.
-/

namespace Liveness

namespace Pool

variable {verdict : Nat → Verdict} {workers properties : Nat} {pool pool' : Pool} {worker : Nat}

/-- All properties wait for a worker. -/
def start (properties : Nat) : Pool := { queue := List.range properties }

/-- Nothing is left to do: all properties were taken, and all searches have ended. -/
def Exhausted (pool : Pool) : Prop := pool.queue = [] ∧ pool.busy = []

/-! ### One turn -/

/-- What a turn of a worker can come to. -/
inductive Turn (verdict : Nat → Verdict) (pool : Pool) (worker : Nat) : Pool → Prop
  /-- Its search ends. -/
  | ends {i : Nat} {before after : List (Nat × Nat)} : pool.busy = before ++ (worker, i) :: after →
      Turn verdict pool worker { pool with busy := before ++ after, ended := pool.ended ++ [(i, verdict i)] }
  /-- It takes the next property. -/
  | takes {i : Nat} {rest : List Nat} : worker ∉ pool.busy.map Prod.fst → pool.queue = i :: rest →
      Turn verdict pool worker { pool with queue := rest, busy := (worker, i) :: pool.busy }
  /-- There is nothing for it to do. -/
  | rests : worker ∉ pool.busy.map Prod.fst → pool.queue = [] → Turn verdict pool worker pool

/-- The other searches go on when a worker ends its own. -/
theorem filter_busy {busy : List (Nat × Nat)} (hnodup : (busy.map Prod.fst).Nodup) {i : Nat}
    (hi : busy.lookup worker = some i) :
    ∃ before after, busy = before ++ (worker, i) :: after ∧
      (busy.filter fun entry => entry.1 != worker) = before ++ after := by
  obtain ⟨before, after, rfl, -⟩ := List.lookup_eq_some_iff.mp hi
  refine ⟨before, after, rfl, ?_⟩
  have hother : ∀ entry ∈ before ++ after, (entry.1 != worker) = true := by
    intro entry hentry
    rw [bne_iff_ne]
    rintro rfl
    rw [List.map_append, List.map_cons, List.nodup_middle, List.nodup_cons, ← List.map_append] at hnodup
    exact hnodup.1 (List.mem_map.mpr ⟨entry, hentry, rfl⟩)
  rw [List.filter_append, List.filter_cons_of_neg (by simp), ← List.filter_append]
  exact List.filter_eq_self.mpr hother

theorem turn_spec (verdict : Nat → Verdict) (hnodup : (pool.busy.map Prod.fst).Nodup) (worker : Nat) :
    Turn verdict pool worker (pool.turn verdict worker) := by
  unfold Pool.turn
  cases hlookup : pool.busy.lookup worker with
  | some i =>
    obtain ⟨before, after, hbusy, hfilter⟩ := filter_busy hnodup hlookup
    rw [hfilter]
    exact .ends hbusy
  | none =>
    have hidle : worker ∉ pool.busy.map Prod.fst := by
      intro hmem
      obtain ⟨entry, hentry, rfl⟩ := List.mem_map.mp hmem
      simpa using List.lookup_eq_none_iff.mp hlookup entry hentry
    cases hqueue : pool.queue with
    | nil => exact .rests hidle hqueue
    | cons i rest => exact .takes hidle hqueue

/-- Each property is in one place, no worker has two, and the searches that ended came to what
they come to. -/
structure Shared (verdict : Nat → Verdict) (properties : Nat) (pool : Pool) : Prop where
  once : (pool.queue ++ (pool.busy.map Prod.snd ++ pool.ended.map Prod.fst)).Perm (List.range properties)
  nodup : (pool.busy.map Prod.fst).Nodup
  reported : ∀ e ∈ pool.ended, e.2 = verdict e.1

theorem shared_start (verdict : Nat → Verdict) (properties : Nat) : Shared verdict properties (start properties) where
  once := by simp [start]
  nodup := List.nodup_nil
  reported := by
    intro e he
    cases he

/-- **A turn leaves each property in one place.** -/
theorem Shared.step (h : Shared verdict properties pool) (hturn : Turn verdict pool worker pool') :
    Shared verdict properties pool' := by
  cases hturn with
  | @ends i before after hbusy =>
    have hsub : (before ++ after).Sublist pool.busy := by
      rw [hbusy]
      exact (List.Sublist.refl before).append (List.sublist_cons_self _ after)
    refine ⟨?_, h.nodup.sublist (hsub.map Prod.fst), fun e he => ?_⟩
    · -- The property goes from the middle of one list to the end of the next.
      refine List.Perm.trans (List.Perm.append_left _ ?_) h.once
      rw [hbusy]
      simp only [List.map_append, List.map_cons, List.map_nil, List.append_assoc, List.cons_append]
      refine List.Perm.append_left _ ?_
      rw [← List.append_assoc]
      exact List.perm_append_comm
    · rcases List.mem_append.mp he with he | he
      · exact h.reported e he
      · rw [List.mem_singleton.mp he]
  | takes hidle hqueue =>
    refine ⟨?_, List.nodup_cons.mpr ⟨hidle, h.nodup⟩, h.reported⟩
    have honce := h.once
    rw [hqueue] at honce
    exact List.perm_middle.trans honce
  | rests => exact h

theorem Shared.turn (h : Shared verdict properties pool) (worker : Nat) :
    Shared verdict properties (pool.turn verdict worker) := h.step (turn_spec verdict h.nodup worker)

theorem Shared.run (turns : List Nat) : ∀ {pool : Pool}, Shared verdict properties pool →
    Shared verdict properties (pool.run verdict turns) := by
  induction turns with
  | nil => exact fun h => h
  | cons worker turns ih => exact fun h => ih (h.turn worker)

/-- When nothing is left to do, every property was searched once. -/
theorem Shared.perm_ended (h : Shared verdict properties pool) (hdone : pool.Exhausted) :
    pool.ended.Perm ((List.range properties).map fun i => (i, verdict i)) := by
  have hfst : (pool.ended.map Prod.fst).Perm (List.range properties) := by
    simpa [hdone.1, hdone.2] using h.once
  have hself : (pool.ended.map Prod.fst).map (fun i => (i, verdict i)) = pool.ended := by
    rw [List.map_map]
    refine (List.map_congr_left fun e he => ?_).trans (List.map_id _)
    exact Prod.ext rfl (h.reported e he).symm
  rw [← hself]
  exact hfst.map _

/-! ### Rounds of all workers -/

/-- The busy workers are some of the workers. -/
def Staffed (workers : Nat) (pool : Pool) : Prop := ∀ worker ∈ pool.busy.map Prod.fst, worker < workers

theorem Staffed.step (h : pool.Staffed workers) (hturn : Turn verdict pool worker pool') (hworker : worker < workers) :
    pool'.Staffed workers := by
  cases hturn with
  | ends hbusy =>
    intro v hv
    refine h v ?_
    rw [hbusy]
    simp only [List.map_append, List.map_cons, List.mem_append, List.mem_cons] at hv ⊢
    exact hv.imp_right .inr
  | takes => exact List.forall_mem_cons.mpr ⟨hworker, h⟩
  | rests => exact h

/-- How many turns there are still to do: two for a property in the queue, one for a search. -/
def load (pool : Pool) : Nat := 2 * pool.queue.length + pool.busy.length

theorem exhausted_of_load (h : pool.load = 0) : pool.Exhausted := by
  rw [load] at h
  exact ⟨List.eq_nil_of_length_eq_zero (by omega), List.eq_nil_of_length_eq_zero (by omega)⟩

/-- A turn does something unless the queue is empty and the worker is not at a search. -/
theorem Turn.load_lt (h : Turn verdict pool worker pool') :
    pool'.load < pool.load ∨ pool' = pool ∧ pool.queue = [] ∧ worker ∉ pool.busy.map Prod.fst := by
  cases h with
  | ends hbusy =>
    left
    simp only [load, hbusy, List.length_append, List.length_cons]
    omega
  | takes _ hqueue =>
    left
    simp only [load, hqueue, List.length_cons]
    omega
  | rests hidle hqueue => exact .inr ⟨rfl, hqueue, hidle⟩

/-- The turns of some workers, of which one has something to do. -/
theorem load_run (ws : List Nat) : ∀ {pool : Pool}, Shared verdict properties pool → pool.Staffed workers →
    (∀ w ∈ ws, w < workers) → (pool.run verdict ws).Staffed workers ∧ (pool.run verdict ws).load ≤ pool.load ∧
      ((∃ w ∈ ws, pool.queue ≠ [] ∨ w ∈ pool.busy.map Prod.fst) → (pool.run verdict ws).load < pool.load) := by
  induction ws with
  | nil => exact fun _ h _ => ⟨h, Nat.le_refl _, fun ⟨w, hw, _⟩ => by cases hw⟩
  | cons v ws ih =>
    intro pool hshared h hws
    have hturn := turn_spec verdict hshared.nodup v
    obtain ⟨hrun, hle, hlt⟩ := ih (hshared.step hturn) (h.step hturn (hws v (by simp))) fun w hw => hws w (by simp [hw])
    rw [Pool.run, List.foldl_cons, ← Pool.run]
    rcases hturn.load_lt with hless | ⟨hsame, hqueue, hidle⟩
    · have hlt := Nat.lt_of_le_of_lt hle hless
      exact ⟨hrun, Nat.le_of_lt hlt, fun _ => hlt⟩
    · -- This turn did nothing, so it is another worker that has something to do.
      rw [hsame] at hrun hle hlt ⊢
      refine ⟨hrun, hle, ?_⟩
      rintro ⟨w, hw, hsome⟩
      rcases List.mem_cons.mp hw with rfl | hw
      · exact absurd hsome (not_or.mpr ⟨fun h => h hqueue, hidle⟩)
      · exact hlt ⟨w, hw, hsome⟩

/-- Rounds of all workers do one thing each, until nothing is left to do. -/
theorem load_rounds (hworkers : 0 < workers) (count : Nat) : ∀ {pool : Pool}, Shared verdict properties pool →
    pool.Staffed workers →
    (pool.run verdict (List.replicate count (List.range workers)).flatten).load ≤ pool.load - count := by
  induction count with
  | zero => exact fun _ _ => Nat.le_refl _
  | succ count ih =>
    intro pool hshared h
    obtain ⟨hrun, hle, hlt⟩ := load_run (List.range workers) hshared h fun w hw => List.mem_range.mp hw
    have hload := ih (hshared.run (List.range workers)) hrun
    rw [List.replicate_succ, List.flatten_cons, Pool.run, List.foldl_append]
    refine Nat.le_trans hload ?_
    by_cases hidle : pool.load = 0
    · omega
    · have : (pool.run verdict (List.range workers)).load < pool.load := by
        refine hlt ?_
        by_cases hqueue : pool.queue = []
        · obtain ⟨entry, hentry⟩ : ∃ entry, entry ∈ pool.busy := by
            refine List.exists_mem_of_ne_nil _ fun hbusy => hidle ?_
            simp [load, hqueue, hbusy]
          have hmem := List.mem_map_of_mem (f := Prod.fst) hentry
          exact ⟨entry.1, List.mem_range.mpr (h _ hmem), .inr hmem⟩
        · exact ⟨0, List.mem_range.mpr hworkers, .inl hqueue⟩
      omega

end Pool

namespace Round

variable {verdict : Nat → Verdict} {properties workers : Nat}

/-- **The turns of a round leave nothing to do**: the search of every property has ended, with what it
comes to. -/
theorem exists_ended (verdict : Nat → Verdict) (properties workers : Nat) :
    ∃ ended, run verdict properties workers = ofEnded ended ∧
      ended.Perm ((List.range properties).map fun i => (i, verdict i)) := by
  have hshared := Pool.shared_start verdict properties
  have hpos : 0 < max 1 (min workers properties) := by omega
  have hload := Pool.load_rounds hpos (2 * properties) hshared fun w hw => (by cases hw)
  have hdone : (Pool.start properties).load - 2 * properties = 0 := by simp [Pool.load, Pool.start]
  refine ⟨_, rfl, (hshared.run _).perm_ended (Pool.exhausted_of_load ?_)⟩
  exact Nat.le_zero.mp (hdone ▸ hload)

theorem mem_ended_iff {ended : List (Nat × Verdict)}
    (h : ended.Perm ((List.range properties).map fun i => (i, verdict i))) {e : Nat × Verdict} :
    e ∈ ended ↔ e.1 < properties ∧ e.2 = verdict e.1 := by
  obtain ⟨i, v⟩ := e
  rw [h.mem_iff]
  simp only [List.mem_map, List.mem_range, Prod.mk.injEq]
  constructor
  · rintro ⟨i', hi, rfl, rfl⟩
    exact ⟨hi, rfl⟩
  · rintro ⟨hi, rfl⟩
    exact ⟨i, hi, rfl, rfl⟩

/-- A violation that a round reports was found by a search. -/
theorem verdict_of_mem_violations {i : Nat} {lasso : Lasso} (h : (i, lasso) ∈ (run verdict properties workers).violations) :
    verdict i = .violation lasso := by
  obtain ⟨ended, heq, hperm⟩ := exists_ended verdict properties workers
  rw [heq, ofEnded, mem_sortBy, List.mem_filterMap] at h
  obtain ⟨⟨j, v⟩, hmem, hv⟩ := h
  have hverdict := ((mem_ended_iff hperm).mp hmem).2
  cases v with
  | violation lasso' =>
    obtain ⟨rfl, rfl⟩ := Prod.mk.inj (Option.some.inj hv)
    exact hverdict.symm
  | clean => cases hv
  | failure message => cases hv

end Round

end Liveness

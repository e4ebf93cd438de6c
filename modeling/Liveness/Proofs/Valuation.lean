import Liveness.Valuation
import Liveness.Proofs.Fingerprint

/-!
# One fingerprint for each valuation

A valuation is known by the value last given to each name. Its variables stand in the order of the names,
so that neither the order in which values were given nor the values overwritten since leave a trace in
the fingerprint (`Valuation.fingerprint_canonical`).

Conversely one value is never lost in the fingerprint: valuations of the same variables that differ in
exactly one value have different fingerprints (`Valuation.fingerprints_differ`). Up to that value the same
bytes are appended; the value itself takes the hash to different words, and as no byte loses anything
they stay different to the end.
-/

namespace Liveness

namespace Variables

theorem getElem?_insert (vars : Variables) (name other : String) (value : Int64) :
    (vars.insert name value)[other]? = if name = other then some value else vars[other]? := by
  simp [Std.ExtTreeMap.getElem?_insert, Std.LawfulEqCmp.compare_eq_iff_eq]

theorem ordered_toList (vars : Variables) : vars.toList.Pairwise fun p q => p.1 < q.1 :=
  List.Pairwise.imp (fun h => compareOfLessAndEq_eq_lt.mp h) (Std.ExtTreeMap.ordered_keys_toList (t := vars))

theorem distinct_toList (vars : Variables) : vars.toList.Pairwise fun p q => p.1 ≠ q.1 := by
  refine List.Pairwise.imp ?_ (ordered_toList vars)
  intro p q hlt heq
  rw [heq] at hlt
  exact String.lt_irrefl _ hlt

/-- To change the value of a variable changes no other value. -/
theorem insert_eq_map (vars : Variables) (name : String) (v w : Int64) :
    vars.insert name w = (vars.insert name v).map fun other x => if name = other then w else x := by
  refine Std.ExtTreeMap.ext_getElem? fun other => ?_
  rw [Std.ExtTreeMap.getElem?_map, getElem?_insert, getElem?_insert]
  by_cases h : name = other
  · simp [h]
  · simp [h]

/-- The variables before and after one of them do not depend on its value. -/
theorem exists_toList_insert (vars : Variables) (name : String) :
    ∃ before after, ∀ v, (vars.insert name v).toList = before ++ (name, v) :: after := by
  have hmem : (name, 0) ∈ (vars.insert name 0).toList := by
    rw [Std.ExtTreeMap.mem_toList_iff_getElem?_eq_some, getElem?_insert, if_pos rfl]
  obtain ⟨before, after, hsplit⟩ := List.append_of_mem hmem
  have hdistinct := distinct_toList (vars.insert name 0)
  rw [hsplit, List.pairwise_append, List.pairwise_cons] at hdistinct
  obtain ⟨-, ⟨hafter, -⟩, hbefore⟩ := hdistinct
  refine ⟨before, after, fun v => ?_⟩
  have hkeep : ∀ ps : List (String × Int64), (∀ p ∈ ps, name ≠ p.1) →
      ps.map (fun p => (p.1, if name = p.1 then v else p.2)) = ps := by
    intro ps hps
    refine (List.map_congr_left fun p hp => ?_).trans (List.map_id ps)
    rw [if_neg (hps p hp)]
    rfl
  rw [insert_eq_map vars name 0 v, Std.ExtTreeMap.toList_map, hsplit, List.map_append, List.map_cons, if_pos rfl,
    hkeep before fun p hp => (hbefore p hp _ List.mem_cons_self).symm, hkeep after hafter]

/-- Append a variable with its value. -/
def appendPair (fp : Fingerprint) (p : String × Int64) : Fingerprint :=
  Fingerprint.extendInt (Fingerprint.extendText fp p.1) p.2

theorem fingerprint_eq_foldl (vars : Variables) :
    vars.fingerprint =
      vars.toList.foldl appendPair (Fingerprint.extendInt Fingerprint.polynomial (Int64.ofNat vars.size)) := rfl

theorem appendPair_injective (p : String × Int64) : Function.Injective fun fp => appendPair fp p := by
  intro a b h
  simp only [appendPair] at h
  exact Fingerprint.extendText_injective p.1 (Fingerprint.extendInt_injective p.2 h)

/-- What is appended to different words leaves them different. -/
theorem foldl_appendPair_injective (ps : List (String × Int64)) : Function.Injective fun fp => ps.foldl appendPair fp := by
  induction ps with
  | nil => exact fun _ _ h => h
  | cons p ps ih => exact ih.comp (appendPair_injective p)

/-- **A value is told from every other**, whatever the other variables. -/
theorem fingerprint_insert_inj (vars : Variables) (name : String) {v w : Int64} :
    fingerprint (vars.insert name v) = fingerprint (vars.insert name w) ↔ v = w := by
  refine ⟨fun h => ?_, fun h => by rw [h]⟩
  obtain ⟨before, after, hsplit⟩ := exists_toList_insert vars name
  have hsize : (vars.insert name v).size = (vars.insert name w).size := by
    rw [← Std.ExtTreeMap.length_toList, ← Std.ExtTreeMap.length_toList, hsplit, hsplit]
    simp
  rw [fingerprint_eq_foldl, fingerprint_eq_foldl, hsize, hsplit, hsplit, List.foldl_append, List.foldl_append,
    List.foldl_cons, List.foldl_cons] at h
  exact Fingerprint.extendInt_inj.mp (foldl_appendPair_injective after h)

/-! ### Values as they were given -/

/-- The value that a list of pairs gives to a name: of several the last one. -/
def lastValue : List (String × Int64) → String → Option Int64
  | [], _ => none
  | (other, value) :: ps, name => (lastValue ps name).or (if other = name then some value else none)

/-- To give values in order is to keep the last one of each name. -/
theorem getElem?_foldl_insert (ps : List (String × Int64)) (vars : Variables) (name : String) :
    (ps.foldl (fun vars p => vars.insert p.1 p.2) vars)[name]? = (lastValue ps name).or vars[name]? := by
  induction ps generalizing vars with
  | nil => rfl
  | cons p ps ih =>
    rw [List.foldl_cons, ih, getElem?_insert, lastValue, Option.or_assoc]
    split_ifs with h <;> rfl

theorem lastValue_append (ps qs : List (String × Int64)) (name : String) :
    lastValue (ps ++ qs) name = (lastValue qs name).or (lastValue ps name) := by
  induction ps with
  | nil => exact (Option.or_none ..).symm
  | cons p ps ih => rw [List.cons_append, lastValue, ih, lastValue, Option.or_assoc]

/-- Where each name is given one value, the last value is the only one. -/
theorem lastValue_eq_some_iff {ps : List (String × Int64)} (hdistinct : ps.Pairwise fun p q => p.1 ≠ q.1)
    {name : String} {value : Int64} : lastValue ps name = some value ↔ (name, value) ∈ ps := by
  induction ps generalizing value with
  | nil => simp [lastValue]
  | cons p ps ih =>
    obtain ⟨hne, hdistinct⟩ := List.pairwise_cons.mp hdistinct
    rw [lastValue, List.mem_cons, ← ih hdistinct, Prod.ext_iff]
    by_cases h : p.1 = name
    · have hnone : lastValue ps name = none := by
        refine Option.eq_none_iff_forall_ne_some.mpr fun v hv => ?_
        exact hne _ ((ih hdistinct).mp hv) h
      simp [h, hnone, eq_comm]
    · simp [h, Ne.symm h]

end Variables

namespace Valuation

open Variables (lastValue)

variable {s t : Valuation}

theorem fingerprint_congr (h : s.vars = t.vars) : s.fingerprint = t.fingerprint := by
  rw [s.fingerprint_eq, t.fingerprint_eq, h]

theorem get?_ofPairs (ps : List (String × Int64)) (name : String) : (ofPairs ps).get? name = lastValue ps name := by
  have hget := Variables.getElem?_foldl_insert ps ∅ name
  rw [Std.ExtTreeMap.getElem?_empty, Option.or_none] at hget
  exact hget

theorem get?_insert (s : Valuation) (name other : String) (value : Int64) :
    (s.insert name value).get? other = if name = other then some value else s.get? other :=
  Variables.getElem?_insert s.vars name other value

/-- A valuation has no more to it than its values. -/
theorem vars_eq_iff : s.vars = t.vars ↔ ∀ name, s.get? name = t.get? name :=
  ⟨fun h name => by rw [get?, get?, h], fun h => Std.ExtTreeMap.ext_getElem? h⟩

theorem lastValue_toList (s : Valuation) (name : String) : lastValue s.toList name = s.get? name := by
  refine Option.ext fun value => ?_
  rw [get?, ← Std.ExtTreeMap.mem_toList_iff_getElem?_eq_some]
  exact Variables.lastValue_eq_some_iff (Variables.distinct_toList s.vars)

theorem vars_insert_eq {name : String} {value : Int64} (hvalue : t.get? name = some value)
    (hothers : ∀ other, name ≠ other → s.get? other = t.get? other) : (s.insert name value).vars = t.vars := by
  refine vars_eq_iff.mpr fun other => ?_
  rw [get?_insert]
  split_ifs with h
  · rw [← h, hvalue]
  · exact hothers other h

/-- **Fingerprints are canonical.** However the pairs are ordered and whatever they overwrite, the valuation
has the last value of each name, its variables are in the order of the names, and the variables and the
fingerprint are those of any other pairs with the same last values. A variable set afterwards is one more
pair. -/
theorem fingerprint_canonical (ps qs : List (String × Int64)) :
    (∀ name, (ofPairs ps).get? name = lastValue ps name) ∧
      (ofPairs ps).toList.Pairwise (fun p q => p.1 < q.1) ∧
      ((∀ name, lastValue ps name = lastValue qs name) →
        (ofPairs ps).vars = (ofPairs qs).vars ∧ (ofPairs ps).fingerprint = (ofPairs qs).fingerprint) ∧
      ∀ (s : Valuation) name value,
        (s.insert name value).vars = (ofPairs (s.toList ++ [(name, value)])).vars ∧
          (s.insert name value).fingerprint = (ofPairs (s.toList ++ [(name, value)])).fingerprint := by
  refine ⟨get?_ofPairs ps, Variables.ordered_toList _, fun hsame => ?_, fun s name value => ?_⟩
  · have hvars : (ofPairs ps).vars = (ofPairs qs).vars := by
      refine vars_eq_iff.mpr fun name => ?_
      rw [get?_ofPairs, get?_ofPairs, hsame]
    exact ⟨hvars, fingerprint_congr hvars⟩
  · have hvars : (s.insert name value).vars = (ofPairs (s.toList ++ [(name, value)])).vars := by
      refine vars_eq_iff.mpr fun other => ?_
      rw [get?_ofPairs, Variables.lastValue_append, lastValue_toList, get?_insert]
      simp only [lastValue, Option.none_or]
      split_ifs <;> rfl
    exact ⟨hvars, fingerprint_congr hvars⟩

/-- A value given twice, and in another order. -/
theorem fingerprint_canonical_overwritten :
    (∀ name, lastValue [("x", 1), ("y", 2), ("x", 3)] name = lastValue [("x", 3), ("y", 2)] name) ∧
      (ofPairs [("x", 1), ("y", 2), ("x", 3)]).fingerprint = (ofPairs [("x", 3), ("y", 2)]).fingerprint := by
  have hsame : ∀ name, lastValue [("x", 1), ("y", 2), ("x", 3)] name = lastValue [("x", 3), ("y", 2)] name := by
    intro name
    by_cases hx : "x" = name
    · subst hx
      rfl
    · simp [lastValue, hx]
  exact ⟨hsame, ((fingerprint_canonical _ _).2.2.1 hsame).2⟩

/-- The valuations have the same variables and differ in the value of exactly one. -/
structure DifferAt (s t : Valuation) (name : String) : Prop where
  values : ∃ v w, v ≠ w ∧ s.get? name = some v ∧ t.get? name = some w
  others : ∀ other, name ≠ other → s.get? other = t.get? other

/-- **One value changed is a fingerprint changed.** -/
theorem fingerprints_differ (s t : Valuation) (name : String) (v w : Int64) :
    (v ≠ w → (s.insert name v).fingerprint ≠ (s.insert name w).fingerprint) ∧
      (DifferAt s t name → s.fingerprint ≠ t.fingerprint) := by
  have hinsert : ∀ {v w : Int64}, v ≠ w → (s.insert name v).fingerprint ≠ (s.insert name w).fingerprint :=
    fun hne heq => hne ((Variables.fingerprint_insert_inj s.vars name).mp heq)
  refine ⟨hinsert, fun h => ?_⟩
  obtain ⟨v, w, hne, hs, ht⟩ := h.values
  rw [← fingerprint_congr (vars_insert_eq hs fun _ _ => rfl), ← fingerprint_congr (vars_insert_eq ht h.others)]
  exact hinsert hne

/-- The sign of a value. -/
theorem fingerprints_differ_sign :
    (2 : Int64) ≠ -2 ∧
      ((ofPairs [("x", 1)]).insert "y" 2).fingerprint ≠ ((ofPairs [("x", 1)]).insert "y" (-2)).fingerprint ∧
      DifferAt (ofPairs [("y", 2), ("x", 1)]) (ofPairs [("x", 1), ("y", -2)]) "y" ∧
      (ofPairs [("y", 2), ("x", 1)]).fingerprint ≠ (ofPairs [("x", 1), ("y", -2)]).fingerprint := by
  have hne : (2 : Int64) ≠ -2 := by decide
  have hdiffer : DifferAt (ofPairs [("y", 2), ("x", 1)]) (ofPairs [("x", 1), ("y", -2)]) "y" := by
    refine ⟨⟨2, -2, hne, ?_, ?_⟩, fun other hother => ?_⟩
    · rw [get?_ofPairs]
      rfl
    · rw [get?_ofPairs]
      rfl
    · rw [get?_ofPairs, get?_ofPairs]
      simp [lastValue, hother]
  exact ⟨hne, (fingerprints_differ _ default "y" 2 (-2)).1 hne, hdiffer, (fingerprints_differ _ _ "y" 2 (-2)).2 hdiffer⟩

end Valuation

end Liveness

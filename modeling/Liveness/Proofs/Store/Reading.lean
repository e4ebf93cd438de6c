import Mathlib.Tactic.Common
import Liveness.Store.Path
import Liveness.Store.Drawing
import Liveness.Proofs.Outcome
import Liveness.Proofs.Store.Log

/-!
# Reading a store is safe

The bytes of a store may be damaged, and a parent may be missing. All of that shows as an
error. Only the limit on the length of a path can leave a machine word, and that takes a graph
with as many nodes as there are words.
-/

namespace Liveness

variable {α β σ : Type}

/-- The computation may end in an error, but it breaks no precondition. -/
def Outcome.Proper (r : Outcome α) : Prop := ∀ d, r ≠ .error (.defect d)

namespace Outcome

theorem proper_ok (a : α) : Proper (.ok a : Outcome α) := fun _ h => by cases h

theorem proper_error (e : Error) : Proper (.error (.error e) : Outcome α) := fun _ h => by cases h

theorem Proper.bind {r : Outcome α} {f : α → Outcome β} (hr : r.Proper) (hf : ∀ a, (f a).Proper) : (r >>= f).Proper := by
  cases r with
  | ok a => exact hf a
  | error e =>
    intro d hd
    exact hr d (congrArg Except.error (Except.error.inj hd))

theorem Proper.map {r : Outcome α} (hr : r.Proper) (f : α → β) : (f <$> r : Outcome β).Proper := by
  cases r with
  | ok a => exact proper_ok (f a)
  | error e =>
    intro d hd
    exact hr d (congrArg Except.error (Except.error.inj hd))

theorem Proper.mapM {f : α → Outcome β} (hf : ∀ a, (f a).Proper) (as : List α) : (as.mapM f).Proper := by
  induction as with
  | nil => exact proper_ok _
  | cons a as ih =>
    rw [List.mapM_cons]
    exact (hf a).bind fun b => ih.bind fun bs => proper_ok _

end Outcome

namespace Reader

/-- The reader fails only because of what it reads. -/
def Careful (r : Reader α) : Prop := ∀ c, (r c).Proper

theorem careful_pure (a : α) : Careful (pure a : Reader α) := fun _ => Outcome.proper_ok _

theorem careful_fail (damage : Damage) : Careful (fail damage : Reader α) := fun _ => Outcome.proper_error _

theorem Careful.bind {r : Reader α} {f : α → Reader β} (hr : r.Careful) (hf : ∀ a, (f a).Careful) : (r >>= f).Careful :=
  fun c => (hr c).bind fun x => hf x.1 x.2

theorem careful_take (n : Nat) : Careful (take n) := by
  intro c
  rw [take]
  split
  · exact Outcome.proper_ok _
  · exact Outcome.proper_error _

theorem careful_atEnd : Careful atEnd := fun _ => Outcome.proper_ok _

theorem careful_number (n : Nat) : Careful (number n) := (careful_take n).bind fun _ => careful_pure _

theorem careful_byte : Careful byte := (careful_number 1).bind fun _ => careful_pure _

theorem careful_word32 : Careful word32 := (careful_number 4).bind fun _ => careful_pure _

theorem careful_word64 : Careful word64 := (careful_number 8).bind fun _ => careful_pure _

theorem careful_key : Careful key := careful_word64.bind fun _ => careful_word32.bind fun _ => careful_pure _

theorem Careful.many {r : Reader α} (hr : r.Careful) (n : Nat) : Careful (many r n) := by
  induction n with
  | zero => exact careful_pure _
  | succ n ih => exact hr.bind fun a => ih.bind fun as => careful_pure _

end Reader

open Reader Outcome

namespace Node

theorem careful_readParent : readParent.Careful := by
  refine careful_byte.bind fun tag => ?_
  split_ifs
  · exact careful_pure _
  · exact careful_key.bind fun _ => careful_pure _
  · exact careful_fail _

theorem careful_reader : reader.Careful := by
  refine careful_key.bind fun key => careful_readParent.bind fun parent => (careful_number 4).bind fun stateLen =>
    (careful_take _).bind fun stateBytes => (careful_number 4).bind fun width => (careful_number 4).bind fun used => ?_
  split_ifs
  · exact careful_fail _
  · refine (careful_word32.many _).bind fun words => careful_atEnd.bind fun isEnd => ?_
    split_ifs
    · exact careful_pure _
    · exact careful_fail _

theorem proper_decode (offset : Nat) (bytes : List UInt8) : (decode offset bytes).Proper :=
  (careful_reader ⟨offset, bytes, 0⟩).map Prod.fst

end Node

theorem File.proper_read (file : File) (position n : Nat) : (file.read position n).Proper := by
  rw [File.read]
  split_ifs
  · exact proper_ok _
  · exact proper_error _

theorem Log.proper_read (l : Log) (offset : Nat) : (l.read offset).Proper := by
  rw [Log.read_eq]
  split_ifs
  · exact proper_error _
  · refine (l.file.proper_read offset headLen).bind fun head => ?_
    split_ifs
    · exact proper_error _
    · exact (l.file.proper_read _ _).bind fun body => Node.proper_decode offset body

namespace Store

variable (s : Store)

theorem proper_node (k : Key) : (s.node k).Proper := by
  unfold node
  split
  · exact s.log.proper_read _
  · exact proper_ok _
  · exact proper_ok _

theorem proper_draw (t : Option (Tableau σ)) (title : String) : (s.draw t title).Proper :=
  (Proper.mapM (fun k => (s.proper_node k).bind fun _ => proper_ok _) s.keys).bind fun _ => proper_ok _

theorem meets_parentOf (k : Key) (c : PathCache) :
    (s.parentOf k).Meets c (fun _ _ => True) (fun f _ => ∀ d, f ≠ .defect d) := by
  have hread : ∀ offset f, s.log.read offset = .error f → ∀ d, f ≠ .defect d := by
    rintro offset f hf d rfl
    exact s.log.proper_read offset d hf
  unfold parentOf
  split
  · exact fun d hd => by cases hd
  · trivial
  · refine (Change.Meets.get (Q := fun _ _ => True) trivial).bind fun c' _ _ => ?_
    split
    · trivial
    · refine (Change.Meets.lift (Q := fun _ _ => True) (fun _ _ => trivial) fun f hf => hread _ f hf).bind ?_
      intro n c'' _
      trivial

theorem meets_walkBack (goal : Key) (fuel : Nat) : ∀ (k? : Option Key) (path : List Fingerprint) (c : PathCache),
    (s.walkBack goal fuel k? path).Meets c (fun _ _ => True) (fun f _ => ∀ d, f ≠ .defect d) := by
  induction fuel with
  | zero =>
    intro k? path c
    cases k? with
    | none => trivial
    | some k => exact fun d hd => by cases hd
  | succ fuel ih =>
    intro k? path c
    cases k? with
    | none => trivial
    | some k => exact (s.meets_parentOf k c).bind fun parent c' _ => ih parent _ c'

/-- **A path is found, or an error says why not**, unless the limit on its length leaves a machine
word. -/
theorem overflow_of_pathTo {k : Key} {d : Defect} (h : s.pathTo k = .error (.defect d)) :
    d = .addOverflow ∧ wordLimit ≤ s.size.toNat + 1 := by
  have hpath : (s.path k).Meets {} (fun _ _ => True)
      (fun f _ => ∀ d, f = .defect d → d = .addOverflow ∧ wordLimit ≤ s.size.toNat + 1) := by
    refine Change.Meets.bind (Q := fun _ _ => True) (Change.Meets.lift (fun _ _ => trivial) ?_) ?_
    · intro f hf d hd
      rw [hd, addWords] at hf
      split_ifs at hf with hlimit
      · cases hf
      · exact ⟨(Fault.defect.inj (Except.error.inj hf)).symm, Nat.le_of_not_lt hlimit⟩
    · intro limit c _
      exact (s.meets_walkBack k _ _ _ c).mono (fun _ _ _ => trivial) fun f _ hf d hd => absurd hd (hf d)
  rcases hrun : s.path k {} with ⟨f | path, c⟩
  · rw [pathTo, hrun] at h
    exact hpath.of_error hrun d (Except.error.inj h)
  · rw [pathTo, hrun] at h
    cases h

end Store

end Liveness

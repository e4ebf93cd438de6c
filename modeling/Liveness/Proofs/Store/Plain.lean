import Mathlib.Data.List.DropRight
import Mathlib.Logic.Function.Basic
import Liveness.Proofs.Graph.Built
import Liveness.Proofs.Store.Edit
import Liveness.Proofs.Store.Overlong

/-!
# The store as a plain map

The nodes of a store are found through byte offsets in a log in which the records of
rewritten nodes stay behind, and the number of nodes is counted apart from the table. Seen
from outside, none of this shows: a store answers as a map from keys to what was last said
of them (`Plain`). `Store.run_refines` says so of every history of a store.
-/

namespace Liveness

/-- What is known of a node. -/
inductive Plain.Content where
  /-- The node was named, with the node it was first reached from, and never written. -/
  | recorded (parent : Option Key)
  /-- The node was written. -/
  | written (n : Node)

/-- A graph without a log. -/
structure Plain where
  /-- What is known of each node. -/
  content : Key → Option Plain.Content := fun _ => none
  /-- The nodes that something is known of, in the order first seen. -/
  seen : List Key := []
  /-- The states that were expanded. -/
  done : List Fingerprint := []
  /-- The roots, in the order added. -/
  roots : List Key := []

/-- An operation on a store. -/
inductive Store.Operation where
  /-- A change of the graph. -/
  | edit (e : Store.Edit)
  /-- See to it that all records are in the file. -/
  | flush
  /-- Forget all nodes. -/
  | reset

/-- The store after an operation. A record is in the file as soon as it is appended, so
there is nothing to flush. -/
def Store.operate (s : Store) : Store.Operation → Store
  | .edit e => s.edit e
  | .flush => s
  | .reset => s.reset

/-- The store after a history. -/
def Store.run (s : Store) (ops : List Store.Operation) : Store := ops.foldl Store.operate s

/-! ### What a history says -/

namespace Store

def Operation.isReset : Operation → Bool
  | .reset => true
  | _ => false

/-- The node that an operation writes, if it is the one with the key. -/
def Operation.written? (k : Key) : Operation → Option Node
  | .edit (.addNode n) => if n.key = k then some n else none
  | _ => none

/-- The parent with which an operation names the node, if it does. -/
def Operation.named? (k : Key) : Operation → Option (Option Key)
  | .edit (.addRoot l) => if l = k then some none else none
  | .edit (.record l parent) => if l = k then some (some parent) else none
  | _ => none

/-- The part of a history after the last time the store was reset. -/
def sinceReset (ops : List Operation) : List Operation := ops.rtakeWhile fun op => !op.isReset

/-- The node that was written last with a key. -/
def lastWritten? (ops : List Operation) (k : Key) : Option Node := (sinceReset ops).reverse.findSome? (·.written? k)

/-- The parent with which a node was named first. -/
def firstNamed? (ops : List Operation) (k : Key) : Option (Option Key) := (sinceReset ops).findSome? (·.named? k)

theorem sinceReset_concat (ops : List Operation) {op : Operation} (h : op.isReset = false) :
    sinceReset (ops ++ [op]) = sinceReset ops ++ [op] :=
  List.rtakeWhile_concat_pos _ _ _ (by simp [h])

theorem lastWritten?_concat (ops : List Operation) {op : Operation} (h : op.isReset = false) (k : Key) :
    lastWritten? (ops ++ [op]) k = (op.written? k).or (lastWritten? ops k) := by
  rw [lastWritten?, sinceReset_concat ops h, List.reverse_append, List.reverse_singleton, List.singleton_append,
    List.findSome?_cons]
  cases op.written? k <;> rfl

theorem firstNamed?_concat (ops : List Operation) {op : Operation} (h : op.isReset = false) (k : Key) :
    firstNamed? (ops ++ [op]) k = (firstNamed? ops k).or (op.named? k) := by
  rw [firstNamed?, sinceReset_concat ops h, List.findSome?_append, List.findSome?_singleton]
  rfl

end Store

namespace Plain

/-- Put what is known of a node in place of what was known of it. -/
def put (a : Plain) (k : Key) (c : Content) : Plain :=
  { a with
    content := Function.update a.content k (some c)
    seen := if (a.content k).isNone then a.seen ++ [k] else a.seen }

/-- Name a node, of which something may be known already. -/
def see (a : Plain) (k : Key) (parent : Option Key) : Plain :=
  if (a.content k).isNone then a.put k (.recorded parent) else a

/-- Make a node a root. -/
def addRoot (a : Plain) (k : Key) : Plain :=
  { a.see k none with roots := if k ∈ a.roots then a.roots else a.roots ++ [k] }

/-- The graph after an operation. -/
def operate (a : Plain) : Store.Operation → Plain
  | .edit (.addRoot k) => a.addRoot k
  | .edit (.record k parent) => a.see k (some parent)
  | .edit (.addNode n) => a.put n.key (.written n)
  | .edit (.setDone fp) => { a with done := fp :: a.done }
  | .edit .markChecked => a
  | .flush => a
  | .reset => {}

/-- The graph after a history. -/
def run (a : Plain) (ops : List Store.Operation) : Plain := ops.foldl operate a

/-- The node with a key: the one written last, or a node without checks and steps. -/
def node (a : Plain) (k : Key) : Node :=
  match a.content k with
  | some (.written n) => n
  | some (.recorded parent) => { key := k, parent := parent }
  | none => { key := k, parent := none }

/-- The points of a state's nodes, in the order first seen. -/
def pointsAt (a : Plain) (fp : Fingerprint) : List UInt32 := (a.seen.filter fun k => k.fp = fp).map Key.point

@[simp] theorem node_put (a : Plain) (k : Key) (c : Content) :
    (a.put k c).node k = match c with
      | .written n => n
      | .recorded parent => { key := k, parent := parent } := by
  cases c <;> simp [node, put]

theorem node_put_of_ne {a : Plain} {k l : Key} (h : l ≠ k) {c : Content} : (a.put k c).node l = a.node l := by
  simp only [node, put, Function.update_of_ne h]

theorem pointsAt_put (a : Plain) (k : Key) (c : Content) (fp : Fingerprint) :
    (a.put k c).pointsAt fp =
      if (a.content k).isNone = true ∧ k.fp = fp then a.pointsAt fp ++ [k.point] else a.pointsAt fp := by
  rw [pointsAt, put]
  by_cases hnone : (a.content k).isNone = true
  · by_cases hfp : k.fp = fp <;> simp [hnone, hfp, pointsAt]
  · simp [hnone, pointsAt]

/-! ### A plain graph is well formed -/

/-- The nodes that something is known of are listed, no node and no root twice. -/
structure Proper (a : Plain) : Prop where
  mem_seen : ∀ k, k ∈ a.seen ↔ (a.content k).isSome = true
  nodup_seen : a.seen.Nodup
  nodup_roots : a.roots.Nodup

variable {a : Plain} {k : Key}

theorem Proper.put (h : a.Proper) (k : Key) (c : Content) : (a.put k c).Proper := by
  constructor
  case mem_seen =>
    intro l
    have hl := h.mem_seen l
    by_cases hlk : l = k
    · subst hlk
      cases hc : a.content l <;> simp [Plain.put, hc, hl]
    · cases hc : a.content k <;> simp [Plain.put, hc, hl, hlk]
  case nodup_seen =>
    rw [Plain.put]
    split_ifs with hnone
    · have hnot : k ∉ a.seen := by
        rw [h.mem_seen, Bool.not_eq_true, Option.isSome_eq_false_iff]
        exact hnone
      exact List.concat_eq_append ▸ h.nodup_seen.concat hnot
    · exact h.nodup_seen
  case nodup_roots => exact h.nodup_roots

theorem Proper.see (h : a.Proper) (k : Key) (parent : Option Key) : (a.see k parent).Proper := by
  rw [Plain.see]
  split_ifs
  · exact h.put k _
  · exact h

theorem Proper.addRoot (h : a.Proper) (k : Key) : (a.addRoot k).Proper := by
  refine ⟨(h.see k none).mem_seen, (h.see k none).nodup_seen, ?_⟩
  rw [Plain.addRoot]
  split_ifs with hk
  · exact h.nodup_roots
  · exact List.concat_eq_append ▸ h.nodup_roots.concat hk

theorem proper_empty : Proper {} := ⟨by simp, List.nodup_nil, List.nodup_nil⟩

theorem Proper.operate (h : a.Proper) (op : Store.Operation) : (a.operate op).Proper := by
  cases op with
  | edit e =>
    cases e with
    | addRoot k => exact h.addRoot k
    | record k parent => exact h.see k _
    | addNode n => exact h.put n.key _
    | setDone fp => exact ⟨h.mem_seen, h.nodup_seen, h.nodup_roots⟩
    | markChecked => exact h
  | flush => exact h
  | reset => exact proper_empty

/-! ### What a history leaves in a plain graph -/

/-- What a history says of a node. -/
def told (ops : List Store.Operation) (k : Key) : Option Content :=
  ((Store.lastWritten? ops k).map .written).or ((Store.firstNamed? ops k).map .recorded)

theorem told_concat (ops : List Store.Operation) {op : Store.Operation} (h : op.isReset = false) (k : Key) :
    told (ops ++ [op]) k =
      ((op.written? k).map .written).or ((told ops k).or ((op.named? k).map .recorded)) := by
  rw [told, Store.lastWritten?_concat ops h, Store.firstNamed?_concat ops h, Option.map_or, Option.map_or, told,
    Option.or_assoc, Option.or_assoc]

theorem content_see (a : Plain) (k : Key) (parent : Option Key) (l : Key) :
    (a.see k parent).content l = (a.content l).or (if k = l then some (.recorded parent) else none) := by
  rw [see]
  by_cases hl : k = l
  · subst hl
    cases hc : a.content k <;> simp [put, hc]
  · split_ifs <;> simp [put, Function.update_of_ne (Ne.symm hl)]

@[simp] theorem done_see (a : Plain) (k : Key) (parent : Option Key) : (a.see k parent).done = a.done := by
  rw [see]
  split_ifs <;> rfl

/-- What is known of a node is the last node written with its key, or else the first parent
it was named with. -/
theorem content_run (ops : List Store.Operation) (k : Key) : (run {} ops).content k = told ops k := by
  induction ops using List.reverseRecOn with
  | nil => rfl
  | append_singleton ops op ih =>
    rw [run, List.foldl_append]
    change ((run {} ops).operate op).content k = _
    cases op with
    | edit e =>
      rw [told_concat ops rfl, ← ih]
      cases e with
      | addRoot l =>
        change ((run {} ops).see l none).content k = _
        rw [content_see]
        by_cases hl : l = k <;> simp [Store.Operation.written?, Store.Operation.named?, hl]
      | record l parent =>
        change ((run {} ops).see l (some parent)).content k = _
        rw [content_see]
        by_cases hl : l = k <;> simp [Store.Operation.written?, Store.Operation.named?, hl]
      | addNode n =>
        change Function.update (run {} ops).content n.key (some (.written n)) k = _
        by_cases hl : n.key = k
        · simp [Store.Operation.written?, hl]
        · simp [Store.Operation.written?, Store.Operation.named?, hl, Function.update_of_ne (Ne.symm hl)]
      | setDone fp => simp [operate, Store.Operation.written?, Store.Operation.named?]
      | markChecked => simp [operate, Store.Operation.written?, Store.Operation.named?]
    | flush =>
      rw [told_concat ops rfl, ← ih]
      simp [operate, Store.Operation.written?, Store.Operation.named?]
    | reset => simp [operate, told, Store.lastWritten?, Store.firstNamed?, Store.sinceReset, Store.Operation.isReset]

theorem node_run (ops : List Store.Operation) (k : Key) :
    (run {} ops).node k =
      (Store.lastWritten? ops k).getD { key := k, parent := (Store.firstNamed? ops k).join } := by
  rw [node, content_run, told]
  cases Store.lastWritten? ops k with
  | some n => rfl
  | none => cases Store.firstNamed? ops k <;> rfl

/-- The expanded states are those marked since the last reset. -/
theorem mem_done_run (ops : List Store.Operation) (fp : Fingerprint) :
    fp ∈ (run {} ops).done ↔ .edit (.setDone fp) ∈ Store.sinceReset ops := by
  induction ops using List.reverseRecOn with
  | nil => simp [run, Store.sinceReset]
  | append_singleton ops op ih =>
    rw [run, List.foldl_append]
    change fp ∈ ((run {} ops).operate op).done ↔ _
    cases op with
    | edit e =>
      rw [Store.sinceReset_concat ops rfl, List.mem_append, ← ih]
      cases e with
      | addRoot l => simp [operate, addRoot]
      | record l parent => simp [operate]
      | addNode n => simp [operate, put]
      | setDone fp' => simp [operate, or_comm]
      | markChecked => simp [operate]
    | flush =>
      rw [Store.sinceReset_concat ops rfl, List.mem_append, ← ih]
      simp [operate]
    | reset => simp [operate, Store.sinceReset, Store.Operation.isReset]

end Plain

namespace Store

variable {s : Store} {a : Plain} {k : Key} {n : Node}

/-! ### What a store shares with a plain graph -/

/-- The store answers as the plain graph. -/
structure Matches (s : Store) (a : Plain) : Prop where
  node : ∀ k, s.node k = .ok (a.node k).trim
  isUnseen : ∀ k, s.isUnseen k = (a.content k).isNone
  pointsAt : ∀ fp, s.pointsAt fp = a.pointsAt fp
  isDone : ∀ fp, s.isDone fp = true ↔ fp ∈ a.done
  roots : s.roots = a.roots

theorem matches_empty (htable : s.table = ∅) (hroots : s.roots = []) : s.Matches {} := by
  have hslot := slot?_of_empty htable
  refine ⟨fun k => ?_, fun k => ?_, fun fp => ?_, fun fp => ?_, hroots⟩
  · rw [Store.node, hslot]
    rfl
  · rw [Store.isUnseen, hslot]
    rfl
  · simp [Store.pointsAt, htable, Table.row, Row.points, Plain.pointsAt]
  · simp [Store.isDone, htable, Table.row]

/-- What the store says of a node is put in place of what it said of it before. -/
theorem Matches.put (h : s.Matches a) {s' : Store} {c : Plain.Content}
    (hnode : ∀ l, s'.node l = if l = k then .ok ((a.put k c).node k).trim else s.node l)
    (hunseen : ∀ l, s'.isUnseen l = (decide (l ≠ k) && s.isUnseen l))
    (hpoints : ∀ fp, s'.pointsAt fp =
      if s.isUnseen k = true ∧ k.fp = fp then s.pointsAt fp ++ [k.point] else s.pointsAt fp)
    (hdone : ∀ fp, s'.isDone fp = s.isDone fp) (hroots : s'.roots = s.roots) : s'.Matches (a.put k c) := by
  constructor
  case node =>
    intro l
    rw [hnode]
    split_ifs with hl
    · rw [hl]
    · rw [Plain.node_put_of_ne hl, h.node]
  case isUnseen =>
    intro l
    rw [hunseen, h.isUnseen]
    by_cases hl : l = k <;> simp [Plain.put, hl]
  case pointsAt =>
    intro fp
    rw [hpoints, Plain.pointsAt_put, h.isUnseen, h.pointsAt]
  case isDone =>
    intro fp
    rw [hdone]
    exact h.isDone fp
  case roots => exact hroots.trans h.roots

theorem Matches.insert_recorded (h : s.Matches a) (k : Key) (parent : Option Key) :
    (s.insert k (.recorded parent)).Matches (a.put k (.recorded parent)) := by
  refine h.put (fun l => ?_) (isUnseen_insert s k _) (pointsAt_insert s k _) (isDone_insert s k _) rfl
  rw [node_insert_recorded, Plain.node_put]
  rfl

theorem Matches.record (h : s.Matches a) (k parent : Key) : (s.record k parent).Matches (a.see k (some parent)) := by
  rw [Store.record, Plain.see, ← h.isUnseen]
  split_ifs
  · exact h.insert_recorded k _
  · exact h

theorem Matches.addRoot (h : s.Matches a) (k : Key) : (s.addRoot k).Matches (a.addRoot k) := by
  have hsee : (s.seeRoot k).Matches (a.see k none) := by
    rw [seeRoot, Plain.see, ← h.isUnseen]
    split_ifs
    · exact h.insert_recorded k _
    · exact h
  rw [addRoot_eq, h.roots]
  exact ⟨hsee.node, hsee.isUnseen, hsee.pointsAt, hsee.isDone, rfl⟩

theorem Matches.addNode (hintact : s.Intact) (h : s.Matches a) (hbuilt : n.Built) (hstorable : n.Storable) :
    (s.addNode n).Matches (a.put n.key (.written n)) := by
  refine h.put (fun l => ?_) (isUnseen_addNode s n) (pointsAt_addNode s n) (isDone_addNode s n) (roots_addNode s n)
  split_ifs with hl
  · rw [hl, node_addNode_self hintact hbuilt.whole hstorable, hbuilt.normal_eq, Plain.node_put]
  · exact node_addNode_of_ne hintact hl

theorem Matches.setDone (h : s.Matches a) (fp : Fingerprint) :
    (s.setDone fp).Matches { a with done := fp :: a.done } := by
  refine ⟨fun k => ?_, fun k => ?_, fun fp' => ?_, fun fp' => ?_, h.roots⟩
  · exact (node_setDone s fp k).trans (h.node k)
  · exact (isUnseen_setDone s fp k).trans (h.isUnseen k)
  · exact (pointsAt_setDone s fp fp').trans (h.pointsAt fp')
  · rw [isDone_setDone, Bool.or_eq_true, decide_eq_true_iff, h.isDone, List.mem_cons]

/-! ### Histories -/

/-- The nodes that are written can be made, and their records fit the log. -/
def Operation.Valid : Operation → Prop
  | .edit (.addNode n) => n.Built ∧ n.Storable
  | _ => True

/-- What a history keeps: the records can be read, the nodes are counted, and the store
answers as the plain graph. -/
structure Follows (s : Store) (a : Plain) : Prop where
  intact : s.Intact
  counted : s.Counted
  proper : a.Proper
  isMatch : s.Matches a

theorem Follows.empty (hlog : s.log = {}) (htable : s.table = ∅) (hroots : s.roots = []) (hsize : s.size = 0) :
    s.Follows {} :=
  ⟨.of_empty hlog htable, .of_empty htable hsize, Plain.proper_empty, matches_empty htable hroots⟩

/-- An operation does to the store what it does to the plain graph. -/
theorem Follows.operate (h : s.Follows a) {op : Operation} (hop : op.Valid) :
    (s.operate op).Follows (a.operate op) := by
  cases op with
  | edit e =>
    refine ⟨?_, ?_, h.proper.operate _, ?_⟩ <;> cases e
    case refine_1.addRoot k => exact h.intact.addRoot k
    case refine_1.record k parent => exact h.intact.record k parent
    case refine_1.addNode n => exact h.intact.addNode hop.1.whole hop.2
    case refine_1.setDone fp => exact h.intact.setDone fp
    case refine_1.markChecked => exact ⟨h.intact.whole, h.intact.recorded, h.intact.readable⟩
    case refine_2.addRoot k => exact h.counted.addRoot k
    case refine_2.record k parent => exact h.counted.record k parent
    case refine_2.addNode n => exact h.counted.addNode n
    case refine_2.setDone fp => exact h.counted.setDone fp
    case refine_2.markChecked => exact ⟨h.counted.tidy, h.counted.size_eq⟩
    case refine_3.addRoot k => exact h.isMatch.addRoot k
    case refine_3.record k parent => exact h.isMatch.record k parent
    case refine_3.addNode n => exact h.isMatch.addNode h.intact hop.1 hop.2
    case refine_3.setDone fp => exact h.isMatch.setDone fp
    case refine_3.markChecked =>
      exact ⟨h.isMatch.node, h.isMatch.isUnseen, h.isMatch.pointsAt, h.isMatch.isDone, h.isMatch.roots⟩
  | flush => exact h
  | reset => exact .empty (Log.truncate_zero s.log) rfl rfl rfl

theorem Follows.run (h : s.Follows a) {ops : List Operation} (hops : ∀ op ∈ ops, op.Valid) :
    (s.run ops).Follows (a.run ops) := by
  induction ops generalizing s a with
  | nil => exact h
  | cons op ops ih => exact ih (h.operate (hops op (by simp))) fun op' hop' => hops op' (by simp [hop'])

/-- The store answers as the plain graph, also about all nodes at once. -/
structure Refines (s : Store) (a : Plain) : Prop extends s.Matches a where
  perm_keys : s.keys.Perm a.seen
  sorted_keys : s.keys.Pairwise fun k l => k.le l = true
  nodup_keys : s.keys.Nodup
  size : s.size = .ofNat s.keys.length
  nodup_roots : s.roots.Nodup

theorem Follows.refines (h : s.Follows a) : s.Refines a where
  toMatches := h.isMatch
  perm_keys := by
    refine (List.perm_ext_iff_of_nodup h.counted.nodup_keys h.proper.nodup_seen).mpr fun k => ?_
    rw [mem_keys_iff, h.isMatch.isUnseen, h.proper.mem_seen, Option.isNone_eq_false_iff]
  sorted_keys := Table.pairwise_keys s.table
  nodup_keys := h.counted.nodup_keys
  size := h.counted.size_eq
  nodup_roots := h.isMatch.roots ▸ h.proper.nodup_roots

/-- **A store is a plain map.** After any history a store answers as the plain graph does
after the same history: the node that is read is the one written last with the key since
the last reset, or else a node without checks and steps whose parent is the one it was first
named with; the expanded states are those marked since the last reset. To write a node
changes what is read of no other. When a node is named the store says that it is new exactly
if it is not among the keys, and to name a node that is known changes nothing that is known of any. -/
theorem run_refines {folder : String} {taken : List String} {index : Nat}
    (hcreate : create folder taken index = .ok s) {ops : List Operation} (hops : ∀ op ∈ ops, op.Valid) :
    (s.run ops).Refines (Plain.run {} ops) ∧
      (∀ k, (s.run ops).node k =
        .ok ((lastWritten? ops k).getD { key := k, parent := (firstNamed? ops k).join }).trim) ∧
      (∀ fp, (s.run ops).isDone fp = true ↔ .edit (.setDone fp) ∈ sinceReset ops) ∧
      (∀ n k, k ≠ n.key → ((s.run ops).addNode n).node k = (s.run ops).node k) ∧
      (∀ k parent, ((s.run ops).recordNew k parent).1 = true ↔ k ∉ (s.run ops).keys) ∧
      ∀ k parent l, (s.run ops).isUnseen l = false →
        ((s.run ops).recordNew k parent).2.slot? l = (s.run ops).slot? l ∧
          ((s.run ops).addRoot k).slot? l = (s.run ops).slot? l := by
  obtain ⟨hlog, htable, hroots, hsize⟩ := create_eq_ok hcreate
  have hstart : s.Follows {} := .empty hlog htable hroots hsize
  have h := hstart.run hops
  refine ⟨h.refines, fun k => ?_, fun fp => ?_, fun n k hk => ?_, fun k parent => ?_, fun k parent l hl => ?_⟩
  · rw [h.isMatch.node, Plain.node_run]
  · rw [h.isMatch.isDone, Plain.mem_done_run]
  · exact node_addNode_of_ne h.intact hk
  · rw [mem_keys_iff, Bool.not_eq_false, recordNew]
  · exact ⟨slot?_record_of_seen hl k parent, slot?_addRoot_of_seen hl k⟩

/-- A node with one step. -/
def pointer (k l : Key) : Node := (Node.addStep { key := k, parent := none } l 1 (.ofList [true]) 0 1).2

theorem valid_pointer (k l : Key) : Operation.Valid (.edit (.addNode (pointer k l))) := by
  have hstep : Node.addStep { key := k, parent := none } l 1 (.ofList [true]) 0 1 = (.ok (), pointer k l) := by
    with_unfolding_all rfl
  have hbuilt : (pointer k l).Built := .addStep (.new k none) hstep
  have htidy : (pointer k l).Tidy := (Node.tidy_new k none).addStep hstep
  refine ⟨hbuilt, htidy.storable ?_⟩
  have hsizes : (pointer k l).parent = none ∧ (pointer k l).stateBits.len = 0 ∧ (pointer k l).used = 4 := by
    with_unfolding_all exact ⟨rfl, rfl, rfl⟩
  rw [Node.length_encode, hsizes.1, hsizes.2.1, hsizes.2.2]
  decide

/-- A history in which the store is reset, a node is named twice and another is written
twice. -/
def sampleHistory : List Operation :=
  [.edit (.addNode (pointer ⟨2, 0⟩ ⟨2, 0⟩)), .edit (.setDone 2), .reset, .edit (.addRoot ⟨1, 0⟩),
    .edit (.record ⟨2, 0⟩ ⟨1, 0⟩), .edit (.record ⟨2, 0⟩ ⟨3, 0⟩), .edit (.addNode (pointer ⟨1, 0⟩ ⟨3, 0⟩)), .flush,
    .edit (.addNode (pointer ⟨1, 0⟩ ⟨2, 0⟩)), .edit (.setDone 1), .edit .markChecked]

theorem run_refines_sampleHistory : ∃ s, create "graph" [] 0 = .ok s ∧ (∀ op ∈ sampleHistory, op.Valid) ∧
    (s.run sampleHistory).node ⟨1, 0⟩ = .ok (pointer ⟨1, 0⟩ ⟨2, 0⟩).trim ∧
    (s.run sampleHistory).node ⟨2, 0⟩ = .ok { key := ⟨2, 0⟩, parent := some ⟨1, 0⟩ } ∧
    (s.run sampleHistory).isDone 1 = true ∧ (s.run sampleHistory).isDone 2 = false ∧
    (s.run sampleHistory).pointsAt 2 = [0] ∧ (s.run sampleHistory).size = 2 := by
  have hvalid : ∀ op ∈ sampleHistory, op.Valid := by
    simp only [sampleHistory, List.forall_mem_cons, List.not_mem_nil, false_imp_iff, implies_true, and_true]
    exact ⟨valid_pointer _ _, trivial, trivial, trivial, trivial, trivial, valid_pointer _ _, trivial,
      valid_pointer _ _, trivial, trivial⟩
  obtain ⟨s, hs⟩ : ∃ s, create "graph" [] 0 = .ok s := ⟨_, rfl⟩
  obtain ⟨hrefines, hnode, hdone, -⟩ := run_refines hs hvalid
  refine ⟨s, hs, hvalid, hnode ⟨1, 0⟩, hnode ⟨2, 0⟩, (hdone 1).mpr ?_, ?_, hrefines.pointsAt 2, ?_⟩
  · simp [sinceReset, sampleHistory, List.rtakeWhile, Operation.isReset]
  · rw [Bool.eq_false_iff, ne_eq, hdone]
    simp [sinceReset, sampleHistory, List.rtakeWhile, Operation.isReset]
  · rw [hrefines.size, hrefines.perm_keys.length_eq]
    rfl

/-- A history that writes a node with as many checks as a record cannot count. -/
def overlongHistory : List Operation := [.edit (.addNode Node.unchecked)]

/-- What was written last with a key is not read if its checks are not counted, however short
its record. -/
theorem node_after_overlongHistory : ∃ s, create "graph" [] 0 = .ok s ∧ Node.unchecked.Built ∧
    Node.unchecked.encode.length < 2 ^ 32 ∧ lastWritten? overlongHistory ⟨0, 0⟩ = some Node.unchecked ∧
    (s.run overlongHistory).node ⟨0, 0⟩ = .error (.corrupt 0 .trailing) := by
  obtain ⟨s, hs⟩ : ∃ s, create "graph" [] 0 = .ok s := ⟨_, rfl⟩
  exact ⟨s, hs, .setState (.new _ _) (.zeros _), Node.length_encode_unchecked, rfl,
    node_addNode_unchecked (create_eq_ok hs).1⟩

end Store

end Liveness

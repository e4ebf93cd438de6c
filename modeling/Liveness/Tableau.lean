import Liveness.Defect

/-!
# Tableaux

The tableau of a property is an automaton for the behaviours that violate it. Each
of its nodes allows some states, and a behaviour runs through the tableau along
the successors of its nodes. The checker looks for a run that comes through an
accepting node again and again.

The nodes are stored in the order of their indices, the initial ones first. A tableau
carries the proofs that no node is out of place and that all successors exist;
`Tableau.ofNodes` refuses other nodes.
-/

namespace Liveness

/-- One node of a tableau. -/
structure Tableau.Node (σ : Type) where
  /-- The place of the node in the tableau. -/
  index : UInt32
  /-- The nodes that may follow. -/
  successors : List UInt32
  /-- Whether a violating run must come through such nodes for ever. -/
  accepting : Bool
  /-- The states the node allows. -/
  allows : σ → Bool

/-- The automaton of a property's violations. -/
structure Tableau (σ : Type) where
  /-- The nodes, in the order of their indices. -/
  nodes : Array (Tableau.Node σ)
  /-- The first so many nodes are initial. -/
  initCount : Nat
  /-- Each node stands at its place. -/
  index_eq : ∀ (i : Nat) (n : Tableau.Node σ), nodes[i]? = some n → n.index.toNat = i
  /-- The successors of a node are nodes. -/
  successors_lt : ∀ (i : Nat) (n : Tableau.Node σ), nodes[i]? = some n →
    ∀ j ∈ n.successors, j.toNat < nodes.size
  /-- The initial nodes are nodes. -/
  initCount_le : initCount ≤ nodes.size

namespace Tableau

variable {σ : Type}

/-- Why nodes do not make a tableau. -/
inductive ShapeError where
  /-- Node `index` stands at another position. -/
  | misplaced (position : Nat) (index : UInt32)
  /-- Node `source` has the successor `target`, which does not exist. -/
  | dangling (source target : UInt32)
  /-- There are fewer nodes than initial ones. -/
  | tooManyInitial (initCount len : Nat)
deriving DecidableEq, Repr

/-- The text of a shape error. -/
def ShapeError.message : ShapeError → String
  | misplaced position index =>
    "tableau node " ++ toString index.toNat ++ " stored at position " ++ toString position
  | dangling source target =>
    "tableau node " ++ toString source.toNat ++ " has unknown successor " ++ toString target.toNat
  | tooManyInitial initCount len =>
    toString initCount ++ " initial nodes but only " ++ toString len ++ " nodes"

/-- What is wrong with a node at a position of a tableau of `len` nodes. -/
def Node.flaw? (len : Nat) (n : Node σ) (position : Nat) : Option ShapeError :=
  if n.index.toNat ≠ position then some (.misplaced position n.index)
  else (n.successors.find? fun t => len ≤ t.toNat).map (.dangling n.index)

theorem Node.flaw?_eq_none_iff {len position : Nat} {n : Node σ} :
    n.flaw? len position = none ↔ n.index.toNat = position ∧ ∀ j ∈ n.successors, j.toNat < len := by
  by_cases h : n.index.toNat = position <;> simp [flaw?, h]

theorem flaw?_of_getElem? {nodes : List (Node σ)}
    (h : nodes.zipIdx.findSome? (fun (n, i) => n.flaw? nodes.length i) = none) {i : Nat} {n : Node σ}
    (hn : nodes.toArray[i]? = some n) : n.flaw? nodes.length i = none :=
  List.findSome?_eq_none_iff.mp h (n, i) (List.mem_zipIdx_iff_getElem?.mpr (by simpa using hn))

/-- The tableau of the given nodes, `initCount` of them initial. -/
def ofNodes (nodes : List (Node σ)) (initCount : Nat) : Except ShapeError (Tableau σ) :=
  if h : nodes.length < initCount then .error (.tooManyInitial initCount nodes.length)
  else
    match hflaw : nodes.zipIdx.findSome? fun (n, i) => n.flaw? nodes.length i with
    | some e => .error e
    | none => .ok {
        nodes := nodes.toArray
        initCount := initCount
        index_eq := fun _ _ hn => (Node.flaw?_eq_none_iff.mp (flaw?_of_getElem? hflaw hn)).1
        successors_lt := fun _ _ hn => (Node.flaw?_eq_none_iff.mp (flaw?_of_getElem? hflaw hn)).2
        initCount_le := Nat.le_of_not_lt h }

/-- The number of nodes. -/
def size (t : Tableau σ) : Nat := t.nodes.size

/-- The node with an index. -/
def node (t : Tableau σ) (i : UInt32) : Except Defect (Node σ) :=
  match t.nodes[i.toNat]? with
  | some n => .ok n
  | none => .error (.indexRange t.size i.toNat)

/-- The initial nodes. -/
def initial (t : Tableau σ) : List (Node σ) := t.nodes.toList.take t.initCount

/-- Whether the node at a place is accepting. -/
def isAccepting (t : Tableau σ) (i : Nat) : Bool :=
  match t.nodes[i]? with
  | some n => n.accepting
  | none => false

theorem count_set_lt {seen : Array Bool} {i : Nat} (h : i < seen.size) (hs : ¬ seen[i] = true) :
    (seen.set i true).count false < seen.count false := by
  have hfalse : seen[i] = false := by simpa using hs
  have hpos : 0 < seen.count false := Array.count_pos_iff.mpr (hfalse ▸ Array.getElem_mem h)
  rw [Array.count_set, if_pos (by rw [hfalse]; rfl), if_neg (by decide)]
  omega

/-- Search for an accepting node from the places of a stack, the top one first. A place
may stand on the stack more than once and is passed over if it was seen before. Each
turn sees a new place or leaves a shorter stack, so that the search ends. -/
def seek (t : Tableau σ) (seen : Array Bool) : List UInt32 → Except Defect Bool
  | [] => .ok false
  | i :: stack =>
    if h : i.toNat < seen.size then
      if hs : seen[i.toNat] then t.seek seen stack
      else
        match t.node i with
        | .error d => .error d
        | .ok n =>
          if n.accepting then .ok true
          else t.seek (seen.set i.toNat true) (n.successors.reverse ++ stack)
    else .error (.indexRange seen.size i.toNat)
termination_by stack => (seen.count false, stack.length)
decreasing_by
  · exact Prod.Lex.right _ (by simp)
  · exact Prod.Lex.left _ _ (count_set_lt h hs)

/-- Search for an accepting node from the initial ones. The last of them is on top, and
their number is cut to 32 bits, as all places are. -/
def seekAccepting (t : Tableau σ) : Except Defect Bool :=
  t.seek (Array.replicate t.size false)
    ((List.range t.initCount.toUInt32.toNat).map Nat.toUInt32).reverse

/-- Whether an accepting node can be reached from an initial one. -/
def hasReachableAccepting (t : Tableau σ) : Bool :=
  match t.seekAccepting with
  | .ok found => found
  | .error _ => false

/-- The places of the accepting nodes. -/
def accepting (t : Tableau σ) : List Nat := (List.range t.size).filter t.isAccepting

/-- A node as shown to a person. -/
def Node.describe (n : Node σ) : String :=
  "TableauNode \x7b index: " ++ toString n.index.toNat ++ ", successors: [" ++
    ", ".intercalate (n.successors.map fun t => toString t.toNat) ++ "], accepting: " ++
    (if n.accepting then "true" else "false") ++ " \x7d"

/-- The tableau as shown to a person. -/
def describe (t : Tableau σ) : String :=
  "Tableau \x7b nodes: [" ++ ", ".intercalate (t.nodes.toList.map Node.describe) ++
    "], init_count: " ++ toString t.initCount ++ " \x7d"

end Tableau

end Liveness

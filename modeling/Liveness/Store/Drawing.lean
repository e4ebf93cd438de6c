import Liveness.Store.Basic
import Liveness.Tableau

/-!
# Drawings of a graph

A graph in the language of a drawing tool. Roots are bold, accepting nodes have two
circles, and an edge shows the numbers of the action checks that hold on it. A node
is labelled with the last digits of its fingerprint and its point.
-/

namespace Liveness

/-- The name of a node in a drawing. -/
def Key.drawName (k : Key) : String :=
  if k.point = Key.noPoint then "n" ++ k.fp.hex
  else "n" ++ k.fp.hex ++ "_" ++ toString k.point.toNat

/-- The label of a node in a drawing. -/
def Key.drawLabel (k : Key) : String :=
  let short := String.ofList (k.fp.hex.toList.drop 10)
  if k.point = Key.noPoint then short else short ++ "\\nt" ++ toString k.point.toNat

namespace Store

variable {σ : Type}

/-- A title inside quotes. -/
def drawTitle (title : String) : String :=
  String.ofList (title.toList.flatMap fun c => if c = '"' then ['\\', '"'] else [c])

/-- The lines before the nodes. -/
def drawHead (title : String) : String :=
  "digraph \"" ++ drawTitle title ++ "\" \x7b\n  rankdir=TB;\n" ++
    "  node [shape=circle, fontsize=10];\n  edge [fontsize=9];\n\n"

/-- The line of a node. -/
def drawNode (s : Store) (tableau : Option (Tableau σ)) (k : Key) : String :=
  let accepting := match tableau with
    | some t => t.isAccepting k.point.toNat
    | none => false
  let attributes := ["label=\"" ++ k.drawLabel ++ "\""] ++
    (if s.roots.contains k then ["style=bold"] else []) ++
    (if accepting then ["shape=doublecircle"] else [])
  "  " ++ k.drawName ++ " [" ++ ", ".intercalate attributes ++ "];\n"

/-- The line of an edge. -/
def drawEdge (source : Key) (e : Step) : String :=
  let edge := "  " ++ source.drawName ++ " -> " ++ e.target.drawName
  if e.actions.ones.isEmpty then edge ++ ";\n"
  else
    edge ++ " [label=\"" ++ ",".intercalate (e.actions.ones.map fun i => toString i) ++ "\"];\n"

/-- The lines of the edges out of a node. -/
def drawEdges (s : Store) (k : Key) : Outcome String := do
  let n ← s.node k
  return String.join (n.steps.map (drawEdge k))

/-- The drawing of a graph. -/
def draw (s : Store) (tableau : Option (Tableau σ)) (title : String) : Outcome String := do
  let edges ← s.keys.mapM s.drawEdges
  return drawHead title ++ String.join (s.keys.map (s.drawNode tableau)) ++ "\n" ++
    String.join edges ++ "\x7d\n"

/-- The title of a numbered drawing. -/
def drawingTitle (index number : Nat) : String :=
  "behavior graph " ++ toString index ++ " #" ++ toString number

/-- The texts with that of a number changed or added. -/
def putText (number : Nat) (text : String) : List (Nat × String) → List (Nat × String)
  | [] => [(number, text)]
  | (n, t) :: rest => if n = number then (n, text) :: rest else (n, t) :: putText number text rest

/-- The text of a numbered drawing. -/
def drawing? (s : Store) (number : Nat) : Option String := s.drawings.texts.lookup number

/-- Draw the graph and keep the drawing under a number. -/
def saveDrawing (tableau : Option (Tableau σ)) (number : Nat) : Change Store Unit := do
  let s ← get
  let text ← Outcome.lift (s.draw tableau (drawingTitle s.index number))
  if s.drawings.taken.contains (drawingName s.index number) then
    throw (.error (.file .isFolder))
  else
    set { s with drawings := { s.drawings with texts := putText number text s.drawings.texts } }

end Store

end Liveness

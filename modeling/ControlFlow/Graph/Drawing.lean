import ControlFlow.Analysis.Unused
import ControlFlow.Digest
import ControlFlow.Graph.Escaped

/-! # Drawings of flow graphs

A drawing is a text in the DOT language: a line for each node in the order of the keys, and a
line for each edge in the order in which it was drawn. Where the nodes are classified, each has a
second label that sums up what is known about it.
-/

namespace ControlFlow.Analysis

/-- Several texts in their order, between brackets. -/
def bracketed (separator : String) (texts : List String) : String :=
  "[" ++ separator.intercalate (texts.mergeSort fun a b => !(b < a)) ++ "]"

def variableLabel (a : Analysis) (d : DeclId) : String :=
  match a.graph.decl? d with
  | some decl => Escaped.text decl.name
  | none => "<decl " ++ Text.decimal d ++ ">"

/-- The text of a node inside a label. -/
def nodeLabel (a : Analysis) (n : NodeId) : String :=
  Escaped.text ((a.graph.nodes[n]?.map Point.label).getD "")

/-- A part of a second label, if there is something to say. -/
def part (name : String) (separator : String) (texts : List String) : List String :=
  if texts.isEmpty then [] else [name ++ ": " ++ bracketed separator texts]

/-- The second label of a node with an effect. -/
def noteText (a : Analysis) (n : NodeId) (e : Effect) : String :=
  let uses := part "use" ", " (e.uses.map a.variableLabel)
  let gens := part "gen" ", "
    (e.defines.map fun d => a.variableLabel d ++ ": " ++ a.nodeLabel n)
  let kills := part "kill" " " (e.defines.filterMap fun d =>
    let others := Reaching.killed a.effects n d
    if others.isEmpty then none
    else some (a.variableLabel d ++ ": " ++ bracketed ", " (others.map a.nodeLabel)))
  let nodes (defs : List Definition) := bracketed ", " (defs.map fun defn => a.nodeLabel defn.2)
  let reach := match a.reach? n with
    | some r => ["reach: \x7b in: " ++ nodes r.before ++ " out: " ++ nodes r.after ++ " \x7d"]
    | none => []
  let aliases := part "aliases" ", " (e.aliases.map a.variableLabel)
  let keep := if e.keep then ["keep"] else []
  " ".intercalate (uses ++ gens ++ kills ++ reach ++ aliases ++ keep)

/-- The second label of a node with what stands around it. -/
def note (a : Analysis) (n : NodeId) : String :=
  match a.effects[n]? with
  | some e => " xlabel=\"" ++ a.noteText n e ++ "\""
  | none => ""

/-- What stands between the brackets of a node line before the second label. -/
def face : Point → String
  | .mark .start _ => "label=start shape=Mdiamond"
  | .mark .finish _ => "label=end shape=Msquare"
  | .mark .join _ => "shape=point"
  | p => "label=\"" ++ Escaped.text p.label ++ "\""

def nodeLine (a : Analysis) (position : Nat) (n : NodeId) : String :=
  "\t" ++ Text.decimal position ++ " [" ++ (a.graph.nodes[n]?.map face).getD "" ++ a.note n ++
    "];\n"

def edgeLine (sorted : List NodeId) (position : Nat) (e : Flow) : Option String := do
  let source ← sorted.idxOf? e.1
  let target ← sorted.idxOf? e.2
  return "\t" ++ Text.decimal source ++ " -> " ++ Text.decimal target ++ " [label=\"" ++
    Text.decimal position ++ "\"];\n"

/-- The drawing of a graph, unless an edge leads to or from a node that it does not have. -/
def draw (a : Analysis) : Except AnalysisFault String := do
  let sorted := a.graph.sorted
  let nodes := sorted.mapIdx a.nodeLine
  match (a.graph.edges.mapIdx (edgeLine sorted)).mapM id with
  | some edges => return "digraph \x7b\n" ++ String.join nodes ++ String.join edges ++ "\x7d"
  | none => .error .danglingFlow

/-- The digest of the drawing. -/
def fingerprint (a : Analysis) : Except AnalysisFault String := return Digest.hex (← a.draw)

end ControlFlow.Analysis

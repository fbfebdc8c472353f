import ControlFlow.Analysis.Aliasing

/-! # Which definitions reach which nodes

A definition is a variable with the node that gives it a value. It reaches every node to which a
flow path leads from there without passing another node that defines the variable, and it is
still there after a node that does not define the variable anew.
-/

namespace ControlFlow

/-- A variable and a node that defines it. -/
abbrev Definition := DeclId × NodeId

/-- The definitions that hold before and after a node, ascending. -/
structure Reach where
  before : List Definition
  after : List Definition

/-- A definition with the nodes that it reaches. -/
structure Span where
  defn : Definition
  /-- The marks of the nodes that the definition does not reach. -/
  missed : Array Bool

def Span.reaches (s : Span) (n : NodeId) : Bool := !s.missed.getD n true

namespace Reaching

def definesAt (effects : Array Effect) (d : DeclId) (n : NodeId) : Bool :=
  effects[n]?.any fun e => e.defines.contains d

def definers (effects : Array Effect) (d : DeclId) : List NodeId :=
  (List.range effects.size).filter (definesAt effects d)

/-- All definitions, ascending. -/
def definitions (effects : Array Effect) : List Definition :=
  (Ascending.ofList (effects.toList.flatMap Effect.defines)).flatMap fun d =>
    (definers effects d).map fun n => (d, n)

/-- The other nodes whose definition of a variable does not outlive a node that defines it. -/
def killed (effects : Array Effect) (n : NodeId) (d : DeclId) : List NodeId :=
  (definers effects d).filter fun m => m ≠ n

/-- Whether a definition outlives a node. -/
def passes (effects : Array Effect) (defn : Definition) (n : NodeId) : Bool :=
  n == defn.2 || !definesAt effects defn.1 n

def solve (flows : List Flow) (effects : Array Effect) : List Span :=
  let table := Search.targetTable effects.size flows
  (definitions effects).map fun defn =>
    ⟨defn, Search.missed table (passes effects defn) defn.2⟩

/-- The definitions before and after a node, from all definitions that were followed. -/
def reachOf (effects : Array Effect) (spans : List Span) (n : NodeId) : Reach :=
  { before := (spans.filter fun s => s.reaches n).map Span.defn
    after := (spans.filter fun s =>
      s.defn.2 = n || (s.reaches n && !definesAt effects s.defn.1 n)).map Span.defn }

end Reaching

/-- A graph with what is known about its nodes. The graph may have grown since. -/
structure Analysis where
  graph : Graph
  /-- The effects of the nodes, none before they were classified. -/
  effects : Array Effect
  /-- What the definitions reach, once they were followed. -/
  spans : Option (List Span)

namespace Analysis

def ofGraph (g : Graph) : Analysis := ⟨g, #[], none⟩

/-- Classify all nodes anew; what was followed before is forgotten. -/
def classify (a : Analysis) : Except AnalysisFault Analysis := do
  return ⟨a.graph, ← a.graph.effects, none⟩

/-- Follow the definitions through the flows, over nodes that are all classified. -/
def follow (a : Analysis) : Except AnalysisFault Analysis :=
  let inside (n : NodeId) : Bool := n < a.graph.nodes.length
  if a.graph.flows.all fun f => inside f.1 && inside f.2 then
    if a.graph.nodes.length ≤ a.effects.size then
      .ok { a with spans := some (Reaching.solve a.graph.flows a.effects) }
    else .error .unclassified
  else .error .danglingFlow

/-- Classify the nodes if none is classified, and follow the definitions. Nodes that were
classified stay so even where the flows cannot be followed. -/
def solve (a : Analysis) : Analysis × Option AnalysisFault :=
  match if a.effects.isEmpty then a.classify else .ok a with
  | .error fault => (a, some fault)
  | .ok a =>
      match a.follow with
      | .error fault => (a, some fault)
      | .ok a => (a, none)

/-- The analysis of a graph that was just built. -/
def ofSolved (g : Graph) : Except AnalysisFault Analysis :=
  match (ofGraph g).solve with
  | (a, none) => .ok a
  | (_, some fault) => .error fault

/-- The definitions at a node, if it was there when they were followed. -/
def reach? (a : Analysis) (n : NodeId) : Option Reach :=
  if n < a.effects.size then a.spans.map fun spans => Reaching.reachOf a.effects spans n else none

end Analysis

end ControlFlow

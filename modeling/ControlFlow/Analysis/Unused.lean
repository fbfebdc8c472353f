import ControlFlow.Analysis.Reaching
import Std.Data.TreeMap

/-! # Nodes whose values nobody sees

A value is seen where its variable is read, and where control leaves the body or passes to other
code while the variable is a global or a parameter passed for update. A node is unused if it need
not stay and none of its values is ever seen.

The unused nodes can also be told by counting: first how often the values of each node are there
where control leaves the body or passes to other code, and then how often each of them is read.
-/

namespace ControlFlow.Analysis

/-- Whether other code may read a variable. -/
def isVisible (a : Analysis) (d : DeclId) : Bool :=
  (a.graph.decl? d).any fun decl => decl.isGlobal || decl.isUpdatedParameter

/-- Whether a node sees the value of a variable when it has one; `visible` says whether other
code may read the variable. -/
def looksAt (a : Analysis) (d : DeclId) (visible : Bool) (n : NodeId) : Bool :=
  (a.effects[n]?.any fun e => e.uses.contains d || (visible && e.escapes)) ||
    (visible && a.graph.nodes[n]?.any Point.isEnd)

/-- Whether a node sees a definition that reaches it. -/
def isSeen (a : Analysis) (s : Span) : Bool :=
  let visible := a.isVisible s.defn.1
  (List.range a.effects.size).any fun n => s.reaches n && a.looksAt s.defn.1 visible n

/-- Whether a node need not stay and no node sees a value of it. -/
def isUnused (a : Analysis) (n : NodeId) : Bool :=
  (a.effects[n]?.any fun e => !e.keep) &&
    (a.spans.getD []).all fun s => s.defn.2 != n || !a.isSeen s

/-- The unused nodes in the order of their keys. All nodes have to be classified and the
definitions followed. -/
def unused (a : Analysis) : Except AnalysisFault (List NodeId) :=
  if a.effects.isEmpty || a.spans.isNone then .error .unsolved
  else if a.effects.size < a.graph.nodes.length then .error .unclassified
  else .ok (a.graph.select a.isUnused)

/-! ## Counting -/

/-- How often the values of each node were seen. -/
abbrev Tally := Std.TreeMap NodeId Nat

def Tally.add (t : Tally) (n : NodeId) (count : Nat) : Tally := t.insert n (t.getD n 0 + count)

/-- The definitions that hold before a node. -/
def before (a : Analysis) (n : NodeId) : List Definition := ((a.reach? n).map Reach.before).getD []

/-- Whether values leave the body at a node: other code runs there, or it is the end. -/
def letsOut (a : Analysis) (n : NodeId) : Bool :=
  (a.effects[n]?.any fun e => e.escapes) || a.graph.nodes[n]?.any Point.isEnd

/-- Count a definition at a node that lets values out, if other code may read its variable. -/
def tallyOut (a : Analysis) (t : Tally) (d : Definition) : Tally :=
  if a.isVisible d.1 then t.add d.2 1 else t

/-- Count the definitions before all nodes that let values out. -/
def tallyLeaving (a : Analysis) : Tally :=
  (List.range a.graph.nodes.length).foldl
    (fun t n => if a.letsOut n then (a.before n).foldl a.tallyOut t else t) ∅

/-- How many nodes read a variable that still has the value of a definition. -/
def readers (a : Analysis) (d : Definition) : Nat :=
  (List.range a.effects.size).countP fun n =>
    (a.effects[n]?.any fun e => e.uses.contains d.1) && (a.before n).contains d

/-- The readers of all values that a node makes. -/
def ownReaders (a : Analysis) (n : NodeId) : Nat :=
  ((a.effects[n]?.map Effect.defines).getD []).foldl (fun count d => count + a.readers (d, n)) 0

/-- Count the readers of all values that the nodes of the tree make. -/
def tallyReads (a : Analysis) (t : Tally) : Tally :=
  (List.range a.graph.nodes.length).foldl
    (fun t n => if a.graph.nodes[n]?.any Point.isMark then t else t.add n (a.ownReaders n)) t

/-- The nodes whose values were never counted and which need not stay, in the order of their
keys. -/
def uncounted (a : Analysis) : Except AnalysisFault (List NodeId) :=
  if a.effects.isEmpty || a.spans.isNone then .error .unsolved
  else if a.effects.size < a.graph.nodes.length then .error .unclassified
  else
    let never := (a.tallyReads a.tallyLeaving).toList.filter fun c =>
      c.2 == 0 && (a.graph.nodes[c.1]?.any fun p => !p.isMark) &&
        (a.effects[c.1]?.any fun e => !e.keep)
    .ok (a.graph.sortByKey (never.map Prod.fst))

end ControlFlow.Analysis

import ControlFlow.Analysis.Effect

/-! # Variables that share storage

A view or an iterator may refer into the variables named in its initial value. The relation is
made symmetric, and reading a variable counts as reading the variables that it shares storage
with. Every variable that is referred into is expected to have a node that declares it.
-/

namespace ControlFlow

/-- Why the effects of a graph cannot be used. -/
inductive AnalysisFault where
  /-- A variable that is referred into has no node that declares it. -/
  | noSite (decl : Option String) (referrer : String)
  /-- A flow leads to or from a node that the graph does not have. -/
  | danglingFlow
  /-- A node has no effect yet, or its values have not been followed. -/
  | unclassified
  /-- No values have been followed yet. -/
  | unsolved
deriving DecidableEq

def AnalysisFault.message : AnalysisFault → Option String
  | .noSite name referrer =>
      some ("internal error: could not find CFG node for `" ++ name.getD "<unknown>" ++
        "` aliased in `" ++ referrer ++ "`")
  | .danglingFlow | .unclassified => none
  | .unsolved => some "reachability must be populated before querying unreachable statements"

namespace Effect

/-- Also refer into a variable. -/
def addAlias (d : DeclId) (e : Effect) : Effect :=
  { e with aliases := Ascending.insert d e.aliases }

end Effect

namespace Graph

/-- Let the variables that a node refers into refer back to the node's own variable. The nodes of
the variables are given. -/
def shareBack (g : Graph) (sites : List (DeclId × NodeId)) (effects : Array Effect) (n : NodeId) :
    Except AnalysisFault (Array Effect) :=
  match g.nodes[n]?, effects[n]? with
  | some p, some e =>
      match p.declared? with
      | none => .ok effects
      | some own =>
          e.aliases.foldlM (fun effects d =>
            match siteIn? sites d with
            | some site => .ok (effects.modify site (Effect.addAlias own))
            | none => .error (.noSite ((g.decl? d).map Declaration.name) p.label)) effects
  | _, _ => .ok effects

/-- Make the alias relation symmetric, node by node. -/
def shareAliases (g : Graph) (effects : Array Effect) : Except AnalysisFault (Array Effect) :=
  (List.range g.nodes.length).foldlM (g.shareBack g.sites) effects

/-- The variables that share storage with a variable, as its declaring node says. -/
def sharedWith (sites : List (DeclId × NodeId)) (effects : Array Effect) (d : DeclId) :
    List DeclId :=
  ((siteIn? sites d).bind fun site => effects[site]?).elim [] Effect.aliases

/-- Read a variable together with those that it shares storage with. -/
def widenUses (sites : List (DeclId × NodeId)) (effects : Array Effect) (e : Effect) : Effect :=
  { e with uses := Ascending.insertAll (e.uses.flatMap (sharedWith sites effects)) e.uses }

def effects (g : Graph) : Except AnalysisFault (Array Effect) := do
  let shared ← g.shareAliases (g.nodes.map g.effect).toArray
  return shared.map (widenUses g.sites shared)

end Graph

end ControlFlow

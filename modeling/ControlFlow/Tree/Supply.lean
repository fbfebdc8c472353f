import ControlFlow.Tree.Basic

/-! # The supply of numbers

Tree nodes and declarations are numbered independently, both from zero and without gaps.
-/

namespace ControlFlow

/-- The next free numbers. -/
structure Supply where
  node : TreeId
  decl : DeclId
deriving DecidableEq

namespace Supply

def fresh : Supply := ⟨0, 0⟩

def takeNode (s : Supply) : TreeId × Supply := (s.node, { s with node := s.node + 1 })

def takeDecl (s : Supply) : DeclId × Supply := (s.decl, { s with decl := s.decl + 1 })

end Supply

end ControlFlow

import ControlFlow.Proofs.Tree.Nodes
import Mathlib.Data.List.Nodup
import Mathlib.Data.List.Perm.Basic

/-! # Numbering from below

Nodes are numbered from below if each node gets its number right after everything below it has got
one. Then the numbers are distinct and have no gaps, and a node has a greater number than any node
below it.
-/

namespace ControlFlow

/-- What a node says of the declaration that it refers to. -/
structure Citation where
  decl : DeclId
  name : String
  /-- The type, if the node has one. -/
  ty : Option Ty

/-- The declaration is there, and what is said of it is so. -/
def Citation.Holds (decls : List Declaration) (c : Citation) : Prop :=
  ∃ decl, decls[c.decl]? = some decl ∧ c.name = decl.name ∧ ∀ ty ∈ c.ty, ty = decl.ty

namespace TreeNode

/-- Resolved names and calls, declaration statements, loop variables and globals refer to a
declaration. -/
def citation? : TreeNode → Option Citation
  | expr (.name _ name decl) => decl.map fun d => ⟨d, name, none⟩
  | expr (.call _ callee function _) => function.map fun d => ⟨d, callee, none⟩
  | stmt (.simple _ (.declare var)) => some ⟨var.decl, var.name, some var.ty⟩
  | loopVar var => some ⟨var.decl, var.name, some var.ty⟩
  | global v => some ⟨v.decl, v.name, some v.ty⟩
  | _ => none

/-- What the node says of a declaration is so. -/
def Cites (decls : List Declaration) (n : TreeNode) : Prop := ∀ c ∈ n.citation?, c.Holds decls

variable {decls : List Declaration} {n : TreeNode}

theorem cites_none (h : n.citation? = none) : n.Cites decls := by
  intro c hc
  rw [h] at hc
  cases hc

theorem cites_some {d : DeclId} {decl : Declaration} {ty : Option Ty}
    (h : n.citation? = some ⟨d, decl.name, ty⟩) (hdecl : decls[d]? = some decl)
    (hty : ∀ t ∈ ty, t = decl.ty) : n.Cites decls := by
  intro c hc
  rw [h] at hc
  cases hc
  exact ⟨decl, hdecl, rfl, hty⟩

end TreeNode

/-- Some nodes, one after the other, and all nodes below them are numbered from a number on and
before another. What is right below a node is numbered first, in whatever order, and the node next;
and every node says of its declaration what is so. -/
inductive Numbered (decls : List Declaration) : Nat → List TreeNode → Nat → Prop where
  | nil (lo : Nat) : Numbered decls lo [] lo
  | cons {lo mid hi : Nat} {n : TreeNode} {parts rest : List TreeNode} :
      Numbered decls lo parts mid → parts.Perm n.children → n.id = mid → n.Cites decls →
      Numbered decls (mid + 1) rest hi → Numbered decls lo (n :: rest) hi

namespace Numbered

variable {decls : List Declaration} {lo mid hi : Nat} {n k : TreeNode} {ns ms parts : List TreeNode}

theorem append (h : Numbered decls lo ns mid) (h' : Numbered decls mid ms hi) :
    Numbered decls lo (ns ++ ms) hi := by
  induction h with
  | nil => exact h'
  | cons hparts hperm hid hcites _ _ ih => exact .cons hparts hperm hid hcites (ih h')

/-- A node is numbered after its parts. -/
theorem node (h : Numbered decls lo parts mid) (hperm : parts.Perm n.children) (hid : n.id = mid)
    (hcites : n.Cites decls) : Numbered decls lo [n] (mid + 1) :=
  .cons h hperm hid hcites (.nil _)

/-- The numbers are all those between the bounds, each once. -/
theorem perm_range' (h : Numbered decls lo ns hi) :
    ∃ count, hi = lo + count ∧ (ns.flatMap TreeNode.ids).Perm (List.range' lo count) := by
  induction h with
  | nil => exact ⟨0, rfl, .refl _⟩
  | @cons lo mid hi n parts rest _ hperm hid _ _ ihparts ihrest =>
      obtain ⟨below, rfl, hbelow⟩ := ihparts
      obtain ⟨after, rfl, hafter⟩ := ihrest
      have hnode : n.ids.Perm (List.range' lo (below + 1)) := by
        rw [n.ids_eq, List.range'_1_concat, hid]
        exact (((hperm.flatMap_right _).symm.trans hbelow).cons _).trans
          (List.perm_append_singleton _ _).symm
      refine ⟨below + 1 + after, by omega, ?_⟩
      rw [List.flatMap_cons, ← List.range'_append_1]
      exact hnode.append hafter

theorem le (h : Numbered decls lo ns hi) : lo ≤ hi := by
  obtain ⟨count, rfl, -⟩ := h.perm_range'
  exact Nat.le_add_right _ _

/-- Each node has numbers of its own among those of all. -/
theorem of_mem (h : Numbered decls lo ns hi) (hn : n ∈ ns) :
    ∃ first, Numbered decls first [n] (n.id + 1) ∧ n.id < hi := by
  induction h with
  | nil => cases hn
  | cons hparts hperm hid hcites hrest _ ih =>
      rcases List.mem_cons.mp hn with rfl | hn
      · exact ⟨_, hid ▸ hparts.node hperm hid hcites, hid ▸ hrest.le⟩
      · exact ih hn

/-- What is right below a numbered node is numbered before it. -/
theorem of_child (h : Numbered decls lo [n] hi) (hk : k ∈ n.children) :
    ∃ first, Numbered decls first [k] (k.id + 1) ∧ k.id < n.id := by
  cases h with
  | cons hparts hperm hid _ _ =>
      rw [hid]
      exact hparts.of_mem (hperm.mem_iff.mpr hk)

theorem cites (h : Numbered decls lo [n] hi) : n.Cites decls := by
  cases h with
  | cons _ _ _ hcites _ => exact hcites

/-- So it is at any depth. -/
theorem of_below (h : Numbered decls lo [n] hi) (hk : k.Below n) :
    ∃ first, Numbered decls first [k] (k.id + 1) ∧ k.id < n.id := by
  induction hk using Relation.TransGen.head_induction_on with
  | single hpart => exact h.of_child hpart
  | head hpart _ ih =>
      obtain ⟨first, hfirst, hlt⟩ := ih
      obtain ⟨first', hfirst', hlt'⟩ := hfirst.of_child hpart
      exact ⟨first', hfirst', Nat.lt_trans hlt' hlt⟩

theorem of_within (h : Numbered decls lo ns hi) (hn : n.Within ns) :
    ∃ first, Numbered decls first [n] (n.id + 1) := by
  obtain ⟨r, hr, hpath⟩ := hn
  obtain ⟨first, hfirst, -⟩ := h.of_mem hr
  rcases Relation.reflTransGen_iff_eq_or_transGen.mp hpath with rfl | hbelow
  · exact ⟨first, hfirst⟩
  · obtain ⟨first', hfirst', -⟩ := hfirst.of_below hbelow
    exact ⟨first', hfirst'⟩

end Numbered

end ControlFlow

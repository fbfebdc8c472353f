import ControlFlow.Proofs.Tree.Parts
import Mathlib.Logic.Relation

/-! # Nodes of a tree

Whatever carries a number of the common supply is a node: expressions and statements, blocks, loop
variables, catches and globals. A node is below the nodes that it is a part of, at any depth, and
the numbers of a tree are those of a node and of the nodes below it.
-/

namespace ControlFlow

/-- A node of a tree, of any kind. -/
inductive TreeNode where
  | expr (e : Expr)
  | stmt (s : Stmt)
  | block (b : Block)
  | loopVar (var : LoopVar)
  | handler (c : Catch)
  | global (v : Global)

/-- The expressions that a statement is made of, each with all that is inside it. -/
def Simple.roots : Simple → List Expr
  | .expr e | .assert e => [e]
  | .declare var => var.init.toList
  | .yield | .comment _ | .location _ => []

def Jump.roots : Jump → List Expr
  | .return value | .throw value => value.toList
  | .break | .continue => []

/-- The nodes right below a statement, in source order. -/
def Stmt.children : Stmt → List TreeNode
  | .simple _ what => what.roots.map .expr
  | .jump _ how => how.roots.map .expr
  | .block _ body => [.block body]
  | .while _ cond body orElse | .if _ cond body orElse =>
      .expr cond :: .block body :: orElse.toList.map .block
  | .for _ var seq body => [.expr seq, .loopVar var, .block body]
  | .try _ body catches => .block body :: catches.map .handler

/-- The numbers of a catch and of all nodes below it. -/
def Catch.ids (c : Catch) : List TreeId := c.id :: c.body.ids

namespace TreeNode

def id : TreeNode → TreeId
  | expr e => e.id
  | stmt s => s.id
  | block b => b.id
  | loopVar var => var.id
  | handler c => c.id
  | global v => v.id

/-- The nodes right below a node, in source order. -/
def children : TreeNode → List TreeNode
  | expr e => e.children.map expr
  | stmt s => s.children
  | block b => b.stmts.map stmt
  | loopVar _ => []
  | handler c => [block c.body]
  | global v => v.init.toList.map expr

/-- The numbers of a node and of all nodes below it. -/
def ids : TreeNode → List TreeId
  | expr e => e.ids
  | stmt s => s.ids
  | block b => b.ids
  | loopVar var => [var.id]
  | handler c => c.ids
  | global v => v.ids

/-- One node is a part of another, at any depth. -/
def Below : TreeNode → TreeNode → Prop := Relation.TransGen fun k n => k ∈ n.children

/-- A node is among some nodes or below one of them. -/
def Within (n : TreeNode) (ns : List TreeNode) : Prop :=
  ∃ r ∈ ns, Relation.ReflTransGen (fun k n => k ∈ n.children) n r

end TreeNode

/-! ## The numbers of nodes -/

theorem Expr.ids_eq (e : Expr) : e.ids = e.id :: e.children.flatMap Expr.ids := by
  rw [Expr.ids, Expr.walk_eq, List.map_cons, List.map_flatMap]
  rfl

theorem idsOf_eq_flatMap (ss : List Stmt) : idsOf ss = ss.flatMap Stmt.ids := by
  induction ss with
  | nil => rfl
  | cons s rest ih => rw [idsOf, ih, List.flatMap_cons]

theorem idsOfCatches_eq_flatMap (cs : List Catch) : idsOfCatches cs = cs.flatMap Catch.ids := by
  induction cs with
  | nil => rfl
  | cons c rest ih =>
      obtain ⟨id, param, bid, body⟩ := c
      rw [idsOfCatches, ih, List.flatMap_cons]
      rfl

theorem Simple.ids_exprs (what : Simple) :
    what.exprs.map Expr.id = what.roots.flatMap Expr.ids := by
  cases what with
  | declare var => cases hinit : var.init <;> simp [exprs, roots, hinit, Expr.ids]
  | _ => simp [exprs, roots, Expr.ids]

theorem Jump.ids_exprs (how : Jump) : how.exprs.map Expr.id = how.roots.flatMap Expr.ids := by
  cases how with
  | «return» value => cases value <;> simp [exprs, roots, Expr.ids]
  | throw value => cases value <;> simp [exprs, roots, Expr.ids]
  | _ => simp [exprs, roots]

theorem Stmt.ids_eq (s : Stmt) : s.ids = s.id :: s.children.flatMap TreeNode.ids := by
  cases s with
  | simple id what =>
      rw [ids, what.ids_exprs, children, List.flatMap_map]
      rfl
  | jump id how =>
      rw [ids, how.ids_exprs, children, List.flatMap_map]
      rfl
  | block id body =>
      obtain ⟨bid, body⟩ := body
      simp [ids, Stmt.id, children, TreeNode.ids, Block.ids]
  | «while» id cond body orElse =>
      obtain ⟨bid, body⟩ := body
      rcases orElse with _ | ⟨eid, orElse⟩ <;>
        simp [ids, Stmt.id, children, TreeNode.ids, Block.ids]
  | «for» id var seq body =>
      obtain ⟨bid, body⟩ := body
      simp [ids, Stmt.id, children, TreeNode.ids, Block.ids]
  | «if» id cond body orElse =>
      obtain ⟨bid, body⟩ := body
      rcases orElse with _ | ⟨eid, orElse⟩ <;>
        simp [ids, Stmt.id, children, TreeNode.ids, Block.ids]
  | «try» id body catches =>
      obtain ⟨bid, body⟩ := body
      rw [ids, idsOfCatches_eq_flatMap, children, List.flatMap_cons, List.flatMap_map]
      rfl

/-- The numbers of a node are its own and those of the nodes right below it. -/
theorem TreeNode.ids_eq (n : TreeNode) : n.ids = n.id :: n.children.flatMap ids := by
  cases n with
  | expr e =>
      rw [ids, e.ids_eq, children, List.flatMap_map]
      rfl
  | stmt s => exact s.ids_eq
  | block b =>
      rw [ids, Block.ids, idsOf_eq_flatMap, children, List.flatMap_map]
      rfl
  | loopVar var => rfl
  | handler c => exact congrArg (c.id :: ·) (List.append_nil _).symm
  | global v =>
      rw [ids, Global.ids, children, List.flatMap_map]
      cases v.init with
      | none => rfl
      | some e => exact congrArg (v.id :: ·) (List.append_nil _).symm

namespace TreeNode

variable {id : TreeId} {n k : TreeNode}

theorem length_ids_lt (h : k ∈ n.children) : k.ids.length < n.ids.length := by
  rw [n.ids_eq, List.length_cons, Nat.lt_succ_iff]
  exact (List.sublist_flatten_of_mem (List.mem_map_of_mem h)).length_le

theorem exists_of_mem_ids {n : TreeNode} (h : id ∈ n.ids) :
    ∃ k : TreeNode, Relation.ReflTransGen (fun k n => k ∈ n.children) k n ∧ k.id = id := by
  rw [n.ids_eq, List.mem_cons, List.mem_flatMap] at h
  rcases h with rfl | ⟨c, hc, h⟩
  · exact ⟨n, .refl, rfl⟩
  · obtain ⟨k, hpath, hid⟩ := exists_of_mem_ids h
    exact ⟨k, hpath.tail hc, hid⟩
termination_by n.ids.length
decreasing_by exact length_ids_lt hc

theorem mem_ids_of_path (h : Relation.ReflTransGen (fun k n => k ∈ n.children) k n) :
    k.id ∈ n.ids := by
  induction h with
  | refl =>
      rw [k.ids_eq]
      exact List.mem_cons_self
  | @tail c n _ hc ih =>
      rw [n.ids_eq]
      exact List.mem_cons_of_mem _ (List.mem_flatMap_of_mem hc ih)

end TreeNode

namespace Module

/-- The nodes of a module that are below no other. -/
def roots (m : Module) : List TreeNode :=
  m.globals.map .global ++ m.functions.map (fun f => .block f.body) ++ [.block m.body]

theorem ids_eq_flatMap_roots (m : Module) : m.ids = m.roots.flatMap TreeNode.ids := by
  rw [ids, roots, List.flatMap_append, List.flatMap_append, List.flatMap_map, List.flatMap_map,
    List.flatMap_singleton]
  rfl

/-- The numbers of a module are those of its nodes. -/
theorem mem_ids_iff {m : Module} {id : TreeId} :
    id ∈ m.ids ↔ ∃ n : TreeNode, n.Within m.roots ∧ n.id = id := by
  rw [ids_eq_flatMap_roots, List.mem_flatMap]
  constructor
  · rintro ⟨r, hr, h⟩
    obtain ⟨n, hpath, hid⟩ := TreeNode.exists_of_mem_ids h
    exact ⟨n, ⟨r, hr, hpath⟩, hid⟩
  · rintro ⟨n, ⟨r, hr, hpath⟩, rfl⟩
    exact ⟨r, hr, TreeNode.mem_ids_of_path hpath⟩

end Module

end ControlFlow

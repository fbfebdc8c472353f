import ControlFlow.Proofs.Analysis.Renumbered
import ControlFlow.Proofs.Pruning.Rounds

/-! # Pruning renumbered bodies

A round finds the statements of a renumbered body that it finds of the body itself, and lists them
in the same order. So each round takes out the same, and pruning a renumbered body ends after as
many rounds with the renumbered pruned body.
-/

namespace ControlFlow

variable {f : TreeId → TreeId}

namespace Ascending

theorem insert_map (hf : StrictMono f) (x : Nat) (xs : List Nat) :
    insert (f x) (xs.map f) = (insert x xs).map f := by
  induction xs with
  | nil => rfl
  | cons y ys ih =>
      simp only [List.map_cons, insert, hf.lt_iff_lt, hf.injective.eq_iff, ih]
      split
      · rfl
      · split <;> rfl

theorem ofList_map (hf : StrictMono f) (xs : List Nat) :
    ofList (xs.map f) = (ofList xs).map f := by
  induction xs with
  | nil => rfl
  | cons x xs ih =>
      have hcons (x : Nat) (xs : List Nat) : ofList (x :: xs) = insert x (ofList xs) := rfl
      rw [List.map_cons, hcons, ih, insert_map hf, hcons]

end Ascending

namespace Pruning

variable {g : Graph} {m : Module}

theorem stmtAt_recast (n : NodeId) :
    stmtAt (g.recast m f) n = (stmtAt g n).map (Stmt.renumber f) := by
  unfold stmtAt
  rw [Graph.nodes_recast, List.getElem?_map]
  cases g.nodes[n]? with
  | none => rfl
  | some p => cases p <;> rfl

theorem ownerAt_recast (hf : Function.Injective f) (n : NodeId) :
    (g.recast m f).nodes[n]?.bind (g.recast m f).owner? =
      (g.nodes[n]?.bind g.owner?).map (Stmt.renumber f) := by
  rw [Graph.nodes_recast, List.getElem?_map]
  cases g.nodes[n]? with
  | none => rfl
  | some p => exact Graph.owner?_recast hf p

theorem isShielded_renumber (named : List DeclId) (s : Stmt) :
    isShielded named (s.renumber f) = isShielded named s := by
  unfold Stmt.renumber
  split
  next id what => cases what <;> rfl
  all_goals rfl

/-- A round finds the same statements, in the same order. -/
theorem doomed_recast (hf : StrictMono f) (hdecls : m.decls = g.module.decls) (body : Block) :
    doomed (g.recast m f) (body.renumber f) = (doomed g body).map (List.map f) := by
  unfold doomed
  rw [Analysis.ofSolved_recast hdecls]
  cases hsolved : Analysis.ofSolved g with
  | error why => rfl
  | ok a =>
      have hdecls : m.decls = a.graph.module.decls := by
        rw [Analysis.graph_of_ofSolved hsolved, hdecls]
      simp only [Except.map, bind, Except.bind, Analysis.unused_recast hdecls hf]
      cases a.unused with
      | error why => rfl
      | ok unused =>
          have hnamed : (body.renumber f).exprs.filterMap Expr.named? =
              body.exprs.filterMap Expr.named? := by
            simp [List.filterMap_map]
          have hstmts : unused.filterMap (stmtAt (g.recast m f)) ++
              (g.recast m f).dead.filterMap (fun n =>
                (g.recast m f).nodes[n]?.bind (g.recast m f).owner?) =
              (unused.filterMap (stmtAt g) ++ g.dead.filterMap fun n =>
                g.nodes[n]?.bind g.owner?).map (Stmt.renumber f) := by
            simp only [funext (stmtAt_recast (g := g) (m := m)), ownerAt_recast hf.injective,
              Graph.dead_recast hf, List.map_append, List.map_filterMap]
          simp only [hnamed, hstmts, List.filter_map, Function.comp_def, isShielded_renumber,
            List.map_map, Stmt.id_renumber]
          rw [← Function.comp_def f Stmt.id, ← List.map_map, Ascending.ofList_map hf]
          rfl

/-- In two modules with the same declarations, a round finds the same statements of a block. -/
theorem doomed_ofBlock {m m' : Module} (hdecls : m'.decls = m.decls) (b : Block) :
    doomed (Graph.ofBlock m' b) b = doomed (Graph.ofBlock m b) b := by
  have hself := doomed_recast (f := fun n => n) strictMono_id
    (hdecls.trans (congrArg Module.decls (Graph.ofBlock_module m b).symm)) b
  have hgraph := Graph.ofBlock_recast (f := fun n => n) Function.injective_id m m' b
  rw [← hgraph, Block.renumber_self] at hself
  rw [hself]
  cases doomed (Graph.ofBlock m b) b with
  | error why => rfl
  | ok ids => exact congrArg Except.ok (List.map_id' ids)

theorem takeOut_renumber (hf : Function.Injective f) (ids : List TreeId) (b : Block) :
    takeOut (ids.map f) (b.renumber f) = (takeOut ids b).renumber f := by
  have hcontains (n : TreeId) : (ids.map f).contains (f n) = ids.contains n := by
    rw [Bool.eq_iff_iff, List.contains_iff_mem, List.contains_iff_mem,
      List.mem_map_of_injective hf]
  rw [takeOut, takeOut, Block.without, Block.stmts_renumber, (without_renumber hcontains).2.1]
  rfl

/-- What was done to the renumbered tree. -/
def Report.renumber (f : TreeId → TreeId) (report : Report) : Report :=
  { report with removed := report.removed.map f }

/-- A pruned body and its report with their numbers replaced. -/
def renumberPruned (f : TreeId → TreeId) (pruned : Block × Report) : Block × Report :=
  (pruned.1.renumber f, pruned.2.renumber f)

/-- Pruning goes through the same rounds. -/
theorem pruneBody_renumber (hf : Function.Injective f) {graphOf graphOf' : Block → Graph}
    (hround : ∀ b, doomed (graphOf' (b.renumber f)) (b.renumber f) =
      (doomed (graphOf b) b).map (List.map f)) (body : Block) :
    pruneBody graphOf' (body.renumber f) =
      (pruneBody graphOf body).map (renumberPruned f) := by
  fun_induction pruneBody graphOf body with
  | case1 body why hwhy =>
      unfold pruneBody
      rw [hround, hwhy]
      rfl
  | case2 body ids hids hlt why hwhy ih =>
      unfold pruneBody
      rw [hround, hids]
      simp only [Except.map, takeOut_renumber hf, Block.size_renumber, if_pos hlt, ih,
        hwhy]
  | case3 body ids hids hlt pruned report hpruned ih =>
      unfold pruneBody
      rw [hround, hids]
      simp only [Except.map, takeOut_renumber hf, Block.size_renumber, if_pos hlt, ih,
        hpruned, renumberPruned, Report.renumber, List.map_append]
  | case4 body ids hids hlt =>
      unfold pruneBody
      rw [hround, hids]
      simp only [Except.map, takeOut_renumber hf, Block.size_renumber, if_neg hlt]
      rfl

end Pruning

end ControlFlow

import ControlFlow.Graph.Lowering
import ControlFlow.Proofs.Tree.Renumbered
import Mathlib.Order.Monotone.Basic

/-! # Graphs of renumbered trees

Nodes are told apart by the numbers of the tree and put in order by them. So a tree whose numbers
are replaced one to one is lowered to the same nodes and flows, and where the numbers keep their
order, so do the nodes. Lowering never looks at the module that a graph belongs to.
-/

namespace ControlFlow

variable {f : TreeId → TreeId}

/-! ## Points -/

def Key.renumber (f : TreeId → TreeId) : Key → Key
  | .mark counter => .mark counter
  | .tree id => .tree (f id)

theorem Key.renumber_injective (hf : Function.Injective f) :
    Function.Injective (Key.renumber f) := by
  intro k k' heq
  cases k <;> cases k' <;> simp_all [renumber, hf.eq_iff]

/-- Numbers that keep their order keep the order of the keys. -/
theorem Key.le_renumber (hf : StrictMono f) (k k' : Key) :
    (k.renumber f).le (k'.renumber f) = k.le k' := by
  cases k <;> cases k' <;> simp [renumber, le, hf.le_iff_le]

namespace Point

/-- A point of a tree whose numbers are replaced. -/
def renumber (f : TreeId → TreeId) : Point → Point
  | mark kind counter => mark kind counter
  | stmt s => stmt (s.renumber f)
  | expr e => expr (e.renumber f)
  | global v => global (v.renumber f)
  | loopVar var => loopVar (var.renumber f)

variable (p : Point)

@[simp] theorem key_renumber : (p.renumber f).key = p.key.renumber f := by
  cases p <;> simp [renumber, key, Key.renumber, Global.renumber, LoopVar.renumber]

@[simp] theorem isMark_renumber : (p.renumber f).isMark = p.isMark := by
  cases p <;> rfl

@[simp] theorem isEnd_renumber : (p.renumber f).isEnd = p.isEnd := by
  cases p <;> rfl

@[simp] theorem declared?_renumber : (p.renumber f).declared? = p.declared? := by
  cases p with
  | stmt s =>
      change (stmt (s.renumber f)).declared? = _
      unfold Stmt.renumber
      split
      next id what => cases what <;> rfl
      all_goals rfl
  | _ => rfl

@[simp] theorem label_renumber : (p.renumber f).label = p.label := by
  cases p with
  | stmt s => exact ControlFlow.label_renumber.1 s
  | expr e => exact e.label_renumber
  | global v => exact v.label_renumber
  | _ => rfl

end Point

/-! ## Growing a graph -/

namespace Graph

/-- The same graph in another module, with its tree numbers replaced. -/
def recast (g : Graph) (m : Module) (f : TreeId → TreeId) : Graph :=
  { g with
    module := m
    nodes := g.nodes.map (Point.renumber f)
    owners := g.owners.map fun o => (f o.1, o.2.renumber f) }

variable {g : Graph} {m : Module}

section Fields

variable (g m f)

@[simp] theorem edges_recast : (g.recast m f).edges = g.edges := rfl

@[simp] theorem implicit_recast : (g.recast m f).implicit = g.implicit := rfl

@[simp] theorem flows_recast : (g.recast m f).flows = g.flows := rfl

@[simp] theorem nodes_recast : (g.recast m f).nodes = g.nodes.map (Point.renumber f) := rfl

end Fields

theorem find?_recast (hf : Function.Injective f) (key : Key) :
    (g.recast m f).find? (key.renumber f) = g.find? key := by
  simp only [find?, nodes_recast, List.findIdx?_map, Function.comp_def, Point.key_renumber,
    (Key.renumber_injective hf).eq_iff]

theorem place_recast (hf : Function.Injective f) (p : Point) :
    (g.recast m f).place (p.renumber f) = ((g.place p).1, (g.place p).2.recast m f) := by
  unfold place
  rw [Point.key_renumber, find?_recast hf]
  cases g.find? p.key with
  | some n => rfl
  | none => simp [recast]

theorem draw_recast (source target : NodeId) :
    (g.recast m f).draw source target = (g.draw source target).recast m f := by
  unfold draw
  rw [edges_recast]
  split <;> rfl

theorem imply_recast (source target : NodeId) :
    (g.recast m f).imply source target = (g.imply source target).recast m f := by
  unfold imply
  rw [edges_recast, implicit_recast]
  split <;> rfl

theorem implyAll_recast (ns : List NodeId) (target : NodeId) :
    ns.foldl (fun g n => g.imply n target) (g.recast m f) =
      (ns.foldl (fun g n => g.imply n target) g).recast m f := by
  induction ns generalizing g with
  | nil => rfl
  | cons n rest ih => rw [List.foldl_cons, imply_recast, ih, List.foldl_cons]

theorem connect_recast (e : Exit) (target : NodeId) :
    (g.recast m f).connect e target = (g.connect e target).recast m f := by
  unfold connect
  split
  next n hn => rw [draw_recast, implyAll_recast]
  next => rw [implyAll_recast]

theorem connectAll_recast (es : List Exit) (target : NodeId) :
    es.foldl (fun g e => g.connect e target) (g.recast m f) =
      (es.foldl (fun g e => g.connect e target) g).recast m f := by
  induction es generalizing g with
  | nil => rfl
  | cons e rest ih => rw [List.foldl_cons, connect_recast, ih, List.foldl_cons]

end Graph

namespace Draft

/-- The same draft in another module, with its tree numbers replaced. -/
def recast (d : Draft) (m : Module) (f : TreeId → TreeId) : Draft :=
  { d with toGraph := d.toGraph.recast m f }

variable {d : Draft} {m : Module}

theorem ofGraph_recast (g : Graph) : ofGraph (g.recast m f) = (ofGraph g).recast m f := rfl

@[simp] theorem recast_toGraph : (d.recast m f).toGraph = d.toGraph.recast m f := rfl

theorem enter_recast (hf : Function.Injective f) (parent : Exit) (p : Point) :
    (d.recast m f).enter parent (p.renumber f) =
      ((d.enter parent p).1, (d.enter parent p).2.recast m f) := by
  simp only [enter, recast_toGraph, Graph.place_recast hf, Graph.connect_recast]
  rfl

theorem enterControl_recast (hf : Function.Injective f) (parent : Exit) (e : Expr) (s : Stmt) :
    (d.recast m f).enterControl parent (e.renumber f) (s.renumber f) =
      ((d.enterControl parent e s).1, (d.enterControl parent e s).2.recast m f) := by
  have hentered := enter_recast (d := d) (m := m) hf parent (.expr e)
  simp only [Point.renumber] at hentered
  simp only [enterControl, hentered, Expr.id_renumber]
  rfl

theorem enterVar_recast (hf : Function.Injective f) (head : NodeId) (var : LoopVar) (s : Stmt) :
    (d.recast m f).enterVar head (var.renumber f) (s.renumber f) =
      ((d.enterVar head var s).1, (d.enterVar head var s).2.recast m f) := by
  have hplaced := Graph.place_recast (g := d.toGraph) (m := m) hf (.loopVar var)
  simp only [Point.renumber] at hplaced
  simp only [enterVar, recast_toGraph, hplaced, Graph.draw_recast]
  rfl

theorem join_recast (hf : Function.Injective f) (es : List Exit) :
    (d.recast m f).join es = ((d.join es).1, (d.join es).2.recast m f) := by
  have hmark : (d.toGraph.recast m f).placeMark .join =
      ((d.placeMark .join).1, (d.placeMark .join).2.recast m f) :=
    Graph.place_recast (g := { d.toGraph with marks := d.marks + 1 }) hf (.mark .join d.marks)
  simp only [join, recast_toGraph, hmark, Graph.connectAll_recast]
  rfl

theorem returnTo_recast (e : Exit) (n : NodeId) :
    (d.recast m f).returnTo e n = (d.returnTo e n).recast m f := by
  simp only [returnTo, recast_toGraph, Graph.connect_recast]
  rfl

@[simp] theorem openLoop_recast : (d.recast m f).openLoop = d.openLoop.recast m f := rfl

@[simp] theorem closeLoop_recast (outer : Draft) :
    (d.recast m f).closeLoop (outer.recast m f) = (d.closeLoop outer).recast m f := rfl

@[simp] theorem nodesSince_recast (earlier : Draft) :
    (d.recast m f).nodesSince (earlier.recast m f) = d.nodesSince earlier := by
  simp [nodesSince, Option.any_map]

@[simp] theorem breaks_recast : (d.recast m f).breaks = d.breaks := rfl

theorem jump_recast (hf : Function.Injective f) (loop : Option NodeId) (parent : Exit)
    (id : TreeId) (how : Jump) : (d.recast m f).jump loop parent (f id) (how.renumber f) =
      ((d.jump loop parent id how).1, (d.jump loop parent id how).2.recast m f) := by
  have hentered := enter_recast (d := d) (m := m) hf parent (.stmt (.jump id how))
  simp only [Point.renumber, Stmt.renumber] at hentered
  cases how with
  | «return» value =>
      cases value with
      | none => rfl
      | some e =>
          simp only [Jump.renumber, Option.map_some] at hentered
          simp only [Jump.renumber, Option.map_some, jump, hentered]
          rfl
  | throw value =>
      cases value with
      | none => rfl
      | some e =>
          simp only [Jump.renumber, Option.map_some] at hentered
          simp only [Jump.renumber, Option.map_some, jump, hentered]
          rfl
  | «break» => cases loop <;> rfl
  | «continue» =>
      cases loop with
      | none => rfl
      | some head =>
          simp only [Jump.renumber, jump, recast_toGraph, Graph.implyAll_recast]
          rfl

end Draft

/-- Lowering a tree whose numbers are replaced one to one, in any module, gives the same flows. -/
theorem lower_recast (hf : Function.Injective f) (m : Module) :
    (∀ s : Stmt, ∀ loop parent d, (s.renumber f).lower loop parent (Draft.recast d m f) =
      ((s.lower loop parent d).1, (s.lower loop parent d).2.recast m f)) ∧
    (∀ ss, ∀ loop parent d, lowerSeq loop (renumberSeq f ss) parent (Draft.recast d m f) =
      ((lowerSeq loop ss parent d).1, (lowerSeq loop ss parent d).2.recast m f)) ∧
    (∀ cs, ∀ loop raised joined d,
      lowerCatches loop (renumberCatches f cs) raised joined (Draft.recast d m f) =
        (lowerCatches loop cs raised joined d).recast m f) := by
  have hcontrol (parent : Exit) (e : Expr) (s : Stmt) (d : Draft) :=
    Draft.enterControl_recast (d := d) (m := m) hf parent e s
  refine tree_induction ?simple ?jump ?block ?while_ ?for_ ?if_ ?try_ ?nil ?cons ?noCatch ?catch_
  case simple =>
    intro id what loop parent d
    have hentered := Draft.enter_recast (d := d) (m := m) hf parent (.stmt (.simple id what))
    simp only [Point.renumber, Stmt.renumber] at hentered
    simp only [Stmt.renumber, Stmt.lower, hentered]
  case jump =>
    intro id how loop parent d
    exact Draft.jump_recast hf loop parent id how
  case block =>
    intro id bid body ih loop parent d
    exact ih loop parent d
  case while_ =>
    intro id cond bid body orElse ihbody ihelse loop parent d
    have hhead := hcontrol parent cond (.while id cond ⟨bid, body⟩ orElse) d
    rcases orElse with _ | ⟨eid, orElse⟩
    · rw [Stmt.renumber] at hhead
      simp [Stmt.renumber, Stmt.lower, hhead, ihbody, Draft.returnTo_recast]
    · rw [Stmt.renumber] at hhead
      rw [elseOf_some] at ihelse
      simp [Stmt.renumber, Stmt.lower, hhead, ihbody, ihelse, Draft.returnTo_recast,
        Draft.join_recast hf]
  case for_ =>
    intro id var seq bid body ih loop parent d
    have hhead := hcontrol parent seq (.for id var seq ⟨bid, body⟩) d
    have hvar (head : NodeId) (d : Draft) :=
      Draft.enterVar_recast (d := d) (m := m) hf head var (.for id var seq ⟨bid, body⟩)
    simp only [Stmt.renumber] at hhead hvar
    simp [Stmt.renumber, Stmt.lower, hhead, hvar, ih, Draft.returnTo_recast]
  case if_ =>
    intro id cond bid body orElse ihbody ihelse loop parent d
    have htest := hcontrol parent cond (.if id cond ⟨bid, body⟩ orElse) d
    rcases orElse with _ | ⟨eid, orElse⟩
    · rw [Stmt.renumber] at htest
      simp [Stmt.renumber, Stmt.lower, htest, ihbody]
    · rw [Stmt.renumber] at htest
      rw [elseOf_some] at ihelse
      simp [Stmt.renumber, Stmt.lower, htest, ihbody, ihelse, Draft.join_recast hf]
  case try_ =>
    intro id bid body catches ihbody ihcatches loop parent d
    simp [Stmt.renumber, Stmt.lower, ihbody, ihcatches, Draft.join_recast hf]
  case nil => exact fun _ _ _ => rfl
  case cons =>
    intro s rest ihs ihrest loop parent d
    rw [renumberSeq]
    unfold lowerSeq
    rw [ihs, Stmt.isJump_renumber, isEmpty_renumberSeq]
    dsimp only
    split
    · simp [ihrest, Draft.join_recast hf]
    · exact ihrest _ _ _
  case noCatch => exact fun _ _ _ _ => rfl
  case catch_ =>
    intro id param bid body rest ihbody ihrest loop raised joined d
    simp [renumberCatches, lowerCatches, ihbody, ihrest, Draft.returnTo_recast]

namespace Graph

theorem close_recast (last : Exit) (d : Draft) (m : Module) :
    close last (d.recast m f) = (close last d).recast m f := by
  simp only [close, Draft.recast_toGraph, connect_recast, implyAll_recast]
  rfl

theorem ofBlock_recast (hf : Function.Injective f) (m m' : Module) (b : Block) :
    ofBlock m' (b.renumber f) = (ofBlock m b).recast m' f := by
  have hempty : empty m' false = (empty m false).recast m' f := rfl
  unfold ofBlock
  rw [hempty, Draft.ofGraph_recast, Block.stmts_renumber, (lower_recast hf m').2.1, close_recast]

theorem chainGlobals_recast (hf : Function.Injective f) (m : Module) (globals : List Global)
    (parent : Exit) (g : Graph) :
    chainGlobals (globals.map (Global.renumber f)) parent (g.recast m f) =
      ((chainGlobals globals parent g).1, (chainGlobals globals parent g).2.recast m f) := by
  induction globals generalizing parent g with
  | nil => rfl
  | cons v rest ih =>
      have hplaced := place_recast (g := g) (m := m) hf (.global v)
      rw [Point.renumber] at hplaced
      simp only [List.map_cons, chainGlobals, hplaced, connect_recast, ih]

theorem ofModule_recast (hf : Function.Injective f) (m : Module) :
    ofModule (m.renumber f) = (ofModule m).recast (m.renumber f) f := by
  have hempty : empty (m.renumber f) true = (empty m true).recast (m.renumber f) f := rfl
  unfold ofModule
  rw [hempty, Module.globals_renumber, chainGlobals_recast hf]
  dsimp only
  rw [Draft.ofGraph_recast, Module.body_renumber, Block.stmts_renumber, (lower_recast hf _).2.1,
    close_recast]

/-! ## Questions -/

variable {g : Graph} {m : Module}

theorem controlOwner?_recast (hf : Function.Injective f) (id : TreeId) :
    (g.recast m f).controlOwner? (f id) = (g.controlOwner? id).map (Stmt.renumber f) := by
  simp [controlOwner?, recast, List.find?_map, Function.comp_def, hf.eq_iff]

theorem owner?_recast (hf : Function.Injective f) (p : Point) :
    (g.recast m f).owner? (p.renumber f) = (g.owner? p).map (Stmt.renumber f) := by
  cases p with
  | expr e =>
      rw [Point.renumber, owner?, Expr.id_renumber, controlOwner?_recast hf]
      rfl
  | loopVar var => exact controlOwner?_recast hf var.id
  | _ => rfl

theorem sites_recast : (g.recast m f).sites = g.sites := by
  simp only [sites, nodes_recast, List.zipIdx_map, List.filterMap_map, Function.comp_def,
    Prod.map, Point.declared?_renumber, id]

/-- The order of the nodes is kept with that of the numbers. -/
theorem sorted_recast (hf : StrictMono f) : (g.recast m f).sorted = g.sorted := by
  have hmap := List.map_mergeSort (l := g.nodes.zipIdx) (f := Prod.map (Point.renumber f) id)
    (r := fun a b => a.1.key.le b.1.key) (s := fun a b => a.1.key.le b.1.key)
    (fun a _ b _ => by simp [Key.le_renumber hf])
  rw [sorted, nodes_recast, List.zipIdx_map, ← hmap, List.map_map, sorted]
  rfl

theorem select_recast (hf : StrictMono f) (test : NodeId → Bool) :
    (g.recast m f).select test = g.select test := by
  simp [select, sorted_recast hf, Option.any_map]

theorem dead_recast (hf : StrictMono f) : (g.recast m f).dead = g.dead := select_recast hf _

theorem unreachable_recast (hf : StrictMono f) : (g.recast m f).unreachable = g.unreachable :=
  select_recast hf _

end Graph

end ControlFlow

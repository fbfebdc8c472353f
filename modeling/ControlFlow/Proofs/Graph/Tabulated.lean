import ControlFlow.Graph.Tables
import ControlFlow.Proofs.Graph.Finished

/-! # Tables that represent graphs

Tables represent a graph if they hold its nodes and edges at their positions with these positions as
their numbers, and if indices and sets know exactly what is there. Whatever is added to tables and
to the graph that they represent, they represent it afterwards; and so a body is lowered into tables
that represent its graph.
-/

namespace ControlFlow

open ControlFlow.Graph

/-- The tables hold what the graph has; what is found by searching in the graph is found in the
tables by looking it up. -/
structure Tables.Represents (t : Tables) (g : Graph) : Prop where
  module : t.module = g.module
  decls : ∀ d : DeclId, t.decls[d]? = g.decl? d
  showsGlobals : t.showsGlobals = g.showsGlobals
  nodes : t.nodes.toList = g.nodes.mapIdx StoredNode.mk
  index : ∀ k : Key, t.index[k]? = g.find? k
  edges : t.edges.toList = g.edges.mapIdx fun i f => ⟨i, f.1, f.2⟩
  edgeSet : ∀ source target, t.edgeSet.contains (source, target) = joins g.edges source target
  implicit : t.implicit.toList = g.implicit
  implicitSet : ∀ source target,
    t.implicitSet.contains (source, target) = joins g.implicit source target
  declSites : ∀ d, t.declSite? d = g.declSite? d
  owners : ∀ id : TreeId, t.owners[id]? = g.controlOwner? id
  marks : t.marks = g.marks
  start : t.start = Graph.start
  finish : t.finish = Graph.finish

/-! ## Additions -/

theorem Graph.joins_concat (flows : List Flow) (f : Flow) (source target : NodeId) :
    joins (flows ++ [f]) source target =
      (joins flows source target || (f.1 == source && f.2 == target)) := by
  simp [joins]

theorem Graph.declSite?_place_of_none {g : Graph} {p : Point} (h : g.find? p.key = none)
    (d : DeclId) : (g.place p).2.declSite? d =
      if p.declared? = some d then some g.nodes.length else g.declSite? d := by
  rw [place_of_none h]
  simp only [declSite?, sites, siteIn?, List.zipIdx_append, List.filterMap_append,
    List.reverse_append]
  cases hdecl : p.declared? with
  | none => simp [hdecl]
  | some e => by_cases he : e = d <;> simp [hdecl, he]

namespace Tables

variable {t : Tables} {g : Graph}

/-- A set that another pair is put into. -/
theorem contains_insert (flows : Std.HashSet Flow) (f : Flow) (source target : NodeId) :
    (flows.insert f).contains (source, target) =
      (flows.contains (source, target) || (f.1 == source && f.2 == target)) := by
  rw [Std.HashSet.contains_insert, Bool.or_comm]
  rfl

theorem placeMark_setEnds (t : Tables) (start finish : NodeId) (kind : Mark) :
    (t.setEnds start finish).placeMark kind =
      ((t.placeMark kind).1, (t.placeMark kind).2.setEnds start finish) := by
  unfold placeMark place setEnds
  dsimp only
  split <;> rfl

namespace Represents

theorem size_nodes (h : t.Represents g) : t.nodes.size = g.nodes.length := by
  rw [← Array.length_toList, h.nodes, List.length_mapIdx]

theorem size_edges (h : t.Represents g) : t.edges.size = g.edges.length := by
  rw [← Array.length_toList, h.edges, List.length_mapIdx]

theorem place (h : t.Represents g) (p : Point) :
    (t.place p).1 = (g.place p).1 ∧ (t.place p).2.Represents (g.place p).2 := by
  cases hfind : g.find? p.key with
  | some n =>
      rw [place_of_some hfind]
      unfold Tables.place
      rw [h.index, hfind]
      exact ⟨rfl, h⟩
  | none =>
      have hsites := declSite?_place_of_none hfind
      have hfound := find?_place g p
      have hothers {k : Key} (hk : p.key ≠ k) : (g.place p).2.find? k = g.find? k := by
        rw [place_of_none hfind, Graph.find?, List.findIdx?_append, Graph.find?]
        simp [hk]
      rw [place_of_none hfind] at hsites hfound hothers ⊢
      unfold Tables.place
      rw [h.index, hfind]
      refine ⟨h.size_nodes, { h with
        nodes := ?_, index := fun k => ?_, declSites := fun d => ?_ }⟩
      · rw [Array.toList_push, h.nodes, h.size_nodes, List.mapIdx_concat]
      · rw [Std.HashMap.getElem?_insert]
        split
        next hk => rw [← eq_of_beq hk, hfound, h.size_nodes]
        next hk => rw [hothers (by simpa using hk), h.index]
      · rw [hsites, ← h.declSites, declSite?, declSite?]
        cases hdecl : p.declared? with
        | none => simp
        | some e => simp [Std.HashMap.getElem?_insert, h.size_nodes]

theorem placeMark (h : t.Represents g) (kind : Mark) :
    (t.placeMark kind).1 = (g.placeMark kind).1 ∧
      (t.placeMark kind).2.Represents (g.placeMark kind).2 := by
  have hcounted : ({ t with marks := t.marks + 1 } : Tables).Represents
      { g with marks := g.marks + 1 } :=
    { h with marks := congrArg (· + 1) h.marks }
  unfold Tables.placeMark Graph.placeMark
  rw [h.marks] at hcounted ⊢
  exact hcounted.place _

theorem draw (h : t.Represents g) (source target : NodeId) :
    (t.draw (some source) (some target)).2.Represents (g.draw source target) := by
  unfold Tables.draw Graph.draw
  dsimp only
  rw [h.edgeSet]
  split
  · exact h
  · refine { h with edges := ?_, edgeSet := fun a b => ?_ }
    · rw [Array.toList_push, h.edges, h.size_edges, List.mapIdx_concat]
    · rw [contains_insert, joins_concat, h.edgeSet]

theorem imply (h : t.Represents g) (source target : NodeId) :
    (t.imply source target).Represents (g.imply source target) := by
  unfold Tables.imply Graph.imply
  rw [h.edgeSet, h.implicitSet]
  split
  · exact h
  · refine { h with implicit := ?_, implicitSet := fun a b => ?_ }
    · rw [Array.toList_push, h.implicit]
    · rw [contains_insert, joins_concat, h.implicitSet]

theorem implyAll (h : t.Represents g) (ns : List NodeId) (target : NodeId) :
    (ns.foldl (fun t n => t.imply n target) t).Represents
      (ns.foldl (fun g n => g.imply n target) g) := by
  induction ns generalizing t g with
  | nil => exact h
  | cons n rest ih => exact ih (h.imply n target)

theorem connect (h : t.Represents g) (e : Exit) (target : NodeId) :
    (t.connect e target).Represents (g.connect e target) := by
  unfold Tables.connect Graph.connect
  cases e.node with
  | some n => exact (h.draw n target).implyAll _ _
  | none => exact h.implyAll _ _

theorem connectAll (h : t.Represents g) (es : List Exit) (target : NodeId) :
    (es.foldl (fun t e => t.connect e target) t).Represents
      (es.foldl (fun g e => g.connect e target) g) := by
  induction es generalizing t g with
  | nil => exact h
  | cons e rest ih => exact ih (h.connect e target)

theorem own (h : t.Represents g) (id : TreeId) (s : Stmt) :
    (t.own id s).Represents { g with owners := (id, s) :: g.owners } := by
  refine { h with owners := fun k => ?_ }
  rw [Tables.own, Std.HashMap.getElem?_insert, controlOwner?, List.find?_cons]
  by_cases hk : id = k
  · simp [hk]
  · simp [hk, h.owners, controlOwner?]

theorem decls_foldl (decls : List Declaration) (known : Std.HashMap DeclId Declaration)
    (last : Option Declaration) (d : DeclId) (h : known[d]? = last) :
    (decls.foldl (fun known decl => known.insert decl.id decl) known)[d]? =
      decls.foldl (fun last decl => if decl.id = d then some decl else last) last := by
  induction decls generalizing known last with
  | nil => exact h
  | cons decl rest ih =>
      refine ih _ _ ?_
      rw [Std.HashMap.getElem?_insert, h]
      by_cases hd : decl.id = d <;> simp [hd]

theorem empty (m : Module) (showsGlobals : Bool) :
    (Tables.empty m showsGlobals).Represents (Graph.empty m showsGlobals) := by
  have hblank : ((blank m showsGlobals).setEnds Graph.start Graph.finish).Represents
      ⟨m, showsGlobals, [], [], [], [], 0⟩ :=
    { module := rfl, showsGlobals := rfl, nodes := rfl, edges := rfl, implicit := rfl, marks := rfl
      start := rfl, finish := rfl
      decls := fun d => decls_foldl _ _ _ _ Std.HashMap.getElem?_empty
      index := fun k => Std.HashMap.getElem?_empty
      edgeSet := fun a b => Std.HashSet.contains_empty
      implicitSet := fun a b => Std.HashSet.contains_empty
      declSites := fun d => Std.HashMap.getElem?_empty
      owners := fun id => Std.HashMap.getElem?_empty }
  -- The two marks are placed where nothing is, so that they are the first two nodes.
  obtain ⟨hstart, hafter⟩ := hblank.placeMark .start
  obtain ⟨hfinish, hboth⟩ := hafter.placeMark .finish
  simp only [placeMark_setEnds] at hstart hfinish hboth
  simp only [Tables.empty, hstart, hfinish]
  exact hboth

end Represents

end Tables

/-! ## Lowering -/

/-- The open loops while a body is lowered inside the loop with a head, which `break` has left at
some points, and further out in other loops. -/
def openLoops (outer : List OpenLoop) (loop : Option NodeId) (breaks : List NodeId) :
    List OpenLoop :=
  match loop with
  | some head => ⟨head, breaks⟩ :: outer
  | none => []

/-- Tables with the graph of a draft, the loops that are open, and the points where the body is
left, which come after others that were there before. -/
structure Tables.Follows (outer : List OpenLoop) (before : List NodeId) (loop : Option NodeId)
    (t : Tables) (d : Draft) : Prop where
  graph : t.Represents d.toGraph
  loops : t.loops = openLoops outer loop d.breaks
  leaves : t.leaves = before ++ d.leaves

/-- The same place was reached in tables and in a draft. -/
inductive Tables.Coincide (outer : List OpenLoop) (before : List NodeId) (loop : Option NodeId)
    {α : Type} : α × Tables → α × Draft → Prop where
  | reached (place : α) {t : Tables} {d : Draft} : t.Follows outer before loop d →
      Coincide outer before loop (place, t) (place, d)

namespace Tables

variable {outer : List OpenLoop} {before : List NodeId} {loop : Option NodeId} {t : Tables}
  {d : Draft}

/-- What is true of every place at which tables and a draft go together is true of the place that
was reached. -/
@[elab_as_elim]
theorem Coincide.elim {α : Type} {reached : α × Tables} {reached' : α × Draft}
    {motive : α × Tables → α × Draft → Prop} (h : Coincide outer before loop reached reached')
    (next : ∀ (place : α) (t : Tables) (d : Draft), t.Follows outer before loop d →
      motive (place, t) (place, d)) : motive reached reached' := by
  obtain ⟨place, hfollows⟩ := h
  exact next place _ _ hfollows

/-- The exit at the node that was reached. -/
theorem Coincide.drawn {reached : NodeId × Tables} {reached' : NodeId × Draft}
    (h : Coincide outer before loop reached reached') :
    Coincide outer before loop (Exit.drawn reached.1, reached.2)
      (Exit.drawn reached'.1, reached'.2) := by
  obtain ⟨n, hfollows⟩ := h
  exact .reached _ hfollows

/-! What is added to tables leaves the open loops and the early exits alone. -/

section Frame

@[simp]
theorem place_loops (t : Tables) (p : Point) : (t.place p).2.loops = t.loops := by
  unfold place
  split <;> rfl

@[simp]
theorem place_leaves (t : Tables) (p : Point) : (t.place p).2.leaves = t.leaves := by
  unfold place
  split <;> rfl

@[simp]
theorem placeMark_loops (t : Tables) (kind : Mark) : (t.placeMark kind).2.loops = t.loops :=
  place_loops ..

@[simp]
theorem placeMark_leaves (t : Tables) (kind : Mark) : (t.placeMark kind).2.leaves = t.leaves :=
  place_leaves ..

@[simp]
theorem draw_loops (t : Tables) (source target : Option NodeId) :
    (t.draw source target).2.loops = t.loops := by
  unfold draw
  split
  · split <;> rfl
  · rfl

@[simp]
theorem draw_leaves (t : Tables) (source target : Option NodeId) :
    (t.draw source target).2.leaves = t.leaves := by
  unfold draw
  split
  · split <;> rfl
  · rfl

theorem imply_loops (t : Tables) (source target : NodeId) :
    (t.imply source target).loops = t.loops := by
  unfold imply
  split <;> rfl

theorem imply_leaves (t : Tables) (source target : NodeId) :
    (t.imply source target).leaves = t.leaves := by
  unfold imply
  split <;> rfl

@[simp]
theorem implyAll_loops (t : Tables) (ns : List NodeId) (target : NodeId) :
    (ns.foldl (fun t n => t.imply n target) t).loops = t.loops := by
  induction ns generalizing t with
  | nil => rfl
  | cons n rest ih => rw [List.foldl_cons, ih, imply_loops]

@[simp]
theorem implyAll_leaves (t : Tables) (ns : List NodeId) (target : NodeId) :
    (ns.foldl (fun t n => t.imply n target) t).leaves = t.leaves := by
  induction ns generalizing t with
  | nil => rfl
  | cons n rest ih => rw [List.foldl_cons, ih, imply_leaves]

@[simp]
theorem connect_loops (t : Tables) (e : Exit) (target : NodeId) :
    (t.connect e target).loops = t.loops := by
  simp [connect]

@[simp]
theorem connect_leaves (t : Tables) (e : Exit) (target : NodeId) :
    (t.connect e target).leaves = t.leaves := by
  simp [connect]

@[simp]
theorem connectAll_loops (t : Tables) (es : List Exit) (target : NodeId) :
    (es.foldl (fun t e => t.connect e target) t).loops = t.loops := by
  induction es generalizing t with
  | nil => rfl
  | cons e rest ih => rw [List.foldl_cons, ih, connect_loops]

@[simp]
theorem connectAll_leaves (t : Tables) (es : List Exit) (target : NodeId) :
    (es.foldl (fun t e => t.connect e target) t).leaves = t.leaves := by
  induction es generalizing t with
  | nil => rfl
  | cons e rest ih => rw [List.foldl_cons, ih, connect_leaves]

@[simp]
theorem own_loops (t : Tables) (id : TreeId) (s : Stmt) : (t.own id s).loops = t.loops := rfl

@[simp]
theorem own_leaves (t : Tables) (id : TreeId) (s : Stmt) : (t.own id s).leaves = t.leaves := rfl

end Frame

namespace Follows

/-- The graph alone has changed. -/
theorem of_graph (h : t.Follows outer before loop d) {t' : Tables} {g : Graph}
    (hgraph : t'.Represents g) (hloops : t'.loops = t.loops) (hleaves : t'.leaves = t.leaves) :
    t'.Follows outer before loop { d with toGraph := g } :=
  ⟨hgraph, hloops.trans h.loops, hleaves.trans h.leaves⟩

theorem enter (h : t.Follows outer before loop d) (parent : Exit) (p : Point) :
    Coincide outer before loop (t.enter parent p) (d.enter parent p) := by
  obtain ⟨hplaced, hgraph⟩ := h.graph.place p
  simp only [Tables.enter, Draft.enter, hplaced]
  exact .reached _ (h.of_graph (hgraph.connect parent _) (by simp) (by simp))

theorem own (h : t.Follows outer before loop d) (id : TreeId) (s : Stmt) :
    Follows outer before loop (t.own id s) { d with owners := (id, s) :: d.owners } :=
  h.of_graph (h.graph.own id s) rfl rfl

theorem enterControl (h : t.Follows outer before loop d) (parent : Exit) (e : Expr) (s : Stmt) :
    Coincide outer before loop (t.enterControl parent e s) (d.enterControl parent e s) := by
  unfold Tables.enterControl Draft.enterControl
  refine (h.enter parent (.expr e)).elim fun n t d hentered => ?_
  exact .reached n (hentered.own e.id s)

theorem enterVar (h : t.Follows outer before loop d) (head : NodeId) (var : LoopVar) (s : Stmt) :
    Coincide outer before loop (t.enterVar head var s) (d.enterVar head var s) := by
  obtain ⟨hplaced, hgraph⟩ := h.graph.place (.loopVar var)
  have hentered := (hgraph.draw head (d.place (.loopVar var)).1).own var.id s
  rw [owners_draw] at hentered
  simp only [Tables.enterVar, Draft.enterVar, hplaced]
  exact .reached _ (h.of_graph hentered (by simp) (by simp))

theorem join (h : t.Follows outer before loop d) (es : List Exit) :
    Coincide outer before loop (t.join es) (d.join es) := by
  obtain ⟨hplaced, hgraph⟩ := h.graph.placeMark .join
  simp only [Tables.join, Draft.join, hplaced]
  exact .reached _ (h.of_graph (hgraph.connectAll es _) (by simp) (by simp))

theorem connect (h : t.Follows outer before loop d) (e : Exit) (n : NodeId) :
    (t.connect e n).Follows outer before loop (d.returnTo e n) :=
  h.of_graph (h.graph.connect e n) (by simp) (by simp)

theorem openLoop (h : t.Follows outer before loop d) (head : NodeId) :
    (t.openLoop head).Follows t.loops before (some head) d.openLoop :=
  ⟨{ h.graph with }, rfl, h.leaves⟩

/-- At the end of a loop, the points at which it was left come off the stack. -/
theorem closeLoop {around : Tables} {d' : Draft} {head : NodeId}
    (h : t.Follows outer before loop d) (haround : around.Follows t.loops before (some head) d') :
    around.closeLoop.2.Follows outer before loop (d'.closeLoop d) ∧
      around.closeLoop.1 = d'.breaks := by
  have hloops := haround.loops
  simp only [openLoops] at hloops
  simp only [Tables.closeLoop, hloops, List.head?_cons, Option.map_some, Option.getD_some,
    List.tail_cons]
  exact ⟨⟨{ haround.graph with }, h.loops, haround.leaves⟩, trivial⟩

theorem nodesFrom_eq {earlier : Tables} {d' : Draft} (h : t.Follows outer before loop d)
    (hearlier : earlier.Follows outer before loop d') :
    t.nodesFrom earlier.nodes.size = d.nodesSince d' := by
  rw [Tables.nodesFrom, Draft.nodesSince, h.graph.size_nodes, hearlier.graph.size_nodes]
  congr 1
  funext n
  rw [← Array.getElem?_toList, h.graph.nodes, List.getElem?_mapIdx]
  cases d.nodes[n]? <;> rfl

theorem leave (h : t.Follows outer before loop d) (ns : List NodeId) :
    Follows outer before loop { t with leaves := t.leaves ++ ns }
      { d with leaves := d.leaves ++ ns } :=
  ⟨{ h.graph with }, h.loops, by simp [h.leaves]⟩

theorem jump (h : t.Follows outer before loop d) (parent : Exit) (id : TreeId) (how : Jump) :
    Coincide outer before loop (t.jump parent id how) (d.jump loop parent id how) := by
  cases how with
  | «return» value | throw value =>
      cases value with
      | none => exact .reached parent (h.leave parent.points)
      | some e =>
          unfold Tables.jump Draft.jump
          dsimp only
          refine (h.enter parent _).elim fun n t d hentered => ?_
          exact .reached (Exit.drawn n) (hentered.leave [n])
  | «break» =>
      have hloops := h.loops
      cases loop with
      | none =>
          simp only [openLoops] at hloops
          simp only [Tables.jump, Tables.leaveLoop, hloops, Draft.jump]
          exact .reached parent h
      | some head =>
          simp only [openLoops] at hloops
          simp only [Tables.jump, Tables.leaveLoop, hloops, Draft.jump]
          exact .reached parent ⟨{ h.graph with }, rfl, h.leaves⟩
  | «continue» =>
      have hloops := h.loops
      cases loop with
      | none =>
          simp only [openLoops] at hloops
          simp only [Tables.jump, hloops, Draft.jump]
          exact .reached parent h
      | some head =>
          simp only [openLoops] at hloops
          simp only [Tables.jump, hloops, Draft.jump]
          exact .reached parent (h.of_graph (h.graph.implyAll _ head) (by simp) (by simp))

end Follows

end Tables

/-- A statement is lowered into tables as into a draft. -/
def Stmt.TabulatesLike (s : Stmt) : Prop :=
  ∀ outer before loop parent (t : Tables) (d : Draft), t.Follows outer before loop d →
    Tables.Coincide outer before loop (s.tabulate parent t) (s.lower loop parent d)

/-- And so are some statements. -/
def TabulateLike (ss : List Stmt) : Prop :=
  ∀ outer before loop parent (t : Tables) (d : Draft), t.Follows outer before loop d →
    Tables.Coincide outer before loop (tabulateSeq ss parent t) (lowerSeq loop ss parent d)

/-- And so are some catches. -/
def TabulateCatchesLike (cs : List Catch) : Prop :=
  ∀ outer before loop raised joined (t : Tables) (d : Draft), t.Follows outer before loop d →
    (tabulateCatches cs raised joined t).Follows outer before loop
      (lowerCatches loop cs raised joined d)

section Statements

variable {outer : List OpenLoop} {before : List NodeId} {loop : Option NodeId} {t : Tables}
  {d : Draft} {id bid eid : TreeId} {body other : List Stmt} {catches : List Catch}

/-- The body of a loop is entered at a node and goes back to the head; then the loop is closed. -/
theorem Tables.Follows.aroundLoop (h : t.Follows outer before loop d) (hbody : TabulateLike body)
    (head n : NodeId) :
    let inside := tabulateSeq body (.drawn n) (t.openLoop head)
    let inside' := lowerSeq (some head) body (.drawn n) d.openLoop
    let closed := (inside.2.connect inside.1 head).closeLoop
    let around := inside'.2.returnTo inside'.1 head
    closed.2.Follows outer before loop (around.closeLoop d) ∧ closed.1 = around.breaks := by
  dsimp only
  refine (hbody _ _ _ (.drawn n) _ _ (h.openLoop head)).elim fun exit t' d' hinside => ?_
  exact h.closeLoop (hinside.connect exit head)

theorem tabulatesLike_while (cond : Expr) (hbody : TabulateLike body) :
    (Stmt.while id cond ⟨bid, body⟩ none).TabulatesLike := by
  intro outer before loop parent t d h
  unfold Stmt.tabulate Stmt.lower
  refine (h.enterControl parent cond _).elim fun n t d hentered => ?_
  obtain ⟨haround, hbreaks⟩ := hentered.aroundLoop hbody n n
  dsimp only
  rw [hbreaks]
  exact .reached _ haround

theorem tabulatesLike_while_else (cond : Expr) (hbody : TabulateLike body)
    (hother : TabulateLike other) :
    (Stmt.while id cond ⟨bid, body⟩ (some ⟨eid, other⟩)).TabulatesLike := by
  intro outer before loop parent t d h
  unfold Stmt.tabulate Stmt.lower
  refine (h.enterControl parent cond _).elim fun n t d hentered => ?_
  obtain ⟨haround, hbreaks⟩ := hentered.aroundLoop hbody n n
  dsimp only
  rw [hbreaks]
  refine (hother outer before loop (.drawn n) _ _ haround).elim fun exit t' d' hleft => ?_
  dsimp only
  refine (hleft.join [exit, .drawn n]).elim fun m t' d' hjoined => ?_
  exact .reached _ hjoined

theorem tabulatesLike_for (var : LoopVar) (seq : Expr) (hbody : TabulateLike body) :
    (Stmt.for id var seq ⟨bid, body⟩).TabulatesLike := by
  intro outer before loop parent t d h
  unfold Stmt.tabulate Stmt.lower
  refine (h.enterControl parent seq _).elim fun n t d hentered => ?_
  dsimp only
  refine (hentered.enterVar n var (.for id var seq ⟨bid, body⟩)).elim fun m t d hbound => ?_
  obtain ⟨haround, hbreaks⟩ := hbound.aroundLoop hbody n m
  dsimp only
  rw [hbreaks]
  exact .reached _ haround

theorem tabulatesLike_if (cond : Expr) (hbody : TabulateLike body) :
    (Stmt.if id cond ⟨bid, body⟩ none).TabulatesLike := by
  intro outer before loop parent t d h
  unfold Stmt.tabulate Stmt.lower
  refine (h.enterControl parent cond _).elim fun n t d hentered => ?_
  dsimp only
  refine (hbody outer before loop (.drawn n) t d hentered).elim fun exit t d hinside => ?_
  exact .reached _ hinside

theorem tabulatesLike_if_else (cond : Expr) (hbody : TabulateLike body)
    (hother : TabulateLike other) :
    (Stmt.if id cond ⟨bid, body⟩ (some ⟨eid, other⟩)).TabulatesLike := by
  intro outer before loop parent t d h
  unfold Stmt.tabulate Stmt.lower
  refine (h.enterControl parent cond _).elim fun n t d hentered => ?_
  dsimp only
  refine (hbody outer before loop (.drawn n) t d hentered).elim fun live t d hinside => ?_
  dsimp only
  refine (hother outer before loop (.drawn n) t d hinside).elim fun exit t d hleft => ?_
  exact (hleft.join [exit, live]).drawn

theorem tabulatesLike_try (hbody : TabulateLike body) (hcatches : TabulateCatchesLike catches) :
    (Stmt.try id ⟨bid, body⟩ catches).TabulatesLike := by
  intro outer before loop parent t d h
  unfold Stmt.tabulate Stmt.lower
  refine (hbody outer before loop parent t d h).elim fun exit t' d' hinside => ?_
  dsimp only
  rw [hinside.nodesFrom_eq h]
  refine (hinside.join [exit]).elim fun n t d hjoined => ?_
  exact .reached _ (hcatches outer before loop _ n t d hjoined)

theorem tabulateCatchesLike_cons {cid : TreeId} {param : Option DeclId}
    (hbody : TabulateLike body) (hcatches : TabulateCatchesLike catches) :
    TabulateCatchesLike (⟨cid, param, ⟨bid, body⟩⟩ :: catches) := by
  intro outer before loop raised joined t d h
  unfold tabulateCatches lowerCatches
  refine (hbody outer before loop raised t d h).elim fun exit t d hhandled => ?_
  exact hcatches outer before loop raised joined _ _ (hhandled.connect exit joined)

theorem tabulateLike_cons {s : Stmt} {rest : List Stmt} (hs : s.TabulatesLike)
    (hrest : TabulateLike rest) : TabulateLike (s :: rest) := by
  intro outer before loop parent t d h
  unfold tabulateSeq lowerSeq
  refine (hs outer before loop parent t d h).elim fun exit t d hlive => ?_
  dsimp only
  split
  · refine (hrest outer before loop .nowhere t d hlive).elim fun exit' t d htail => ?_
    exact (htail.join [exit, exit']).drawn
  · exact hrest outer before loop exit t d hlive

end Statements

/-- Whatever is lowered, tables and drafts that go together go together afterwards. -/
theorem tabulatesLike_self :
    (∀ s : Stmt, s.TabulatesLike) ∧ (∀ ss, TabulateLike ss) ∧ ∀ cs, TabulateCatchesLike cs := by
  refine tree_induction ?simple ?jump ?block ?while_ ?for_ ?if_ ?try_ ?nil ?cons ?noCatch ?catch_
  case simple =>
    intro id what outer before loop parent t d h
    exact (h.enter parent (.stmt (.simple id what))).drawn
  case jump => exact fun id how outer before loop parent t d h => h.jump parent id how
  case block => exact fun id bid body ih => ih
  case while_ =>
    intro id cond bid body orElse ihbody ihelse
    rcases orElse with _ | ⟨eid, orElse⟩
    · exact tabulatesLike_while cond ihbody
    · exact tabulatesLike_while_else cond ihbody ihelse
  case for_ => exact fun id var seq bid body ih => tabulatesLike_for var seq ih
  case if_ =>
    intro id cond bid body orElse ihbody ihelse
    rcases orElse with _ | ⟨eid, orElse⟩
    · exact tabulatesLike_if cond ihbody
    · exact tabulatesLike_if_else cond ihbody ihelse
  case try_ => exact fun id bid body catches ihbody ihcatches =>
    tabulatesLike_try ihbody ihcatches
  case nil => exact fun outer before loop parent t d h => .reached parent h
  case cons => exact fun s rest ihs ihrest => tabulateLike_cons ihs ihrest
  case noCatch => exact fun outer before loop raised joined t d h => h
  case catch_ => exact fun id param bid body rest ihbody ihrest =>
    tabulateCatchesLike_cons ihbody ihrest

/-! ## Graphs of bodies -/

namespace Tables

variable {t : Tables} {g : Graph}

/-- Outside of all loops and with nothing collected, tables go on as the graph that they
represent. -/
theorem Represents.follows (h : t.Represents g) (hloops : t.loops = []) :
    t.Follows [] t.leaves none (.ofGraph g) :=
  ⟨h, hloops, (List.append_nil _).symm⟩

theorem Represents.close {last : Exit} {d : Draft} (h : t.Follows [] [] none d) :
    (t.close last).Represents (Graph.close last d) ∧ (t.close last).loops = [] := by
  have hconnect := h.graph.connect last Graph.finish
  have hemptied : Represents { t.connect last Graph.finish with leaves := [] }
      (d.toGraph.connect last Graph.finish) :=
    { hconnect with }
  have hleaves : (t.connect last Graph.finish).leaves = d.leaves := by
    rw [connect_leaves, h.leaves, List.nil_append]
  unfold Tables.close Graph.close
  rw [h.graph.finish]
  dsimp only
  rw [hleaves]
  refine ⟨hemptied.implyAll d.leaves Graph.finish, ?_⟩
  rw [implyAll_loops]
  exact (connect_loops t last Graph.finish).trans h.loops

theorem Represents.chainGlobals (h : t.Represents g) (globals : List Global) (parent : Exit) :
    (chainGlobals globals parent t).1 = (Graph.chainGlobals globals parent g).1 ∧
      (chainGlobals globals parent t).2.Represents (Graph.chainGlobals globals parent g).2 ∧
      (chainGlobals globals parent t).2.loops = t.loops ∧
      (chainGlobals globals parent t).2.leaves = t.leaves := by
  induction globals generalizing parent t g with
  | nil => exact ⟨rfl, h, rfl, rfl⟩
  | cons v rest ih =>
      obtain ⟨hplaced, hgraph⟩ := h.place (.global v)
      have hrest := ih (hgraph.connect parent (g.place (.global v)).1)
        (.drawn (g.place (.global v)).1)
      simpa only [Tables.chainGlobals, enter, hplaced, Graph.chainGlobals, connect_loops,
        connect_leaves, place_loops, place_leaves] using hrest

theorem empty_loops (m : Module) (showsGlobals : Bool) : (empty m showsGlobals).loops = [] := by
  simp [empty, setEnds, blank]

theorem empty_leaves (m : Module) (showsGlobals : Bool) : (empty m showsGlobals).leaves = [] := by
  simp [empty, setEnds, blank]

/-- A body is lowered into tables and closed. -/
theorem Represents.lowered (h : t.Represents g) (hloops : t.loops = []) (hleaves : t.leaves = [])
    (parent : Exit) (ss : List Stmt) :
    ((tabulateSeq ss parent t).2.close (tabulateSeq ss parent t).1).Represents
        (Graph.close (lowerSeq none ss parent (.ofGraph g)).1
          (lowerSeq none ss parent (.ofGraph g)).2) ∧
      ((tabulateSeq ss parent t).2.close (tabulateSeq ss parent t).1).loops = [] := by
  have hfollows := h.follows hloops
  rw [hleaves] at hfollows
  refine (tabulatesLike_self.2.1 ss [] [] none parent t _ hfollows).elim fun exit t d hlowered => ?_
  exact Represents.close hlowered

theorem represents_ofBlock (m : Module) (b : Block) :
    (ofBlock m b).Represents (Graph.ofBlock m b) ∧ (ofBlock m b).loops = [] := by
  have hempty := Represents.empty m false
  unfold ofBlock Graph.ofBlock
  dsimp only
  rw [hempty.start]
  exact hempty.lowered (empty_loops m false) (empty_leaves m false) (.drawn Graph.start) b.stmts

theorem represents_ofModule (m : Module) :
    (ofModule m).Represents (Graph.ofModule m) ∧ (ofModule m).loops = [] := by
  have hempty := Represents.empty m true
  obtain ⟨hexit, hgraph, hloops, hleaves⟩ := hempty.chainGlobals m.globals (.drawn Graph.start)
  unfold ofModule Graph.ofModule
  dsimp only
  rw [hempty.start, hexit]
  exact hgraph.lowered (hloops.trans (empty_loops m true)) (hleaves.trans (empty_leaves m true))
    (Graph.chainGlobals m.globals (.drawn Graph.start) (Graph.empty m true)).1 m.body.stmts

end Tables

end ControlFlow

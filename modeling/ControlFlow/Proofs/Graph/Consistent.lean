import ControlFlow.Proofs.Graph.Intact
import ControlFlow.Proofs.Graph.Tabulated

/-! # Tables stay consistent

The tables of a graph may go on growing after the graph was finished: points are placed, edges are
drawn, and statements are appended. Whatever is asked of them, each node and edge has its position
as its number, the indices and sets know exactly what the tables hold, no two nodes have one key, no
flow is there twice, and nothing that is there ever moves.
-/

namespace ControlFlow

namespace Tables

open ControlFlow.Graph (Call Answer)

/-! ## Calls -/

/-- Answer a call. -/
def serve (t : Tables) : Call → Answer × Tables
  | .place p => (.node (t.place p).1, (t.place p).2)
  | .draw source target => (.edge (t.draw source target).1, (t.draw source target).2)
  | .append parent stmts =>
      (.exit (tabulateSeq stmts parent t).1, (tabulateSeq stmts parent t).2)

/-- The tables after some calls. -/
def serveAll (t : Tables) (cs : List Call) : Tables := cs.foldl (fun t c => (t.serve c).2) t

/-! ## Consistent tables -/

/-- The tables agree with each other: nodes and edges are numbered by their positions, the index
leads from each key to the node that has it, the sets hold what is drawn and what is implied, no two
nodes have one key, and nothing is drawn or implied twice. -/
structure Consistent (t : Tables) : Prop where
  node_id : ∀ (i : Nat) (s : StoredNode), t.nodes[i]? = some s → s.id = i
  nodup_keys : (t.nodes.toList.map fun s => s.point.key).Nodup
  index_iff : ∀ (k : Key) (n : NodeId),
    t.index[k]? = some n ↔ ∃ s, t.nodes[n]? = some s ∧ s.point.key = k
  edge_id : ∀ (i : Nat) (e : StoredEdge), t.edges[i]? = some e → e.id = i
  nodup_edges : (t.edges.toList.map StoredEdge.flow).Nodup
  mem_edgeSet_iff : ∀ f : Flow, f ∈ t.edgeSet ↔ f ∈ t.edges.toList.map StoredEdge.flow
  nodup_implicit : t.implicit.toList.Nodup
  mem_implicitSet_iff : ∀ f : Flow, f ∈ t.implicitSet ↔ f ∈ t.implicit.toList

/-- All nodes and flows of some tables stand at the same positions in others, with the same
numbers. -/
structure Prolongs (t t' : Tables) : Prop where
  nodes : t.nodes.toList <+: t'.nodes.toList
  edges : t.edges.toList <+: t'.edges.toList
  implicit : t.implicit.toList <+: t'.implicit.toList

theorem mapIdx_isPrefix {α β : Type} {xs ys : List α} (f : Nat → α → β) (h : xs <+: ys) :
    xs.mapIdx f <+: ys.mapIdx f := by
  obtain ⟨more, rfl⟩ := h
  rw [List.mapIdx_append]
  exact List.prefix_append _ _

variable {t t' : Tables} {g g' : Graph}

/-- A call for an edge that was drawn gives its number. -/
theorem edge_of_draw {source target : Option NodeId} {id : Nat}
    (hdraw : (t.draw source target).1 = some id) : ∃ a b, source = some a ∧ target = some b ∧
      (t.draw source target).2.edges[id]? = some ⟨id, a, b⟩ := by
  unfold Tables.draw at hdraw ⊢
  split at hdraw
  next a b =>
    split at hdraw
    next => cases hdraw
    next hnew =>
      cases hdraw
      exact ⟨a, b, rfl, rfl, by simp [hnew]⟩
  next => cases hdraw

namespace Represents

theorem getElem?_nodes (h : t.Represents g) (i : Nat) :
    t.nodes[i]? = g.nodes[i]?.map (StoredNode.mk i) := by
  rw [← Array.getElem?_toList, h.nodes, List.getElem?_mapIdx]

theorem getElem?_edges (h : t.Represents g) (i : Nat) :
    t.edges[i]? = g.edges[i]?.map fun f => ⟨i, f.1, f.2⟩ := by
  rw [← Array.getElem?_toList, h.edges, List.getElem?_mapIdx]

theorem keys_eq (h : t.Represents g) :
    t.nodes.toList.map (fun s => s.point.key) = g.nodes.map Point.key := by
  refine List.ext_getElem? fun i => ?_
  rw [h.nodes, List.getElem?_map, List.getElem?_mapIdx, Option.map_map, List.getElem?_map]
  rfl

theorem flows_eq (h : t.Represents g) : t.edges.toList.map StoredEdge.flow = g.edges := by
  refine List.ext_getElem? fun i => ?_
  rw [h.edges, List.getElem?_map, List.getElem?_mapIdx, Option.map_map]
  exact Option.map_id'

theorem consistent (h : t.Represents g) (hg : g.Intact) : t.Consistent where
  node_id i s hs := by
    rw [h.getElem?_nodes, Option.map_eq_some_iff] at hs
    obtain ⟨p, -, rfl⟩ := hs
    rfl
  nodup_keys := h.keys_eq ▸ hg.keys
  index_iff k n := by
    rw [h.index, hg.find?_iff, h.getElem?_nodes]
    simp
  edge_id i e he := by
    rw [h.getElem?_edges, Option.map_eq_some_iff] at he
    obtain ⟨f, -, rfl⟩ := he
    rfl
  nodup_edges := h.flows_eq ▸ hg.edges
  mem_edgeSet_iff f := by
    rw [h.flows_eq, ← Graph.joins_iff, ← h.edgeSet]
    exact Iff.rfl
  nodup_implicit := h.implicit ▸ hg.implicit
  mem_implicitSet_iff f := by
    rw [h.implicit, ← Graph.joins_iff, ← h.implicitSet]
    exact Iff.rfl

theorem prolongs (h : t.Represents g) (h' : t'.Represents g') (hg : g.Prolongs g') :
    t.Prolongs t' := by
  refine ⟨?_, ?_, ?_⟩
  · rw [h.nodes, h'.nodes]
    exact mapIdx_isPrefix _ hg.nodes
  · rw [h.edges, h'.edges]
    exact mapIdx_isPrefix _ hg.edges
  · rw [h.implicit, h'.implicit]
    exact hg.implicit

/-- Outside of all loops, a call is answered as the graph answers it. -/
theorem serve (h : t.Represents g) (hloops : t.loops = []) (c : Call) :
    (t.serve c).1 = (g.serve c).1 ∧ (t.serve c).2.Represents (g.serve c).2 ∧
      (t.serve c).2.loops = [] := by
  cases c with
  | place p =>
      obtain ⟨hnode, hgraph⟩ := h.place p
      exact ⟨congrArg Answer.node hnode, hgraph, (place_loops t p).trans hloops⟩
  | draw source target =>
      have hafter : (t.draw source target).2.loops = [] := (draw_loops t _ _).trans hloops
      cases source with
      | none => exact ⟨rfl, h, hafter⟩
      | some a =>
          cases target with
          | none => exact ⟨rfl, h, hafter⟩
          | some b =>
              refine ⟨?_, ?_, hafter⟩
              · unfold Tables.serve Graph.serve Tables.draw
                dsimp only
                rw [h.edgeSet, h.size_edges]
                split <;> rfl
              · have hdrawn := h.draw a b
                unfold Tables.serve Graph.serve
                dsimp only
                split
                next hthere => rwa [Graph.draw, if_pos hthere] at hdrawn
                next => exact hdrawn
  | append parent stmts =>
      have hlike := tabulatesLike_self.2.1 stmts
      unfold Tables.serve Graph.serve Graph.append
      dsimp only
      refine (hlike [] t.leaves none parent t _ (h.follows hloops)).elim fun exit t d hlowered => ?_
      exact ⟨rfl, hlowered.graph, hlowered.loops⟩

theorem serveAll (h : t.Represents g) (hloops : t.loops = []) (cs : List Call) :
    (t.serveAll cs).Represents (g.serveAll cs) ∧ (t.serveAll cs).loops = [] := by
  induction cs generalizing t g with
  | nil => exact ⟨h, hloops⟩
  | cons c rest ih =>
      obtain ⟨-, hgraph, hafter⟩ := h.serve hloops c
      exact ih hgraph hafter

/-! ## Asking again -/

/-- Once a point was placed, its key leads to its node for ever, and placing adds nothing. -/
theorem place_again (h : t.Represents g) {p q : Point} (hkey : q.key = p.key)
    (h' : t'.Represents g') (hmore : (g.place p).2.Prolongs g') :
    t'.place q = ((t.place p).1, t') := by
  have hfind : t'.index[q.key]? = some (g.place p).1 := by
    rw [h'.index, hkey]
    exact Graph.find?_of_prefix hmore.nodes (Graph.find?_place g p)
  rw [(h.place p).1]
  unfold Tables.place
  rw [hfind]

/-- Once an edge was asked for, it is there for ever, and no other is drawn. -/
theorem draw_again (h' : t'.Represents g') {source target : Option NodeId}
    (hmore : (g.serve (.draw source target)).2.Prolongs g') :
    t'.draw source target = (none, t') := by
  cases source with
  | none => rfl
  | some a =>
      cases target with
      | none => rfl
      | some b =>
          have hthere := Graph.joins_iff.mpr (hmore.edges.subset (Graph.mem_edges_serve g a b))
          unfold Tables.draw
          dsimp only
          rw [h'.edgeSet, if_pos hthere]

end Represents

end Tables

namespace Module

open Tables

/-- The tables of the top-level code of a module, of a function, or of a bare sequence of
statements, with the graph of it. -/
inductive Tabulates (m : Module) : Tables → Graph → Prop where
  | module : m.Tabulates (.ofModule m) (.ofModule m)
  | function (f : Function) : m.Tabulates (.ofFunction m f) (.ofFunction m f)
  | block (b : Block) : m.Tabulates (.ofBlock m b) (.ofBlock m b)

variable {m : Module} {t : Tables} {g : Graph}

theorem Tabulates.represents (h : m.Tabulates t g) : t.Represents g ∧ t.loops = [] := by
  cases h with
  | module => exact represents_ofModule m
  | function f => exact represents_ofBlock m f.body
  | block b => exact represents_ofBlock m b

/-- The graph depicts a body and has grown from nothing but its start and its end. -/
theorem Tabulates.depicts (h : m.Tabulates t g) : ∃ b globals showsGlobals,
    g.Depicts b globals ∧
      Graph.Steps (fun _ => True) (fun _ => True) (.empty m showsGlobals) g := by
  cases h with
  | module => exact ⟨_, _, true, Graph.depicts_ofModule m, Graph.steps_ofModule m⟩
  | function f => exact ⟨_, _, false, Graph.depicts_ofBlock m f.body, Graph.steps_ofBlock m f.body⟩
  | block b => exact ⟨_, _, false, Graph.depicts_ofBlock m b, Graph.steps_ofBlock m b⟩

/-- In the tables of a body, no edge and no implied flow leads into the start or out of the end.
Whatever is asked of them then, they answer as the graph that they represent, and at every moment
they are consistent: each node and edge has its position as its number, and a node is found exactly
by its key. A call for a point or an edge gives the number under which it is stored and changes
nothing when it is repeated at any later moment, and nothing that is there ever moves. -/
theorem Tabulates.stay_consistent (h : m.Tabulates t g) :
    t.nodes[t.start]? = some ⟨t.start, .mark .start 0⟩ ∧
    t.nodes[t.finish]? = some ⟨t.finish, .mark .finish 1⟩ ∧
    (∀ e ∈ t.edges, e.target ≠ t.start ∧ e.source ≠ t.finish) ∧
    (∀ f ∈ t.implicit, f.2 ≠ t.start ∧ f.1 ≠ t.finish) ∧
    ∀ before t', t.serveAll before = t' →
      t'.Represents (g.serveAll before) ∧ t'.Consistent ∧
      (∀ id n, t'.findNode? id = some n ↔ ∃ s, t'.nodes[n]? = some s ∧ s.point.key = .tree id) ∧
      (∀ p, ∃ q, (t'.place p).2.nodes[(t'.place p).1]? = some ⟨(t'.place p).1, q⟩ ∧
        q.key = p.key) ∧
      (∀ p q more, q.key = p.key → ((t'.place p).2.serveAll more).place q =
        ((t'.place p).1, (t'.place p).2.serveAll more)) ∧
      (∀ source target id, (t'.draw source target).1 = some id → ∃ a b, source = some a ∧
        target = some b ∧ (t'.draw source target).2.edges[id]? = some ⟨id, a, b⟩) ∧
      (∀ source target more, ((t'.draw source target).2.serveAll more).draw source target =
        (none, (t'.draw source target).2.serveAll more)) ∧
      ∀ more, t'.Prolongs (t'.serveAll more) := by
  obtain ⟨hthere, hloops⟩ := h.represents
  obtain ⟨b, globals, showsGlobals, hdepicts, hsteps⟩ := h.depicts
  have honward (f : Flow) (hf : f ∈ g.flows) : f.2 ≠ t.start ∧ f.1 ≠ t.finish := by
    rw [hthere.start, hthere.finish]
    exact ⟨(hdepicts.onward f hf).2.2, (hdepicts.onward f hf).1.2⟩
  have hmark (i : NodeId) (p : Point) (hp : (Graph.empty m showsGlobals).nodes[i]? = some p) :
      t.nodes[i]? = some ⟨i, p⟩ := by
    rw [hthere.getElem?_nodes, (Graph.Steps.extends hsteps).getElem? hp, Option.map_some]
  refine ⟨?_, ?_, fun e he => ?_, fun f hf => ?_, ?_⟩
  · rw [hthere.start]
    exact hmark _ _ rfl
  · rw [hthere.finish]
    exact hmark _ _ rfl
  · refine honward e.flow (Graph.mem_flows.mpr (.inl ?_))
    rw [← hthere.flows_eq]
    exact List.mem_map_of_mem (Array.mem_toList_iff.mpr he)
  · refine honward f (Graph.mem_flows.mpr (.inr ?_))
    rw [← hthere.implicit]
    exact Array.mem_toList_iff.mpr hf
  rintro before t' rfl
  obtain ⟨hafter, hloops'⟩ := hthere.serveAll hloops before
  have hintact : (g.serveAll before).Intact :=
    ((Graph.intact_empty m showsGlobals).steps hsteps).steps (Graph.steps_serveAll g before)
  have hconsistent := hafter.consistent hintact
  have hmore (g : Graph) (more : List Graph.Call) : g.Prolongs (g.serveAll more) :=
    .steps (Graph.steps_serveAll g more)
  refine ⟨hafter, hconsistent, fun id n => hconsistent.index_iff _ n, fun p => ?_,
    fun p q more hkey => ?_, fun source target id => edge_of_draw,
    fun source target more => ?_, fun more => ?_⟩
  · obtain ⟨hnode, hgraph⟩ := hafter.place p
    obtain ⟨q, hq, hkey⟩ := Graph.find?_some (Graph.find?_place (g.serveAll before) p)
    exact ⟨q, by rw [hnode, hgraph.getElem?_nodes, hq, Option.map_some], hkey⟩
  · obtain ⟨-, hgraph, hplaced⟩ := hafter.serve hloops' (.place p)
    exact hafter.place_again hkey (hgraph.serveAll hplaced more).1 (hmore _ more)
  · obtain ⟨-, hgraph, hdrawn⟩ := hafter.serve hloops' (.draw source target)
    exact (hgraph.serveAll hdrawn more).1.draw_again (hmore _ more)
  · exact hafter.prolongs (hafter.serveAll hloops' more).1 (hmore _ more)

/-- A module in which a condition and a statement in its branch have one number. -/
def doubled : Module :=
  let branch := .if 3 (.literal 1 (.bool true)) ⟨2, [.simple 1 .yield, .jump 4 (.return none)]⟩ none
  ⟨"doubled", [], [], ⟨0, [branch, .simple 5 .yield]⟩, []⟩

/-- The statement shares the node of the condition, which then leads to itself; an edge to the start
is drawn only because it is asked for, under the next number and only once. -/
theorem stay_consistent_doubled : doubled.Tabulates (.ofModule doubled) (.ofModule doubled) ∧
    ¬ doubled.ids.Nodup ∧ (∀ e ∈ (Tables.ofModule doubled).edges, e.target ≠ Graph.start) ∧
    (Tables.ofModule doubled).edges[1]? = some ⟨1, 2, 2⟩ ∧
    ((Tables.ofModule doubled).draw (some 2) (some Graph.start)).1 = some 4 ∧
    ((Tables.ofModule doubled).draw (some 2) (some Graph.start)).2.edges[4]? =
      some ⟨4, 2, Graph.start⟩ ∧
    ((Tables.ofModule doubled).serveAll [.draw (some 2) (some Graph.start),
      .append (.drawn Graph.finish) doubled.body.stmts]).Consistent := by
  have htabulates : doubled.Tabulates (.ofModule doubled) (.ofModule doubled) := .module
  obtain ⟨-, -, honward, -, hafter⟩ := htabulates.stay_consistent
  have hthere : (Tables.ofModule doubled).Represents (.ofModule doubled) := (hafter [] _ rfl).1
  have hnumber : ((Tables.ofModule doubled).draw (some 2) (some Graph.start)).1 = some 4 := by
    unfold Tables.draw
    dsimp only
    rw [hthere.edgeSet, hthere.size_edges]
    rfl
  obtain ⟨a, b, ha, hb, hedge⟩ := (hafter [] _ rfl).2.2.2.2.2.1 _ _ _ hnumber
  cases ha
  cases hb
  refine ⟨htabulates, by decide, fun e he => hthere.start ▸ (honward e he).1, ?_, hnumber, hedge,
    (hafter _ _ rfl).2.1⟩
  rw [hthere.getElem?_edges]
  rfl

end Module

end ControlFlow

import ControlFlow.Proofs.Flow.Paths
import ControlFlow.Proofs.Graph.Bounds
import ControlFlow.Proofs.Graph.Liveness
import ControlFlow.Proofs.Tree.Numbers

/-! # Finished graphs

The graph of a body grows from one with nothing but its start and its end, and is closed by flows
from wherever the body ends.
-/

namespace ControlFlow

namespace Graph

variable {A B : Point → Prop} {O Q : TreeId × Stmt → Prop} {g g' : Graph}

theorem Step.mono (hA : ∀ p, A p → B p) (hO : ∀ o, O o → Q o) (h : Step A O g g') :
    Step B Q g g' := by
  cases h with
  | place hp => exact .place g (hA _ hp)
  | join => exact .join g
  | draw source target => exact .draw g source target
  | imply source target => exact .imply g source target
  | own ho => exact .own g (hO _ ho)

theorem Steps.mono (hA : ∀ p, A p → B p) (hO : ∀ o, O o → Q o) (h : Steps A O g g') :
    Steps B Q g g' := by
  induction h with
  | refl => exact .refl
  | tail _ hstep ih => exact ih.tail (hstep.mono hA hO)

theorem counted_empty (m : Module) (showsGlobals : Bool) : (empty m showsGlobals).Counted := by
  intro p hp counter hkey
  simp only [empty, List.mem_cons, List.not_mem_nil, or_false] at hp
  rcases hp with rfl | rfl
  · cases hkey
    exact Nat.two_pos
  · cases hkey
    exact Nat.one_lt_two

theorem nodup_keys_empty (m : Module) (showsGlobals : Bool) :
    ((empty m showsGlobals).nodes.map Point.key).Nodup := by
  simp [empty, Point.key]

theorem key_of_mem_empty {m : Module} {showsGlobals : Bool} {p : Point}
    (hp : p ∈ (empty m showsGlobals).nodes) :
    p.isMark = true ∧ ∃ counter, p.key = .mark counter := by
  simp only [empty, List.mem_cons, List.not_mem_nil, or_false] at hp
  rcases hp with rfl | rfl
  · exact ⟨rfl, _, rfl⟩
  · exact ⟨rfl, _, rfl⟩

theorem framed_empty (m : Module) (showsGlobals : Bool) : (empty m showsGlobals).Framed :=
  ⟨List.prefix_refl _, Nat.le_refl _⟩

/-! ## Closing -/

theorem steps_close (last : Exit) (d : Draft) : Steps A O d.toGraph (close last d) :=
  (steps_connect _ _ _).trans (steps_imply _ _ _)

theorem extends_close (last : Exit) (d : Draft) : d.toGraph.Extends (close last d) :=
  (extends_connect _ _ _).trans (extends_implyAll _ _ _)

/-- Wherever a body ends, a flow leads to the end of its graph. -/
theorem mem_flows_close {last : Exit} {d : Draft} {n : NodeId}
    (hn : n ∈ last.points ∨ n ∈ d.leaves) : (n, finish) ∈ (close last d).flows := by
  rw [close, mem_flows_implyAll, mem_flows_connect]
  rcases hn with hlast | hleave
  · exact .inl (.inr ⟨n, hlast, rfl⟩)
  · exact .inr ⟨n, hleave, rfl⟩

/-- Closing leads to the end only from where control goes on. -/
theorem flowsOnward_close {loop : Option NodeId} {last : Exit} {d : Draft}
    (h : d.Admits loop last) : (close last d).FlowsOnward := by
  have hconnect := extends_connect d.toGraph last finish
  have hlt := h.framed.finish_lt
  exact (h.flows.connect h.points hlt Nat.one_ne_zero).implyAll (h.leaves.mono hconnect)
    (Nat.lt_of_lt_of_le hlt hconnect.length_le) Nat.one_ne_zero

/-! ## Globals -/

/-- The points of some globals. -/
def globalPoints (globals : List Global) : List Point := globals.map .global

theorem steps_chainGlobals (globals : List Global) (parent : Exit) (g : Graph) :
    Steps (· ∈ globalPoints globals) O g (chainGlobals globals parent g).2 := by
  induction globals generalizing parent g with
  | nil => exact .refl
  | cons v rest ih =>
      have hrest (parent : Exit) (g : Graph) := (ih parent g).mono
        (B := (· ∈ globalPoints (v :: rest))) (fun p hp => List.mem_cons_of_mem _ hp) fun _ h => h
      exact .head (.place g List.mem_cons_self) ((steps_connect _ parent _).trans (hrest _ _))

theorem extends_chainGlobals (globals : List Global) (parent : Exit) (g : Graph) :
    g.Extends (chainGlobals globals parent g).2 :=
  Steps.extends (steps_chainGlobals (O := fun _ => False) globals parent g)

/-- The globals are chained from the start, so that all of them are live. -/
theorem live_chainGlobals {parent : Exit} {g : Graph} (globals : List Global)
    (h : g.LiveExit parent) : (chainGlobals globals parent g).2.LiveExit
        (chainGlobals globals parent g).1 ∧
      ∀ v ∈ globals, ∃ n, (chainGlobals globals parent g).2.find? (Point.global v).key = some n ∧
        (chainGlobals globals parent g).2.Live n := by
  induction globals generalizing parent g with
  | nil => exact ⟨h, nofun⟩
  | cons v rest ih =>
      have hext := extends_place g (.global v)
      have hconnect := extends_connect (g.place (.global v)).2 parent (g.place (.global v)).1
      have hlive : ((g.place (.global v)).2.connect parent (g.place (.global v)).1).Live
          (g.place (.global v)).1 := live_connect (h.mono hext)
      obtain ⟨hexit, hrest⟩ := ih (liveExit_drawn hlive)
      refine ⟨hexit, List.forall_mem_cons.mpr ⟨?_, hrest⟩⟩
      have hchain := extends_chainGlobals rest (.drawn (g.place (.global v)).1)
        ((g.place (.global v)).2.connect parent (g.place (.global v)).1)
      exact ⟨_, (hconnect.trans hchain).find? (find?_place g (.global v)), hlive.mono hchain⟩

theorem admits_chainGlobals {parent : Exit} {g : Graph} (globals : List Global)
    (hframed : g.Framed) (hflows : g.FlowsOnward) (hparent : g.Holds parent.points) :
    (chainGlobals globals parent g).2.FlowsOnward ∧
      (chainGlobals globals parent g).2.Holds (chainGlobals globals parent g).1.points := by
  induction globals generalizing parent g with
  | nil => exact ⟨hflows, hparent⟩
  | cons v rest ih =>
      have hext := extends_place g (.global v)
      have hconnect := extends_connect (g.place (.global v)).2 parent (g.place (.global v)).1
      have hinner := hframed.inner_place (p := .global v) rfl
      exact ih (hframed.mono (hext.trans hconnect))
        ((hflows.place _).connect (hparent.mono hext) hinner.lt hinner.ne_start)
        (hinner.mono hconnect).holds

/-! ## Graphs of bodies -/

/-- What the graph of a body shows: exactly the points of the body and the globals, each once, and
flows from its start onward to its end. What is not behind a jump is live, and so are the
globals. -/
structure Depicts (g : Graph) (b : Block) (globals : List Global) : Prop where
  node_origin : ∀ p ∈ g.nodes, p.isMark = true ∨ p ∈ globalPoints globals ∨ p ∈ pointsOf b.stmts
  nodup_keys : (g.nodes.map Point.key).Nodup
  shows : g.ShowsAll (stmtsOf b.stmts)
  owner_origin : ∀ o ∈ g.owners, o ∈ controlsOf b.stmts
  onward : g.FlowsOnward
  finish_isEnd : g.nodes[finish]?.any Point.isEnd = true
  live : g.LiveAll (liveStmtsOf b.stmts)
  live_globals : ∀ v ∈ globals, ∃ n, g.find? (Point.global v).key = some n ∧ g.Live n

theorem Depicts.nodes_ne_nil {b : Block} {globals : List Global} (h : g.Depicts b globals) :
    g.nodes ≠ [] := by
  intro hnil
  have hfinish := h.finish_isEnd
  rw [hnil] at hfinish
  cases hfinish

theorem Depicts.inside {b : Block} {globals : List Global} (h : g.Depicts b globals) :
    g.FlowsInside :=
  h.onward.inside

/-- All steps of a graph whose body is lowered after some globals and then closed. -/
theorem steps_closed {globals : List Global} {empty g : Graph} (parent : Exit) (b : Block)
    (hsteps : Steps (· ∈ globalPoints globals) (· ∈ controlsOf b.stmts) empty g) :
    Steps (fun p => p ∈ globalPoints globals ∨ p ∈ pointsOf b.stmts) (· ∈ controlsOf b.stmts) empty
      (close (lowerSeq none b.stmts parent (.ofGraph g)).1
        (lowerSeq none b.stmts parent (.ofGraph g)).2) := by
  have hlowered := (grows_lowerSeq b.stmts none parent (.ofGraph g)).steps
  exact ((hsteps.mono (fun p hp => .inl hp) fun o ho => ho).trans
    (Steps.mono (fun p hp => .inr hp) (fun o ho => ho) hlowered)).trans (steps_close _ _)

theorem key_of_mem_shown {globals : List Global} {ss : List Stmt} {p : Point}
    (hp : p ∈ globalPoints globals ++ pointsOf ss) : ∃ id, p.key = .tree id := by
  rcases List.mem_append.mp hp with hglobal | hpoint
  · obtain ⟨v, -, rfl⟩ := List.mem_map.mp hglobal
    exact ⟨v.id, rfl⟩
  · exact key_of_mem_pointsOf hpoint

/-- Where the numbers of some globals and statements are distinct, all of them have keys of their
own. -/
theorem nodup_keys_of_ids {globals : List Global} {ss : List Stmt}
    (hids : (globals.flatMap Global.ids ++ idsOf ss).Nodup) :
    ((globalPoints globals ++ pointsOf ss).map Point.key).Nodup := by
  have hkeys : ((globalPoints globals ++ pointsOf ss).map Point.key).Sublist
      ((globals.flatMap Global.ids ++ idsOf ss).map Key.tree) := by
    rw [List.map_append, List.map_append]
    refine List.Sublist.append ?_ (pointsOf_keys_sublist _)
    rw [globalPoints, List.map_map, List.map_flatMap, List.map_eq_flatMap]
    exact List.Sublist.flatMap_right _ fun v _ => List.singleton_sublist.mpr List.mem_cons_self
  exact hkeys.nodup (hids.map fun _ _ h => Key.tree.inj h)

/-- At first, globals and statements with distinct numbers are new to a graph. -/
theorem fresh_empty_shown (m : Module) (showsGlobals : Bool) {globals : List Global}
    {ss : List Stmt} (hids : (globals.flatMap Global.ids ++ idsOf ss).Nodup) :
    (empty m showsGlobals).Fresh (globalPoints globals ++ pointsOf ss) := by
  refine ⟨counted_empty m showsGlobals, nodup_keys_of_ids hids, fun p hp => key_of_mem_shown hp,
    fun p hp => find?_eq_none.mpr fun q hq hkey => ?_⟩
  obtain ⟨-, counter, hcounter⟩ := key_of_mem_empty hq
  obtain ⟨id, hid⟩ := key_of_mem_shown hp
  rw [hcounter, hid] at hkey
  cases hkey

theorem fresh_empty (m : Module) (showsGlobals : Bool) {ss : List Stmt} (hids : (idsOf ss).Nodup) :
    (empty m showsGlobals).Fresh (pointsOf ss) :=
  @fresh_empty_shown m showsGlobals [] ss hids

section Depicted

variable {b : Block} {globals : List Global} {p : Point} {n : NodeId}

/-- Where keys are distinct, the node that is found for a global or a point of the body is its
own. -/
theorem Depicts.getElem?_of_find? (h : g.Depicts b globals)
    (hkeys : ((globalPoints globals ++ pointsOf b.stmts).map Point.key).Nodup)
    (hp : p ∈ globalPoints globals ++ pointsOf b.stmts) (hn : g.find? p.key = some n) :
    g.nodes[n]? = some p := by
  obtain ⟨q, hq, hkey⟩ := find?_some hn
  have hmem : q ∈ globalPoints globals ++ pointsOf b.stmts := by
    refine List.mem_append.mpr ((h.node_origin q (List.mem_of_getElem? hq)).resolve_left ?_)
    intro hmark
    obtain ⟨id, hid⟩ := key_of_mem_shown hp
    rw [hid] at hkey
    cases q with
    | mark kind counter => cases hkey
    | _ => cases hmark
  rw [← List.inj_on_of_nodup_map hkeys hmem hp hkey]
  exact hq

/-- Where keys are distinct, the nodes that are no marks are the globals and the points of the
body. -/
theorem Depicts.mem_nodes_iff (h : g.Depicts b globals)
    (hkeys : ((globalPoints globals ++ pointsOf b.stmts).map Point.key).Nodup)
    (hp : p.isMark = false) : p ∈ g.nodes ↔ p ∈ globalPoints globals ++ pointsOf b.stmts := by
  constructor
  · intro hnode
    refine List.mem_append.mpr ((h.node_origin p hnode).resolve_left fun hmark => ?_)
    rw [hp] at hmark
    cases hmark
  · intro hmem
    have hfound : ∃ n, g.find? p.key = some n := by
      rcases List.mem_append.mp hmem with hglobal | hpoint
      · obtain ⟨v, hv, rfl⟩ := List.mem_map.mp hglobal
        exact (h.live_globals v hv).imp fun _ hn => hn.1
      · obtain ⟨s, hs, hown⟩ := List.mem_flatMap.mp hpoint
        exact (h.shows s hs).found p hown
    obtain ⟨n, hn⟩ := hfound
    exact List.mem_of_getElem? (h.getElem?_of_find? hkeys hmem hn)

end Depicted

/-- A body is depicted wherever it is lowered after some globals and then closed. -/
theorem depicts_close {m : Module} {showsGlobals : Bool} {globals : List Global} {g : Graph}
    {parent : Exit} (b : Block)
    (hsteps : Steps (· ∈ globalPoints globals) (· ∈ controlsOf b.stmts) (empty m showsGlobals) g)
    (hflows : g.FlowsOnward) (hparent : g.Holds parent.points) (hlive : g.LiveExit parent)
    (hglobals : ∀ v ∈ globals, ∃ n, g.find? (Point.global v).key = some n ∧ g.Live n) :
    (close (lowerSeq none b.stmts parent (.ofGraph g)).1
      (lowerSeq none b.stmts parent (.ofGraph g)).2).Depicts b globals := by
  have hframed := (framed_empty m showsGlobals).mono (Steps.extends hsteps)
  have hadmits := admits_lower.2.1 b.stmts none parent (.ofGraph g)
    ⟨hframed, hflows, nofun, nofun, nofun, hparent⟩
  have hgrown := grows_lowerSeq b.stmts none parent (.ofGraph g)
  have hclose := extends_close (lowerSeq none b.stmts parent (.ofGraph g)).1
    (lowerSeq none b.stmts parent (.ofGraph g)).2
  have hall := steps_closed parent b hsteps
  refine ⟨fun p hp => ?_, Steps.nodup_keys hall (nodup_keys_empty m showsGlobals),
    (shows_lower.2.1 b.stmts none parent (.ofGraph g)).mono hclose, fun o ho => ?_,
    flowsOnward_close hadmits, ?_,
    (live_lower.2.1 b.stmts none parent (.ofGraph g) hlive).2.mono hclose, fun v hv => ?_⟩
  · rcases Steps.node_origin hall hp with hold | hnew | ⟨counter, rfl, -⟩
    · exact .inl (key_of_mem_empty hold).1
    · exact .inr hnew
    · exact .inl rfl
  · exact (Steps.owner_origin hall ho).resolve_left nofun
  · rw [hclose.getElem? hadmits.framed.getElem?_finish]
    rfl
  · obtain ⟨n, hn, hlive⟩ := hglobals v hv
    exact ⟨n, (hgrown.extends.trans hclose).find? hn, hlive.mono (hgrown.extends.trans hclose)⟩

theorem flowsOnward_empty (m : Module) (showsGlobals : Bool) :
    (empty m showsGlobals).FlowsOnward := nofun

theorem holds_start (m : Module) (showsGlobals : Bool) :
    (empty m showsGlobals).Holds (Exit.drawn start).points := by
  intro n hn
  cases List.mem_singleton.mp hn
  exact ⟨Nat.two_pos, Nat.zero_ne_one⟩

theorem liveExit_start (m : Module) (showsGlobals : Bool) :
    (empty m showsGlobals).LiveExit (.drawn start) :=
  liveExit_drawn (.inl rfl)

theorem depicts_ofBlock (m : Module) (b : Block) : (ofBlock m b).Depicts b [] :=
  depicts_close b .refl (flowsOnward_empty m false) (holds_start m false) (liveExit_start m false)
    nofun

theorem depicts_ofModule (m : Module) : (ofModule m).Depicts m.body m.globals := by
  have hadmits := admits_chainGlobals m.globals (framed_empty m true) (flowsOnward_empty m true)
    (holds_start m true)
  have hlive := live_chainGlobals m.globals (liveExit_start m true)
  exact depicts_close m.body (steps_chainGlobals m.globals (.drawn start) (empty m true)) hadmits.1
    hadmits.2 hlive.1 hlive.2

theorem steps_ofBlock (m : Module) (b : Block) :
    Steps (fun _ => True) (fun _ => True) (empty m false) (ofBlock m b) := by
  have hnone : Steps (· ∈ globalPoints []) (· ∈ controlsOf b.stmts) (empty m false)
      (empty m false) := .refl
  exact (steps_closed (.drawn start) b hnone).mono (fun _ _ => trivial) fun _ _ => trivial

theorem steps_ofModule (m : Module) :
    Steps (fun _ => True) (fun _ => True) (empty m true) (ofModule m) :=
  (steps_closed _ m.body (steps_chainGlobals m.globals (.drawn start) (empty m true))).mono
    (fun _ _ => trivial) fun _ _ => trivial

theorem ofBlock_module (m : Module) (b : Block) : (ofBlock m b).module = m :=
  (Steps.extends (steps_ofBlock m b)).module_eq

theorem ofModule_module (m : Module) : (ofModule m).module = m :=
  (Steps.extends (steps_ofModule m)).module_eq

/-- A node of a body's graph that is no mark stands for a point of the body. -/
theorem mem_pointsOf_of_ofBlock {m : Module} {b : Block} {p : Point}
    (hp : p ∈ (ofBlock m b).nodes) : p.isMark = true ∨ p ∈ pointsOf b.stmts :=
  ((depicts_ofBlock m b).node_origin p hp).imp_right fun h => h.resolve_left nofun

end Graph

/-- A graph shows the top-level code of a module, one of its functions, or one of its blocks. -/
inductive Module.Charts (m : Module) : Graph → Block → Prop where
  | module : m.Charts (.ofModule m) m.body
  | function {f : Function} : f ∈ m.functions → m.Charts (.ofFunction m f) f.body
  | block {b : Block} : b ∈ m.blocks → m.Charts (.ofBlock m b) b

/-- The graphs of a module grow from a graph with nothing but its start and its end. -/
theorem Module.Charts.exists_steps {m : Module} {g : Graph} {b : Block} (h : m.Charts g b) :
    ∃ showsGlobals,
      Graph.Steps (fun _ => True) (fun _ => True) (Graph.empty m showsGlobals) g := by
  cases h with
  | module => exact ⟨true, Graph.steps_ofModule m⟩
  | function hf => exact ⟨false, Graph.steps_ofBlock m _⟩
  | block hb => exact ⟨false, Graph.steps_ofBlock m _⟩

/-- The graphs of a module depict their bodies, whatever its numbers are. -/
theorem Module.Charts.exists_depicts {m : Module} {g : Graph} {b : Block} (h : m.Charts g b) :
    ∃ globals, g.Depicts b globals := by
  cases h with
  | module => exact ⟨m.globals, Graph.depicts_ofModule m⟩
  | function hf => exact ⟨[], Graph.depicts_ofBlock m _⟩
  | block hb => exact ⟨[], Graph.depicts_ofBlock m b⟩

end ControlFlow

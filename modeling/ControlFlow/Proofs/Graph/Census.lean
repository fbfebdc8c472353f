import ControlFlow.Proofs.Flow.Paths
import ControlFlow.Proofs.Pruning.DeadCode
import ControlFlow.Proofs.Pruning.Referents

/-! # The nodes of a graph, counted

Lowering loses no statement and takes none twice. Where all numbers are distinct, a finished graph
has a node for each point of its globals and its body, in source order and at whatever depth it
stands, and beside its start and its end one join for each place at which control meets again.
-/

namespace ControlFlow

/-! ## Where control meets again -/

/-- A statement at whose end the ways through it meet at a join: a `try`, and a loop or branch with
an `else`. -/
def Stmt.rejoins : Stmt → Bool
  | .try _ _ _ | .while _ _ _ (some _) | .if _ _ _ (some _) => true
  | _ => false

/-- The jumps of a block that something comes after in it. -/
def Block.cutJumps (b : Block) : List Stmt := b.stmts.dropLast.filter Stmt.isJump

/-- The number of places in a body at which control meets again. -/
def Block.joins (b : Block) : Nat :=
  b.allStmts.countP Stmt.rejoins + (b.blocks.flatMap Block.cutJumps).length

/-- Such places among statements and in some blocks. -/
def joinsIn (ss : List Stmt) (bs : List Block) : Nat :=
  ss.countP Stmt.rejoins + (bs.flatMap Block.cutJumps).length

/-- Such places in a statement. -/
def Stmt.joins (s : Stmt) : Nat := joinsIn (s :: s.inner) s.blocks

/-- Such places in a sequence that is a block or the end of one. -/
def joinsOf (ss : List Stmt) : Nat :=
  joinsIn (stmtsOf ss) (blocksOf ss) + (ss.dropLast.filter Stmt.isJump).length

def joinsOfCatches (cs : List Catch) : Nat := joinsIn (stmtsOfCatches cs) (blocksOfCatches cs)

theorem Block.joins_eq (b : Block) : b.joins = joinsOf b.stmts := by
  simp only [Block.joins, joinsOf, joinsIn, Block.blocks, Block.allStmts, Block.cutJumps,
    List.flatMap_cons, List.length_append]
  omega

theorem joinsIn_append (ss ts : List Stmt) (bs cs : List Block) :
    joinsIn (ss ++ ts) (bs ++ cs) = joinsIn ss bs + joinsIn ts cs := by
  simp only [joinsIn, List.countP_append, List.flatMap_append, List.length_append]
  omega

/-- The block of a statement counts as a sequence. -/
theorem joinsIn_block (id : TreeId) (ss : List Stmt) :
    joinsIn (stmtsOf ss) (⟨id, ss⟩ :: blocksOf ss) = joinsOf ss := by
  simp only [joinsOf, joinsIn, Block.cutJumps, List.flatMap_cons, List.length_append]
  omega

theorem joinsIn_cons (s : Stmt) (ss : List Stmt) (bs : List Block) :
    joinsIn (s :: ss) bs = joinsIn ss bs + if s.rejoins then 1 else 0 := by
  simp only [joinsIn, List.countP_cons]
  omega

@[simp] theorem joins_block (id bid : TreeId) (body : List Stmt) :
    (Stmt.block id ⟨bid, body⟩).joins = joinsOf body := by
  rw [Stmt.joins, joinsIn_cons]
  exact joinsIn_block bid body

@[simp] theorem joins_while (id : TreeId) (cond : Expr) (bid : TreeId) (body : List Stmt) :
    (Stmt.while id cond ⟨bid, body⟩ none).joins = joinsOf body := by
  rw [Stmt.joins, joinsIn_cons]
  exact joinsIn_block bid body

@[simp] theorem joins_while_else (id : TreeId) (cond : Expr) (bid : TreeId) (body : List Stmt)
    (eid : TreeId) (orElse : List Stmt) :
    (Stmt.while id cond ⟨bid, body⟩ (some ⟨eid, orElse⟩)).joins =
      joinsOf body + joinsOf orElse + 1 := by
  rw [Stmt.joins, joinsIn_cons, ← joinsIn_block bid, ← joinsIn_block eid, ← joinsIn_append]
  rfl

@[simp] theorem joins_for (id : TreeId) (var : LoopVar) (seq : Expr) (bid : TreeId)
    (body : List Stmt) : (Stmt.for id var seq ⟨bid, body⟩).joins = joinsOf body := by
  rw [Stmt.joins, joinsIn_cons]
  exact joinsIn_block bid body

@[simp] theorem joins_if (id : TreeId) (cond : Expr) (bid : TreeId) (body : List Stmt) :
    (Stmt.if id cond ⟨bid, body⟩ none).joins = joinsOf body := by
  rw [Stmt.joins, joinsIn_cons]
  exact joinsIn_block bid body

@[simp] theorem joins_if_else (id : TreeId) (cond : Expr) (bid : TreeId) (body : List Stmt)
    (eid : TreeId) (orElse : List Stmt) :
    (Stmt.if id cond ⟨bid, body⟩ (some ⟨eid, orElse⟩)).joins =
      joinsOf body + joinsOf orElse + 1 := by
  rw [Stmt.joins, joinsIn_cons, ← joinsIn_block bid, ← joinsIn_block eid, ← joinsIn_append]
  rfl

@[simp] theorem joins_try (id bid : TreeId) (body : List Stmt) (catches : List Catch) :
    (Stmt.try id ⟨bid, body⟩ catches).joins = joinsOf body + joinsOfCatches catches + 1 := by
  rw [Stmt.joins, joinsIn_cons, joinsOfCatches, ← joinsIn_block bid, ← joinsIn_append]
  rfl

theorem joinsOf_cons (s : Stmt) (rest : List Stmt) :
    joinsOf (s :: rest) =
      s.joins + joinsOf rest + if s.isJump && !rest.isEmpty then 1 else 0 := by
  have hcut : ((s :: rest).dropLast.filter Stmt.isJump).length =
      (rest.dropLast.filter Stmt.isJump).length +
        if s.isJump && !rest.isEmpty then 1 else 0 := by
    cases rest with
    | nil => simp
    | cons t rest =>
        by_cases hs : s.isJump = true
        · simp [hs]
        · simp [hs]
  have hparts : joinsIn (stmtsOf (s :: rest)) (blocksOf (s :: rest)) =
      s.joins + joinsIn (stmtsOf rest) (blocksOf rest) := by
    rw [Stmt.joins, ← joinsIn_append]
    rfl
  rw [joinsOf, joinsOf, hcut, hparts]
  omega

theorem joinsOfCatches_cons (id : TreeId) (param : Option DeclId) (bid : TreeId)
    (body : List Stmt) (rest : List Catch) :
    joinsOfCatches (⟨id, param, ⟨bid, body⟩⟩ :: rest) = joinsOf body + joinsOfCatches rest := by
  rw [joinsOfCatches, joinsOfCatches, ← joinsIn_block bid, ← joinsIn_append]
  rfl

namespace Graph

/-! ## What a graph gains -/

theorem draw_marks (g : Graph) (source target : NodeId) :
    (g.draw source target).marks = g.marks := by
  unfold draw
  split <;> rfl

theorem imply_marks (g : Graph) (source target : NodeId) :
    (g.imply source target).marks = g.marks := by
  unfold imply
  split <;> rfl

theorem implyAll_marks (g : Graph) (ns : List NodeId) (target : NodeId) :
    (ns.foldl (fun g n => g.imply n target) g).marks = g.marks := by
  induction ns generalizing g with
  | nil => rfl
  | cons n rest ih => rw [List.foldl_cons, ih, imply_marks]

theorem connect_marks (g : Graph) (e : Exit) (target : NodeId) :
    (g.connect e target).marks = g.marks := by
  unfold connect
  rw [implyAll_marks]
  split
  next n hn => exact draw_marks g n target
  next => rfl

theorem connectAll_marks (g : Graph) (es : List Exit) (target : NodeId) :
    (es.foldl (fun g e => g.connect e target) g).marks = g.marks := by
  induction es generalizing g with
  | nil => rfl
  | cons e rest ih => rw [List.foldl_cons, ih, connect_marks]

/-- The nodes that stand for a part of the tree. -/
def parts (g : Graph) : List Point := g.nodes.filter fun p => !p.isMark

/-- The nodes that are marks. -/
def markNodes (g : Graph) : List Point := g.nodes.filter Point.isMark

/-- A graph has got nodes for some points, in their order, and a number of joins with the next
counters. -/
structure Gains (g g' : Graph) (ps : List Point) (joins : Nat) : Prop where
  parts : g'.parts = g.parts ++ ps
  markNodes : g'.markNodes = g.markNodes ++ (List.range' g.marks joins).map (.mark .join)
  marks : g'.marks = g.marks + joins

variable {g g' g'' : Graph} {ps qs : List Point} {j k : Nat} {p : Point}

theorem Gains.trans (h : g.Gains g' ps j) (h' : g'.Gains g'' qs k) :
    g.Gains g'' (ps ++ qs) (j + k) := by
  refine ⟨?_, ?_, ?_⟩
  · rw [h'.parts, h.parts, List.append_assoc]
  · rw [h'.markNodes, h.markNodes, h.marks, List.append_assoc, ← List.map_append,
      List.range'_append_1]
  · rw [h'.marks, h.marks, Nat.add_assoc]

theorem Gains.of_eq (h : g.Gains g' ps j) (hps : ps = qs) (hjoins : j = k) :
    g.Gains g' qs k := by
  rwa [← hps, ← hjoins]

theorem gains_of_nodes (hnodes : g'.nodes = g.nodes) (hmarks : g'.marks = g.marks) :
    g.Gains g' [] 0 := by
  refine ⟨?_, ?_, hmarks⟩
  · rw [parts, hnodes, List.append_nil, parts]
  · rw [Graph.markNodes, hnodes, List.range'_zero, List.map_nil, List.append_nil, Graph.markNodes]

/-- Nothing more is gained where only flows and owners are added. -/
theorem Gains.of_nodes (h : g.Gains g' ps j) (hnodes : g''.nodes = g'.nodes)
    (hmarks : g''.marks = g'.marks) : g.Gains g'' ps j := by
  have hboth := h.trans (gains_of_nodes hnodes hmarks)
  rwa [List.append_nil] at hboth

theorem Gains.connect (h : g.Gains g' ps j) (e : Exit) (n : NodeId) :
    g.Gains (g'.connect e n) ps j :=
  h.of_nodes (connect_nodes g' e n) (connect_marks g' e n)

/-- A new point of the tree is one part more. -/
theorem Fresh.gains_place (h : g.Fresh (p :: ps)) : g.Gains (g.place p).2 [p] 0 := by
  obtain ⟨id, hid⟩ := h.trees p List.mem_cons_self
  have hmark : p.isMark = false := by
    cases p with
    | mark kind counter => cases hid
    | _ => rfl
  rw [place_of_none (h.unseen p List.mem_cons_self)]
  exact ⟨by simp [Graph.parts, hmark], by simp [Graph.markNodes, hmark], rfl⟩

/-- A new join is one mark more. -/
theorem Counted.gains_placeMark (h : g.Counted) : g.Gains (g.placeMark .join).2 [] 1 := by
  rw [h.placeMark_eq .join]
  exact ⟨by simp [Graph.parts, Point.isMark], by simp [Graph.markNodes, Point.isMark], rfl⟩

end Graph

open Draft ControlFlow.Graph

/-! ## Lowering -/

section Entering

variable {d : Draft} {p : Point} {ps : List Point}

theorem gains_enter (h : d.toGraph.Fresh (p :: ps)) (parent : Exit) :
    d.toGraph.Gains (d.enter parent p).2.toGraph [p] 0 :=
  h.gains_place.connect parent _

theorem gains_enterControl {e : Expr} (h : d.toGraph.Fresh (.expr e :: ps)) (parent : Exit)
    (s : Stmt) : d.toGraph.Gains (d.enterControl parent e s).2.toGraph [.expr e] 0 :=
  (gains_enter h parent).of_nodes rfl rfl

theorem gains_enterVar {var : LoopVar} (h : d.toGraph.Fresh (.loopVar var :: ps)) (head : NodeId)
    (s : Stmt) : d.toGraph.Gains (d.enterVar head var s).2.toGraph [.loopVar var] 0 :=
  h.gains_place.of_nodes (draw_nodes _ head _) (draw_marks _ head _)

theorem gains_join (h : d.toGraph.Counted) (es : List Exit) :
    d.toGraph.Gains (d.join es).2.toGraph [] 1 :=
  h.gains_placeMark.of_nodes (connectAll_nodes _ es _) (connectAll_marks _ es _)

theorem gains_jump {id : TreeId} {how : Jump} (h : d.toGraph.Fresh (pointsOf [.jump id how]))
    (loop : Option NodeId) (parent : Exit) :
    d.toGraph.Gains (d.jump loop parent id how).2.toGraph (pointsOf [.jump id how]) 0 := by
  cases how with
  | «return» value =>
      cases value with
      | none => exact gains_of_nodes rfl rfl
      | some e => exact gains_enter h parent
  | throw value =>
      cases value with
      | none => exact gains_of_nodes rfl rfl
      | some e => exact gains_enter h parent
  | «break» => cases loop <;> exact gains_of_nodes rfl rfl
  | «continue» =>
      cases loop with
      | none => exact gains_of_nodes rfl rfl
      | some head => exact gains_of_nodes (implyAll_nodes _ _ _) (implyAll_marks _ _ _)

end Entering

/-- What a loop body gains, the loop gains. -/
theorem gains_aroundLoop {body : List Stmt} {head n : NodeId} {d : Draft} {ps : List Point}
    {joins : Nat} (h : d.toGraph.Gains (insideLoop body head n d).2.toGraph ps joins) :
    d.toGraph.Gains (aroundLoop body head n d).toGraph ps joins :=
  h.connect _ head

/-- Lowering gains the points of what is lowered, each once and in source order, and a join for each
place at which control meets again. -/
theorem gains_lower :
    (∀ s : Stmt, ∀ loop parent (d : Draft), d.toGraph.Fresh (pointsOf [s]) →
      d.toGraph.Gains (s.lower loop parent d).2.toGraph (pointsOf [s]) s.joins) ∧
    (∀ ss, ∀ loop parent (d : Draft), d.toGraph.Fresh (pointsOf ss) →
      d.toGraph.Gains (lowerSeq loop ss parent d).2.toGraph (pointsOf ss) (joinsOf ss)) ∧
    (∀ cs, ∀ loop raised joined (d : Draft), d.toGraph.Fresh (pointsOfCatches cs) →
      d.toGraph.Gains (lowerCatches loop cs raised joined d).toGraph (pointsOfCatches cs)
        (joinsOfCatches cs)) := by
  refine tree_induction ?simple ?jump ?block ?while_ ?for_ ?if_ ?try_ ?nil ?cons ?noCatch ?catch_
  case simple => exact fun id what loop parent d hfresh => gains_enter hfresh parent
  case jump => exact fun id how loop parent d hfresh => gains_jump hfresh loop parent
  case block =>
    intro id bid body ih loop parent d hfresh
    rw [pointsOf_block] at hfresh ⊢
    rw [joins_block]
    exact ih loop parent d hfresh
  case while_ =>
    intro id cond bid body orElse ihbody ihelse loop parent d hfresh
    rw [pointsOf_while] at hfresh ⊢
    have hhead := gains_enterControl hfresh parent (.while id cond ⟨bid, body⟩ orElse)
    have hinside := hfresh.enterControl parent (.while id cond ⟨bid, body⟩ orElse)
    have hbody (head : NodeId) {d : Draft} (hfresh : d.toGraph.Fresh (pointsOf body)) :
        d.toGraph.Gains (aroundLoop body head head d).toGraph (pointsOf body) (joinsOf body) :=
      gains_aroundLoop (ihbody (some head) (.drawn head) d.openLoop hfresh)
    have hloop := hhead.trans (hbody (d.enter parent (.expr cond)).1 hinside.of_append_left)
    rcases orElse with _ | ⟨eid, orElse⟩
    · exact hloop.of_eq (by simp [pointsOf, stmtsOf]) (by simp)
    · have hfresh' := hinside.aroundLoop (d.enter parent (.expr cond)).1
        (d.enter parent (.expr cond)).1
      have hother := ihelse loop (.drawn (d.enter parent (.expr cond)).1) _ hfresh'
      have hcounted := hfresh'.counted_lowerSeq loop (.drawn (d.enter parent (.expr cond)).1)
      exact ((hloop.trans hother).trans (gains_join hcounted _)).of_eq (by simp) (by simp)
  case for_ =>
    intro id var seq bid body ih loop parent d hfresh
    rw [pointsOf_for] at hfresh ⊢
    have hhead := gains_enterControl hfresh parent (.for id var seq ⟨bid, body⟩)
    have hinside := hfresh.enterControl parent (.for id var seq ⟨bid, body⟩)
    have hvar := gains_enterVar hinside (d.enter parent (.expr seq)).1
      (.for id var seq ⟨bid, body⟩)
    have hbody {head n : NodeId} {d : Draft} (hfresh : d.toGraph.Fresh (pointsOf body)) :
        d.toGraph.Gains (aroundLoop body head n d).toGraph (pointsOf body) (joinsOf body) :=
      gains_aroundLoop (ih (some head) (.drawn n) d.openLoop hfresh)
    exact ((hhead.trans hvar).trans (hbody (hinside.enterVar _ _))).of_eq rfl (by simp)
  case if_ =>
    intro id cond bid body orElse ihbody ihelse loop parent d hfresh
    rw [pointsOf_if] at hfresh ⊢
    have htest := gains_enterControl hfresh parent (.if id cond ⟨bid, body⟩ orElse)
    have hinside := hfresh.enterControl parent (.if id cond ⟨bid, body⟩ orElse)
    have hthen := htest.trans
      (ihbody loop (.drawn (d.enter parent (.expr cond)).1) _ hinside.of_append_left)
    rcases orElse with _ | ⟨eid, orElse⟩
    · exact hthen.of_eq (by simp [pointsOf, stmtsOf]) (by simp)
    · have hfresh' := hinside.lowerSeq loop (.drawn (d.enter parent (.expr cond)).1)
      have hother := ihelse loop (.drawn (d.enter parent (.expr cond)).1) _ hfresh'
      have hcounted := hfresh'.counted_lowerSeq loop (.drawn (d.enter parent (.expr cond)).1)
      exact ((hthen.trans hother).trans (gains_join hcounted _)).of_eq (by simp) (by simp)
  case try_ =>
    intro id bid body catches ihbody ihcatches loop parent d hfresh
    rw [pointsOf_try] at hfresh ⊢
    have hbody := ihbody loop parent d hfresh.of_append_left
    have hcounted := hfresh.of_append_left.counted_lowerSeq loop parent
    have hjoin := gains_join hcounted [(lowerSeq loop body parent d).1]
    have hfresh' := (hfresh.lowerSeq loop parent).steps (grows_join (O := fun _ => True) _
      [(lowerSeq loop body parent d).1]).steps
    have hall := (hbody.trans hjoin).trans (ihcatches loop
      ⟨parent.node, parent.implicit ++ (lowerSeq loop body parent d).2.nodesSince d⟩
      ((lowerSeq loop body parent d).2.join [(lowerSeq loop body parent d).1]).1 _ hfresh')
    exact hall.of_eq (by simp) (by simp [Nat.add_right_comm])
  case nil => exact fun loop parent d _ => gains_of_nodes rfl rfl
  case cons =>
    intro s rest ihs ihrest loop parent d hfresh
    rw [pointsOf_cons] at hfresh ⊢
    have hfirst := ihs loop parent d hfresh.of_append_left
    have hrest : (s.lower loop parent d).2.toGraph.Fresh (pointsOf rest) := by
      rw [← lowerSeq_single]
      exact hfresh.lowerSeq loop parent
    rw [joinsOf_cons]
    unfold lowerSeq
    dsimp only
    split
    next hjump =>
      -- The chain behind the jump meets it at one more join.
      have hcounted := hrest.counted_lowerSeq loop .nowhere
      have hboth := hfirst.trans (ihrest loop .nowhere _ hrest)
      exact (hboth.trans (gains_join hcounted _)).of_eq (List.append_nil _) rfl
    next hjump => exact hfirst.trans (ihrest loop _ _ hrest)
  case noCatch => exact fun loop raised joined d _ => gains_of_nodes rfl rfl
  case catch_ =>
    intro id param bid body rest ihbody ihrest loop raised joined d hfresh
    rw [pointsOfCatches_cons] at hfresh ⊢
    rw [joinsOfCatches_cons]
    have hfresh' := (hfresh.lowerSeq loop raised).steps
      (grows_returnTo (O := fun _ => True) _ (lowerSeq loop body raised d).1 joined).steps
    exact ((ihbody loop raised d hfresh.of_append_left).connect _ joined).trans
      (ihrest loop raised joined _ hfresh')

/-! ## Finished graphs -/

namespace Graph

variable {g : Graph} {m : Module} {b : Block}

theorem Fresh.gains_chainGlobals {globals : List Global} {ps : List Point}
    (h : g.Fresh (globalPoints globals ++ ps)) (parent : Exit) :
    g.Gains (chainGlobals globals parent g).2 (globalPoints globals) 0 := by
  induction globals generalizing g parent with
  | nil => exact gains_of_nodes rfl rfl
  | cons v rest ih =>
      have hplace := h.gains_place.connect parent (g.place (.global v)).1
      have hsteps : Steps (· ∈ [.global v]) (fun _ => True) g
          ((g.place (.global v)).2.connect parent (g.place (.global v)).1) :=
        .head (.place g (List.mem_singleton_self _)) (steps_connect _ parent _)
      have hrest := Fresh.after (show g.Fresh ([.global v] ++ _) from h) hsteps
      exact hplace.trans (ih hrest (.drawn (g.place (.global v)).1))

theorem gains_close (h : g.Fresh (pointsOf b.stmts)) (parent : Exit) :
    g.Gains (close (lowerSeq none b.stmts parent (.ofGraph g)).1
      (lowerSeq none b.stmts parent (.ofGraph g)).2) (pointsOf b.stmts) b.joins := by
  have hlower := gains_lower.2.1 b.stmts none parent (.ofGraph g) h
  have hlast := hlower.connect (lowerSeq none b.stmts parent (.ofGraph g)).1 finish
  exact (hlast.of_nodes (implyAll_nodes _ _ _) (implyAll_marks _ _ _)).of_eq rfl b.joins_eq.symm

theorem gains_ofBlock (hids : (idsOf b.stmts).Nodup) :
    (empty m false).Gains (ofBlock m b) (pointsOf b.stmts) b.joins :=
  gains_close (fresh_empty m false hids) (.drawn start)

theorem gains_ofModule (hids : (m.globals.flatMap Global.ids ++ idsOf m.body.stmts).Nodup) :
    (empty m true).Gains (ofModule m) (globalPoints m.globals ++ pointsOf m.body.stmts)
      m.body.joins := by
  have hglobals := (fresh_empty_shown m true hids).gains_chainGlobals (.drawn start)
  exact (hglobals.trans (gains_close (fresh_chainGlobals hids) _)).of_eq rfl (Nat.zero_add _)

end Graph

namespace Module

variable {m : Module} {g : Graph} {b : Block}

theorem Charts.gains (hids : m.ids.Nodup) (h : m.Charts g b) : ∃ showsGlobals,
    (empty m showsGlobals).Gains g (globalPoints g.shownGlobals ++ pointsOf b.stmts) b.joins := by
  have hnodup := h.nodup_ids hids
  have hblock {b : Block} (hids : (idsOf b.stmts).Nodup) : (empty m false).Gains (ofBlock m b)
      (globalPoints (ofBlock m b).shownGlobals ++ pointsOf b.stmts) b.joins := by
    rw [show (ofBlock m b).shownGlobals = [] from shownGlobals_graphWith m (some "") b]
    exact gains_ofBlock hids
  cases h with
  | module =>
      rw [show (ofModule m).shownGlobals = m.globals from
        shownGlobals_graphWith m none m.body] at hnodup ⊢
      exact ⟨true, gains_ofModule hnodup⟩
  | function hf => exact ⟨false, hblock hnodup.of_append_right⟩
  | block hb => exact ⟨false, hblock hnodup.of_append_right⟩

/-- Lowering loses nothing and takes nothing twice. In a graph of a module with distinct numbers,
the nodes that stand for a part of the tree are the globals that the graph shows and then, in
source order, the points of all statements of the body, at any depth and behind jumps as well:
each simple statement and each jump with a value, the condition of each loop or branch, the
sequence and the variable of each `for`. No two nodes have one key. The other nodes are the start,
the end, and one join for each `try`, for each loop or branch with an `else` and for each jump that
is not last in its block. The owner of each point is the statement that shows it. -/
theorem nodes_of_charts (hids : m.ids.Nodup) (h : m.Charts g b) :
    g.nodes.filter (fun p => !p.isMark) =
      g.shownGlobals.map .global ++ b.allStmts.flatMap Stmt.ownPoints ∧
    (g.nodes.map Point.key).Nodup ∧
    g.nodes.filter Point.isMark = .mark .start 0 :: .mark .finish 1 ::
      (List.range' 2 (b.allStmts.countP Stmt.rejoins +
        (b.blocks.flatMap Block.cutJumps).length)).map (.mark .join) ∧
    ∀ s ∈ b.allStmts, ∀ p ∈ s.ownPoints, g.owner? p = some s := by
  obtain ⟨showsGlobals, hgains⟩ := h.gains hids
  exact ⟨hgains.parts, h.depicts_shown.nodup_keys, hgains.markNodes,
    fun s hs p hp => h.depicts_shown.owner?_of_mem_ownPoints (h.nodup_ids hids) hs hp⟩

/-- A global; a `try` whose body goes on behind a jump, and whose catch has a loop; and a branch
with an `else`. -/
def surveyed : Module :=
  let loop := .for 9 ⟨10, 1, "v", .int⟩ (.literal 11 (.int 1)) ⟨12, [.jump 13 .continue]⟩
  let risky := .try 3 ⟨4, [.jump 5 (.return none), .simple 6 .yield]⟩ [⟨7, none, ⟨8, [loop]⟩⟩]
  let branch := .if 14 (.literal 15 (.bool true)) ⟨16, [.jump 17 .break]⟩ (some ⟨18, []⟩)
  ⟨"surveyed", [], [⟨1, 0, "g", .int, none⟩], ⟨2, [risky, branch]⟩, []⟩

/-- Five parts of the module have nodes, and three joins are beside the start and the end. -/
theorem nodes_of_charts_surveyed : surveyed.ids.Nodup ∧
    surveyed.Charts (.ofModule surveyed) surveyed.body ∧
    ((ofModule surveyed).nodes.filter fun p => !p.isMark) =
      [.global ⟨1, 0, "g", .int, none⟩, .stmt (.simple 6 .yield), .expr (.literal 11 (.int 1)),
        .loopVar ⟨10, 1, "v", .int⟩, .expr (.literal 15 (.bool true))] ∧
    (ofModule surveyed).nodes.filter Point.isMark =
      [.mark .start 0, .mark .finish 1, .mark .join 2, .mark .join 3, .mark .join 4] := by
  have hids : surveyed.ids.Nodup := by decide
  have hcharts : surveyed.Charts (.ofModule surveyed) surveyed.body := .module
  obtain ⟨hparts, -, hmarks, -⟩ := nodes_of_charts hids hcharts
  exact ⟨hids, hcharts, hparts, hmarks⟩

end Module

end ControlFlow

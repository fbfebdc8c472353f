import ControlFlow.Proofs.Analysis.Renumbered
import ControlFlow.Proofs.Flow.Coverage
import Mathlib.Data.List.Forall2

/-! # Graphs that match

Two trees may be lowered to the same nodes and flows, although the statements that own the control
expressions differ. From drafts that match, lists of statements are lowered to drafts that match if
their statements are; and whatever is found out about a graph, but for the owners, is the same for
one that matches it.
-/

namespace ControlFlow

open Draft

section Matching

variable {R : Stmt → Stmt → Prop}

/-- Two graphs have the same nodes and flows, in modules with the same declarations, and the owners
of their control expressions correspond. -/
structure Graph.Matches (R : Stmt → Stmt → Prop) (g g' : Graph) : Prop where
  decls : g'.module.decls = g.module.decls
  showsGlobals : g'.showsGlobals = g.showsGlobals
  nodes : g'.nodes = g.nodes
  edges : g'.edges = g.edges
  implicit : g'.implicit = g.implicit
  owners : List.Forall₂ (fun o o' => o'.1 = o.1 ∧ R o.2 o'.2) g.owners g'.owners
  marks : g'.marks = g.marks

namespace Graph.Matches

variable {g g' : Graph}

theorem place (h : g.Matches R g') (p : Point) :
    (g'.place p).1 = (g.place p).1 ∧ (g.place p).2.Matches R (g'.place p).2 := by
  have hfind : g'.find? p.key = g.find? p.key := by rw [find?, find?, h.nodes]
  cases hcase : g.find? p.key with
  | some n =>
      rw [place_of_some hcase, place_of_some (hfind.trans hcase)]
      exact ⟨rfl, h⟩
  | none =>
      rw [place_of_none hcase, place_of_none (hfind.trans hcase)]
      exact ⟨by rw [h.nodes], { h with nodes := by rw [h.nodes] }⟩

theorem placeMark (h : g.Matches R g') (kind : Mark) :
    (g'.placeMark kind).1 = (g.placeMark kind).1 ∧
      (g.placeMark kind).2.Matches R (g'.placeMark kind).2 := by
  have hcounted : ({ g with marks := g.marks + 1 } : Graph).Matches R
      { g' with marks := g.marks + 1 } :=
    { h with marks := rfl }
  unfold Graph.placeMark
  rw [h.marks]
  exact hcounted.place _

theorem draw (h : g.Matches R g') (source target : NodeId) :
    (g.draw source target).Matches R (g'.draw source target) := by
  unfold Graph.draw
  rw [h.edges]
  split
  · exact h
  · exact { h with edges := rfl }

theorem imply (h : g.Matches R g') (source target : NodeId) :
    (g.imply source target).Matches R (g'.imply source target) := by
  unfold Graph.imply
  rw [h.edges, h.implicit]
  split
  · exact h
  · exact { h with edges := rfl, implicit := rfl }

theorem implyAll (h : g.Matches R g') (ns : List NodeId) (target : NodeId) :
    (ns.foldl (fun g n => g.imply n target) g).Matches R
      (ns.foldl (fun g n => g.imply n target) g') := by
  induction ns generalizing g g' with
  | nil => exact h
  | cons n rest ih => exact ih (h.imply n target)

theorem connect (h : g.Matches R g') (e : Exit) (target : NodeId) :
    (g.connect e target).Matches R (g'.connect e target) := by
  unfold Graph.connect
  cases e.node with
  | some n => exact (h.draw n target).implyAll _ _
  | none => exact h.implyAll _ _

theorem connectAll (h : g.Matches R g') (es : List Exit) (target : NodeId) :
    (es.foldl (fun g e => g.connect e target) g).Matches R
      (es.foldl (fun g e => g.connect e target) g') := by
  induction es generalizing g g' with
  | nil => exact h
  | cons e rest ih => exact ih (h.connect e target)

theorem own (h : g.Matches R g') (id : TreeId) {s s' : Stmt} (hs : R s s') :
    ({ g with owners := (id, s) :: g.owners } : Graph).Matches R
      { g' with owners := (id, s') :: g'.owners } :=
  { h with owners := .cons ⟨rfl, hs⟩ h.owners }

end Graph.Matches

/-- Two drafts of graphs that match, with the same jumps collected. -/
structure Draft.Matches (R : Stmt → Stmt → Prop) (d d' : Draft) : Prop where
  graph : d.toGraph.Matches R d'.toGraph
  breaks : d'.breaks = d.breaks
  leaves : d'.leaves = d.leaves

/-- The same place was reached in two drafts that match. -/
inductive Draft.Coincide {α : Type} (R : Stmt → Stmt → Prop) : α × Draft → α × Draft → Prop where
  | reached (place : α) {d d' : Draft} : d.Matches R d' → Coincide R (place, d) (place, d')

/-- What is true of every place in two drafts that match is true of the place that was reached. -/
@[elab_as_elim]
theorem Draft.Coincide.elim {α : Type} {reached reached' : α × Draft}
    {motive : α × Draft → α × Draft → Prop} (h : Draft.Coincide R reached reached')
    (next : ∀ (place : α) (d d' : Draft), d.Matches R d' → motive (place, d) (place, d')) :
    motive reached reached' := by
  obtain ⟨place, hmatches⟩ := h
  exact next place _ _ hmatches

/-- The exit at the node that was reached. -/
theorem Draft.Coincide.drawn {reached reached' : NodeId × Draft}
    (h : Draft.Coincide R reached reached') :
    Draft.Coincide R (Exit.drawn reached.1, reached.2) (Exit.drawn reached'.1, reached'.2) := by
  obtain ⟨n, hmatches⟩ := h
  exact .reached _ hmatches

namespace Draft.Matches

variable {d d' : Draft}

theorem enter (h : d.Matches R d') (parent : Exit) (p : Point) :
    Coincide R (d.enter parent p) (d'.enter parent p) := by
  obtain ⟨hplaced, hgraph⟩ := h.graph.place p
  simp only [Draft.enter, hplaced]
  exact .reached _ ⟨hgraph.connect parent _, h.breaks, h.leaves⟩

theorem own (h : d.Matches R d') (id : TreeId) {s s' : Stmt} (hs : R s s') :
    ({ d with owners := (id, s) :: d.owners } : Draft).Matches R
      { d' with owners := (id, s') :: d'.owners } :=
  ⟨h.graph.own id hs, h.breaks, h.leaves⟩

theorem enterControl (h : d.Matches R d') (parent : Exit) (e : Expr) {s s' : Stmt} (hs : R s s') :
    Coincide R (d.enterControl parent e s) (d'.enterControl parent e s') := by
  unfold Draft.enterControl
  refine (h.enter parent (.expr e)).elim fun n d d' hentered => ?_
  exact .reached n (hentered.own e.id hs)

theorem enterVar (h : d.Matches R d') (head : NodeId) (var : LoopVar) {s s' : Stmt} (hs : R s s') :
    Coincide R (d.enterVar head var s) (d'.enterVar head var s') := by
  obtain ⟨hplaced, hgraph⟩ := h.graph.place (.loopVar var)
  simp only [Draft.enterVar, hplaced]
  have hdrawn := hgraph.draw head (d.place (.loopVar var)).1
  exact .reached _ ⟨{ hdrawn with owners := .cons ⟨rfl, hs⟩ hgraph.owners }, h.breaks, h.leaves⟩

theorem join (h : d.Matches R d') (es : List Exit) : Coincide R (d.join es) (d'.join es) := by
  obtain ⟨hplaced, hgraph⟩ := h.graph.placeMark .join
  simp only [Draft.join, hplaced]
  exact .reached _ ⟨hgraph.connectAll es _, h.breaks, h.leaves⟩

theorem returnTo (h : d.Matches R d') (e : Exit) (n : NodeId) :
    (d.returnTo e n).Matches R (d'.returnTo e n) :=
  ⟨h.graph.connect e n, h.breaks, h.leaves⟩

theorem openLoop (h : d.Matches R d') : d.openLoop.Matches R d'.openLoop :=
  ⟨h.graph, rfl, h.leaves⟩

theorem closeLoop (h : d.Matches R d') {outer outer' : Draft} (houter : outer.Matches R outer') :
    (d.closeLoop outer).Matches R (d'.closeLoop outer') :=
  ⟨h.graph, houter.breaks, h.leaves⟩

theorem nodesSince_eq (h : d.Matches R d') {earlier earlier' : Draft}
    (hearlier : earlier.Matches R earlier') : d'.nodesSince earlier' = d.nodesSince earlier := by
  rw [nodesSince, nodesSince, h.graph.nodes, hearlier.graph.nodes]

theorem leave (h : d.Matches R d') (ns : List NodeId) :
    ({ d with leaves := d.leaves ++ ns } : Draft).Matches R
      { d' with leaves := d'.leaves ++ ns } :=
  ⟨h.graph, h.breaks, congrArg (· ++ ns) h.leaves⟩

theorem jump (h : d.Matches R d') (loop : Option NodeId) (parent : Exit) (id : TreeId)
    (how : Jump) : Coincide R (d.jump loop parent id how) (d'.jump loop parent id how) := by
  unfold Draft.jump
  refine (h.enter parent (.stmt (.jump id how))).elim fun n entered entered' hentered => ?_
  split
  next => exact .reached parent (h.leave parent.points)
  next => exact .reached parent (h.leave parent.points)
  next => exact .reached (Exit.drawn n) (hentered.leave [n])
  next => exact .reached (Exit.drawn n) (hentered.leave [n])
  next => exact .reached parent ⟨h.graph, congrArg (· ++ parent.points) h.breaks, h.leaves⟩
  next head => exact .reached parent ⟨h.graph.implyAll _ head, h.breaks, h.leaves⟩
  next => exact .reached parent h
  next => exact .reached parent h

end Draft.Matches

/-! ## Lists that lower alike -/

/-- From drafts that match, two statements are lowered to drafts that match, with one exit. -/
def Stmt.LowersLike (R : Stmt → Stmt → Prop) (s s' : Stmt) : Prop :=
  ∀ loop parent d d', Draft.Matches R d d' →
    Coincide R (s.lower loop parent d) (s'.lower loop parent d')

/-- And so are two lists of statements. -/
def LowerLike (R : Stmt → Stmt → Prop) (ss ss' : List Stmt) : Prop :=
  ∀ loop parent d d', Draft.Matches R d d' →
    Coincide R (lowerSeq loop ss parent d) (lowerSeq loop ss' parent d')

/-- And two lists of catches. -/
def HandleLike (R : Stmt → Stmt → Prop) (cs cs' : List Catch) : Prop :=
  ∀ loop raised joined d d', Draft.Matches R d d' →
    (lowerCatches loop cs raised joined d).Matches R (lowerCatches loop cs' raised joined d')

section Statements

variable {id bid eid : TreeId} {body body' other other' : List Stmt} {catches catches' : List Catch}

/-- A loop body goes back to the head of the loop. -/
theorem Draft.Matches.aroundLoop {d d' : Draft} (h : d.Matches R d')
    (hbody : LowerLike R body body') (head n : NodeId) :
    (aroundLoop body head n d).Matches R (aroundLoop body' head n d') ∧
      (insideLoop body' head n d').2.breaks = (insideLoop body head n d).2.breaks := by
  unfold ControlFlow.aroundLoop insideLoop
  refine (hbody (some head) (.drawn n) _ _ h.openLoop).elim fun exit inside inside' hinside => ?_
  exact ⟨(hinside.returnTo exit head).closeLoop h, hinside.breaks⟩

theorem lower_while (cond : Expr) (loop : Option NodeId) (parent : Exit) (d : Draft) :
    (Stmt.while id cond ⟨bid, body⟩ none).lower loop parent d =
      let head := d.enterControl parent cond (.while id cond ⟨bid, body⟩ none)
      (⟨some head.1, (insideLoop body head.1 head.1 head.2).2.breaks⟩,
        aroundLoop body head.1 head.1 head.2) :=
  rfl

theorem lowersLike_while (cond : Expr) (hbody : LowerLike R body body')
    (hs : R (.while id cond ⟨bid, body⟩ none) (.while id cond ⟨bid, body'⟩ none)) :
    Stmt.LowersLike R (.while id cond ⟨bid, body⟩ none) (.while id cond ⟨bid, body'⟩ none) := by
  intro loop parent d d' h
  rw [lower_while, lower_while]
  refine (h.enterControl parent cond hs).elim fun n d d' hentered => ?_
  obtain ⟨haround, hbreaks⟩ := hentered.aroundLoop hbody n n
  dsimp only
  rw [hbreaks]
  exact .reached _ haround

theorem lower_while_else (cond : Expr) (loop : Option NodeId) (parent : Exit) (d : Draft) :
    (Stmt.while id cond ⟨bid, body⟩ (some ⟨eid, other⟩)).lower loop parent d =
      let head := d.enterControl parent cond (.while id cond ⟨bid, body⟩ (some ⟨eid, other⟩))
      let left := lowerSeq loop other (.drawn head.1) (aroundLoop body head.1 head.1 head.2)
      let joined := left.2.join [left.1, .drawn head.1]
      (⟨some joined.1, (insideLoop body head.1 head.1 head.2).2.breaks⟩, joined.2) :=
  rfl

theorem lowersLike_while_else (cond : Expr) (hbody : LowerLike R body body')
    (hother : LowerLike R other other')
    (hs : R (.while id cond ⟨bid, body⟩ (some ⟨eid, other⟩))
      (.while id cond ⟨bid, body'⟩ (some ⟨eid, other'⟩))) :
    Stmt.LowersLike R (.while id cond ⟨bid, body⟩ (some ⟨eid, other⟩))
      (.while id cond ⟨bid, body'⟩ (some ⟨eid, other'⟩)) := by
  intro loop parent d d' h
  rw [lower_while_else, lower_while_else]
  refine (h.enterControl parent cond hs).elim fun n d d' hentered => ?_
  obtain ⟨haround, hbreaks⟩ := hentered.aroundLoop hbody n n
  dsimp only
  rw [hbreaks]
  refine (hother loop (.drawn n) _ _ haround).elim fun exit left left' hleft => ?_
  dsimp only
  refine (hleft.join [exit, .drawn n]).elim fun m joined joined' hjoined => ?_
  exact .reached _ hjoined

theorem lower_for (var : LoopVar) (seq : Expr) (loop : Option NodeId) (parent : Exit) (d : Draft) :
    (Stmt.for id var seq ⟨bid, body⟩).lower loop parent d =
      let head := d.enterControl parent seq (.for id var seq ⟨bid, body⟩)
      let bound := head.2.enterVar head.1 var (.for id var seq ⟨bid, body⟩)
      (⟨some head.1, (insideLoop body head.1 bound.1 bound.2).2.breaks⟩,
        aroundLoop body head.1 bound.1 bound.2) :=
  rfl

theorem lowersLike_for (var : LoopVar) (seq : Expr) (hbody : LowerLike R body body')
    (hs : R (.for id var seq ⟨bid, body⟩) (.for id var seq ⟨bid, body'⟩)) :
    Stmt.LowersLike R (.for id var seq ⟨bid, body⟩) (.for id var seq ⟨bid, body'⟩) := by
  intro loop parent d d' h
  rw [lower_for, lower_for]
  refine (h.enterControl parent seq hs).elim fun n d d' hentered => ?_
  dsimp only
  refine (hentered.enterVar n var hs).elim fun m d d' hbound => ?_
  obtain ⟨haround, hbreaks⟩ := hbound.aroundLoop hbody n m
  dsimp only
  rw [hbreaks]
  exact .reached _ haround

theorem lowersLike_if (cond : Expr) (hbody : LowerLike R body body')
    (hs : R (.if id cond ⟨bid, body⟩ none) (.if id cond ⟨bid, body'⟩ none)) :
    Stmt.LowersLike R (.if id cond ⟨bid, body⟩ none) (.if id cond ⟨bid, body'⟩ none) := by
  intro loop parent d d' h
  unfold Stmt.lower
  refine (h.enterControl parent cond hs).elim fun n d d' hentered => ?_
  dsimp only
  refine (hbody loop (.drawn n) d d' hentered).elim fun exit inside inside' hinside => ?_
  exact .reached _ hinside

theorem lowersLike_if_else (cond : Expr) (hbody : LowerLike R body body')
    (hother : LowerLike R other other')
    (hs : R (.if id cond ⟨bid, body⟩ (some ⟨eid, other⟩))
      (.if id cond ⟨bid, body'⟩ (some ⟨eid, other'⟩))) :
    Stmt.LowersLike R (.if id cond ⟨bid, body⟩ (some ⟨eid, other⟩))
      (.if id cond ⟨bid, body'⟩ (some ⟨eid, other'⟩)) := by
  intro loop parent d d' h
  unfold Stmt.lower
  refine (h.enterControl parent cond hs).elim fun n d d' hentered => ?_
  dsimp only
  refine (hbody loop (.drawn n) d d' hentered).elim fun live inside inside' hinside => ?_
  dsimp only
  refine (hother loop (.drawn n) _ _ hinside).elim fun exit left left' hleft => ?_
  exact (hleft.join [exit, live]).drawn

theorem lowersLike_try (hbody : LowerLike R body body') (hcatches : HandleLike R catches catches') :
    Stmt.LowersLike R (.try id ⟨bid, body⟩ catches) (.try id ⟨bid, body'⟩ catches') := by
  intro loop parent d d' h
  unfold Stmt.lower
  refine (hbody loop parent d d' h).elim fun exit inside inside' hinside => ?_
  dsimp only
  rw [hinside.nodesSince_eq h]
  refine (hinside.join [exit]).elim fun n joined joined' hjoined => ?_
  exact .reached _ (hcatches loop _ n _ _ hjoined)

theorem handleLike_cons {cid : TreeId} {param : Option DeclId} (hbody : LowerLike R body body')
    (hcatches : HandleLike R catches catches') :
    HandleLike R (⟨cid, param, ⟨bid, body⟩⟩ :: catches)
      (⟨cid, param, ⟨bid, body'⟩⟩ :: catches') := by
  intro loop raised joined d d' h
  unfold lowerCatches
  refine (hbody loop raised d d' h).elim fun exit handled handled' hhandled => ?_
  exact hcatches loop raised joined _ _ (hhandled.returnTo exit joined)

theorem lowerLike_cons {s s' : Stmt} {rest rest' : List Stmt} (hs : s.LowersLike R s')
    (hjump : s'.isJump = s.isJump) (hrest : LowerLike R rest rest')
    (hempty : s.isJump = true → rest'.isEmpty = rest.isEmpty) :
    LowerLike R (s :: rest) (s' :: rest') := by
  intro loop parent d d' h
  have hcut : (s'.isJump && !rest'.isEmpty) = (s.isJump && !rest.isEmpty) := by
    rw [hjump]
    cases hcase : s.isJump with
    | true => rw [hempty hcase]
    | false => rfl
  unfold lowerSeq
  rw [hcut]
  refine (hs loop parent d d' h).elim fun exit live live' hlive => ?_
  dsimp only
  split
  · refine (hrest loop .nowhere live live' hlive).elim fun exit' tail tail' htail => ?_
    exact (htail.join [exit, exit']).drawn
  · exact hrest loop exit live live' hlive

end Statements

/-- A tree is lowered alike from drafts that match. -/
theorem lowersLike_self (hR : ∀ s, R s s) :
    (∀ s : Stmt, s.LowersLike R s) ∧ (∀ ss, LowerLike R ss ss) ∧ ∀ cs, HandleLike R cs cs := by
  refine tree_induction ?simple ?jump ?block ?while_ ?for_ ?if_ ?try_ ?nil ?cons ?noCatch ?catch_
  case simple =>
    intro id what loop parent d d' h
    exact (h.enter parent (.stmt (.simple id what))).drawn
  case jump => exact fun id how loop parent d d' h => h.jump loop parent id how
  case block => exact fun id bid body ih => ih
  case while_ =>
    intro id cond bid body orElse ihbody ihelse
    rcases orElse with _ | ⟨eid, orElse⟩
    · exact lowersLike_while cond ihbody (hR _)
    · exact lowersLike_while_else cond ihbody ihelse (hR _)
  case for_ => exact fun id var seq bid body ih => lowersLike_for var seq ih (hR _)
  case if_ =>
    intro id cond bid body orElse ihbody ihelse
    rcases orElse with _ | ⟨eid, orElse⟩
    · exact lowersLike_if cond ihbody (hR _)
    · exact lowersLike_if_else cond ihbody ihelse (hR _)
  case try_ => exact fun id bid body catches ihbody ihcatches => lowersLike_try ihbody ihcatches
  case nil => exact fun loop parent d d' h => .reached parent h
  case cons => exact fun s rest ihs ihrest => lowerLike_cons ihs rfl ihrest fun _ => rfl
  case noCatch => exact fun loop raised joined d d' h => h
  case catch_ => exact fun id param bid body rest ihbody ihrest => handleLike_cons ihbody ihrest

theorem Point.renumber_self (p : Point) : p.renumber (fun n => n) = p := by
  cases p with
  | stmt s => simp [Point.renumber, renumberSeq_self.1]
  | global v => simp [Point.renumber, Global.renumber, optional_renumber_self]
  | _ => simp [Point.renumber, LoopVar.renumber]

/-! ## Finished graphs -/

namespace Graph

variable {g g' : Graph} {m m' : Module}

theorem Matches.close {last last' : Exit × Draft} (h : Coincide R last last') :
    (close last.1 last.2).Matches R (close last'.1 last'.2) := by
  obtain ⟨exit, hmatches⟩ := h
  unfold Graph.close
  rw [hmatches.leaves]
  exact (hmatches.graph.connect exit finish).implyAll _ finish

theorem Matches.chainGlobals (h : g.Matches R g') (globals : List Global) (parent : Exit) :
    (chainGlobals globals parent g').1 = (chainGlobals globals parent g).1 ∧
      (chainGlobals globals parent g).2.Matches R (chainGlobals globals parent g').2 := by
  induction globals generalizing parent g g' with
  | nil => exact ⟨rfl, h⟩
  | cons v rest ih =>
      obtain ⟨hplaced, hgraph⟩ := h.place (.global v)
      simp only [Graph.chainGlobals, hplaced]
      exact ih (hgraph.connect parent _) (.drawn (g.place (.global v)).1)

theorem matches_empty (hdecls : m'.decls = m.decls) (showsGlobals : Bool) :
    (empty m showsGlobals).Matches R (empty m' showsGlobals) :=
  ⟨hdecls, rfl, rfl, rfl, rfl, .nil, rfl⟩

theorem Matches.ofGraph (h : g.Matches R g') : (ofGraph g).Matches R (ofGraph g') :=
  ⟨h, rfl, rfl⟩

theorem matches_ofBlock {b b' : Block} (hdecls : m'.decls = m.decls)
    (h : LowerLike R b.stmts b'.stmts) : (ofBlock m b).Matches R (ofBlock m' b') :=
  Matches.close (h none (.drawn start) _ _ (matches_empty hdecls false).ofGraph)

theorem matches_ofModule (hdecls : m'.decls = m.decls) (hglobals : m'.globals = m.globals)
    (h : LowerLike R m.body.stmts m'.body.stmts) : (ofModule m).Matches R (ofModule m') := by
  obtain ⟨hexit, hgraph⟩ :=
    (matches_empty (R := R) hdecls true).chainGlobals m.globals (.drawn start)
  simp only [ofModule, hglobals, hexit]
  exact Matches.close (h none _ _ _ hgraph.ofGraph)

/-! ## Questions -/

theorem Matches.sites_eq (h : g.Matches R g') : g'.sites = g.sites := by
  rw [sites, sites, h.nodes]

/-- Where corresponding statements have one number, nodes belong to statements of one number. -/
theorem Matches.owner_eq (h : g.Matches R g') (hR : ∀ s s', R s s' → s'.id = s.id) (p : Point) :
    (g'.owner? p).map Stmt.id = (g.owner? p).map Stmt.id := by
  have hfind {os os' : List (TreeId × Stmt)} (id : TreeId)
      (hos : List.Forall₂ (fun o o' => o'.1 = o.1 ∧ R o.2 o'.2) os os') :
      ((os'.find? fun o => o.1 = id).map Prod.snd).map Stmt.id =
        ((os.find? fun o => o.1 = id).map Prod.snd).map Stmt.id := by
    induction hos with
    | nil => rfl
    | @cons o o' rest rest' ho _ ih =>
        rw [List.find?_cons, List.find?_cons, ho.1]
        split
        · exact congrArg some (hR _ _ ho.2)
        · exact ih
  cases p with
  | expr e => exact hfind e.id h.owners
  | loopVar var => exact hfind var.id h.owners
  | _ => rfl

/-- The same graph with other owners of its control expressions. -/
def reown (g : Graph) (owners : List (TreeId × Stmt)) : Graph := { g with owners := owners }

theorem effects_reown (g : Graph) (owners : List (TreeId × Stmt)) :
    (g.reown owners).effects = g.effects :=
  rfl

theorem Matches.eq_reown (h : g.Matches R g') :
    g' = (g.recast g'.module fun n => n).reown g'.owners := by
  have hnodes : g.nodes.map (Point.renumber fun n => n) = g.nodes :=
    (List.map_congr_left fun p _ => p.renumber_self).trans (List.map_id _)
  obtain ⟨m, showsGlobals, nodes, edges, implicit, owners, marks⟩ := g
  obtain ⟨-, rfl, rfl, rfl, rfl, -, rfl⟩ := h
  rw [reown, recast, hnodes]

end Graph

namespace Analysis

/-- The same analysis of a graph with other owners. -/
def reown (a : Analysis) (owners : List (TreeId × Stmt)) : Analysis :=
  { a with graph := a.graph.reown owners }

variable {a : Analysis} {owners : List (TreeId × Stmt)}

theorem classify_reown :
    (a.reown owners).classify = a.classify.map fun classified => classified.reown owners := by
  unfold classify
  rw [reown, Graph.effects_reown]
  cases a.graph.effects <;> rfl

theorem follow_reown :
    (a.reown owners).follow = a.follow.map fun followed => followed.reown owners := by
  have hflows : (a.graph.reown owners).flows = a.graph.flows := rfl
  have hnodes : (a.graph.reown owners).nodes = a.graph.nodes := rfl
  unfold follow
  simp only [reown, hflows, hnodes]
  split
  · split <;> rfl
  · rfl

theorem ofSolved_eq_bind (g : Graph) : ofSolved g = (ofGraph g).classify.bind follow := by
  have hempty : (ofGraph g).effects.isEmpty = true := rfl
  simp only [ofSolved, solve, hempty, if_true]
  cases (ofGraph g).classify with
  | error fault => rfl
  | ok a =>
      simp only [Except.bind]
      cases a.follow <;> rfl

/-- Analyses do not ask who owns a control expression. -/
theorem Stage.reach_reown (stage : Stage) (g : Graph) :
    stage.reach (g.reown owners) = (stage.reach g).map fun a => a.reown owners := by
  have hclassify : (ofGraph (g.reown owners)).classify =
      (ofGraph g).classify.map fun a => a.reown owners :=
    classify_reown (a := .ofGraph g)
  cases stage with
  | built => rfl
  | classified => exact hclassify
  | followed =>
      rw [reach, ofSolved_eq_bind, hclassify, reach, ofSolved_eq_bind]
      cases (ofGraph g).classify with
      | error fault => rfl
      | ok a => exact follow_reown

end Analysis

/-- All that is found out about matching graphs is the same. -/
theorem Graph.Matches.view_eq {g g' : Graph} (h : g.Matches R g') (stage : Analysis.Stage) :
    (stage.reach g').map Analysis.view = (stage.reach g).map Analysis.view := by
  rw [h.eq_reown, Analysis.Stage.reach_reown, Analysis.Stage.reach_recast h.decls]
  cases hreach : stage.reach g with
  | error fault => rfl
  | ok a =>
      have hdecls : g'.module.decls = a.graph.module.decls := by
        rw [Analysis.Stage.graph_of_reach hreach]
        exact h.decls
      exact congrArg Except.ok (Analysis.view_recast hdecls strictMono_id)

end Matching

end ControlFlow

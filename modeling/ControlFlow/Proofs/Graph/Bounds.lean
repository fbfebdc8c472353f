import ControlFlow.Proofs.Graph.Shown

/-! # Flows stay inside their graph

Lowering draws and implies flows only between nodes that are there, and on the way from the start
to the end: nothing ever leads into the start or out of the end.
-/

namespace ControlFlow

namespace Graph

/-- A graph has some nodes, and control may go on from them: none of them is its end. -/
def Holds (g : Graph) (ns : List NodeId) : Prop := ∀ n ∈ ns, n < g.nodes.length ∧ n ≠ finish

/-- A node between the start and the end of a graph. -/
structure Inner (g : Graph) (n : NodeId) : Prop where
  lt : n < g.nodes.length
  ne_start : n ≠ start
  ne_finish : n ≠ finish

/-- All flows lead from nodes other than the end to nodes other than the start. -/
def FlowsOnward (g : Graph) : Prop :=
  ∀ f ∈ g.flows, (f.1 < g.nodes.length ∧ f.1 ≠ finish) ∧ f.2 < g.nodes.length ∧ f.2 ≠ start

/-- A graph begins with its start and its end, whose counters no other mark gets. -/
structure Framed (g : Graph) : Prop where
  ends : [.mark .start 0, .mark .finish 1] <+: g.nodes
  counted : 2 ≤ g.marks

variable {g g' : Graph} {ns ms : List NodeId} {n target : NodeId}

theorem Holds.mono (h : g.Holds ns) (hext : g.Extends g') : g'.Holds ns :=
  fun n hn => ⟨Nat.lt_of_lt_of_le (h n hn).1 hext.length_le, (h n hn).2⟩

theorem holds_append : g.Holds (ns ++ ms) ↔ g.Holds ns ∧ g.Holds ms := List.forall_mem_append

theorem Inner.mono (h : g.Inner n) (hext : g.Extends g') : g'.Inner n :=
  ⟨Nat.lt_of_lt_of_le h.lt hext.length_le, h.ne_start, h.ne_finish⟩

theorem Inner.holds (h : g.Inner n) : g.Holds [n] := by
  intro m hm
  cases List.mem_singleton.mp hm
  exact ⟨h.lt, h.ne_finish⟩

theorem FlowsOnward.inside (h : g.FlowsOnward) : g.FlowsInside :=
  fun f hf => ⟨(h f hf).1.1, (h f hf).2.1⟩

theorem Framed.mono (h : g.Framed) (hext : g.Extends g') : g'.Framed :=
  ⟨h.ends.trans hext.nodes, Nat.le_trans h.counted hext.marks⟩

theorem Framed.getElem?_start (h : g.Framed) : g.nodes[start]? = some (.mark .start 0) := by
  obtain ⟨more, hmore⟩ := h.ends
  rw [← hmore]
  rfl

theorem Framed.getElem?_finish (h : g.Framed) : g.nodes[finish]? = some (.mark .finish 1) := by
  obtain ⟨more, hmore⟩ := h.ends
  rw [← hmore]
  rfl

theorem Framed.finish_lt (h : g.Framed) : finish < g.nodes.length :=
  (List.getElem?_eq_some_iff.mp h.getElem?_finish).1

/-- What is found by another key than those of the start and the end is between them. -/
theorem Framed.inner_of_find? (h : g.Framed) {k : Key} (hn : g.find? k = some n)
    (hk : ∀ counter < 2, k ≠ .mark counter) : g.Inner n := by
  obtain ⟨p, hp, hkey⟩ := find?_some hn
  refine ⟨lt_of_find? hn, ?_, ?_⟩
  · rintro rfl
    rw [h.getElem?_start] at hp
    cases hp
    exact hk 0 Nat.two_pos hkey.symm
  · rintro rfl
    rw [h.getElem?_finish] at hp
    cases hp
    exact hk 1 Nat.one_lt_two hkey.symm

theorem Framed.inner_place (h : g.Framed) {p : Point} (hp : p.isMark = false) :
    (g.place p).2.Inner (g.place p).1 := by
  refine (h.mono (extends_place g p)).inner_of_find? (find?_place g p) fun counter _ hkey => ?_
  cases p with
  | mark kind counter => cases hp
  | _ => cases hkey

theorem Framed.inner_placeMark (h : g.Framed) (kind : Mark) :
    (g.placeMark kind).2.Inner (g.placeMark kind).1 := by
  refine (h.mono (extends_placeMark g kind)).inner_of_find? (find?_place _ _)
    fun counter hcounter hkey => ?_
  cases hkey
  exact Nat.not_lt.mpr h.counted hcounter

theorem FlowsOnward.place (h : g.FlowsOnward) (p : Point) : (g.place p).2.FlowsOnward := by
  intro f hf
  rw [place_flows] at hf
  have hle := (extends_place g p).length_le
  obtain ⟨⟨hsource, hfinish⟩, htarget, hstart⟩ := h f hf
  exact ⟨⟨Nat.lt_of_lt_of_le hsource hle, hfinish⟩, Nat.lt_of_lt_of_le htarget hle, hstart⟩

theorem FlowsOnward.connect (h : g.FlowsOnward) {e : Exit} (he : g.Holds e.points)
    (htarget : target < g.nodes.length) (hstart : target ≠ start) :
    (g.connect e target).FlowsOnward := by
  intro f hf
  rw [connect_nodes]
  rcases mem_flows_connect.mp hf with hold | ⟨n, hn, rfl⟩
  · exact h f hold
  · exact ⟨he n hn, htarget, hstart⟩

theorem FlowsOnward.connectAll (h : g.FlowsOnward) {es : List Exit}
    (hes : ∀ e ∈ es, g.Holds e.points) (htarget : target < g.nodes.length)
    (hstart : target ≠ start) :
    (es.foldl (fun g e => g.connect e target) g).FlowsOnward := by
  intro f hf
  rw [connectAll_nodes]
  rcases mem_flows_connectAll.mp hf with hold | ⟨e, he, n, hn, rfl⟩
  · exact h f hold
  · exact ⟨hes e he n hn, htarget, hstart⟩

theorem FlowsOnward.implyAll (h : g.FlowsOnward) (hns : g.Holds ns)
    (htarget : target < g.nodes.length) (hstart : target ≠ start) :
    (ns.foldl (fun g n => g.imply n target) g).FlowsOnward := by
  intro f hf
  rw [implyAll_nodes]
  rcases mem_flows_implyAll.mp hf with hold | ⟨n, hn, rfl⟩
  · exact h f hold
  · exact ⟨hns n hn, htarget, hstart⟩

end Graph

namespace Draft

open ControlFlow.Graph

/-- All that a draft refers to is inside its graph: its flows, the jumps that were collected, the
head of the loop and the points of the exit at which lowering goes on. Control can come back to the
head of the loop, and it can go on from all the other points. -/
structure Admits (d : Draft) (loop : Option NodeId) (e : Exit) : Prop where
  framed : d.Framed
  flows : d.FlowsOnward
  breaks : d.Holds d.breaks
  leaves : d.Holds d.leaves
  loop : ∀ head ∈ loop, d.Inner head
  points : d.Holds e.points

variable {d : Draft} {parent e : Exit} {loop : Option NodeId} {head n : NodeId}

theorem Admits.goOn (h : d.Admits loop parent) (he : d.Holds e.points) : d.Admits loop e :=
  ⟨h.framed, h.flows, h.breaks, h.leaves, h.loop, he⟩

/-- Growing inside the graph keeps everything admitted. -/
theorem Admits.grow {g : Graph} (h : d.Admits loop parent) (hext : d.toGraph.Extends g)
    (hflows : g.FlowsOnward) (he : g.Holds e.points) :
    Admits { d with toGraph := g } loop e :=
  ⟨h.framed.mono hext, hflows, h.breaks.mono hext, h.leaves.mono hext,
    fun head hhead => (h.loop head hhead).mono hext, he⟩

/-- A loop starts in a body where no `break` has left it yet. -/
theorem Admits.openLoop (h : d.Admits loop parent) (hhead : d.Inner head) :
    d.openLoop.Admits (some head) parent :=
  ⟨h.framed, h.flows, List.forall_mem_nil _, h.leaves, by rintro _ ⟨⟩; exact hhead, h.points⟩

theorem inner_enter (h : d.Framed) {p : Point} (hp : p.isMark = false) (parent : Exit) :
    (d.enter parent p).2.Inner (d.enter parent p).1 :=
  (h.inner_place hp).mono (extends_connect _ _ _)

theorem admits_enter (h : d.Admits loop parent) {p : Point} (hp : p.isMark = false) :
    (d.enter parent p).2.Admits loop (.drawn (d.enter parent p).1) := by
  have hext := extends_place d.toGraph p
  have hconnect := extends_connect (d.place p).2 parent (d.place p).1
  have hinner := h.framed.inner_place hp
  refine h.grow (hext.trans hconnect) ?_ (inner_enter h.framed hp parent).holds
  exact (h.flows.place p).connect (h.points.mono hext) hinner.lt hinner.ne_start

/-- Noting owners changes nothing that a draft refers to. -/
theorem Admits.own (h : d.Admits loop e) (owners : List (TreeId × Stmt)) :
    Admits { d with owners := owners } loop e :=
  ⟨⟨h.framed.ends, h.framed.counted⟩, h.flows, h.breaks, h.leaves,
    fun head hhead => ⟨(h.loop head hhead).lt, (h.loop head hhead).ne_start,
      (h.loop head hhead).ne_finish⟩, h.points⟩

theorem inner_enterControl (h : d.Framed) (parent : Exit) (c : Expr) (s : Stmt) :
    (d.enterControl parent c s).2.Inner (d.enterControl parent c s).1 := by
  have henter := inner_enter h (p := .expr c) rfl parent
  exact ⟨henter.lt, henter.ne_start, henter.ne_finish⟩

theorem admits_enterControl (h : d.Admits loop parent) (c : Expr) (s : Stmt) :
    (d.enterControl parent c s).2.Admits loop (.drawn (d.enterControl parent c s).1) :=
  (admits_enter h (p := .expr c) rfl).own _

theorem admits_enterVar (h : d.Admits loop (.drawn head)) (var : LoopVar) (s : Stmt) :
    (d.enterVar head var s).2.Admits loop (.drawn (d.enterVar head var s).1) := by
  have hext := extends_place d.toGraph (.loopVar var)
  have hdraw := extends_draw (d.place (.loopVar var)).2 head (d.place (.loopVar var)).1
  have hinner := h.framed.inner_place (p := .loopVar var) rfl
  have hflows : ((d.place (.loopVar var)).2.draw head (d.place (.loopVar var)).1).FlowsOnward :=
    (h.flows.place _).connect (e := .drawn head) (h.points.mono hext) hinner.lt hinner.ne_start
  exact (h.grow (e := .drawn (d.place (.loopVar var)).1) (hext.trans hdraw) hflows
    (hinner.mono hdraw).holds).own _

theorem inner_join (h : d.Framed) (es : List Exit) : (d.join es).2.Inner (d.join es).1 :=
  (h.inner_placeMark .join).mono (extends_connectAll _ _ _)

theorem admits_join {es : List Exit} (h : d.Admits loop parent)
    (hes : ∀ e ∈ es, d.Holds e.points) :
    (d.join es).2.Admits loop (.drawn (d.join es).1) := by
  have hext := extends_placeMark d.toGraph .join
  have hconnect := extends_connectAll (d.placeMark .join).2 es (d.placeMark .join).1
  have hinner := h.framed.inner_placeMark .join
  have hflows : (d.placeMark .join).2.FlowsOnward :=
    FlowsOnward.place (g := { d.toGraph with marks := d.marks + 1 }) h.flows _
  refine h.grow (hext.trans hconnect) ?_ (inner_join h.framed es).holds
  exact hflows.connectAll (fun e he => (hes e he).mono hext) hinner.lt hinner.ne_start

theorem admits_returnTo (h : d.Admits loop parent) (hn : d.Inner n) :
    (d.returnTo parent n).Admits loop parent := by
  have hext := d.extends_returnTo parent n
  exact h.grow hext (h.flows.connect h.points hn.lt hn.ne_start) (h.points.mono hext)

/-- Points at which a body is left are admitted like those at which lowering goes on. -/
theorem Admits.leave (h : d.Admits loop e) :
    Admits { d with leaves := d.leaves ++ e.points } loop e :=
  ⟨h.framed, h.flows, h.breaks, holds_append.mpr ⟨h.leaves, h.points⟩, h.loop, h.points⟩

theorem admits_jump (h : d.Admits loop parent) (id : TreeId) (how : Jump) :
    (d.jump loop parent id how).2.Admits loop (d.jump loop parent id how).1 := by
  have henter := admits_enter h (p := .stmt (.jump id how)) rfl
  cases how with
  | «return» value =>
      cases value with
      | none => exact h.leave
      | some v => exact henter.leave
  | throw value =>
      cases value with
      | none => exact h.leave
      | some v => exact henter.leave
  | «break» =>
      cases loop with
      | none => exact h
      | some head =>
          exact ⟨h.framed, h.flows, holds_append.mpr ⟨h.breaks, h.points⟩, h.leaves, h.loop,
            h.points⟩
  | «continue» =>
      cases loop with
      | none => exact h
      | some head =>
          have hext := extends_implyAll d.toGraph parent.points head
          have hhead := h.loop head rfl
          exact h.grow hext (h.flows.implyAll h.points hhead.lt hhead.ne_start)
            (h.points.mono hext)

/-- Around a loop, everything is admitted again once its body was lowered. -/
theorem admits_aroundLoop {body : List Stmt} (h : d.Admits loop (.drawn n))
    (hhead : d.Inner head)
    (hinside : (insideLoop body head n d).2.Admits (some head) (insideLoop body head n d).1) :
    (aroundLoop body head n d).Admits loop ⟨some head, (insideLoop body head n d).2.breaks⟩ := by
  have hgrown := extends_aroundLoop body head n d
  have hback := (insideLoop body head n d).2.extends_returnTo (insideLoop body head n d).1 head
  have haround := admits_returnTo hinside (hinside.loop head rfl)
  refine ⟨h.framed.mono hgrown, haround.flows, h.breaks.mono hgrown, haround.leaves,
    fun outer houter => (h.loop outer houter).mono hgrown, ?_⟩
  exact holds_append.mpr ⟨hhead.holds.mono hgrown, hinside.breaks.mono hback⟩

end Draft

open Draft ControlFlow.Graph

/-- Lowering stays inside the graph, on the way from its start to its end. -/
theorem admits_lower :
    (∀ s : Stmt, ∀ loop parent d, Draft.Admits d loop parent →
      (s.lower loop parent d).2.Admits loop (s.lower loop parent d).1) ∧
    (∀ ss, ∀ loop parent d, Draft.Admits d loop parent →
      (lowerSeq loop ss parent d).2.Admits loop (lowerSeq loop ss parent d).1) ∧
    (∀ cs, ∀ loop raised joined d, Draft.Admits d loop raised → d.Inner joined →
      (lowerCatches loop cs raised joined d).Admits loop (.drawn joined)) := by
  refine tree_induction ?simple ?jump ?block ?while_ ?for_ ?if_ ?try_ ?nil ?cons ?noCatch ?catch_
  case simple =>
    intro id what loop parent d h
    exact admits_enter h rfl
  case jump =>
    intro id how loop parent d h
    exact admits_jump h id how
  case block =>
    intro id bid body ih loop parent d h
    exact ih loop parent d h
  case while_ =>
    intro id cond bid body orElse ihbody ihelse loop parent d h
    have hhead := admits_enterControl h cond (.while id cond ⟨bid, body⟩ orElse)
    have hinner := inner_enterControl h.framed parent cond (.while id cond ⟨bid, body⟩ orElse)
    have haround := admits_aroundLoop hhead hinner (ihbody _ _ _ (hhead.openLoop hinner))
    rcases orElse with _ | ⟨eid, orElse⟩
    · exact haround
    · have hthere := haround.goOn (e := .drawn _) (holds_append.mp haround.points).1
      have hother := ihelse loop _ _ hthere
      -- After the `else` part, the points that `break` collected in the body are still there.
      have hgrown (parent : Exit) (d : Draft) := extends_lowerSeq orElse loop parent d
      have hjoined := admits_join hother (List.forall_mem_cons.mpr ⟨hother.points,
        List.forall_mem_singleton.mpr (hthere.points.mono (hgrown _ _))⟩)
      refine hjoined.goOn (holds_append.mpr ⟨hjoined.points, ?_⟩)
      exact (holds_append.mp haround.points).2.mono ((hgrown _ _).trans (extends_join _ _))
  case for_ =>
    intro id var seq bid body ih loop parent d h
    have hhead := admits_enterControl h seq (.for id var seq ⟨bid, body⟩)
    have hvar := admits_enterVar hhead var (.for id var seq ⟨bid, body⟩)
    -- The body is entered from the loop variable, but it goes back to the sequence.
    have hback := (inner_enterControl h.framed parent seq (.for id var seq ⟨bid, body⟩)).mono
      (extends_enterVar _ (d.enterControl parent seq (.for id var seq ⟨bid, body⟩)).1 var
        (.for id var seq ⟨bid, body⟩))
    exact admits_aroundLoop hvar hback (ih _ _ _ (hvar.openLoop hback))
  case if_ =>
    intro id cond bid body orElse ihbody ihelse loop parent d h
    have htest := admits_enterControl h cond (.if id cond ⟨bid, body⟩ orElse)
    have hbody := ihbody loop _ _ htest
    have hgrown := extends_lowerSeq body loop (.drawn (d.enterControl parent cond
      (.if id cond ⟨bid, body⟩ orElse)).1) (d.enterControl parent cond
      (.if id cond ⟨bid, body⟩ orElse)).2
    rcases orElse with _ | ⟨eid, orElse⟩
    · refine hbody.goOn (holds_append.mpr ⟨(holds_append.mp hbody.points).1, ?_⟩)
      exact holds_append.mpr ⟨(holds_append.mp hbody.points).2, htest.points.mono hgrown⟩
    · have hother := ihelse loop _ _ (hbody.goOn (htest.points.mono hgrown))
      exact admits_join hother (List.forall_mem_cons.mpr ⟨hother.points,
        List.forall_mem_singleton.mpr (hbody.points.mono (extends_lowerSeq _ _ _ _))⟩)
  case try_ =>
    intro id bid body catches ihbody ihcatches loop parent d h
    have hbody := ihbody loop parent d h
    have hjoined := admits_join hbody (List.forall_mem_singleton.mpr hbody.points)
    refine ihcatches loop _ _ _ (hjoined.goOn ?_) (inner_join hbody.framed _)
    have hgrown := (extends_lowerSeq body loop parent d).trans (extends_join _
      [(lowerSeq loop body parent d).1])
    -- Catches are entered from before the `try` and from all nodes of its body.
    obtain ⟨hdrawn, himplied⟩ := holds_append.mp h.points
    refine holds_append.mpr ⟨hdrawn.mono hgrown, holds_append.mpr ⟨himplied.mono hgrown, ?_⟩⟩
    intro n hn
    obtain ⟨hrange, -⟩ := List.mem_filter.mp hn
    obtain ⟨hnew, hlt⟩ := List.mem_range'_1.mp hrange
    rw [Nat.add_sub_cancel' (extends_lowerSeq body loop parent d).length_le] at hlt
    exact ⟨Nat.lt_of_lt_of_le hlt (extends_join _ _).length_le,
      Nat.ne_of_gt (Nat.lt_of_lt_of_le h.framed.finish_lt hnew)⟩
  case nil =>
    intro loop parent d h
    exact h
  case cons =>
    intro s rest ihs ihrest loop parent d h
    have hlive := ihs loop parent d h
    unfold lowerSeq
    dsimp only
    split
    · have htail := ihrest loop .nowhere _ (hlive.goOn (List.forall_mem_nil _))
      have hexit := hlive.points.mono (extends_lowerSeq rest loop .nowhere _)
      exact admits_join htail
        (List.forall_mem_cons.mpr ⟨hexit, List.forall_mem_singleton.mpr htail.points⟩)
    · exact ihrest loop _ _ hlive
  case noCatch =>
    intro loop raised joined d h hjoined
    exact h.goOn hjoined.holds
  case catch_ =>
    intro id param bid body rest ihbody ihrest loop raised joined d h hjoined
    have hbody := ihbody loop raised d h
    have hgrown := extends_lowerSeq body loop raised d
    have hback := admits_returnTo hbody (hjoined.mono hgrown)
    have hmore := hgrown.trans (extends_returnTo _ (lowerSeq loop body raised d).1 joined)
    exact ihrest loop raised joined _ (hback.goOn (h.points.mono hmore)) (hjoined.mono hmore)

end ControlFlow

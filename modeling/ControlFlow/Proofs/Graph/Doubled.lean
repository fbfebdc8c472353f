import ControlFlow.Proofs.Graph.Reentered
import Mathlib.Data.List.Perm.Basic

/-! # Flows that are implied first and drawn later

A flow that is drawn is not implied any more, but one that is implied may still be drawn. That
happens at the end of a loop body, where control goes back to the head of the loop from a node from
which a `continue` has gone back already. Nothing else records a flow twice: each such loop does so
once, and every node that is not the head of one has each of its predecessors once.
-/

namespace ControlFlow

open Draft ControlFlow.Graph

/-! ## Recording twice -/

namespace Graph

/-- A flow is recorded twice: it is drawn and implied. -/
def Doubled (g : Graph) (f : Flow) : Prop := f ∈ g.edges ∧ f ∈ g.implicit

instance (g : Graph) (f : Flow) : Decidable (g.Doubled f) := instDecidableAnd

variable {g g' g'' : Graph} {source target : NodeId} {f : Flow} {cs cs' : List Expr}

theorem doubled_imply : (g.imply source target).Doubled f ↔ g.Doubled f := by
  rw [Doubled, Doubled, imply_edges, mem_implicit_imply]
  constructor
  · rintro ⟨hedge, himplicit | ⟨hnew, -⟩⟩
    · exact ⟨hedge, himplicit⟩
    · exact absurd hedge hnew
  · exact And.imp_right .inl

theorem doubled_implyAll {ns : List NodeId} :
    (ns.foldl (fun g n => g.imply n target) g).Doubled f ↔ g.Doubled f := by
  induction ns generalizing g with
  | nil => rfl
  | cons n rest ih => rw [List.foldl_cons, ih, doubled_imply]

/-- Going on from an exit draws only from its drawn node what was implied before. -/
theorem doubled_connect {e : Exit} : (g.connect e target).Doubled f ↔
    g.Doubled f ∨ ∃ n, e.node = some n ∧ f = (n, target) ∧ f ∈ g.implicit := by
  unfold connect
  rw [doubled_implyAll]
  cases e.node with
  | none => simp
  | some n =>
      rw [Doubled, mem_edges_draw, draw_implicit, or_and_right]
      simp [Doubled]

theorem mem_implicit_connect {e : Exit} (h : f ∈ (g.connect e target).implicit) :
    f ∈ g.implicit ∨ ∃ n ∈ e.implicit, f = (n, target) := by
  unfold connect at h
  rcases mem_implicit_implyAll.mp h with hold | ⟨-, hnew⟩
  · refine .inl ?_
    cases hnode : e.node with
    | none => simpa [hnode] using hold
    | some n => simpa [hnode, draw_implicit] using hold
  · exact .inr hnew

/-- Going on at a node into which nothing leads doubles no flow if no exit draws from what an
earlier one implies from. -/
theorem doubled_connectAll {es : List Exit}
    (hnew : ∀ e ∈ es, ∀ n, e.node = some n → (n, target) ∉ g.implicit)
    (hes : es.Pairwise fun e e' => ∀ n, e'.node = some n → n ∉ e.implicit) :
    (es.foldl (fun g e => g.connect e target) g).Doubled f ↔ g.Doubled f := by
  induction es generalizing g with
  | nil => rfl
  | cons e rest ih =>
      obtain ⟨hfirst, hrest⟩ := List.pairwise_cons.mp hes
      rw [List.foldl_cons, ih (fun e' he' n hn himplicit => ?_) hrest, doubled_connect]
      · refine or_iff_left ?_
        rintro ⟨n, hn, rfl, himplicit⟩
        exact hnew e List.mem_cons_self n hn himplicit
      · rcases mem_implicit_connect himplicit with hold | ⟨m, hm, heq⟩
        · exact hnew e' (List.mem_cons_of_mem e he') n hn hold
        · cases heq
          exact hfirst e' he' n hn hm

/-- The flows that became doubled lead to the nodes of some expressions, one to each. -/
def Doubles (g g' : Graph) (cs : List Expr) : Prop :=
  ∃ news : List Flow, (∀ f, g'.Doubled f ↔ g.Doubled f ∨ f ∈ news) ∧
    List.Forall₂ (fun c f => g'.find? (Point.expr c).key = some f.2) cs news

theorem Doubles.of_iff (h : ∀ f, g'.Doubled f ↔ g.Doubled f) : g.Doubles g' [] :=
  ⟨[], by simpa using h, .nil⟩

theorem Doubles.trans (h : g.Doubles g' cs) (h' : g'.Doubles g'' cs') (hext : g'.Extends g'') :
    g.Doubles g'' (cs ++ cs') := by
  obtain ⟨news, hiff, hnodes⟩ := h
  obtain ⟨news', hiff', hnodes'⟩ := h'
  have hkept := hnodes.imp fun c f hf => hext.find? hf
  refine ⟨news ++ news', fun f => ?_, List.rel_append hkept hnodes'⟩
  rw [hiff', hiff, List.mem_append, or_assoc]

theorem Doubles.of_eq (h : g.Doubles g' cs) (heq : cs = cs') : g.Doubles g' cs' := heq ▸ h

theorem Doubles.perm (h : g.Doubles g' cs) (hperm : cs'.Perm cs) : g.Doubles g' cs' := by
  obtain ⟨news, hiff, hnodes⟩ := h
  obtain ⟨news', hnodes', hperm'⟩ := List.perm_comp_forall₂ hperm hnodes
  exact ⟨news', fun f => by rw [hiff, hperm'.mem_iff], hnodes'⟩

end Graph

theorem mem_flows_join {d : Draft} {es : List Exit} {f : Flow} : f ∈ (d.join es).2.flows ↔
    f ∈ d.flows ∨ ∃ e ∈ es, ∃ n ∈ e.points, f = (n, (d.join es).1) := by
  refine mem_flows_connectAll.trans (or_congr_left ?_)
  rw [placeMark, place_flows]
  rfl

theorem mem_edges_join {d : Draft} {es : List Exit} {f : Flow} : f ∈ (d.join es).2.edges ↔
    f ∈ d.edges ∨ ∃ e ∈ es, ∃ n, e.node = some n ∧ f = (n, (d.join es).1) := by
  refine mem_edges_connectAll.trans (or_congr_left ?_)
  rw [placeMark, place_edges]

section Doubling

variable {d : Draft} {loop : Option NodeId} {parent : Exit} {p : Point} {ps : List Point}

theorem doubled_enter (h : d.Ready loop parent (p :: ps)) (f : Flow) :
    (d.enter parent p).2.Doubled f ↔ d.Doubled f := by
  rw [Draft.enter, place_of_none (h.fresh.unseen p List.mem_cons_self), doubled_connect]
  refine or_iff_left ?_
  rintro ⟨n, -, rfl, himplicit⟩
  exact h.not_mem_flows n (mem_flows.mpr (.inr himplicit))

theorem doubled_join (h : d.Ready loop parent ps) {es : List Exit}
    (hes : es.Pairwise fun e e' => ∀ n, e'.node = some n → n ∉ e.implicit) (f : Flow) :
    (d.join es).2.Doubled f ↔ d.Doubled f := by
  rw [Draft.join, h.fresh.counted.placeMark_eq]
  exact doubled_connectAll
    (fun e _ n _ himplicit => h.not_mem_flows n (mem_flows.mpr (.inr himplicit))) hes

/-- Where exits meet at a new join, no more flows are doubled. -/
theorem Graph.Doubles.join {g : Graph} {cs : List Expr} (h : g.Doubles d.toGraph cs)
    (hd : d.Ready loop parent ps) {es : List Exit}
    (hes : es.Pairwise fun e e' => ∀ n, e'.node = some n → n ∉ e.implicit) :
    g.Doubles (d.join es).2.toGraph cs :=
  (h.trans (.of_iff (doubled_join hd hes)) (extends_join d es)).of_eq (List.append_nil cs)

/-- What is reached from a drawn node goes on without an edge from new points only. -/
theorem Draft.Advances.not_mem_implicit {reached : Exit × Draft} {n m : NodeId}
    (h : d.Advances loop (.drawn n) reached) (hm : m < d.nodes.length) :
    m ∉ reached.1.implicit := by
  intro hmem
  rcases h.exit with heq | hadded
  · rw [heq] at hmem
    cases hmem
  · exact Nat.not_lt.mpr (hadded m (List.mem_append_right _ hmem)).1 hm

theorem doubles_jump {id : TreeId} {how : Jump}
    (h : d.Ready loop parent (Stmt.jump id how).ownPoints) :
    d.toGraph.Doubles (d.jump loop parent id how).2.toGraph [] := by
  refine .of_iff ?_
  cases how with
  | «return» value =>
      cases value with
      | none => exact fun f => .rfl
      | some v => exact doubled_enter h
  | throw value =>
      cases value with
      | none => exact fun f => .rfl
      | some v => exact doubled_enter h
  | «break» => cases loop <;> exact fun f => .rfl
  | «continue» =>
      cases loop with
      | none => exact fun f => .rfl
      | some head => exact fun f => doubled_implyAll

theorem goneBack_enter_self (h : d.Ready loop parent (p :: ps)) :
    (d.enter parent p).2.GoneBack (d.enter parent p).1 (.drawn (d.enter parent p).1) false := by
  refine goneBack_of_not_mem rfl fun hflow => ?_
  rw [Draft.enter, place_of_none (h.fresh.unseen p List.mem_cons_self)] at hflow
  rcases mem_flows_connect.mp hflow with hold | ⟨n, hn, heq⟩
  · exact h.not_mem_flows _ hold
  · cases heq
    exact Nat.lt_irrefl _ (h.admits.points _ hn).1

/-- A loop is gone back to twice from where a `continue` has gone back already. -/
theorem doubles_aroundLoop {body : List Stmt} {head n : NodeId} {c : Expr}
    (h : d.Ready loop (.drawn n) (pointsOf body)) (hhead : d.Inner head)
    (hc : d.find? (Point.expr c).key = some head) (hgone : d.GoneBack head (.drawn n) false)
    (hbody : d.Doubles (insideLoop body head n d).2.toGraph (reenteredOf body)) :
    d.Doubles (aroundLoop body head n d).toGraph
      ((if goneBackSeq false body then some c else none).toList ++ reenteredOf body) := by
  have hext := extends_returnTo (insideLoop body head n d).2 (insideLoop body head n d).1 head
  have hback : (insideLoop body head n d).2.Doubles (aroundLoop body head n d).toGraph
      (if goneBackSeq false body then some c else none).toList := by
    obtain ⟨m, hm, -, hiff⟩ := goneBack_lower.2.1 body d.openLoop head (.drawn n) false
      (h.openLoop hhead) hgone
    have hround (f : Flow) : (aroundLoop body head n d).Doubled f ↔
        (insideLoop body head n d).2.Doubled f ∨
          f = (m, head) ∧ f ∈ (insideLoop body head n d).2.implicit := by
      refine doubled_connect.trans (or_congr_right ⟨?_, fun hf => ⟨m, hm, hf⟩⟩)
      rintro ⟨m', hm', hf⟩
      cases hm.symm.trans hm'
      exact hf
    cases hcase : goneBackSeq false body with
    | true =>
        refine ⟨[(m, head)], fun f => ?_, .cons ((extends_aroundLoop body head n d).find? hc) .nil⟩
        rw [hround, List.mem_singleton]
        refine or_congr_right (and_iff_left_of_imp ?_)
        rintro rfl
        exact hiff.mpr hcase
    | false =>
        refine .of_iff fun f => (hround f).trans (or_iff_left ?_)
        rintro ⟨rfl, himplicit⟩
        rw [hiff.mp himplicit] at hcase
        cases hcase
  exact (hbody.trans hback hext).perm List.perm_append_comm

/-- Catches can be entered from before a `try` and from the nodes that were added by its body. -/
theorem Draft.Admits.holds_raised {d' : Draft} (h : d.Admits loop parent)
    (hext : d.toGraph.Extends d'.toGraph) :
    d'.Holds (Exit.mk parent.node (parent.implicit ++ d'.nodesSince d)).points := by
  intro n hn
  rcases mem_points_raised hext.length_le hn with hpoint | hadded
  · exact h.points.mono hext n hpoint
  · exact ⟨hadded.2, Nat.ne_of_gt (Nat.lt_of_lt_of_le h.framed.finish_lt hadded.1)⟩

/-! ### Around a `try` -/

/-- A flow to a node from where control comes in is drawn. -/
def Graph.DrawsTo (g : Graph) (e : Exit) (target : NodeId) : Prop :=
  ∀ n, e.node = some n → (n, target) ∈ g.flows → (n, target) ∈ g.edges

section Catching

variable {raised : Exit} {joined : NodeId} {body : List Stmt}

/-- The body of a `try` is joined from its own nodes, or by an edge from where the `try` is
entered. -/
theorem drawsTo_join (h : d.Ready loop parent (pointsOf body ++ ps)) (implied : List NodeId) :
    ((lowerSeq loop body parent d).2.join [(lowerSeq loop body parent d).1]).2.DrawsTo
      ⟨parent.node, implied⟩
      ((lowerSeq loop body parent d).2.join [(lowerSeq loop body parent d).1]).1 := by
  have hadded := added_join h.lowerSeq.fresh.counted [(lowerSeq loop body parent d).1]
  have hadvances := advances_lower.2.1 body loop parent d h.fresh.of_append_left
  intro n hn hflow
  rcases mem_flows_join.mp hflow with hold | ⟨e, he, m, hm, heq⟩
  · exact absurd (h.lowerSeq.admits.flows.inside _ hold).2 (Nat.not_lt.mpr hadded.1)
  · cases List.mem_singleton.mp he
    cases heq
    have hlt := (h.admits.points n (Exit.mem_points_of_node hn)).1
    exact mem_edges_join.mpr (.inr ⟨_, he, n, hadvances.node_eq hn hlt hm, rfl⟩)

/-- The body of a catch adds no flow to the join from where the `try` is entered. -/
theorem Graph.DrawsTo.lowerSeq (hdrawn : d.DrawsTo raised joined)
    (h : d.Ready loop raised (pointsOf body ++ ps)) (hjoined : d.Inner joined)
    (hloop : loop ≠ some joined) :
    (ControlFlow.lowerSeq loop body raised d).2.DrawsTo raised joined := by
  have hadvances := advances_lower.2.1 body loop raised d h.fresh.of_append_left
  intro n hn hflow
  rcases hadvances.grafts.edges _ hflow with hold | ⟨-, hgiven | hadded⟩
  · exact (extends_lowerSeq body loop raised d).edges (hdrawn n hn hold)
  · exact absurd hgiven hloop
  · exact absurd hjoined.lt (Nat.not_lt.mpr hadded.1)

theorem Graph.DrawsTo.returnTo (hdrawn : d.DrawsTo raised joined)
    (h : d.Ready loop raised (pointsOf body ++ ps)) (hjoined : d.Inner joined)
    (hloop : loop ≠ some joined) :
    ((ControlFlow.lowerSeq loop body raised d).2.returnTo
      (ControlFlow.lowerSeq loop body raised d).1 joined).DrawsTo raised joined := by
  have hadvances := advances_lower.2.1 body loop raised d h.fresh.of_append_left
  intro n hn hflow
  rcases mem_flows_connect.mp hflow with hold | ⟨m, hm, heq⟩
  · exact (extends_returnTo _ _ _).edges (hdrawn.lowerSeq h hjoined hloop n hn hold)
  · cases heq
    have hlt := (h.admits.points n (Exit.mem_points_of_node hn)).1
    exact mem_edges_connect.mpr (.inr ⟨n, hadvances.node_eq hn hlt hm, rfl⟩)

/-- Going on from a catch to the join doubles no flow: what leads there from the old nodes is
drawn, and nothing leads there from the new ones. -/
theorem doubled_returnTo (hdrawn : d.DrawsTo raised joined)
    (h : d.Ready loop raised (pointsOf body ++ ps)) (hjoined : d.Inner joined)
    (hloop : loop ≠ some joined) (f : Flow) :
    ((lowerSeq loop body raised d).2.returnTo (lowerSeq loop body raised d).1 joined).Doubled f ↔
      (lowerSeq loop body raised d).2.Doubled f := by
  have hadvances := advances_lower.2.1 body loop raised d h.fresh.of_append_left
  refine doubled_connect.trans (or_iff_left_of_imp ?_)
  rintro ⟨n, hn, rfl, himplicit⟩
  have hflow := mem_flows.mpr (.inr himplicit)
  rcases hadvances.exit with heq | hadded
  · rw [heq] at hn
    exact ⟨hdrawn.lowerSeq h hjoined hloop n hn hflow, himplicit⟩
  · exact absurd hflow (not_mem_flows_of_added h.admits.flows.inside hadvances.grafts
      (hadded n (Exit.mem_points_of_node hn)).1 hjoined.lt hloop)

end Catching

/-! ### Statements -/

/-- Statements double flows to the loops among them that are gone back to twice, and no others. -/
theorem doubles_lower :
    (∀ s : Stmt, ∀ loop parent (d : Draft), d.Ready loop parent (pointsOf [s]) →
      d.toGraph.Doubles (s.lower loop parent d).2.toGraph (reenteredOf [s])) ∧
    (∀ ss, ∀ loop parent (d : Draft), d.Ready loop parent (pointsOf ss) →
      d.toGraph.Doubles (lowerSeq loop ss parent d).2.toGraph (reenteredOf ss)) ∧
    (∀ cs, ∀ loop raised joined (d : Draft), d.Ready loop raised (pointsOfCatches cs) →
      d.Inner joined → loop ≠ some joined → d.DrawsTo raised joined →
      d.toGraph.Doubles (lowerCatches loop cs raised joined d).toGraph
        (reenteredOfCatches cs)) := by
  refine tree_induction ?simple ?jump ?block ?while_ ?for_ ?if_ ?try_ ?nil ?cons ?noCatch ?catch_
  case simple => exact fun id what loop parent d h => .of_iff (doubled_enter h)
  case jump =>
    intro id how loop parent d h
    exact doubles_jump (by simpa [pointsOf_single, Stmt.inner] using h)
  case block =>
    intro id bid body ih loop parent d h
    rw [show reenteredOf [.block id ⟨bid, body⟩] = reenteredOf body from reenteredOf_single _]
    exact ih loop parent d (by simpa using h)
  case while_ =>
    intro id cond bid body orElse ihbody ihelse loop parent d h
    rw [pointsOf_while] at h
    rw [reenteredOf_while]
    have hinner := inner_enterControl h.admits.framed parent cond
      (.while id cond ⟨bid, body⟩ orElse)
    have hopened := h.enterControl (.while id cond ⟨bid, body⟩ orElse)
    have hfound := d.find?_enterControl parent cond (.while id cond ⟨bid, body⟩ orElse)
    have hhead : d.toGraph.Doubles
        (d.enterControl parent cond (.while id cond ⟨bid, body⟩ orElse)).2.toGraph [] :=
      .of_iff (doubled_enter h)
    have hround := doubles_aroundLoop hopened.of_append_left hinner hfound (goneBack_enter_self h)
      (ihbody _ _ _ (hopened.openLoop hinner).of_append_left)
    have hloop := hhead.trans hround (extends_aroundLoop _ _ _ _)
    rcases orElse with _ | ⟨eid, orElse⟩
    · exact hloop.of_eq (by simp [reenteredOf, stmtsOf])
    · have haround := hopened.aroundLoop hinner
      have hthere := haround.drawn
      have hother := hloop.trans (ihelse loop _ _ hthere) (extends_lowerSeq _ _ _ _)
      have hadvances := advances_lower.2.1 orElse loop (.drawn (d.enter parent (.expr cond)).1) _
        hthere.fresh
      refine (hother.join hthere.lowerAll (List.pairwise_pair.mpr ?_)).of_eq (by simp)
      rintro n ⟨⟩
      exact hadvances.not_mem_implicit (hthere.admits.points _ (List.mem_singleton_self _)).1
  case for_ =>
    intro id var seq bid body ih loop parent d h
    rw [pointsOf_for] at h
    rw [show reenteredOf [.for id var seq ⟨bid, body⟩] =
      (if goneBackSeq false body then some seq else none).toList ++ reenteredOf body from
      reenteredOf_single _]
    have hinner := inner_enterControl h.admits.framed parent seq (.for id var seq ⟨bid, body⟩)
    have hopened := h.enterControl (.for id var seq ⟨bid, body⟩)
    have hbound := hopened.enterVar (.for id var seq ⟨bid, body⟩)
    have hext := extends_enterVar (d.enterControl parent seq (.for id var seq ⟨bid, body⟩)).2
      (d.enter parent (.expr seq)).1 var (.for id var seq ⟨bid, body⟩)
    have hfound := hext.find? (d.find?_enterControl parent seq (.for id var seq ⟨bid, body⟩))
    have hhead : d.toGraph.Doubles
        (d.enterControl parent seq (.for id var seq ⟨bid, body⟩)).2.toGraph [] :=
      .of_iff (doubled_enter h)
    have hvar : (d.enterControl parent seq (.for id var seq ⟨bid, body⟩)).2.Doubles
        ((d.enterControl parent seq (.for id var seq ⟨bid, body⟩)).2.enterVar
          (d.enter parent (.expr seq)).1 var (.for id var seq ⟨bid, body⟩)).2.toGraph [] :=
      .of_iff (doubled_enter hopened)
    exact (hhead.trans hvar hext).trans (doubles_aroundLoop hbound (hinner.mono hext) hfound
      (goneBack_enter hopened hinner) (ih _ _ _ (hbound.openLoop (hinner.mono hext))))
      (extends_aroundLoop _ _ _ _)
  case if_ =>
    intro id cond bid body orElse ihbody ihelse loop parent d h
    rw [pointsOf_if] at h
    rw [reenteredOf_if]
    have htest := h.enterControl (.if id cond ⟨bid, body⟩ orElse)
    have hfirst : d.toGraph.Doubles
        (d.enterControl parent cond (.if id cond ⟨bid, body⟩ orElse)).2.toGraph [] :=
      .of_iff (doubled_enter h)
    have hlive := hfirst.trans (ihbody loop _ _ htest.of_append_left) (extends_lowerSeq _ _ _ _)
    rcases orElse with _ | ⟨eid, orElse⟩
    · exact hlive.of_eq (by simp [reenteredOf, stmtsOf])
    · have hready := htest.lowerSeq
      have hagain := hready.goOn (htest.admits.points.mono (extends_lowerSeq _ _ _ _))
      have hother := hlive.trans (ihelse loop _ _ hagain) (extends_lowerSeq _ _ _ _)
      have hadvances := advances_lower.2.1 orElse loop (.drawn (d.enter parent (.expr cond)).1) _
        hagain.fresh
      refine (hother.join hagain.lowerAll (List.pairwise_pair.mpr fun n hn => ?_)).of_eq (by simp)
      exact hadvances.not_mem_implicit
        (hready.admits.points n (Exit.mem_points_of_node hn)).1
  case try_ =>
    intro id bid body catches ihbody ihcatches loop parent d h
    rw [pointsOf_try] at h
    rw [reenteredOf_try]
    have hready := h.lowerSeq
    have hbody := (ihbody loop parent d h.of_append_left).join hready
      (List.pairwise_singleton _ (lowerSeq loop body parent d).1)
    have hjoin := extends_join (lowerSeq loop body parent d).2 [(lowerSeq loop body parent d).1]
    have hadded := added_join hready.fresh.counted [(lowerSeq loop body parent d).1]
    have hinside := extends_lowerSeq body loop parent d
    have hcatches := ihcatches loop
      ⟨parent.node, parent.implicit ++ (lowerSeq loop body parent d).2.nodesSince d⟩ _ _
      ((hready.join (List.forall_mem_singleton.mpr hready.admits.points)).goOn
        ((h.admits.holds_raised hinside).mono hjoin))
      (inner_join hready.admits.framed [(lowerSeq loop body parent d).1]) ?_ (drawsTo_join h _)
    · exact hbody.trans hcatches (extends_lowerCatches _ _ _ _ _)
    · intro hloop
      exact Nat.not_lt.mpr (Nat.le_trans hinside.length_le hadded.1) (h.admits.loop _ hloop).lt
  case nil => exact fun loop parent d h => .of_iff fun f => .rfl
  case cons =>
    intro s rest ihs ihrest loop parent d h
    rw [pointsOf_cons] at h
    rw [reenteredOf_cons]
    have hlive := ihs loop parent d h.of_append_left
    unfold lowerSeq
    dsimp only
    split
    · have hbehind := h.lower.nowhere
      have hboth := hlive.trans (ihrest loop .nowhere _ hbehind) (extends_lowerSeq _ _ _ _)
      have hadvances := advances_lower.2.1 rest loop .nowhere _ hbehind.fresh
      refine hboth.join hbehind.lowerAll (List.pairwise_pair.mpr fun n hn himplicit => ?_)
      -- The chain behind the jump is left from its own nodes, if it is left at all.
      have hold := (h.lower.admits.points n (List.mem_append_right _ himplicit)).1
      rcases hadvances.exit with heq | hadded
      · rw [heq] at hn
        cases hn
      · exact Nat.not_lt.mpr (hadded n (Exit.mem_points_of_node hn)).1 hold
    · exact hlive.trans (ihrest loop _ _ h.lower) (extends_lowerSeq _ _ _ _)
  case noCatch => exact fun loop raised joined d _ _ _ _ => .of_iff fun f => .rfl
  case catch_ =>
    intro id param bid body rest ihbody ihrest loop raised joined d h hjoined hloop hdrawn
    rw [pointsOfCatches_cons] at h
    rw [reenteredOfCatches_cons]
    have hext := extends_lowerSeq body loop raised d
    have hback := extends_returnTo (lowerSeq loop body raised d).2 (lowerSeq loop body raised d).1
      joined
    have hround := hext.trans hback
    have hbody : d.toGraph.Doubles ((lowerSeq loop body raised d).2.returnTo
        (lowerSeq loop body raised d).1 joined).toGraph (reenteredOf body) :=
      ((ihbody loop raised d h.of_append_left).trans
        (.of_iff (doubled_returnTo hdrawn h hjoined hloop)) hback).of_eq (List.append_nil _)
    have hready := (h.lowerSeq.returnTo (hjoined.mono hext)).goOn (h.admits.points.mono hround)
    exact hbody.trans (ihrest loop raised joined _ hready (hjoined.mono hround) hloop
      (hdrawn.returnTo h hjoined hloop)) (extends_lowerCatches _ _ _ _ _)

end Doubling

/-! ## Finished graphs -/

/-- Loops that are gone back to twice show their control expressions. -/
theorem reenteredOf_sublist (ss : List Stmt) :
    ((reenteredOf ss).map Point.expr).Sublist (pointsOf ss) := by
  rw [reenteredOf, List.filterMap_eq_flatMap_toList, List.map_flatMap]
  refine List.Sublist.flatMap_right _ fun s _ => ?_
  cases s with
  | «while» id cond body orElse =>
      rw [Stmt.reentered?]
      split
      · exact .refl _
      · exact List.nil_sublist _
  | «for» id var seq body =>
      rw [Stmt.reentered?]
      split
      · exact .cons_cons _ (List.nil_sublist _)
      · exact List.nil_sublist _
  | _ => exact List.nil_sublist _

namespace Graph

variable {g : Graph} {m : Module} {b : Block} {parent : Exit}

/-- Closing a body doubles no more flows: nothing led to the end before. -/
theorem doubles_close (h : (ofGraph g).Ready none parent (pointsOf b.stmts))
    (hfinish : ∀ f ∈ g.flows, f.2 ≠ finish) :
    g.Doubles (close (lowerSeq none b.stmts parent (.ofGraph g)).1
      (lowerSeq none b.stmts parent (.ofGraph g)).2) b.reentered := by
  have hlower := doubles_lower.2.1 b.stmts none parent (.ofGraph g) h
  have hgrafts := (advances_lower.2.1 b.stmts none parent (.ofGraph g) h.fresh).grafts
  refine (hlower.trans (.of_iff fun f => ?_) (extends_close _ _)).of_eq (List.append_nil _)
  rw [close, doubled_implyAll, doubled_connect]
  refine or_iff_left ?_
  rintro ⟨n, -, rfl, himplicit⟩
  rcases hgrafts.edges _ (mem_flows.mpr (.inr himplicit)) with hold | ⟨-, hloop | hadded⟩
  · exact hfinish _ hold rfl
  · cases hloop
  · exact Nat.not_lt.mpr hadded.1 h.admits.framed.finish_lt

theorem implicit_chainGlobals (globals : List Global) (hparent : parent.implicit = []) :
    (chainGlobals globals parent g).2.implicit = g.implicit := by
  induction globals generalizing parent g with
  | nil => rfl
  | cons v rest ih =>
      unfold chainGlobals
      dsimp only
      rw [ih rfl, connect, hparent, List.foldl_nil]
      cases parent.node with
      | none => exact place_implicit g _
      | some n => exact (draw_implicit _ _ _).trans (place_implicit g _)

theorem ne_finish_chainGlobals (globals : List Global) (hframed : g.Framed)
    (h : ∀ f ∈ g.flows, f.2 ≠ finish) :
    ∀ f ∈ (chainGlobals globals parent g).2.flows, f.2 ≠ finish := by
  induction globals generalizing parent g with
  | nil => exact h
  | cons v rest ih =>
      refine ih (hframed.mono ((extends_place g _).trans (extends_connect _ _ _))) fun f hf => ?_
      rcases mem_flows_connect.mp hf with hold | ⟨n, -, rfl⟩
      · rw [place_flows] at hold
        exact h f hold
      · exact (hframed.inner_place rfl).ne_finish

theorem doubles_ofBlock (hids : (idsOf b.stmts).Nodup) :
    (empty m false).Doubles (ofBlock m b) b.reentered :=
  doubles_close ⟨⟨framed_empty m false, flowsOnward_empty m false, nofun, nofun, nofun,
    holds_start m false⟩, fresh_empty m false hids⟩ nofun

theorem doubles_ofModule (hids : (m.globals.flatMap Global.ids ++ idsOf m.body.stmts).Nodup) :
    (chainGlobals m.globals (.drawn start) (empty m true)).2.Doubles (ofModule m)
      m.body.reentered := by
  obtain ⟨hflows, hpoints⟩ := admits_chainGlobals m.globals (framed_empty m true)
    (flowsOnward_empty m true) (holds_start m true)
  have hframed := (framed_empty m true).mono (extends_chainGlobals m.globals (.drawn start) _)
  exact doubles_close ⟨⟨hframed, hflows, nofun, nofun, nofun, hpoints⟩, fresh_chainGlobals hids⟩
    (ne_finish_chainGlobals m.globals (framed_empty m true) nofun)

/-- The nodes that predecessors are listed for, and how often. -/
theorem count_predecessors (h : g.Intact) (source n : NodeId) :
    (g.predecessors n).count source =
      (if (source, n) ∈ g.edges then 1 else 0) + (if (source, n) ∈ g.implicit then 1 else 0) := by
  have hcount (flows : List Flow) :
      ((flows.filter fun f => f.2 = n).map Prod.fst).count source = flows.count (source, n) := by
    induction flows with
    | nil => rfl
    | cons f rest ih =>
        rw [List.filter_cons, List.count_cons, ← ih]
        by_cases hn : f.2 = n <;> by_cases hsource : f.1 = source <;>
          simp [hn, hsource, Prod.ext_iff]
  rw [predecessors, hcount, flows, List.count_append, h.edges.count, h.implicit.count]

theorem nodup_predecessors_iff (h : g.Intact) (n : NodeId) :
    (g.predecessors n).Nodup ↔ ∀ source, ¬ g.Doubled (source, n) := by
  rw [List.nodup_iff_count_le_one]
  refine forall_congr' fun source => ?_
  rw [count_predecessors h, Doubled]
  by_cases hedge : (source, n) ∈ g.edges <;> by_cases himplicit : (source, n) ∈ g.implicit <;>
    simp [hedge, himplicit]

end Graph

namespace Module

variable {m : Module} {g : Graph} {b : Block}

/-- Where all numbers are distinct, the doubled flows of a graph lead to the heads of the loops that
are gone back to twice, one to each. -/
theorem Charts.doubled (hids : m.ids.Nodup) (h : m.Charts g b) : ∃ doubled : List Flow,
    (∀ f, g.Doubled f ↔ f ∈ doubled) ∧
      doubled.map (fun f => g.nodes[f.2]?) = b.reentered.map fun c => some (.expr c) := by
  have hnodup := h.nodup_ids hids
  have hfrom {g₀ : Graph} (hnone : g₀.implicit = []) (hdoubles : g₀.Doubles g b.reentered) :
      ∃ doubled : List Flow, (∀ f, g.Doubled f ↔ f ∈ doubled) ∧
        doubled.map (fun f => g.nodes[f.2]?) = b.reentered.map fun c => some (.expr c) := by
    obtain ⟨news, hiff, hnodes⟩ := hdoubles
    refine ⟨news, fun f => (hiff f).trans (or_iff_right ?_), ?_⟩
    · rintro ⟨-, himplicit⟩
      rw [hnone] at himplicit
      cases himplicit
    · have hshown : ∀ c ∈ b.reentered, Point.expr c ∈ pointsOf b.stmts := fun c hc =>
        (reenteredOf_sublist b.stmts).subset (List.mem_map_of_mem hc)
      have hfound := ((List.forall₂_and_left _ _).mpr ⟨hshown, hnodes⟩).imp fun c f hf =>
        (h.depicts_shown.getElem?_of_find? (nodup_keys_of_ids hnodup)
          (List.mem_append_right _ hf.1) hf.2).symm
      rw [eq_comm, ← List.forall₂_eq_eq_eq, List.forall₂_map_left_iff, List.forall₂_map_right_iff]
      exact hfound
  have hblock {b : Block} := doubles_ofBlock (m := m) (b := b)
  cases h with
  | module =>
      rw [show (ofModule m).shownGlobals = m.globals from
        shownGlobals_graphWith m none m.body] at hnodup
      exact hfrom (implicit_chainGlobals m.globals rfl) (doubles_ofModule hnodup)
  | function hf => exact hfrom rfl (hblock hnodup.of_append_right)
  | block hb => exact hfrom rfl (hblock hnodup.of_append_right)

/-- Where all numbers are distinct, the predecessors of a node are the sources of the flows into it,
each listed once for the edge and once for the implied flow. A flow is both drawn and implied only
if it leads to the head of a loop whose body ends where a `continue` has gone back already, and
there is exactly one such flow to each such head. So all nodes but these heads have each of their
predecessors once. -/
theorem Charts.predecessors_once (hids : m.ids.Nodup) (h : m.Charts g b) :
    g.predecessorTable = some ((List.range g.nodes.length).map g.predecessors) ∧
    (∀ source n, (g.predecessors n).count source =
      (if (source, n) ∈ g.edges then 1 else 0) + if (source, n) ∈ g.implicit then 1 else 0) ∧
    (∀ f, f ∈ g.edges → f ∈ g.implicit → ∃ c ∈ b.reentered, g.nodes[f.2]? = some (.expr c)) ∧
    (∀ c ∈ b.reentered, ∃ n, g.nodes[n]? = some (.expr c) ∧
      ∃ source, ∀ s, (s, n) ∈ g.edges ∧ (s, n) ∈ g.implicit ↔ s = source) ∧
    ∀ n, (g.predecessors n).Nodup ↔ ∀ c ∈ b.reentered, g.nodes[n]? ≠ some (.expr c) := by
  obtain ⟨showsGlobals, hsteps⟩ := h.exists_steps
  have hintact := (intact_empty m showsGlobals).steps hsteps
  obtain ⟨doubled, hdoubled, hheads⟩ := h.doubled hids
  have hnodup : (doubled.map fun f => g.nodes[f.2]?).Nodup := by
    have hpoints := (nodup_keys_of_ids (h.nodup_ids hids)).of_map.of_append_right
    rw [hheads, ← Function.comp_def some Point.expr, ← List.map_map]
    exact ((reenteredOf_sublist b.stmts).nodup hpoints).map (Option.some_injective _)
  have hleads : ∀ f ∈ doubled, ∃ c ∈ b.reentered, g.nodes[f.2]? = some (.expr c) := by
    intro f hf
    have hmem : g.nodes[f.2]? ∈ doubled.map fun f => g.nodes[f.2]? := List.mem_map_of_mem hf
    rw [hheads] at hmem
    exact (List.mem_map.mp hmem).imp fun c hc => ⟨hc.1, hc.2.symm⟩
  have honce : ∀ c ∈ b.reentered, ∃ n, g.nodes[n]? = some (.expr c) ∧
      ∃ source, ∀ s, g.Doubled (s, n) ↔ s = source := by
    intro c hc
    have hmem : some (Point.expr c) ∈ b.reentered.map fun c => some (.expr c) :=
      List.mem_map_of_mem hc
    rw [← hheads] at hmem
    obtain ⟨⟨source, n⟩, hf, hnode⟩ := List.mem_map.mp hmem
    refine ⟨n, hnode, source, fun s => (hdoubled _).trans ⟨fun hs => ?_, fun hs => hs ▸ hf⟩⟩
    exact congrArg Prod.fst (List.inj_on_of_nodup_map hnodup hs hf rfl)
  refine ⟨?_, fun source n => count_predecessors hintact source n,
    fun f hedge himplicit => hleads f ((hdoubled f).mp ⟨hedge, himplicit⟩), honce, fun n => ?_⟩
  · obtain ⟨globals, hdepicts⟩ := h.exists_depicts
    refine if_pos (List.all_eq_true.mpr fun f hf => ?_)
    exact decide_eq_true (hdepicts.inside f hf).2
  · rw [nodup_predecessors_iff hintact]
    constructor
    · intro hnone c hc hnode
      obtain ⟨n', hnode', source, hsource⟩ := honce c hc
      have hsame : n' = n := Option.some.inj
        ((find?_of_getElem? hintact.keys hnode').symm.trans (find?_of_getElem? hintact.keys hnode))
      exact hnone source (hsame ▸ (hsource source).mpr rfl)
    · intro hnone source hsource
      obtain ⟨c, hc, hnode⟩ := hleads _ ((hdoubled _).mp hsource)
      exact hnone c hc hnode

/-- A loop that a branch of its body goes back in early, inside a `try` in a loop that every
`continue` in it leaves behind. -/
def skipping : Module :=
  let early := .if 10 (.literal 11 (.bool false)) ⟨12, [.jump 13 .continue]⟩ none
  let inner := .for 6 ⟨7, 0, "v", .int⟩ (.literal 8 (.int 1)) ⟨9, [early]⟩
  let outer := .while 2 (.literal 3 (.bool true)) ⟨4, [.try 5 ⟨14, [inner]⟩
    [⟨15, none, ⟨16, [.jump 17 .continue]⟩⟩], .simple 18 .yield]⟩ none
  ⟨"skipping", [], [], ⟨1, [outer]⟩, []⟩

theorem Charts.predecessors_once_skipping : skipping.ids.Nodup ∧
    skipping.Charts (.ofModule skipping) skipping.body ∧
    skipping.body.reentered.map Expr.id = [8] ∧
    ∃ n, (ofModule skipping).nodes[n]? = some (.expr (.literal 8 (.int 1))) ∧
      ¬ ((ofModule skipping).predecessors n).Nodup := by
  have hids : skipping.ids.Nodup := by decide
  have hcharts : skipping.Charts (.ofModule skipping) skipping.body := .module
  obtain ⟨-, -, -, honce, hnodup⟩ := Charts.predecessors_once hids hcharts
  have hmem : Expr.literal 8 (.int 1) ∈ skipping.body.reentered :=
    List.mem_singleton_self _
  obtain ⟨n, hn, -⟩ := honce _ hmem
  exact ⟨hids, hcharts, by decide, n, hn, fun h => (hnodup n).mp h _ hmem hn⟩

/-- The loop `while (true) { continue; }` goes back from its condition to its condition, once by an
implied flow and once by an edge. -/
theorem Charts.predecessors_repeated :
    let m : Module := ⟨"m", [], [], ⟨0, [.while 1 (.literal 2 (.bool true))
      ⟨3, [.jump 4 .continue]⟩ none]⟩, []⟩
    m.ids.Nodup ∧ m.Charts (.ofModule m) m.body ∧ (2, 2) ∈ (ofModule m).edges ∧
      (2, 2) ∈ (ofModule m).implicit ∧ (ofModule m).predecessors 2 = [0, 2, 2] :=
  ⟨by decide, .module, by decide, by decide, by decide⟩

end Module

end ControlFlow

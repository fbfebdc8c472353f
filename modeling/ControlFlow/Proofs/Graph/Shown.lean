import ControlFlow.Proofs.Graph.Growth

/-! # What lowering shows

Every point of the lowered statements gets a node, and every control expression and loop variable
an owner.
-/

namespace ControlFlow

namespace Graph

/-- The points of a statement have nodes, and its controls have their owner. -/
structure Shows (g : Graph) (s : Stmt) : Prop where
  found : ∀ p ∈ s.ownPoints, ∃ n, g.find? p.key = some n
  owned : s.controls ⊆ g.owners

variable {g g' : Graph}

theorem Shows.mono {s : Stmt} (h : g.Shows s) (hext : g.Extends g') : g'.Shows s := by
  refine ⟨fun p hp => ?_, fun o ho => hext.owners (h.owned ho)⟩
  obtain ⟨n, hn⟩ := h.found p hp
  exact ⟨n, hext.find? hn⟩

/-- All of some statements are shown. -/
def ShowsAll (g : Graph) (ss : List Stmt) : Prop := ∀ s ∈ ss, g.Shows s

theorem ShowsAll.mono {ss : List Stmt} (h : g.ShowsAll ss) (hext : g.Extends g') :
    g'.ShowsAll ss :=
  fun s hs => (h s hs).mono hext

theorem showsAll_append {ss ts : List Stmt} :
    g.ShowsAll (ss ++ ts) ↔ g.ShowsAll ss ∧ g.ShowsAll ts :=
  List.forall_mem_append

theorem showsAll_cons {s : Stmt} {ss : List Stmt} :
    g.ShowsAll (s :: ss) ↔ g.Shows s ∧ g.ShowsAll ss :=
  List.forall_mem_cons

theorem showsAll_nil : g.ShowsAll [] := fun _ h => nomatch h

end Graph

namespace Draft

variable {d : Draft}

theorem extends_returnTo (d : Draft) (e : Exit) (n : NodeId) :
    d.toGraph.Extends (d.returnTo e n).toGraph :=
  Graph.extends_connect _ _ _

theorem extends_join (d : Draft) (es : List Exit) : d.toGraph.Extends (d.join es).2.toGraph :=
  (Graph.extends_placeMark _ _).trans (Graph.extends_connectAll _ _ _)

theorem extends_enterVar (d : Draft) (head : NodeId) (var : LoopVar) (s : Stmt) :
    d.toGraph.Extends (d.enterVar head var s).2.toGraph :=
  (d.grows_enterVar (A := fun _ => True) (O := fun _ => True) head trivial trivial).extends

theorem find?_enter (d : Draft) (parent : Exit) (p : Point) :
    (d.enter parent p).2.find? p.key = some (d.enter parent p).1 :=
  (Graph.extends_connect _ _ _).find? (Graph.find?_place d.toGraph p)

theorem find?_enterControl (d : Draft) (parent : Exit) (e : Expr) (s : Stmt) :
    (d.enterControl parent e s).2.find? (Point.expr e).key =
      some (d.enterControl parent e s).1 :=
  d.find?_enter parent (.expr e)

theorem mem_owners_enterControl (d : Draft) (parent : Exit) (e : Expr) (s : Stmt) :
    (e.id, s) ∈ (d.enterControl parent e s).2.owners :=
  List.mem_cons_self

theorem find?_enterVar (d : Draft) (head : NodeId) (var : LoopVar) (s : Stmt) :
    (d.enterVar head var s).2.find? (Point.loopVar var).key =
      some (d.enterVar head var s).1 := by
  have hplace := Graph.find?_place d.toGraph (.loopVar var)
  rw [Draft.enterVar_toGraph]
  exact (Graph.extends_draw _ _ _).find? hplace

theorem mem_owners_enterVar (d : Draft) (head : NodeId) (var : LoopVar) (s : Stmt) :
    (var.id, s) ∈ (d.enterVar head var s).2.owners :=
  List.mem_cons_self

theorem shows_enterControl (d : Draft) (parent : Exit) {e : Expr} {s : Stmt}
    (hpoints : s.ownPoints = [.expr e]) (hcontrols : s.controls = [(e.id, s)]) :
    (d.enterControl parent e s).2.Shows s := by
  refine ⟨fun p hp => ?_, fun o ho => ?_⟩
  · rw [hpoints] at hp
    cases List.mem_singleton.mp hp
    exact ⟨_, d.find?_enterControl parent e s⟩
  · rw [hcontrols] at ho
    cases List.mem_singleton.mp ho
    exact d.mem_owners_enterControl parent e s

end Draft

theorem extends_lowerSeq (ss : List Stmt) (loop : Option NodeId) (parent : Exit) (d : Draft) :
    d.toGraph.Extends (lowerSeq loop ss parent d).2.toGraph :=
  (grows_lowerSeq ss loop parent d).extends

theorem extends_lowerCatches (cs : List Catch) (loop : Option NodeId) (raised : Exit)
    (joined : NodeId) (d : Draft) :
    d.toGraph.Extends (lowerCatches loop cs raised joined d).toGraph :=
  (grows_lowerCatches cs loop raised joined d).extends

theorem extends_aroundLoop (body : List Stmt) (head n : NodeId) (d : Draft) :
    d.toGraph.Extends (aroundLoop body head n d).toGraph :=
  (extends_lowerSeq body _ _ d.openLoop).trans (Draft.extends_returnTo _ _ _)

/-- Lowering shows every statement, at any depth. -/
theorem shows_lower :
    (∀ s : Stmt, ∀ loop parent d, (s.lower loop parent d).2.ShowsAll (s :: s.inner)) ∧
    (∀ ss, ∀ loop parent d, (lowerSeq loop ss parent d).2.ShowsAll (stmtsOf ss)) ∧
    (∀ cs, ∀ loop raised joined d,
      (lowerCatches loop cs raised joined d).ShowsAll (stmtsOfCatches cs)) := by
  refine tree_induction ?simple ?jump ?block ?while_ ?for_ ?if_ ?try_ ?nil ?cons ?noCatch ?catch_
  case simple =>
    intro id what loop parent d
    refine Graph.showsAll_cons.mpr ⟨⟨fun p hp => ?_, nofun⟩, Graph.showsAll_nil⟩
    cases List.mem_singleton.mp hp
    exact ⟨_, d.find?_enter parent _⟩
  case jump =>
    intro id how loop parent d
    refine Graph.showsAll_cons.mpr ⟨⟨fun p hp => ?_, nofun⟩, Graph.showsAll_nil⟩
    -- Only a jump with a value shows a point.
    cases how with
    | «return» value =>
        cases value with
        | none => cases hp
        | some e =>
            cases List.mem_singleton.mp hp
            exact ⟨_, d.find?_enter parent _⟩
    | throw value =>
        cases value with
        | none => cases hp
        | some e =>
            cases List.mem_singleton.mp hp
            exact ⟨_, d.find?_enter parent _⟩
    | _ => cases hp
  case block =>
    intro id bid body ih loop parent d
    exact Graph.showsAll_cons.mpr ⟨⟨nofun, nofun⟩, ih loop parent d⟩
  case while_ =>
    intro id cond bid body orElse ihbody ihelse loop parent d
    rw [inner_while, Graph.showsAll_cons, Graph.showsAll_append]
    have hhead := (d.shows_enterControl parent (e := cond)
      (s := .while id cond ⟨bid, body⟩ orElse) rfl rfl)
    rcases orElse with _ | ⟨eid, orElse⟩
    · exact ⟨hhead.mono (extends_aroundLoop _ _ _ _),
        (ihbody _ _ _).mono (Draft.extends_returnTo _ _ _), Graph.showsAll_nil⟩
    · have hafter (parent : Exit) (d outer : Draft) (es : List Exit) : d.toGraph.Extends
          ((lowerSeq loop orElse parent (d.closeLoop outer)).2.join es).2.toGraph :=
        (extends_lowerSeq orElse loop parent (d.closeLoop outer)).trans (Draft.extends_join _ _)
      refine ⟨hhead.mono ((extends_aroundLoop _ _ _ _).trans (hafter _ _ _ _)),
        (ihbody _ _ _).mono ((Draft.extends_returnTo _ _ _).trans (hafter _ _ _ _)),
        (ihelse _ _ _).mono (Draft.extends_join _ _)⟩
  case for_ =>
    intro id var seq bid body ih loop parent d
    refine Graph.showsAll_cons.mpr ⟨Graph.Shows.mono ⟨fun p hp => ?_, fun o ho => ?_⟩
      (extends_aroundLoop _ _ _ _), (ih _ _ _).mono (Draft.extends_returnTo _ _ _)⟩
    -- The sequence is placed first, and the loop variable after it.
    · rcases List.mem_cons.mp hp with rfl | hp
      · exact ⟨_, (Draft.extends_enterVar _ _ _ _).find? (d.find?_enterControl parent seq _)⟩
      · cases List.mem_singleton.mp hp
        exact ⟨_, Draft.find?_enterVar _ _ var _⟩
    · rcases List.mem_cons.mp ho with rfl | ho
      · exact (Draft.extends_enterVar _ _ _ _).owners (d.mem_owners_enterControl parent seq _)
      · cases List.mem_singleton.mp ho
        exact Draft.mem_owners_enterVar _ _ var _
  case if_ =>
    intro id cond bid body orElse ihbody ihelse loop parent d
    rw [inner_if, Graph.showsAll_cons, Graph.showsAll_append]
    have htest := d.shows_enterControl parent (e := cond)
      (s := .if id cond ⟨bid, body⟩ orElse) rfl rfl
    rcases orElse with _ | ⟨eid, orElse⟩
    · exact ⟨htest.mono (extends_lowerSeq _ _ _ _), ihbody _ _ _, Graph.showsAll_nil⟩
    · have hafter (parent : Exit) (d : Draft) (es : List Exit) : d.toGraph.Extends
          ((lowerSeq loop orElse parent d).2.join es).2.toGraph :=
        (extends_lowerSeq _ _ _ _).trans (Draft.extends_join _ _)
      exact ⟨htest.mono ((extends_lowerSeq _ _ _ _).trans (hafter _ _ _)),
        (ihbody _ _ _).mono (hafter _ _ _), (ihelse _ _ _).mono (Draft.extends_join _ _)⟩
  case try_ =>
    intro id bid body catches ihbody ihcatches loop parent d
    refine Graph.showsAll_cons.mpr ⟨⟨nofun, nofun⟩, Graph.showsAll_append.mpr ⟨?_, ?_⟩⟩
    · exact (ihbody _ _ _).mono ((Draft.extends_join _ _).trans (extends_lowerCatches _ _ _ _ _))
    · exact ihcatches _ _ _ _
  case nil =>
    intro loop parent d
    exact Graph.showsAll_nil
  case cons =>
    intro s rest ihs ihrest loop parent d
    rw [stmtsOf, ← List.cons_append, Graph.showsAll_append]
    unfold lowerSeq
    dsimp only
    split
    · exact ⟨(ihs _ _ _).mono ((extends_lowerSeq _ _ _ _).trans (Draft.extends_join _ _)),
        (ihrest _ _ _).mono (Draft.extends_join _ _)⟩
    · exact ⟨(ihs _ _ _).mono (extends_lowerSeq _ _ _ _), ihrest _ _ _⟩
  case noCatch =>
    intro loop raised joined d
    exact Graph.showsAll_nil
  case catch_ =>
    intro id param bid body rest ihbody ihrest loop raised joined d
    rw [stmtsOfCatches, Graph.showsAll_append]
    exact ⟨(ihbody _ _ _).mono ((Draft.extends_returnTo _ _ _).trans
      (extends_lowerCatches _ _ _ _ _)), ihrest _ _ _ _⟩

end ControlFlow

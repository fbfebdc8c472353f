import ControlFlow.Graph.Search
import ControlFlow.Proofs.Graph.Shown
import ControlFlow.Proofs.Tree.Live

/-! # Drawn paths reach what is not behind a jump

Lowering draws an edge on from the exit of each statement that is not behind a jump, so that edges
alone lead from the start to all of these statements. Only what is behind a jump can be dead.
-/

namespace ControlFlow

open Search (Path)

theorem Search.Path.mono {edges edges' : List (Nat × Nat)} {passes : Nat → Bool} {origin m : Nat}
    (h : Path edges passes origin m) (hsub : edges ⊆ edges') : Path edges' passes origin m := by
  induction h with
  | edge hedge => exact .edge (hsub hedge)
  | step _ hpass hedge ih => exact .step ih hpass (hsub hedge)

namespace Graph

/-- A drawn path leads from the start to a node, or the node is the start. -/
def Live (g : Graph) (n : NodeId) : Prop := n = start ∨ Path g.edges (fun _ => true) start n

/-- An exit has a drawn node that drawn paths reach. -/
def LiveExit (g : Graph) (e : Exit) : Prop := ∃ n, e.node = some n ∧ g.Live n

/-- The points of some statements have nodes that drawn paths reach. -/
def LiveAll (g : Graph) (ss : List Stmt) : Prop :=
  ∀ s ∈ ss, ∀ p ∈ s.ownPoints, ∃ n, g.find? p.key = some n ∧ g.Live n

variable {g g' : Graph} {e : Exit} {n target : NodeId} {ss ts : List Stmt}

theorem Live.mono (h : g.Live n) (hext : g.Extends g') : g'.Live n :=
  h.imp_right fun hpath => hpath.mono hext.edges

theorem Live.edge (h : g.Live n) (hedge : (n, target) ∈ g.edges) : g.Live target := by
  rcases h with rfl | hpath
  · exact .inr (.edge hedge)
  · exact .inr (.step hpath rfl hedge)

theorem LiveExit.mono (h : g.LiveExit e) (hext : g.Extends g') : g'.LiveExit e := by
  obtain ⟨n, hn, hlive⟩ := h
  exact ⟨n, hn, hlive.mono hext⟩

theorem liveExit_drawn (h : g.Live n) : g.LiveExit (.drawn n) := ⟨n, rfl, h⟩

theorem LiveAll.mono (h : g.LiveAll ss) (hext : g.Extends g') : g'.LiveAll ss := by
  intro s hs p hp
  obtain ⟨n, hn, hlive⟩ := h s hs p hp
  exact ⟨n, hext.find? hn, hlive.mono hext⟩

theorem liveAll_append : g.LiveAll (ss ++ ts) ↔ g.LiveAll ss ∧ g.LiveAll ts :=
  List.forall_mem_append

theorem liveAll_cons {s : Stmt} : g.LiveAll (s :: ss) ↔
    (∀ p ∈ s.ownPoints, ∃ n, g.find? p.key = some n ∧ g.Live n) ∧ g.LiveAll ss :=
  List.forall_mem_cons

theorem liveAll_nil : g.LiveAll [] := fun _ h => nomatch h

theorem LiveAll.cons_none {s : Stmt} (h : g.LiveAll ss) (hown : s.ownPoints = []) :
    g.LiveAll (s :: ss) := by
  refine liveAll_cons.mpr ⟨fun p hp => ?_, h⟩
  rw [hown] at hp
  cases hp

/-- A statement that shows one point is live from when the node of the point was. -/
theorem LiveAll.cons_shown {s : Stmt} {p : Point} (h : g'.LiveAll ss) (hown : s.ownPoints = [p])
    (hfound : g.find? p.key = some n) (hlive : g.Live n) (hext : g.Extends g') :
    g'.LiveAll (s :: ss) := by
  refine liveAll_cons.mpr ⟨fun q hq => ?_, h⟩
  rw [hown] at hq
  cases List.mem_singleton.mp hq
  exact ⟨n, hext.find? hfound, hlive.mono hext⟩

/-- Going on from a live exit makes the next node live. -/
theorem live_connect (h : g.LiveExit e) : (g.connect e target).Live target := by
  obtain ⟨n, hn, hlive⟩ := h
  exact (hlive.mono (extends_connect g e target)).edge (mem_edges_connect.mpr (.inr ⟨n, hn, rfl⟩))

end Graph

namespace Draft

open ControlFlow.Graph

variable {d : Draft} {parent e : Exit}

theorem live_enter (h : d.LiveExit parent) (p : Point) :
    (d.enter parent p).2.Live (d.enter parent p).1 :=
  live_connect (h.mono (extends_place d.toGraph p))

theorem live_enterControl (h : d.LiveExit parent) (c : Expr) (s : Stmt) :
    (d.enterControl parent c s).2.Live (d.enterControl parent c s).1 :=
  live_enter h (.expr c)

theorem live_enterVar {head : NodeId} (h : d.Live head) (var : LoopVar) (s : Stmt) :
    (d.enterVar head var s).2.Live (d.enterVar head var s).1 := by
  refine (h.mono (d.extends_enterVar head var s)).edge ?_
  rw [enterVar_toGraph]
  exact mem_edges_draw.mpr (.inr rfl)

theorem live_join {es : List Exit} (he : e ∈ es) (h : d.LiveExit e) :
    (d.join es).2.Live (d.join es).1 := by
  obtain ⟨n, hn, hlive⟩ := h
  refine (hlive.mono (d.extends_join es)).edge ?_
  exact mem_edges_connectAll.mpr (.inr ⟨e, he, n, hn, rfl⟩)

theorem liveExit_jump {loop : Option NodeId} (h : d.LiveExit parent) (id : TreeId) (how : Jump) :
    (d.jump loop parent id how).2.LiveExit (d.jump loop parent id how).1 ∧
      (d.jump loop parent id how).2.LiveAll [.jump id how] := by
  have hnone (d : Draft) (hown : (Stmt.jump id how).ownPoints = []) : d.LiveAll [.jump id how] :=
    liveAll_nil.cons_none hown
  have henter := live_enter h (.stmt (.jump id how))
  have hfound := d.find?_enter parent (.stmt (.jump id how))
  cases how with
  | «return» value =>
      cases value with
      | none => exact ⟨h, hnone _ rfl⟩
      | some v =>
          exact ⟨liveExit_drawn henter, liveAll_nil.cons_shown rfl hfound henter (.refl _)⟩
  | throw value =>
      cases value with
      | none => exact ⟨h, hnone _ rfl⟩
      | some v =>
          exact ⟨liveExit_drawn henter, liveAll_nil.cons_shown rfl hfound henter (.refl _)⟩
  | «break» =>
      cases loop with
      | none => exact ⟨h, hnone _ rfl⟩
      | some head => exact ⟨h, hnone _ rfl⟩
  | «continue» =>
      cases loop with
      | none => exact ⟨h, hnone _ rfl⟩
      | some head => exact ⟨h.mono (extends_implyAll _ _ _), hnone _ rfl⟩

end Draft

open Draft ControlFlow.Graph

/-- Where statements are entered from a live exit, they are left through one, and all of them that
are not behind a jump are live. -/
theorem live_lower :
    (∀ s : Stmt, ∀ loop parent d, Graph.LiveExit (Draft.toGraph d) parent →
      (s.lower loop parent d).2.LiveExit (s.lower loop parent d).1 ∧
        (s.lower loop parent d).2.LiveAll (s :: s.liveInner)) ∧
    (∀ ss, ∀ loop parent d, Graph.LiveExit (Draft.toGraph d) parent →
      (lowerSeq loop ss parent d).2.LiveExit (lowerSeq loop ss parent d).1 ∧
        (lowerSeq loop ss parent d).2.LiveAll (liveStmtsOf ss)) ∧
    (∀ cs, ∀ loop raised joined d, Graph.LiveExit (Draft.toGraph d) raised →
      (lowerCatches loop cs raised joined d).LiveAll (liveStmtsOfCatches cs)) := by
  refine tree_induction ?simple ?jump ?block ?while_ ?for_ ?if_ ?try_ ?nil ?cons ?noCatch ?catch_
  case simple =>
    intro id what loop parent d h
    have henter := live_enter h (.stmt (.simple id what))
    exact ⟨liveExit_drawn henter,
      liveAll_nil.cons_shown rfl (d.find?_enter parent _) henter (.refl _)⟩
  case jump =>
    intro id how loop parent d h
    exact liveExit_jump h id how
  case block =>
    intro id bid body ih loop parent d h
    obtain ⟨hexit, hinner⟩ := ih loop parent d h
    exact ⟨hexit, hinner.cons_none rfl⟩
  case while_ =>
    intro id cond bid body orElse ihbody ihelse loop parent d h
    have hhead := live_enterControl h cond (.while id cond ⟨bid, body⟩ orElse)
    have hcond := d.find?_enterControl parent cond (.while id cond ⟨bid, body⟩ orElse)
    -- The loop is left at its head, which is live whatever its body does.
    have hinside (d : Draft) (head n : NodeId) (h : d.Live n) :
        (aroundLoop body head n d).LiveAll (liveStmtsOf body) :=
      ((ihbody _ _ d.openLoop (liveExit_drawn h)).2).mono (extends_returnTo _ _ _)
    have haround (d : Draft) (head : NodeId) := extends_aroundLoop body head head d
    rw [liveInner_while]
    rcases orElse with _ | ⟨eid, orElse⟩
    · refine ⟨⟨_, rfl, hhead.mono (haround _ _)⟩, .cons_shown ?_ rfl hcond hhead (haround _ _)⟩
      exact liveAll_append.mpr ⟨hinside _ _ _ hhead, liveAll_nil⟩
    · obtain ⟨hexit, hother⟩ := ihelse loop _ _ (liveExit_drawn (hhead.mono (haround _ _)))
      have hafter (d : Draft) (parent : Exit) (es : List Exit) :=
        (extends_lowerSeq orElse loop parent d).trans (extends_join _ es)
      refine ⟨⟨_, rfl, live_join List.mem_cons_self hexit⟩,
        .cons_shown ?_ rfl hcond hhead ((haround _ _).trans (hafter _ _ _))⟩
      exact liveAll_append.mpr ⟨(hinside _ _ _ hhead).mono (hafter _ _ _),
        hother.mono (extends_join _ _)⟩
  case for_ =>
    intro id var seq bid body ih loop parent d h
    have hhead := live_enterControl h seq (.for id var seq ⟨bid, body⟩)
    have hvar := live_enterVar hhead var (.for id var seq ⟨bid, body⟩)
    have hinside (d : Draft) (head n : NodeId) (h : d.Live n) :
        (aroundLoop body head n d).LiveAll (liveStmtsOf body) :=
      ((ih _ _ d.openLoop (liveExit_drawn h)).2).mono (extends_returnTo _ _ _)
    have haround (d : Draft) (head n : NodeId) := extends_aroundLoop body head n d
    have hback (d : Draft) (head n : NodeId) (s : Stmt) :=
      (extends_enterVar d head var s).trans (haround (d.enterVar head var s).2 head n)
    refine ⟨⟨_, rfl, hhead.mono (hback _ _ _ _)⟩,
      liveAll_cons.mpr ⟨fun p hp => ?_, hinside _ _ _ hvar⟩⟩
    rcases List.mem_cons.mp hp with rfl | hp
    · exact ⟨_, (hback _ _ _ _).find? (d.find?_enterControl parent seq _),
        hhead.mono (hback _ _ _ _)⟩
    · cases List.mem_singleton.mp hp
      exact ⟨_, (haround _ _ _).find? (find?_enterVar _ _ var _), hvar.mono (haround _ _ _)⟩
  case if_ =>
    intro id cond bid body orElse ihbody ihelse loop parent d h
    have htest := live_enterControl h cond (.if id cond ⟨bid, body⟩ orElse)
    have hcond := d.find?_enterControl parent cond (.if id cond ⟨bid, body⟩ orElse)
    obtain ⟨hexit, hbody⟩ := ihbody loop _ _ (liveExit_drawn htest)
    have hgrown (parent : Exit) (d : Draft) := extends_lowerSeq body loop parent d
    rw [liveInner_if]
    rcases orElse with _ | ⟨eid, orElse⟩
    · refine ⟨hexit, .cons_shown ?_ rfl hcond htest (hgrown _ _)⟩
      exact liveAll_append.mpr ⟨hbody, liveAll_nil⟩
    · obtain ⟨hexit', hother⟩ := ihelse loop _ _ (liveExit_drawn (htest.mono (hgrown _ _)))
      have hafter (d : Draft) (parent : Exit) (es : List Exit) :=
        (extends_lowerSeq orElse loop parent d).trans (extends_join _ es)
      refine ⟨liveExit_drawn (live_join List.mem_cons_self hexit'),
        .cons_shown ?_ rfl hcond htest ((hgrown _ _).trans (hafter _ _ _))⟩
      exact liveAll_append.mpr ⟨hbody.mono (hafter _ _ _), hother.mono (extends_join _ _)⟩
  case try_ =>
    intro id bid body catches ihbody ihcatches loop parent d h
    obtain ⟨hexit, hbody⟩ := ihbody loop parent d h
    have hjoined := live_join (List.mem_singleton_self _) hexit
    have hjoin := extends_join (lowerSeq loop body parent d).2 [(lowerSeq loop body parent d).1]
    -- Every catch can be entered from the exit before the `try`.
    have hraised := h.mono ((extends_lowerSeq body loop parent d).trans hjoin)
    have hhandled (raised : Exit) (joined : NodeId) (d : Draft) :=
      extends_lowerCatches catches loop raised joined d
    refine ⟨liveExit_drawn (hjoined.mono (hhandled _ _ _)), .cons_none ?_ rfl⟩
    exact liveAll_append.mpr ⟨hbody.mono (hjoin.trans (hhandled _ _ _)),
      ihcatches loop _ _ _ hraised⟩
  case nil =>
    intro loop parent d h
    exact ⟨h, liveAll_nil⟩
  case cons =>
    intro s rest ihs ihrest loop parent d h
    obtain ⟨hexit, hfirst⟩ := ihs loop parent d h
    rw [liveStmtsOf, ← List.cons_append, liveAll_append]
    unfold lowerSeq
    dsimp only
    split
    next hjump =>
      -- What is behind the jump need not be live, and the join is live from the jump.
      have hlive := hexit.mono (extends_lowerSeq rest loop .nowhere _)
      have hafter (d : Draft) (es : List Exit) :=
        (extends_lowerSeq rest loop .nowhere d).trans (extends_join _ es)
      refine ⟨liveExit_drawn (live_join List.mem_cons_self hlive), hfirst.mono (hafter _ _), ?_⟩
      rw [(Bool.and_eq_true_iff.mp hjump).1]
      exact liveAll_nil
    next =>
      obtain ⟨hexit', hrest⟩ := ihrest loop _ _ hexit
      refine ⟨hexit', hfirst.mono (extends_lowerSeq _ _ _ _), ?_⟩
      split
      · exact liveAll_nil
      · exact hrest
  case noCatch =>
    intro loop raised joined d _
    exact liveAll_nil
  case catch_ =>
    intro id param bid body rest ihbody ihrest loop raised joined d h
    have hafter (d : Draft) (e : Exit) := (extends_returnTo d e joined).trans
      (extends_lowerCatches rest loop raised joined _)
    have hmore := (extends_lowerSeq body loop raised d).trans
      (extends_returnTo _ (lowerSeq loop body raised d).1 joined)
    exact liveAll_append.mpr ⟨(ihbody loop raised d h).2.mono (hafter _ _),
      ihrest loop raised joined _ (h.mono hmore)⟩

end ControlFlow

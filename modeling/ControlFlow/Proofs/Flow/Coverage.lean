import ControlFlow.Proofs.Flow.Paths
import ControlFlow.Proofs.Flow.Runs
import ControlFlow.Proofs.Graph.Finished

/-! # Flow graphs cover all runs

Whatever a run visits one after the other is connected by flows, through joins only, from the
start of the graph to its end. The invariant of a run through lowered statements is where its last
node arrives: at the exit of the statements if it ends normally, at the collected jumps if it
returns, throws or breaks, and at the head of the loop if it continues.
-/

namespace ControlFlow

open ControlFlow.Graph

/-- The point at which a loop is entered again. -/
def Stmt.loopPoint : Stmt → Option Point
  | .while _ cond _ _ => some (.expr cond)
  | .for _ _ seq _ => some (.expr seq)
  | _ => none

namespace Graph

/-- A node goes on into statements from an exit, or back to the head of the loop that they are. -/
def Enters (g : Graph) (ss : List Stmt) (parent : Exit) (u : NodeId) : Prop :=
  g.Arrives u parent.points ∨
    ∃ s p n, ss = [s] ∧ s.loopPoint = some p ∧ g.find? p.key = some n ∧ g.Leads u n

/-- Where the last node of a run arrives, by how the run ends. -/
def EndsAt (g : Graph) (loop : Option NodeId) (e : Exit) (d : Draft) (last : NodeId) :
    Ending → Prop
  | .normal => g.Arrives last e.points
  | .return | .throw => g.Arrives last d.leaves
  | .break => loop.isSome = true → g.Arrives last d.breaks
  | .continue => ∀ head, loop = some head → g.Leads last head
  | .raise | .stopped => True

/-- Wherever statements are lowered, the graph covers their runs that visit some points and end in
some way. -/
def Covers (g : Graph) (ss : List Stmt) (visits : List Point) (o : Ending) : Prop :=
  ∀ loop parent d u, d.toGraph.Fresh (pointsOf ss) →
    (lowerSeq loop ss parent d).2.toGraph.Extends g → g.Enters ss parent u →
    ∃ last, g.Follows u visits last ∧
      g.EndsAt loop (lowerSeq loop ss parent d).1 (lowerSeq loop ss parent d).2 last o

variable {g : Graph} {loop : Option NodeId} {parent e e' : Exit} {d d' : Draft} {u last : NodeId}
  {o : Ending}

/-- Where a run ends is kept when more jumps are collected and normal ends are covered. -/
theorem EndsAt.mono (h : g.EndsAt loop e d last o) (hleaves : d.leaves ⊆ d'.leaves)
    (hbreaks : d.breaks ⊆ d'.breaks)
    (hnormal : o = .normal → g.Arrives last e.points → g.Arrives last e'.points) :
    g.EndsAt loop e' d' last o := by
  cases o with
  | normal => exact hnormal rfl h
  | «return» => exact h.mono hleaves
  | throw => exact h.mono hleaves
  | «break» => exact fun hloop => (h hloop).mono hbreaks
  | «continue» => exact h
  | raise => trivial
  | stopped => trivial

end Graph

/-! ## Entering and joining -/

namespace Draft

variable {g : Graph} {d : Draft} {parent : Exit} {u : NodeId}

theorem leads_enter {p : Point} (hext : (d.enter parent p).2.toGraph.Extends g)
    (h : g.Arrives u parent.points) : g.Leads u (d.enter parent p).1 :=
  h.leads fun n hn => hext.flows (mem_flows_connect.mpr (.inr ⟨n, hn, rfl⟩))

/-- A statement is entered at its first point, also where it is a loop that goes round. -/
theorem leads_enterControl {s t : Stmt} {e : Expr}
    (hext : (d.enterControl parent e t).2.toGraph.Extends g)
    (hloop : s.loopPoint = none ∨ s.loopPoint = some (.expr e)) (h : g.Enters [s] parent u) :
    g.Leads u (d.enterControl parent e t).1 := by
  rcases h with harrives | ⟨s', p, n, hs, hp, hn, hleads⟩
  · refine leads_enter (p := .expr e) (d := d) ?_ harrives
    exact (Step.extends (.own (A := fun _ => True) (O := fun _ => True) _ trivial)).trans hext
  · cases hs
    rw [hp] at hloop
    cases hloop.resolve_left nofun
    have hfind := hext.find? (d.find?_enterControl parent e t)
    rw [hn] at hfind
    cases hfind
    exact hleads

theorem follows_enterControl {s t : Stmt} {e : Expr} {visits : List Point} {last : NodeId}
    (hext : (d.enterControl parent e t).2.toGraph.Extends g)
    (hloop : s.loopPoint = none ∨ s.loopPoint = some (.expr e)) (h : g.Enters [s] parent u)
    (hfollows : g.Follows (d.enterControl parent e t).1 visits last) :
    g.Follows u (.expr e :: visits) last :=
  .visit (hext.find? (d.find?_enterControl parent e t)) (leads_enterControl hext hloop h) hfollows

theorem leads_enterVar {head : NodeId} {var : LoopVar} {s : Stmt}
    (hext : (d.enterVar head var s).2.toGraph.Extends g) :
    g.Leads head (d.enterVar head var s).1 := by
  refine .edge (hext.flows ?_)
  rw [enterVar_toGraph]
  exact mem_flows_draw.mpr (.inr rfl)

theorem leads_returnTo {e : Exit} {n : NodeId} (hext : (d.returnTo e n).toGraph.Extends g)
    (h : g.Arrives u e.points) : g.Leads u n :=
  h.leads fun _ hm => hext.flows (mem_flows_connect.mpr (.inr ⟨_, hm, rfl⟩))

theorem isJoin_join {es : List Exit} (hcounted : d.Counted)
    (hext : (d.join es).2.toGraph.Extends g) : g.isJoin (d.join es).1 = true := by
  have hnode : (d.join es).2.nodes[(d.join es).1]? = some (.mark .join d.marks) := by
    refine (extends_connectAll (d.placeMark .join).2 es _).getElem? ?_
    change (d.placeMark .join).2.nodes[(d.placeMark .join).1]? = _
    rw [hcounted.placeMark_eq .join]
    simp
  unfold Graph.isJoin
  rw [hext.getElem? hnode]

/-- From each of its parents, a run arrives at a new join. -/
theorem arrives_join {es : List Exit} {e : Exit} (hcounted : d.Counted)
    (hext : (d.join es).2.toGraph.Extends g) (he : e ∈ es) (h : g.Arrives u e.points) :
    g.Arrives u (Exit.drawn (d.join es).1).points := by
  refine .inr ⟨_, List.mem_singleton_self _, isJoin_join hcounted hext, ?_⟩
  exact h.leads fun n hn => hext.flows (mem_flows_connectAll.mpr (.inr ⟨e, he, n, hn, rfl⟩))

end Draft

/-! ## Statements one after the other -/

variable {g : Graph} {loop : Option NodeId} {visits rest : List Point} {o o' : Ending}

theorem covers_nil : g.Covers [] [] .normal := by
  intro loop parent d u _ _ henter
  refine ⟨u, .done u, ?_⟩
  rcases henter with harrives | ⟨s, p, n, hs, -⟩
  · exact harrives
  · cases hs

/-- A loop is only gone back to where nothing comes after it. -/
theorem Graph.Enters.head {s : Stmt} {ss : List Stmt} {parent : Exit} {u : NodeId}
    (h : g.Enters (s :: ss) parent u) : g.Enters [s] parent u := by
  rcases h with harrives | ⟨t, p, n, hs, hp, hn, hleads⟩
  · exact .inl harrives
  · cases hs
    exact .inr ⟨s, p, n, rfl, hp, hn, hleads⟩

theorem Graph.Fresh.head {s : Stmt} {ss : List Stmt} (h : g.Fresh (pointsOf (s :: ss))) :
    g.Fresh (pointsOf [s]) := by
  rw [pointsOf_cons] at h
  exact h.of_append_left

theorem lowerSeq_cons_of_live {s : Stmt} (hs : s.isJump = false) (ss : List Stmt)
    (parent : Exit) (d : Draft) : lowerSeq loop (s :: ss) parent d =
      lowerSeq loop ss (s.lower loop parent d).1 (s.lower loop parent d).2 := by
  simp [lowerSeq, hs]

theorem covers_cons {s : Stmt} {ss : List Stmt} (hs : s.isJump = false)
    (hfirst : g.Covers [s] visits .normal) (hrest : g.Covers ss rest o) :
    g.Covers (s :: ss) (visits ++ rest) o := by
  intro loop parent d u hfresh hext henter
  rw [lowerSeq_cons_of_live hs] at hext ⊢
  have hlive := hfirst loop parent d u hfresh.head
  rw [lowerSeq_single] at hlive
  obtain ⟨n, hfollows, harrives⟩ := hlive ((extends_lowerSeq _ _ _ _).trans hext) henter.head
  rw [pointsOf_cons] at hfresh
  have hgrown := (grows_lowerSeq [s] loop parent d).steps
  rw [lowerSeq_single] at hgrown
  obtain ⟨last, hfollows', hends⟩ := hrest loop _ _ n (hfresh.after hgrown) hext (.inl harrives)
  exact ⟨last, hfollows.append hfollows', hends⟩

theorem covers_leave {s : Stmt} {ss : List Stmt} (hfirst : g.Covers [s] visits o)
    (ho : o ≠ .normal) : g.Covers (s :: ss) visits o := by
  intro loop parent d u hfresh hext henter
  -- The statements after this one are lowered, but the run does not get to them.
  have hgrown : Draft.Grows (· ∈ pointsOf ss) (· ∈ controlsOf ss) (s.lower loop parent d).2
      (lowerSeq loop (s :: ss) parent d).2 := by
    unfold lowerSeq
    dsimp only
    split
    · exact (grows_lowerSeq ss _ _ _).trans (Draft.grows_join _ _)
    · exact grows_lowerSeq ss _ _ _
  have hlive := hfirst loop parent d u hfresh.head
  rw [lowerSeq_single] at hlive
  obtain ⟨last, hfollows, hends⟩ := hlive (hgrown.extends.trans hext) henter.head
  exact ⟨last, hfollows, hends.mono hgrown.leaves hgrown.breaks fun h _ => absurd h ho⟩

/-! ## Statements without parts -/

theorem covers_simple (id : TreeId) (what : Simple) :
    g.Covers [.simple id what] [.stmt (.simple id what)] .normal := by
  intro loop parent d u _ hext henter
  rw [lowerSeq_single] at hext ⊢
  rcases henter with harrives | ⟨s, p, n, hs, hp, -⟩
  · have hleads := Draft.leads_enter hext harrives
    exact ⟨_, .visit (hext.find? (d.find?_enter parent _)) hleads (.done _), arrives_self g _⟩
  · cases hs
    cases hp

theorem covers_jump (id : TreeId) (how : Jump) :
    g.Covers [.jump id how] (Stmt.jump id how).ownPoints how.ending := by
  intro loop parent d u _ hext henter
  rw [lowerSeq_single] at hext ⊢
  rcases henter with harrives | ⟨s, p, n, hs, hp, -⟩
  · have henter (hext : (d.enter parent (.stmt (.jump id how))).2.toGraph.Extends g) :
        g.Follows u [.stmt (.jump id how)] (d.enter parent (.stmt (.jump id how))).1 :=
      .visit (hext.find? (d.find?_enter parent _)) (Draft.leads_enter hext harrives) (.done _)
    cases how with
    | «return» value =>
        cases value with
        | none => exact ⟨u, .done u, harrives.mono (List.subset_append_right _ _)⟩
        | some e =>
            exact ⟨_, henter hext, .inl (List.mem_append_right _ (List.mem_singleton_self _))⟩
    | throw value =>
        cases value with
        | none => exact ⟨u, .done u, harrives.mono (List.subset_append_right _ _)⟩
        | some e =>
            exact ⟨_, henter hext, .inl (List.mem_append_right _ (List.mem_singleton_self _))⟩
    | «break» =>
        -- Only inside a loop has the jump to arrive anywhere.
        refine ⟨u, .done u, fun hloop => ?_⟩
        obtain ⟨head, rfl⟩ := Option.isSome_iff_exists.mp hloop
        exact harrives.mono (List.subset_append_right _ _)
    | «continue» =>
        refine ⟨u, .done u, fun head hloop => ?_⟩
        subst hloop
        exact harrives.leads fun n hn =>
          hext.flows (mem_flows_implyAll.mpr (.inr ⟨n, hn, rfl⟩))
  · cases hs
    cases hp

/-! ## Branches -/

theorem covers_block {id bid : TreeId} {body : List Stmt} (hbody : g.Covers body visits o) :
    g.Covers [.block id ⟨bid, body⟩] visits o := by
  intro loop parent d u hfresh hext henter
  rw [lowerSeq_single] at hext ⊢
  rw [pointsOf_block] at hfresh
  rcases henter with harrives | ⟨s, p, n, hs, hp, -⟩
  · exact hbody loop parent d u hfresh hext (.inl harrives)
  · cases hs
    cases hp

section If

variable {id bid : TreeId} {cond : Expr} {body : List Stmt} {orElse : Option Block}

theorem covers_ifTrue (hbody : g.Covers body visits o) :
    g.Covers [.if id cond ⟨bid, body⟩ orElse] (.expr cond :: visits) o := by
  intro loop parent d u hfresh hext henter
  rw [lowerSeq_single] at hext ⊢
  rw [pointsOf_if] at hfresh
  have hinside (s : Stmt) := hfresh.enterControl parent s
  rcases orElse with _ | ⟨eid, orElse⟩
  · have htest := (extends_lowerSeq _ _ _ _).trans hext
    obtain ⟨last, hfollows, hends⟩ :=
      hbody loop _ _ _ (hinside _).of_append_left hext (.inl (arrives_self g _))
    refine ⟨last, Draft.follows_enterControl htest (.inl rfl) henter hfollows, ?_⟩
    -- Without an `else` part, the test is one more exit, and no join is made.
    refine hends.mono (List.Subset.refl _) (List.Subset.refl _) fun _ h => h.mono ?_
    exact List.append_subset.mpr ⟨List.subset_append_left _ _,
      List.subset_append_of_subset_right _ (List.subset_append_left _ _)⟩
  · have hafter (parent : Exit) (d : Draft) (es : List Exit) :
        Draft.Grows (· ∈ pointsOf orElse) (· ∈ controlsOf orElse) d
          ((lowerSeq loop orElse parent d).2.join es).2 :=
      (grows_lowerSeq orElse loop parent d).trans (Draft.grows_join _ _)
    have hbodyext := (hafter _ _ _).extends.trans hext
    obtain ⟨last, hfollows, hends⟩ :=
      hbody loop _ _ _ (hinside _).of_append_left hbodyext (.inl (arrives_self g _))
    refine ⟨last, Draft.follows_enterControl ((extends_lowerSeq _ _ _ _).trans hbodyext)
      (.inl rfl) henter hfollows, ?_⟩
    refine hends.mono (hafter _ _ _).leaves (hafter _ _ _).breaks fun _ h => ?_
    refine Draft.arrives_join ?_ hext (List.mem_cons_of_mem _ (List.mem_singleton_self _)) h
    exact ((hinside _).lowerSeq loop _).counted_lowerSeq loop _

theorem covers_ifFalse (hother : g.Covers (elseOf orElse) visits o) :
    g.Covers [.if id cond ⟨bid, body⟩ orElse] (.expr cond :: visits) o := by
  intro loop parent d u hfresh hext henter
  rw [lowerSeq_single] at hext ⊢
  rw [pointsOf_if] at hfresh
  have hrest (s : Stmt) := (hfresh.enterControl parent s).lowerSeq loop
  rcases orElse with _ | ⟨eid, orElse⟩
  · have htest := (extends_lowerSeq _ _ _ _).trans hext
    obtain ⟨last, hfollows, hends⟩ := hother loop
      (.drawn (d.enterControl parent cond (.if id cond ⟨bid, body⟩ none)).1) _ _ (hrest _ _) hext
      (.inl (arrives_self g _))
    refine ⟨last, Draft.follows_enterControl htest (.inl rfl) henter hfollows, ?_⟩
    refine hends.mono (List.Subset.refl _) (List.Subset.refl _) fun _ h => h.mono ?_
    exact List.subset_append_of_subset_right _ (List.subset_append_right _ _)
  · have hafter (d : Draft) (es : List Exit) : Draft.Grows (· ∈ []) (· ∈ []) d (d.join es).2 :=
      Draft.grows_join _ _
    have hotherext := (hafter _ _).extends.trans hext
    obtain ⟨last, hfollows, hends⟩ :=
      hother loop _ _ _ (hrest _ _) hotherext (.inl (arrives_self g _))
    refine ⟨last, Draft.follows_enterControl ((extends_lowerSeq _ _ _ _).trans
      ((extends_lowerSeq _ _ _ _).trans hotherext)) (.inl rfl) henter hfollows, ?_⟩
    refine hends.mono (hafter _ _).leaves (hafter _ _).breaks fun _ h => ?_
    refine Draft.arrives_join ?_ hext List.mem_cons_self h
    exact (hrest _ _).counted_lowerSeq loop _

end If

/-! ## Loops -/

/-- A round of a loop body goes back to the head, or arrives where the loop is left. -/
theorem covers_round {body : List Stmt} (hbody : g.Covers body visits o) {d : Draft}
    {head n : NodeId} (hfresh : d.toGraph.Fresh (pointsOf body))
    (hext : (aroundLoop body head n d).toGraph.Extends g) :
    ∃ last, g.Follows n visits last ∧ (o.goesRound = true → g.Leads last head) ∧
      (o = .return ∨ o = .throw → g.Arrives last (insideLoop body head n d).2.leaves) ∧
      (o = .break → g.Arrives last (insideLoop body head n d).2.breaks) := by
  obtain ⟨last, hfollows, hends⟩ := hbody (some head) (.drawn n) d.openLoop n hfresh
    ((Draft.extends_returnTo _ _ _).trans hext) (.inl (arrives_self g n))
  refine ⟨last, hfollows, fun hround => ?_, ?_, ?_⟩
  · cases o with
    | normal => exact Draft.leads_returnTo hext hends
    | «continue» => exact hends head rfl
    | _ => cases hround
  · rintro (rfl | rfl)
    · exact hends
    · exact hends
  · rintro rfl
    exact hends rfl

/-- A loop that its body leaves ends where the collected jumps arrive. -/
theorem endsAt_afterLoop {e : Exit} {d inside : Draft} {last : NodeId}
    (hround : o.goesRound = false)
    (hleaves : o = .return ∨ o = .throw → g.Arrives last inside.leaves)
    (hbreaks : o = .break → g.Arrives last inside.breaks) (hsub : inside.leaves ⊆ d.leaves)
    (hexit : inside.breaks ⊆ e.points) : g.EndsAt loop e d last o.afterLoop := by
  cases o with
  | normal => cases hround
  | «continue» => cases hround
  | «return» => exact (hleaves (.inl rfl)).mono hsub
  | throw => exact (hleaves (.inr rfl)).mono hsub
  | «break» => exact (hbreaks rfl).mono hexit
  | raise => trivial
  | stopped => trivial

section While

variable {id bid : TreeId} {cond : Expr} {body : List Stmt} {orElse : Option Block}

/-- What is lowered after the body of a `while` statement leaves the loop around it as it is. -/
theorem grows_afterWhile {loop : Option NodeId} {parent : Exit} {d : Draft} :
    Draft.Grows (· ∈ pointsOf (elseOf orElse)) (· ∈ controlsOf (elseOf orElse))
      (aroundLoop body (d.enterControl parent cond (.while id cond ⟨bid, body⟩ orElse)).1
        (d.enterControl parent cond (.while id cond ⟨bid, body⟩ orElse)).1
        (d.enterControl parent cond (.while id cond ⟨bid, body⟩ orElse)).2)
      (Stmt.lower loop (.while id cond ⟨bid, body⟩ orElse) parent d).2 := by
  rcases orElse with _ | ⟨eid, orElse⟩
  · exact .refl _
  · exact (grows_lowerSeq orElse _ _ _).trans (Draft.grows_join _ _)

/-- Where `break` leaves the body of a `while` statement, control goes on after it. -/
theorem breaks_subset_points {loop : Option NodeId} {parent : Exit} {d : Draft} :
    (insideLoop body (d.enterControl parent cond (.while id cond ⟨bid, body⟩ orElse)).1
        (d.enterControl parent cond (.while id cond ⟨bid, body⟩ orElse)).1
        (d.enterControl parent cond (.while id cond ⟨bid, body⟩ orElse)).2).2.breaks ⊆
      (Stmt.lower loop (.while id cond ⟨bid, body⟩ orElse) parent d).1.points := by
  rcases orElse with _ | ⟨eid, orElse⟩
  · exact List.subset_append_right _ _
  · exact List.subset_append_right _ _

theorem extends_of_while {loop : Option NodeId} {parent : Exit} {d : Draft}
    (hext : (Stmt.lower loop (.while id cond ⟨bid, body⟩ orElse) parent d).2.toGraph.Extends g) :
    (aroundLoop body (d.enterControl parent cond (.while id cond ⟨bid, body⟩ orElse)).1
        (d.enterControl parent cond (.while id cond ⟨bid, body⟩ orElse)).1
        (d.enterControl parent cond (.while id cond ⟨bid, body⟩ orElse)).2).toGraph.Extends g :=
  grows_afterWhile.extends.trans hext

theorem covers_whileRound (hbody : g.Covers body visits o) (hround : o.goesRound = true)
    (hnext : g.Covers [.while id cond ⟨bid, body⟩ orElse] rest o') :
    g.Covers [.while id cond ⟨bid, body⟩ orElse] (.expr cond :: (visits ++ rest)) o' := by
  intro loop parent d u hfresh hext henter
  have hagain := hnext loop parent d
  rw [lowerSeq_single] at hext hagain ⊢
  have hinside := hfresh
  rw [pointsOf_while] at hinside
  have haround := extends_of_while hext
  have hhead := (extends_aroundLoop _ _ _ _).trans haround
  obtain ⟨n, hfollows, hback, -, -⟩ :=
    covers_round hbody (hinside.enterControl parent _).of_append_left haround
  -- The next round comes in at the head, whatever the exit before the loop was.
  obtain ⟨last, hfollows', hends⟩ := hagain n hfresh hext
    (.inr ⟨_, .expr cond, _, rfl, rfl, hhead.find? (d.find?_enterControl parent cond _),
      hback hround⟩)
  exact ⟨last, Draft.follows_enterControl hhead (.inr rfl) henter (hfollows.append hfollows'),
    hends⟩

theorem covers_whileLeave (hbody : g.Covers body visits o) (hround : o.goesRound = false) :
    g.Covers [.while id cond ⟨bid, body⟩ orElse] (.expr cond :: visits) o.afterLoop := by
  intro loop parent d u hfresh hext henter
  rw [lowerSeq_single] at hext ⊢
  rw [pointsOf_while] at hfresh
  have haround := extends_of_while hext
  have hhead := (extends_aroundLoop _ _ _ _).trans haround
  obtain ⟨last, hfollows, -, hleaves, hbreaks⟩ :=
    covers_round hbody (hfresh.enterControl parent _).of_append_left haround
  exact ⟨last, Draft.follows_enterControl hhead (.inr rfl) henter hfollows,
    endsAt_afterLoop hround hleaves hbreaks grows_afterWhile.leaves breaks_subset_points⟩

theorem covers_whileFalse (hother : g.Covers (elseOf orElse) visits o) :
    g.Covers [.while id cond ⟨bid, body⟩ orElse] (.expr cond :: visits) o := by
  intro loop parent d u hfresh hext henter
  rw [lowerSeq_single] at hext ⊢
  rw [pointsOf_while] at hfresh
  have hhead := (extends_aroundLoop _ _ _ _).trans (extends_of_while hext)
  have hrest (s : Stmt) (head : NodeId) := (hfresh.enterControl parent s).aroundLoop head head
  rcases orElse with _ | ⟨eid, orElse⟩
  · obtain ⟨last, hfollows, hends⟩ := hother loop
      (.drawn (d.enterControl parent cond (.while id cond ⟨bid, body⟩ none)).1) _ _ (hrest _ _) hext
      (.inl (arrives_self g _))
    refine ⟨last, Draft.follows_enterControl hhead (.inr rfl) henter hfollows, ?_⟩
    refine hends.mono (List.Subset.refl _) (List.Subset.refl _) fun _ h => h.mono ?_
    exact List.subset_append_left _ _
  · have hafter (d : Draft) (es : List Exit) : Draft.Grows (· ∈ []) (· ∈ []) d (d.join es).2 :=
      Draft.grows_join _ _
    obtain ⟨last, hfollows, hends⟩ := hother loop _ _ _ (hrest _ _)
      ((hafter _ _).extends.trans hext) (.inl (arrives_self g _))
    refine ⟨last, Draft.follows_enterControl hhead (.inr rfl) henter hfollows, ?_⟩
    refine hends.mono (hafter _ _).leaves (hafter _ _).breaks fun _ h => ?_
    have hjoin := Draft.arrives_join ((hrest _ _).counted_lowerSeq loop _) hext List.mem_cons_self h
    exact hjoin.mono (List.subset_append_left _ _)

end While

section For

variable {id bid : TreeId} {var : LoopVar} {seq : Expr} {body : List Stmt}

/-- The head of a `for` statement and then its loop variable are visited. -/
theorem follows_for {loop : Option NodeId} {parent : Exit} {d : Draft} {u last : NodeId}
    (hext : (Stmt.lower loop (.for id var seq ⟨bid, body⟩) parent d).2.toGraph.Extends g)
    (henter : g.Enters [.for id var seq ⟨bid, body⟩] parent u)
    (hfollows : g.Follows ((d.enterControl parent seq (.for id var seq ⟨bid, body⟩)).2.enterVar
      (d.enterControl parent seq (.for id var seq ⟨bid, body⟩)).1 var
      (.for id var seq ⟨bid, body⟩)).1 visits last) :
    g.Follows u (.expr seq :: .loopVar var :: visits) last := by
  have hvar := (extends_aroundLoop _ _ _ _).trans hext
  have hhead := (Draft.extends_enterVar _ _ _ _).trans hvar
  refine Draft.follows_enterControl hhead (.inr rfl) henter ?_
  exact .visit (hvar.find? (Draft.find?_enterVar _ _ var _)) (Draft.leads_enterVar hvar) hfollows

theorem covers_forDone : g.Covers [.for id var seq ⟨bid, body⟩] [.expr seq] .normal := by
  intro loop parent d u _ hext henter
  rw [lowerSeq_single] at hext ⊢
  have hvar := (extends_aroundLoop _ _ _ _).trans hext
  have hhead := (Draft.extends_enterVar _ _ _ _).trans hvar
  refine ⟨_, Draft.follows_enterControl hhead (.inr rfl) henter (.done _), ?_⟩
  exact (arrives_self g _).mono (List.subset_append_left _ _)

theorem covers_forRound (hbody : g.Covers body visits o) (hround : o.goesRound = true)
    (hnext : g.Covers [.for id var seq ⟨bid, body⟩] rest o') :
    g.Covers [.for id var seq ⟨bid, body⟩] (.expr seq :: .loopVar var :: (visits ++ rest)) o' := by
  intro loop parent d u hfresh hext henter
  have hagain := hnext loop parent d
  rw [lowerSeq_single] at hext hagain ⊢
  have hinside := hfresh
  rw [pointsOf_for] at hinside
  obtain ⟨n, hfollows, hback, -, -⟩ :=
    covers_round hbody ((hinside.enterControl parent _).enterVar _ _) hext
  have hhead := (Draft.extends_enterVar _ _ _ _).trans ((extends_aroundLoop _ _ _ _).trans hext)
  obtain ⟨last, hfollows', hends⟩ := hagain n hfresh hext
    (.inr ⟨_, .expr seq, _, rfl, rfl, hhead.find? (d.find?_enterControl parent seq _),
      hback hround⟩)
  exact ⟨last, follows_for hext henter (hfollows.append hfollows'), hends⟩

theorem covers_forLeave (hbody : g.Covers body visits o) (hround : o.goesRound = false) :
    g.Covers [.for id var seq ⟨bid, body⟩] (.expr seq :: .loopVar var :: visits) o.afterLoop := by
  intro loop parent d u hfresh hext henter
  rw [lowerSeq_single] at hext ⊢
  rw [pointsOf_for] at hfresh
  obtain ⟨last, hfollows, -, hleaves, hbreaks⟩ :=
    covers_round hbody ((hfresh.enterControl parent _).enterVar _ _) hext
  exact ⟨last, follows_for hext henter hfollows,
    endsAt_afterLoop hround hleaves hbreaks (List.Subset.refl _) (List.subset_append_right _ _)⟩

end For

/-! ## Runs that end at a node -/

/-- The points of a statement itself are visited one after the other. -/
theorem follows_ownPoints {s : Stmt} {loop : Option NodeId} {parent : Exit} {d : Draft} {u : NodeId}
    (hfresh : d.toGraph.Fresh (pointsOf [s]))
    (hext : (lowerSeq loop [s] parent d).2.toGraph.Extends g) (henter : g.Enters [s] parent u) :
    ∃ last, g.Follows u s.ownPoints last := by
  cases s with
  | simple id what =>
      obtain ⟨last, hfollows, -⟩ := covers_simple id what loop parent d u hfresh hext henter
      exact ⟨last, hfollows⟩
  | jump id how =>
      obtain ⟨last, hfollows, -⟩ := covers_jump id how loop parent d u hfresh hext henter
      exact ⟨last, hfollows⟩
  | block id body => exact ⟨u, .done u⟩
  | «while» id cond body orElse =>
      obtain ⟨bid, body⟩ := body
      rw [lowerSeq_single] at hext
      have hhead := (extends_aroundLoop _ _ _ _).trans (extends_of_while hext)
      exact ⟨_, Draft.follows_enterControl hhead (.inr rfl) henter (.done _)⟩
  | «for» id var seq body =>
      obtain ⟨bid, body⟩ := body
      rw [lowerSeq_single] at hext
      exact ⟨_, follows_for hext henter (.done _)⟩
  | «if» id cond body orElse =>
      obtain ⟨bid, body⟩ := body
      rw [lowerSeq_single] at hext
      rcases orElse with _ | ⟨eid, orElse⟩
      · have hhead := (extends_lowerSeq _ _ _ _).trans hext
        exact ⟨_, Draft.follows_enterControl hhead (.inl rfl) henter (.done _)⟩
      · have hhead := ((extends_lowerSeq _ _ _ _).trans (extends_lowerSeq _ _ _ _)).trans
          ((Draft.extends_join _ _).trans hext)
        exact ⟨_, Draft.follows_enterControl hhead (.inl rfl) henter (.done _)⟩
  | «try» id body catches => exact ⟨u, .done u⟩

theorem covers_cut {s : Stmt} (hpre : visits <+: s.ownPoints) (ho : o = .stopped ∨ o = .raise) :
    g.Covers [s] visits o := by
  intro loop parent d u hfresh hext henter
  obtain ⟨_, hall⟩ := follows_ownPoints hfresh hext henter
  obtain ⟨last, hfollows⟩ := hall.of_prefix hpre
  rcases ho with rfl | rfl
  · exact ⟨last, hfollows, trivial⟩
  · exact ⟨last, hfollows, trivial⟩

/-! ## Exceptions -/

section Try

variable {id bid : TreeId} {body : List Stmt} {catches : List Catch}

/-- Lowering the catches of a `try` only adds to what its body left. -/
theorem grows_afterTry {loop : Option NodeId} {parent : Exit} {d : Draft} :
    Draft.Grows (· ∈ pointsOfCatches catches) (· ∈ controlsOfCatches catches)
      ((lowerSeq loop body parent d).2.join [(lowerSeq loop body parent d).1]).2
      (Stmt.lower loop (.try id ⟨bid, body⟩ catches) parent d).2 :=
  grows_lowerCatches _ _ _ _ _

theorem covers_tryEnd (hbody : g.Covers body visits o) :
    g.Covers [.try id ⟨bid, body⟩ catches] visits o := by
  intro loop parent d u hfresh hext henter
  rw [lowerSeq_single] at hext ⊢
  rw [pointsOf_try] at hfresh
  have hjoin := grows_afterTry.extends.trans hext
  rcases henter with harrives | ⟨s, p, n, hs, hp, -⟩
  · obtain ⟨last, hfollows, hends⟩ := hbody loop parent d u hfresh.of_append_left
      ((Draft.extends_join _ _).trans hjoin) (.inl harrives)
    refine ⟨last, hfollows, hends.mono grows_afterTry.leaves grows_afterTry.breaks fun _ h => ?_⟩
    exact Draft.arrives_join (hfresh.of_append_left.counted_lowerSeq loop parent) hjoin
      (List.mem_singleton_self _) h
  · cases hs
    cases hp

/-- The nodes of the points inside the body of a `try` count as added by it. -/
theorem mem_nodesSince {loop : Option NodeId} {parent : Exit} {d : Draft} {p : Point} {n : NodeId}
    (hfresh : d.toGraph.Fresh (pointsOf body)) (hp : p ∈ pointsOf body)
    (hext : (lowerSeq loop body parent d).2.toGraph.Extends g) (hn : g.find? p.key = some n) :
    n ∈ (lowerSeq loop body parent d).2.nodesSince d := by
  obtain ⟨s, hs, hown⟩ := List.mem_flatMap.mp hp
  obtain ⟨m, hm⟩ := (shows_lower.2.1 body loop parent d s hs).found p hown
  have hmn := hext.find? hm
  rw [hn] at hmn
  cases hmn
  obtain ⟨q, hq, hkey⟩ := find?_some hm
  have hlt := lt_of_find? hm
  obtain ⟨id, hid⟩ := hfresh.trees p hp
  have hnew := hfresh.le_of_find? hp (extends_lowerSeq body loop parent d) hm
  refine List.mem_filter.mpr ⟨List.mem_range'_1.mpr ⟨hnew, ?_⟩, ?_⟩
  · rw [Nat.add_sub_cancel' (extends_lowerSeq body loop parent d).length_le]
    exact hlt
  rw [hq]
  cases q with
  | mark kind counter =>
      rw [hid] at hkey
      cases hkey
  | _ => rfl

/-- A run that arrives where exceptions are raised goes on in any of the catches. -/
theorem covers_catches {c : Catch} (hc : c ∈ catches) (hhandler : g.Covers c.body.stmts visits o)
    {loop : Option NodeId} {raised : Exit} {joined u : NodeId} {d : Draft}
    (hfresh : d.toGraph.Fresh (pointsOfCatches catches))
    (hext : (lowerCatches loop catches raised joined d).toGraph.Extends g)
    (harrives : g.Arrives u raised.points) (hjoined : g.isJoin joined = true) :
    ∃ last, g.Follows u visits last ∧
      g.EndsAt loop (.drawn joined) (lowerCatches loop catches raised joined d) last o := by
  induction catches generalizing d with
  | nil => cases hc
  | cons first others ih =>
      obtain ⟨cid, param, cbid, handler⟩ := first
      rw [pointsOfCatches_cons] at hfresh
      rcases List.mem_cons.mp hc with rfl | hc
      -- The run enters this catch, and those after it only add to the graph.
      · have hrest : Draft.Grows (· ∈ pointsOfCatches others) (· ∈ controlsOfCatches others)
            (lowerSeq loop handler raised d).2
            (lowerCatches loop (⟨cid, param, ⟨cbid, handler⟩⟩ :: others) raised joined d) :=
          (Draft.grows_returnTo _ _ _).trans (grows_lowerCatches _ _ _ _ _)
        obtain ⟨last, hfollows, hends⟩ := hhandler loop raised d u hfresh.of_append_left
          (hrest.extends.trans hext) (.inl harrives)
        refine ⟨last, hfollows, hends.mono hrest.leaves hrest.breaks fun _ h => ?_⟩
        have hback := Draft.leads_returnTo ((extends_lowerCatches _ _ _ _ _).trans hext) h
        exact .inr ⟨joined, List.mem_singleton_self _, hjoined, hback⟩
      · refine ih hc ?_ hext
        exact (hfresh.lowerSeq loop raised).steps
          (Draft.grows_returnTo (O := fun _ => True) _ _ _).steps

theorem covers_tryCatch {c : Catch} (hrun : Runs body visits o) (hbody : g.Covers body visits o)
    (hc : c ∈ catches) (hhandler : g.Covers c.body.stmts rest o') :
    g.Covers [.try id ⟨bid, body⟩ catches] (visits ++ rest) o' := by
  intro loop parent d u hfresh hext henter
  rw [lowerSeq_single] at hext ⊢
  rw [pointsOf_try] at hfresh
  have hjoin := grows_afterTry.extends.trans hext
  have hinside := (Draft.extends_join _ _).trans hjoin
  rcases henter with harrives | ⟨s, p, n, hs, hp, -⟩
  · obtain ⟨n, hfollows, -⟩ := hbody loop parent d u hfresh.of_append_left hinside (.inl harrives)
    -- Whatever was visited last is inside the body, or nothing was visited there at all.
    have hraised : g.Arrives n (Exit.mk parent.node
        (parent.implicit ++ (lowerSeq loop body parent d).2.nodesSince d)).points := by
      rcases hfollows.last_cases with rfl | ⟨p, hp, hn⟩
      · refine harrives.mono ?_
        exact List.append_subset.mpr ⟨List.subset_append_left _ _,
          List.subset_append_of_subset_right _ (List.subset_append_left _ _)⟩
      · refine .inl (List.mem_append_right _ (List.mem_append_right _ ?_))
        exact mem_nodesSince hfresh.of_append_left (hrun.visits_subset hp) hinside hn
    have hcatches := (hfresh.lowerSeq loop parent).steps (Draft.grows_join (O := fun _ => True) _
      [(lowerSeq loop body parent d).1]).steps
    obtain ⟨last, hfollows', hends⟩ := covers_catches hc hhandler hcatches hext hraised
      (Draft.isJoin_join (hfresh.of_append_left.counted_lowerSeq loop parent) hjoin)
    exact ⟨last, hfollows.append hfollows', hends⟩
  · cases hs
    cases hp

end Try

/-! ## Whole bodies -/

/-- Wherever statements are lowered, a graph covers all their runs. -/
theorem Runs.covers {ss : List Stmt} (hrun : Runs ss visits o) (g : Graph) :
    g.Covers ss visits o := by
  induction hrun with
  | nil => exact covers_nil
  | @cons s rest v w o hfirst _ ihfirst ihrest =>
      refine covers_cons ?_ ihfirst ihrest
      exact Bool.eq_false_iff.mpr fun hs => hfirst.jump_ne_normal hs rfl
  | leave _ ho ih => exact covers_leave ih ho
  | stop hpre => exact covers_cut hpre (.inl rfl)
  | raise hpre _ => exact covers_cut hpre (.inr rfl)
  | simple id what => exact covers_simple id what
  | jump id how => exact covers_jump id how
  | block _ ih => exact covers_block ih
  | ifTrue _ ih => exact covers_ifTrue ih
  | ifFalse _ ih => exact covers_ifFalse ih
  | whileFalse _ ih => exact covers_whileFalse ih
  | whileRound _ hround _ ihbody ihnext => exact covers_whileRound ihbody hround ihnext
  | whileLeave _ hround ih => exact covers_whileLeave ih hround
  | forDone => exact covers_forDone
  | forRound _ hround _ ihbody ihnext => exact covers_forRound ihbody hround ihnext
  | forLeave _ hround ih => exact covers_forLeave ih hround
  | tryEnd _ _ ih => exact covers_tryEnd ih
  | tryCatch hbody _ hc _ ihbody ihhandler => exact covers_tryCatch hbody ihbody hc ihhandler

namespace Graph

theorem Follows.chain {u last : NodeId} (h : g.Follows u visits last) :
    ∃ nodes, List.Forall₂ (fun p n => g.find? p.key = some n) visits nodes ∧
      (u :: nodes).IsChain g.Leads ∧ (u :: nodes).getLast (List.cons_ne_nil _ _) = last := by
  induction h with
  | done u => exact ⟨[], .nil, .singleton u, rfl⟩
  | @visit u n last p rest hfind hleads _ ih =>
      obtain ⟨nodes, hnodes, hchain, hlast⟩ := ih
      refine ⟨n :: nodes, .cons hfind hnodes, .cons_cons hleads hchain, ?_⟩
      rw [List.getLast_cons (List.cons_ne_nil _ _)]
      exact hlast

/-- Where all numbers are distinct, the node that is found for a point of the body is its own. -/
theorem getElem?_of_find?_ofBlock {m : Module} {b : Block} (hids : b.ids.Nodup) {p : Point}
    (hp : p ∈ pointsOf b.stmts) {n : NodeId} (h : (ofBlock m b).find? p.key = some n) :
    (ofBlock m b).nodes[n]? = some p := by
  obtain ⟨q, hq, hkey⟩ := find?_some h
  rcases mem_pointsOf_of_ofBlock (List.mem_of_getElem? hq) with hmark | hmem
  · obtain ⟨id, hid⟩ := key_of_mem_pointsOf hp
    rw [hid] at hkey
    cases q with
    | mark kind counter => cases hkey
    | _ => cases hmark
  · have hkeys := nodup_point_keys (List.nodup_cons.mp hids).2
    rw [List.inj_on_of_nodup_map hkeys hmem hp hkey] at hq
    exact hq

/-- A run through a body follows the flows of its graph from the start, and on to the end where it
finishes. -/
theorem ofBlock_follows (m : Module) {b : Block} (hids : b.ids.Nodup) {visits : List Point}
    {o : Ending} (hrun : Runs b.stmts visits o) :
    ∃ last, (ofBlock m b).Follows start visits last ∧
      (o.finishes = true → (ofBlock m b).Leads last finish) := by
  obtain ⟨last, hfollows, hends⟩ := hrun.covers (ofBlock m b) none (.drawn start)
    (.ofGraph (empty m false)) start (fresh_empty m false (List.nodup_cons.mp hids).2)
    (extends_close _ _) (.inl (arrives_self _ _))
  refine ⟨last, hfollows, fun ho => ?_⟩
  have hfinish {points : List NodeId} (hpoints : ∀ n ∈ points, (n, finish) ∈ (ofBlock m b).flows)
      (h : (ofBlock m b).Arrives last points) : (ofBlock m b).Leads last finish := h.leads hpoints
  cases o with
  | normal => exact hfinish (fun n hn => mem_flows_close (.inl hn)) hends
  | «return» => exact hfinish (fun n hn => mem_flows_close (.inr hn)) hends
  | throw => exact hfinish (fun n hn => mem_flows_close (.inr hn)) hends
  | _ => cases ho

/-- The flow graph of a body with distinct numbers covers every run through it. The points that
are visited have nodes; each node leads to the next one through joins only, the first one from the
start of the graph; and where the body ends normally, returns or throws, the last one leads to the
end. -/
theorem ofBlock_covers_runs (m : Module) {b : Block} (hids : b.ids.Nodup) {visits : List Point}
    {o : Ending} (hrun : Runs b.stmts visits o) :
    ∃ nodes : List NodeId,
      List.Forall₂ (fun p n => (ofBlock m b).nodes[n]? = some p) visits nodes ∧
      (start :: nodes).IsChain (ofBlock m b).Leads ∧
      (o.finishes = true →
        (ofBlock m b).Leads ((start :: nodes).getLast (List.cons_ne_nil _ _)) finish) := by
  obtain ⟨last, hfollows, hends⟩ := ofBlock_follows m hids hrun
  -- Nodes were followed by their keys; in a finished graph these are the nodes of the points.
  obtain ⟨nodes, hnodes, hchain, hlast⟩ := hfollows.chain
  refine ⟨nodes, ?_, hchain, fun ho => ?_⟩
  · have hvisits : ∀ p ∈ visits, p ∈ pointsOf b.stmts := fun p hp => hrun.visits_subset hp
    refine ((List.forall₂_and_left _ _).mpr ⟨hvisits, hnodes⟩).imp fun p n hpn => ?_
    exact getElem?_of_find?_ofBlock hids hpn.1 hpn.2
  · rw [hlast]
    exact hends ho

/-- A body that throws at once and yields where that is caught. -/
def rescue : Block :=
  ⟨0, [.try 1 ⟨2, [.jump 3 (.throw none)]⟩ [⟨4, none, ⟨5, [.simple 6 .yield]⟩⟩]]⟩

/-- The start leads to the `yield` that is run after the throw, and the `yield` to the end. -/
theorem ofBlock_covers_rescue : rescue.ids.Nodup ∧
    Runs rescue.stmts [.stmt (.simple 6 .yield)] .normal ∧
    ∃ n, (ofBlock ⟨"rescue", [], [], rescue, []⟩ rescue).nodes[n]? =
        some (.stmt (.simple 6 .yield)) ∧
      (ofBlock ⟨"rescue", [], [], rescue, []⟩ rescue).Leads start n ∧
      (ofBlock ⟨"rescue", [], [], rescue, []⟩ rescue).Leads n finish := by
  have hids : rescue.ids.Nodup := by decide
  have hrun : Runs rescue.stmts [.stmt (.simple 6 .yield)] .normal :=
    .tryCatch (.jump 3 (.throw none)) rfl (List.mem_singleton_self _) (.simple 6 .yield)
  obtain ⟨nodes, hnodes, hchain, hlast⟩ :=
    ofBlock_covers_runs ⟨"rescue", [], [], rescue, []⟩ hids hrun
  refine ⟨hids, hrun, ?_⟩
  cases hnodes with
  | @cons _ n _ rest hn hrest =>
      cases hrest
      exact ⟨n, hn, (List.isChain_cons_cons.mp hchain).1, hlast rfl⟩

end Graph

end ControlFlow

import ControlFlow.Proofs.Graph.Advancing

/-! # Going back to the head of a loop

The body of a loop may end where a `continue` has gone back already. Whether it does is read off the
tree: a `continue` stands last on the path through the body that is drawn.
-/

namespace ControlFlow

open Draft ControlFlow.Graph

/-! ## Loops that are gone back to twice -/

mutual

/-- Whether a `continue` has gone back from the node at which control leaves a statement, if it is
known whether one has gone back from the node at which control comes in. -/
def Stmt.goneBack (before : Bool) : Stmt → Bool
  | .simple _ _ => false
  | .jump _ (.return none) | .jump _ (.throw none) | .jump _ .break => before
  | .jump _ (.return (some _)) | .jump _ (.throw (some _)) => false
  | .jump _ .continue => true
  | .block _ ⟨_, body⟩ => goneBackSeq before body
  | .while _ _ _ _ | .for _ _ _ _ | .try _ _ _ => false
  | .if _ _ ⟨_, body⟩ none => goneBackSeq false body
  | .if _ _ _ (some _) => false

/-- The same for statements one after the other. Behind a jump, control goes on at a join. -/
def goneBackSeq (before : Bool) : List Stmt → Bool
  | [] => before
  | s :: rest => if s.isJump && !rest.isEmpty then false else goneBackSeq (s.goneBack before) rest

end

/-- The control expression of a loop whose body ends where a `continue` has gone back already. -/
def Stmt.reentered? : Stmt → Option Expr
  | .while _ cond body _ => if goneBackSeq false body.stmts then some cond else none
  | .for _ _ seq body => if goneBackSeq false body.stmts then some seq else none
  | _ => none

/-- The control expressions of such loops in a sequence of statements, at any depth. -/
def reenteredOf (ss : List Stmt) : List Expr := (stmtsOf ss).filterMap Stmt.reentered?

def reenteredOfCatches (cs : List Catch) : List Expr :=
  (stmtsOfCatches cs).filterMap Stmt.reentered?

/-- The control expressions of such loops in a block, at any depth. -/
def Block.reentered (b : Block) : List Expr := reenteredOf b.stmts

theorem reenteredOf_cons (s : Stmt) (rest : List Stmt) :
    reenteredOf (s :: rest) = reenteredOf [s] ++ reenteredOf rest := by
  rw [reenteredOf, reenteredOf, reenteredOf, ← List.filterMap_append]
  simp [stmtsOf]

theorem reenteredOf_single (s : Stmt) :
    reenteredOf [s] = s.reentered?.toList ++ s.inner.filterMap Stmt.reentered? := by
  rw [reenteredOf, stmtsOf, stmtsOf, List.append_nil, List.filterMap_cons]
  cases s.reentered? <;> rfl

theorem reenteredOf_while (id : TreeId) (cond : Expr) (bid : TreeId) (body : List Stmt)
    (orElse : Option Block) : reenteredOf [.while id cond ⟨bid, body⟩ orElse] =
      (if goneBackSeq false body then some cond else none).toList ++
        (reenteredOf body ++ reenteredOf (elseOf orElse)) := by
  rw [reenteredOf_single, inner_while, List.filterMap_append]
  rfl

theorem reenteredOf_if (id : TreeId) (cond : Expr) (bid : TreeId) (body : List Stmt)
    (orElse : Option Block) : reenteredOf [.if id cond ⟨bid, body⟩ orElse] =
      reenteredOf body ++ reenteredOf (elseOf orElse) := by
  rw [reenteredOf_single, inner_if, List.filterMap_append]
  rfl

theorem reenteredOf_try (id bid : TreeId) (body : List Stmt) (catches : List Catch) :
    reenteredOf [.try id ⟨bid, body⟩ catches] = reenteredOf body ++ reenteredOfCatches catches := by
  rw [reenteredOf_single, Stmt.inner, List.filterMap_append]
  rfl

theorem reenteredOfCatches_cons (id : TreeId) (param : Option DeclId) (bid : TreeId)
    (body : List Stmt) (rest : List Catch) :
    reenteredOfCatches (⟨id, param, ⟨bid, body⟩⟩ :: rest) =
      reenteredOf body ++ reenteredOfCatches rest :=
  List.filterMap_append

/-! ## Going back -/

/-- Control leaves at a drawn node, from which no edge leads back to the head of the loop. A
`continue` has gone back from there, or none has. -/
def Graph.GoneBack (g : Graph) (head : NodeId) (e : Exit) (gone : Bool) : Prop :=
  ∃ n, e.node = some n ∧ (n, head) ∉ g.edges ∧ ((n, head) ∈ g.implicit ↔ gone = true)

namespace Graph

variable {g g' : Graph} {S T : Nat → Prop} {head n : NodeId} {e : Exit} {f : Flow}

theorem goneBack_of_not_mem (he : e.node = some n) (hn : (n, head) ∉ g.flows) :
    g.GoneBack head e false := by
  rw [mem_flows, not_or] at hn
  exact ⟨n, he, hn.1, iff_of_false hn.2 Bool.false_ne_true⟩

/-- No flow leads from a new node back to an old one that is not given. -/
theorem not_mem_flows_of_added (hinside : g.FlowsInside)
    (hgrafts : Grafts S T g.explicit g'.explicit) (hn : g.nodes.length ≤ n)
    (hhead : head < g.nodes.length) (hT : ¬ T head) : (n, head) ∉ g'.flows := by
  intro hflow
  rcases hgrafts.edges _ hflow with hold | ⟨-, hgiven | hadded⟩
  · exact absurd (hinside _ hold).1 (Nat.not_lt.mpr hn)
  · exact hT hgiven
  · exact absurd hhead (Nat.not_lt.mpr hadded.1)

/-- No new flow comes from an old node that is not given. -/
theorem not_mem_flows_of_grafts (hf : f ∉ g.flows) (hgrafts : Grafts S T g.explicit g'.explicit)
    (hS : ¬ S f.1) (hlt : f.1 < g.nodes.length) : f ∉ g'.flows := by
  intro hflow
  rcases hgrafts.edges _ hflow with hold | ⟨hgiven | hadded, -⟩
  · exact hf hold
  · exact hS hgiven
  · exact absurd hlt (Nat.not_lt.mpr hadded.1)

theorem mem_implicit_imply {source target : NodeId} : f ∈ (g.imply source target).implicit ↔
    f ∈ g.implicit ∨ f ∉ g.edges ∧ f = (source, target) := by
  unfold imply
  split
  next h =>
    rw [Bool.or_eq_true, joins_iff, joins_iff] at h
    constructor
    · exact .inl
    · rintro (hold | ⟨hnew, rfl⟩)
      · exact hold
      · exact h.resolve_left hnew
  next h =>
    rw [Bool.or_eq_true, joins_iff, joins_iff, not_or] at h
    rw [List.mem_append, List.mem_singleton]
    refine or_congr_right ⟨?_, And.right⟩
    rintro rfl
    exact ⟨h.1, rfl⟩

theorem mem_implicit_implyAll {ns : List NodeId} {target : NodeId} :
    f ∈ (ns.foldl (fun g n => g.imply n target) g).implicit ↔
      f ∈ g.implicit ∨ f ∉ g.edges ∧ ∃ n ∈ ns, f = (n, target) := by
  induction ns generalizing g with
  | nil => simp
  | cons n rest ih =>
      rw [List.foldl_cons, ih, mem_implicit_imply, imply_edges]
      simp [or_assoc, ← and_or_left]

end Graph

section GoingBack

variable {d : Draft} {loop : Option NodeId} {parent : Exit} {p : Point} {ps : List Point}
  {head : NodeId}

theorem goneBack_enter (h : d.Ready loop parent (p :: ps)) (hhead : d.Inner head) :
    (d.enter parent p).2.GoneBack head (.drawn (d.enter parent p).1) false :=
  goneBack_of_not_mem rfl (not_mem_flows_of_added h.admits.flows.inside
    (grafts_explicit_enter h.fresh parent) (added_enter h.fresh parent).1 hhead.lt not_false)

theorem goneBack_join (h : d.Ready loop parent ps) (hhead : d.Inner head) (es : List Exit)
    (implied : List NodeId) :
    (d.join es).2.GoneBack head ⟨some (d.join es).1, implied⟩ false :=
  goneBack_of_not_mem rfl (not_mem_flows_of_added h.admits.flows.inside
    (grafts_explicit_join h.fresh.counted es) (added_join h.fresh.counted es).1 hhead.lt not_false)

theorem goneBack_jump {id : TreeId} {how : Jump} {gone : Bool}
    (h : d.Ready (some head) parent (Stmt.jump id how).ownPoints)
    (hgone : d.GoneBack head parent gone) :
    (d.jump (some head) parent id how).2.GoneBack head (d.jump (some head) parent id how).1
      ((Stmt.jump id how).goneBack gone) := by
  have hhead := h.admits.loop head rfl
  cases how with
  | «return» value =>
      cases value with
      | none => exact hgone
      | some v => exact goneBack_enter h hhead
  | throw value =>
      cases value with
      | none => exact hgone
      | some v => exact goneBack_enter h hhead
  | «break» => exact hgone
  | «continue» =>
      obtain ⟨n, hn, hedge, -⟩ := hgone
      refine ⟨n, hn, ?_, iff_of_true (mem_implicit_implyAll.mpr (.inr ⟨hedge, n, ?_, rfl⟩)) rfl⟩
      · exact (implyAll_edges d.toGraph parent.points head).symm ▸ hedge
      · exact Exit.mem_points_of_node hn

end GoingBack

/-- Inside a loop, `goneBack` tells whether a `continue` has gone back from where control leaves. -/
theorem goneBack_lower :
    (∀ s : Stmt, ∀ (d : Draft) head parent gone, d.Ready (some head) parent (pointsOf [s]) →
      d.GoneBack head parent gone →
      (s.lower (some head) parent d).2.GoneBack head (s.lower (some head) parent d).1
        (s.goneBack gone)) ∧
    (∀ ss, ∀ (d : Draft) head parent gone, d.Ready (some head) parent (pointsOf ss) →
      d.GoneBack head parent gone →
      (lowerSeq (some head) ss parent d).2.GoneBack head (lowerSeq (some head) ss parent d).1
        (goneBackSeq gone ss)) ∧
    ∀ _ : List Catch, True := by
  refine tree_induction ?simple ?jump ?block ?while_ ?for_ ?if_ ?try_ ?nil ?cons trivial ?catch_
  case simple =>
    intro id what d head parent gone h _
    exact goneBack_enter h (h.admits.loop head rfl)
  case jump =>
    intro id how d head parent gone h hgone
    exact goneBack_jump (by simpa [pointsOf_single, Stmt.inner] using h) hgone
  case block =>
    intro id bid body ih d head parent gone h hgone
    exact ih d head parent gone (by simpa using h) hgone
  case while_ =>
    intro id cond bid body orElse ihbody ihelse d head parent gone h _
    have hhead := h.admits.loop head rfl
    rcases orElse with _ | ⟨eid, orElse⟩
    · -- Nothing in the loop goes back to the loop around it.
      have hgrafts :=
        (advances_lower.1 (.while id cond ⟨bid, body⟩ none) none parent d h.fresh).grafts
      rw [pointsOf_while] at h
      exact goneBack_of_not_mem rfl (not_mem_flows_of_added h.admits.flows.inside hgrafts
        (added_enter h.fresh parent).1 hhead.lt (Option.some_ne_none head).symm)
    · rw [pointsOf_while] at h
      have hopened := h.enterControl (.while id cond ⟨bid, body⟩ (some ⟨eid, orElse⟩))
      have haround := hopened.aroundLoop (inner_enterControl h.admits.framed parent cond _)
      have hother := haround.drawn.lowerAll
      exact goneBack_join hother (hother.admits.loop head rfl) _ _
  case for_ =>
    intro id var seq bid body ih d head parent gone h _
    have hhead := h.admits.loop head rfl
    have hgrafts := (advances_lower.1 (.for id var seq ⟨bid, body⟩) none parent d h.fresh).grafts
    rw [pointsOf_for] at h
    exact goneBack_of_not_mem rfl (not_mem_flows_of_added h.admits.flows.inside hgrafts
      (added_enter h.fresh parent).1 hhead.lt (Option.some_ne_none head).symm)
  case if_ =>
    intro id cond bid body orElse ihbody ihelse d head parent gone h _
    rw [pointsOf_if] at h
    have htest := h.enterControl (.if id cond ⟨bid, body⟩ orElse)
    rcases orElse with _ | ⟨eid, orElse⟩
    · obtain ⟨n, hn, hback⟩ := ihbody _ head _ false htest.of_append_left
        (goneBack_enter h (h.admits.loop head rfl))
      exact ⟨n, hn, hback⟩
    · have hlive := htest.lowerSeq
      have hother := (hlive.goOn (htest.admits.points.mono (extends_lowerSeq _ _ _ _))).lowerAll
      exact goneBack_join hother (hother.admits.loop head rfl) _ _
  case try_ =>
    intro id bid body catches ihbody ihcatches d head parent gone h _
    rw [pointsOf_try] at h
    have hbody := h.lowerSeq
    have hbefore : ∀ n ∈ (Exit.mk parent.node (parent.implicit ++
        (lowerSeq (some head) body parent d).2.nodesSince d)).points,
        n < (lowerSeq (some head) body parent d).2.nodes.length := by
      intro n hn
      have hle := (extends_lowerSeq body (some head) parent d).length_le
      rcases mem_points_raised hle hn with hpoint | hadded
      · exact Nat.lt_of_lt_of_le (h.admits.points n hpoint).1 hle
      · exact hadded.2
    have hadded := added_join hbody.fresh.counted [(lowerSeq (some head) body parent d).1]
    have hafter := (advances_lower.2.2 catches (some head) ⟨parent.node, parent.implicit ++
        (lowerSeq (some head) body parent d).2.nodesSince d⟩
      ((lowerSeq (some head) body parent d).2.join [(lowerSeq (some head) body parent d).1]).1 _
      (hbody.join (List.forall_mem_singleton.mpr hbody.admits.points)).fresh).1
    -- The join is no node of the body, from which the catches are entered.
    refine goneBack_of_not_mem rfl (not_mem_flows_of_grafts ?_ hafter
      (fun hraised => Nat.not_lt.mpr hadded.1 (hbefore _ hraised)) hadded.2)
    have hhead := hbody.admits.loop head rfl
    exact not_mem_flows_of_added hbody.admits.flows.inside
      (grafts_explicit_join hbody.fresh.counted _) hadded.1 hhead.lt not_false
  case nil => exact fun d head parent gone _ hgone => hgone
  case cons =>
    intro s rest ihs ihrest d head parent gone h hgone
    rw [pointsOf_cons] at h
    have hlive := ihs d head parent gone h.of_append_left hgone
    unfold lowerSeq goneBackSeq
    dsimp only
    split
    · have htail := h.lower.nowhere.lowerAll
      exact goneBack_join htail (htail.admits.loop head rfl) _ _
    · exact ihrest _ head _ _ h.lower hlive
  case catch_ => exact fun _ _ _ _ _ _ _ => trivial

end ControlFlow

import ControlFlow.Proofs.Graph.Finished
import ControlFlow.Proofs.Graph.Grafted
import ControlFlow.Proofs.Tree.Behind

/-! # What is behind a jump is cut off

The statements after a jump are entered from nowhere. Their nodes are a range into which no edge
leads from outside when they are lowered, and whatever is lowered later adds edges to other nodes
only. So no drawn path leads from the start to anything behind a jump.
-/

namespace ControlFlow

open Search (Path)

namespace Graph

/-- A node lies in a range of nodes, not before `low`, into which no edge leads from outside. -/
def Cut (g : Graph) (low n : Nat) : Prop :=
  ∃ first last : Nat, low ≤ first ∧ first ≤ n ∧ n < last ∧ last ≤ g.nodes.length ∧
    ∀ n m : Nat, (n, m) ∈ g.edges → first ≤ m ∧ m < last → first ≤ n ∧ n < last

/-- The points of some statements have nodes that are cut off. -/
def AllCut (g : Graph) (low : Nat) (ss : List Stmt) : Prop :=
  ∀ s ∈ ss, ∀ p ∈ s.ownPoints, ∃ n, g.find? p.key = some n ∧ g.Cut low n

variable {g g' : Graph} {S T : Nat → Prop} {low low' n : Nat} {ss ts : List Stmt}

/-! ## Cutting off -/

theorem Cut.weaken (h : g.Cut low n) (hle : low' ≤ low) : g.Cut low' n := by
  obtain ⟨first, last, hfirst, hrange⟩ := h
  exact ⟨first, last, Nat.le_trans hle hfirst, hrange⟩

/-- What is cut off stays so while new edges lead to new nodes and to nodes before it. -/
theorem Cut.grafts (h : g.Cut low n) (hgrafts : Grafts S T g g')
    (hT : ∀ m, T m → m < low ∨ g.nodes.length ≤ m) : g'.Cut low n := by
  obtain ⟨first, last, hfirst, hn, hlast, hinside, hedges⟩ := h
  refine ⟨first, last, hfirst, hn, hlast, Nat.le_trans hinside hgrafts.length_le,
    fun source target hedge hrange => ?_⟩
  rcases hgrafts.edges _ hedge with hold | ⟨-, hgiven | hadded⟩
  · exact hedges source target hold hrange
  · have hbefore := hT target hgiven
    omega
  · have hafter : g.nodes.length ≤ target := hadded.1
    omega

/-- No drawn path leads to what is cut off after the start. -/
theorem Cut.not_live (h : g.Cut low n) (hlow : 0 < low) : ¬ g.Live n := by
  obtain ⟨first, last, hfirst, hn, hlast, -, hedges⟩ := h
  -- Going back along the path never leaves the range, which the start is not in.
  have hpath : ∀ m : Nat, Path g.edges (fun _ => true) start m → ¬ (first ≤ m ∧ m < last) := by
    intro m hm
    induction hm with
    | edge hedge =>
        intro hrange
        have hstart : first ≤ 0 := (hedges _ _ hedge hrange).1
        omega
    | step _ _ hedge ih => exact fun hrange => ih (hedges _ _ hedge hrange)
  rintro (hstart | hlive)
  · have hzero : n = 0 := hstart
    omega
  · exact hpath n hlive ⟨hn, hlast⟩

theorem AllCut.weaken (h : g.AllCut low ss) (hle : low' ≤ low) : g.AllCut low' ss := by
  intro s hs p hp
  obtain ⟨n, hn, hcut⟩ := h s hs p hp
  exact ⟨n, hn, hcut.weaken hle⟩

theorem AllCut.grafts (h : g.AllCut low ss) (hext : g.Extends g') (hgrafts : Grafts S T g g')
    (hT : ∀ m, T m → m < low ∨ g.nodes.length ≤ m) : g'.AllCut low ss := by
  intro s hs p hp
  obtain ⟨n, hn, hcut⟩ := h s hs p hp
  exact ⟨n, hext.find? hn, hcut.grafts hgrafts hT⟩

theorem allCut_append : g.AllCut low (ss ++ ts) ↔ g.AllCut low ss ∧ g.AllCut low ts :=
  List.forall_mem_append

theorem allCut_nil : g.AllCut low [] := fun _ h => nomatch h

theorem FlowsInside.targetsInside (h : g.FlowsInside) : g.TargetsInside :=
  fun f hf => (h f (mem_flows.mpr (.inl hf))).2

end Graph

open Draft ControlFlow.Graph

/-! ## Lowering -/

/-- Statements that are entered from nowhere are cut off as a whole. -/
theorem allCut_tail {ss : List Stmt} {d : Draft} (htargets : d.toGraph.TargetsInside)
    (hfresh : d.toGraph.Fresh (pointsOf ss)) (loop : Option NodeId) :
    (lowerSeq loop ss .nowhere d).2.AllCut d.nodes.length (stmtsOf ss) := by
  intro s hs p hp
  obtain ⟨n, hn⟩ := (shows_lower.2.1 ss loop .nowhere d s hs).found p hp
  have hnew := hfresh.le_of_find? (List.mem_flatMap.mpr ⟨s, hs, hp⟩)
    (extends_lowerSeq ss loop .nowhere d) hn
  refine ⟨n, hn, d.nodes.length, _, Nat.le_refl _, hnew, lt_of_find? hn, Nat.le_refl _,
    fun source target hedge hrange => ?_⟩
  rcases (lowers_lower.2.1 ss loop .nowhere d hfresh).grafts.edges _ hedge with
    hold | ⟨hnowhere | hsource, -⟩
  · have hbefore : target < d.nodes.length := htargets _ hold
    omega
  · cases hnowhere
  · exact hsource

/-- What is cut off inside a loop stays so when the loop goes back to its head. -/
theorem allCut_aroundLoop {body ss : List Stmt} {head n : NodeId} {d : Draft}
    (h : (insideLoop body head n d).2.AllCut d.nodes.length ss) (hhead : head < d.nodes.length) :
    (aroundLoop body head n d).AllCut d.nodes.length ss :=
  h.grafts (extends_returnTo _ _ _) (grafts_returnTo _ _ head) fun _ hm => .inl (hm ▸ hhead)

theorem targetsInside_aroundLoop {body : List Stmt} {head : NodeId} {d : Draft}
    (h : d.toGraph.TargetsInside) (hfresh : d.toGraph.Fresh (pointsOf body))
    (hhead : head < d.nodes.length) (n : NodeId) :
    (aroundLoop body head n d).TargetsInside := by
  refine h.grafts (grafts_aroundLoop (lowers_lower.2.1 body (some head) _ d.openLoop hfresh)) ?_
  rintro m rfl
  exact Nat.lt_of_lt_of_le hhead (extends_aroundLoop body _ n d).length_le

section Later

variable {d : Draft} {lowered : Exit × Draft} {parent : Exit} {low : Nat} {ss ts : List Stmt}

/-- What was cut off before stays so beside what is cut off by going on. -/
theorem Graph.AllCut.both (h : d.AllCut low ss) (h' : lowered.2.AllCut d.nodes.length ts)
    (hext : d.toGraph.Extends lowered.2.toGraph) (hlowers : d.Lowers parent lowered)
    (hlow : low ≤ d.nodes.length) : lowered.2.AllCut low (ss ++ ts) :=
  allCut_append.mpr ⟨h.grafts hext hlowers.grafts nofun, h'.weaken hlow⟩

theorem Graph.AllCut.join (h : d.AllCut low ss) (hcounted : d.toGraph.Counted) (es : List Exit) :
    (d.join es).2.AllCut low ss :=
  h.grafts (extends_join _ _) (grafts_join hcounted es) nofun

end Later

/-- Wherever statements are lowered, what is behind a jump in them is cut off. -/
theorem allCut_lower :
    (∀ s : Stmt, ∀ loop parent d, Graph.TargetsInside d.toGraph → d.toGraph.Fresh (pointsOf [s]) →
      (s.lower loop parent d).2.AllCut d.nodes.length s.deadInner) ∧
    (∀ ss, ∀ loop parent d, Graph.TargetsInside d.toGraph → d.toGraph.Fresh (pointsOf ss) →
      (lowerSeq loop ss parent d).2.AllCut d.nodes.length (deadStmtsOf ss)) ∧
    (∀ cs, ∀ loop raised joined d, Graph.TargetsInside d.toGraph → joined < d.nodes.length →
      d.toGraph.Fresh (pointsOfCatches cs) →
      (lowerCatches loop cs raised joined d).AllCut d.nodes.length (deadStmtsOfCatches cs)) := by
  refine tree_induction ?simple ?jump ?block ?while_ ?for_ ?if_ ?try_ ?nil ?cons ?noCatch ?catch_
  case simple => exact fun _ _ _ _ _ _ _ => allCut_nil
  case jump => exact fun _ _ _ _ _ _ _ => allCut_nil
  case block =>
    intro id bid body ih loop parent d htargets hfresh
    exact ih loop parent d htargets (by simpa using hfresh)
  case while_ =>
    intro id cond bid body orElse ihbody ihelse loop parent d htargets hfresh
    rw [pointsOf_while] at hfresh
    have hinside := hfresh.enterControl parent (.while id cond ⟨bid, body⟩ orElse)
    have hhead := (lowers_enterControl hfresh parent (.while id cond ⟨bid, body⟩ orElse)).grafts
    have hlt := (added_enter hfresh parent).2
    have htargets := htargets.grafts hhead nofun
    have hbody {head : NodeId} {d : Draft} (htargets : d.toGraph.TargetsInside)
        (hfresh : d.toGraph.Fresh (pointsOf body)) (hlt : head < d.nodes.length) :
        (aroundLoop body head head d).AllCut d.nodes.length (deadStmtsOf body) :=
      allCut_aroundLoop (ihbody _ _ d.openLoop htargets hfresh) hlt
    have hloop := (hbody htargets hinside.of_append_left hlt).weaken hhead.length_le
    have hafter := targetsInside_aroundLoop htargets hinside.of_append_left hlt
      (d.enterControl parent cond (.while id cond ⟨bid, body⟩ orElse)).1
    rw [deadInner_while]
    rcases orElse with _ | ⟨eid, orElse⟩
    · exact allCut_append.mpr ⟨hloop, allCut_nil⟩
    · have hfresh' := hinside.aroundLoop (d.enter parent (.expr cond)).1
        (d.enter parent (.expr cond)).1
      have hother := ihelse loop (.drawn (d.enter parent (.expr cond)).1) _ hafter hfresh'
      refine (hloop.both hother (extends_lowerSeq _ _ _ _)
        (lowers_lower.2.1 _ _ _ _ hfresh') ?_).join (hfresh'.counted_lowerSeq _ _) _
      exact Nat.le_trans hhead.length_le (extends_aroundLoop _ _ _ _).length_le
  case for_ =>
    intro id var seq bid body ih loop parent d htargets hfresh
    rw [pointsOf_for] at hfresh
    have hinside := hfresh.enterControl parent (.for id var seq ⟨bid, body⟩)
    have hhead := (lowers_enterControl hfresh parent (.for id var seq ⟨bid, body⟩)).grafts
    have hvar := (lowers_enterVar hinside (d.enter parent (.expr seq)).1
      (.for id var seq ⟨bid, body⟩)).grafts
    have hlt := Nat.lt_of_lt_of_le (added_enter hfresh parent).2 hvar.length_le
    have htargets := (htargets.grafts hhead nofun).grafts hvar nofun
    have hbody {head n : NodeId} {d : Draft} (htargets : d.toGraph.TargetsInside)
        (hfresh : d.toGraph.Fresh (pointsOf body)) (hlt : head < d.nodes.length) :
        (aroundLoop body head n d).AllCut d.nodes.length (deadStmtsOf body) :=
      allCut_aroundLoop (ih _ _ d.openLoop htargets hfresh) hlt
    exact (hbody htargets (hinside.enterVar _ _) hlt).weaken
      (Nat.le_trans hhead.length_le hvar.length_le)
  case if_ =>
    intro id cond bid body orElse ihbody ihelse loop parent d htargets hfresh
    rw [pointsOf_if] at hfresh
    have hinside := hfresh.enterControl parent (.if id cond ⟨bid, body⟩ orElse)
    have htest := (lowers_enterControl hfresh parent (.if id cond ⟨bid, body⟩ orElse)).grafts
    have htargets := htargets.grafts htest nofun
    have hbody := (ihbody loop (.drawn (d.enter parent (.expr cond)).1) _ htargets
      hinside.of_append_left).weaken htest.length_le
    rw [deadInner_if]
    rcases orElse with _ | ⟨eid, orElse⟩
    · exact allCut_append.mpr ⟨hbody, allCut_nil⟩
    · have hlowers := lowers_lower.2.1 body loop (.drawn (d.enter parent (.expr cond)).1) _
        hinside.of_append_left
      have hfresh' := hinside.lowerSeq loop (.drawn (d.enter parent (.expr cond)).1)
      have hother := ihelse loop (.drawn (d.enter parent (.expr cond)).1) _
        (htargets.grafts hlowers.grafts nofun) hfresh'
      refine (hbody.both hother (extends_lowerSeq _ _ _ _)
        (lowers_lower.2.1 _ _ _ _ hfresh') ?_).join (hfresh'.counted_lowerSeq _ _) _
      exact Nat.le_trans htest.length_le (extends_lowerSeq _ _ _ _).length_le
  case try_ =>
    intro id bid body catches ihbody ihcatches loop parent d htargets hfresh
    rw [pointsOf_try] at hfresh
    have hlowers := lowers_lower.2.1 body loop parent d hfresh.of_append_left
    have hcounted := hfresh.of_append_left.counted_lowerSeq loop parent
    have hjoin := grafts_join hcounted [(lowerSeq loop body parent d).1]
    have hadded := added_join hcounted [(lowerSeq loop body parent d).1]
    have hfresh' := (hfresh.lowerSeq loop parent).steps (grows_join (O := fun _ => True) _
      [(lowerSeq loop body parent d).1]).steps
    have htargets' := (htargets.grafts hlowers.grafts nofun).grafts hjoin nofun
    -- The join of the `try` is added after its body, and edges to it after that.
    have hgrafts (raised : Exit) := (hjoin.mono (R := fun _ => True) (fun _ _ => trivial)
      (U := fun _ => False) nofun).trans
      (lowers_lower.2.2 catches loop raised _ _ hfresh') (fun _ _ => .inl trivial)
      fun _ hn => .inr (hn ▸ hadded)
    have hext (raised : Exit) (joined : NodeId) := (extends_join (lowerSeq loop body parent d).2
      [(lowerSeq loop body parent d).1]).trans
        (extends_lowerCatches catches loop raised joined _)
    exact allCut_append.mpr ⟨(ihbody loop parent d htargets hfresh.of_append_left).grafts
      (hext _ _) (hgrafts _) nofun, (ihcatches loop _ _ _ htargets' hadded.2 hfresh').weaken
        (Nat.le_trans hlowers.grafts.length_le hjoin.length_le)⟩
  case nil => exact fun _ _ _ _ _ => allCut_nil
  case cons =>
    intro s rest ihs ihrest loop parent d htargets hfresh
    rw [pointsOf_cons] at hfresh
    have hfirst := ihs loop parent d htargets hfresh.of_append_left
    have hlowers := lowers_lower.1 s loop parent d hfresh.of_append_left
    have hrest : (s.lower loop parent d).2.toGraph.Fresh (pointsOf rest) := by
      rw [← lowerSeq_single]
      exact hfresh.lowerSeq loop parent
    have htargets' := htargets.grafts hlowers.grafts nofun
    unfold lowerSeq
    rw [deadStmtsOf]
    dsimp only
    split
    next hjump =>
      rw [if_pos (Bool.and_eq_true_iff.mp hjump).1]
      exact (hfirst.both (allCut_tail htargets' hrest loop) (extends_lowerSeq _ _ _ _)
        (lowers_lower.2.1 rest loop .nowhere _ hrest) hlowers.grafts.length_le).join
        (hrest.counted_lowerSeq loop .nowhere) _
    next hjump =>
      refine hfirst.both ?_ (extends_lowerSeq _ _ _ _) (lowers_lower.2.1 rest loop _ _ hrest)
        hlowers.grafts.length_le
      split
      next hs =>
        -- A jump at the end of its block has nothing behind it.
        have hnil : rest = [] := by simpa [hs] using hjump
        subst hnil
        exact allCut_nil
      next => exact ihrest loop _ _ htargets' hrest
  case noCatch => exact fun _ _ _ _ _ _ _ => allCut_nil
  case catch_ =>
    intro id param bid body rest ihbody ihrest loop raised joined d htargets hjoined hfresh
    rw [pointsOfCatches_cons] at hfresh
    have hlowers := lowers_lower.2.1 body loop raised d hfresh.of_append_left
    have hback := grafts_returnTo (lowerSeq loop body raised d).2 (lowerSeq loop body raised d).1
      joined
    have hfresh' := (hfresh.lowerSeq loop raised).steps
      (grows_returnTo (O := fun _ => True) _ (lowerSeq loop body raised d).1 joined).steps
    have hlt := Nat.lt_of_lt_of_le hjoined (Nat.le_trans hlowers.grafts.length_le hback.length_le)
    have htargets' := (htargets.grafts hlowers.grafts nofun).grafts hback fun _ hn => hn ▸ hlt
    have hbody := ((ihbody loop raised d htargets hfresh.of_append_left).grafts
      (extends_returnTo _ _ _) hback fun _ hn => .inl (hn ▸ hjoined)).grafts
        (extends_lowerCatches rest loop raised joined _) (lowers_lower.2.2 rest loop raised joined _
          hfresh') fun _ hn => .inl (hn ▸ hjoined)
    exact allCut_append.mpr ⟨hbody, (ihrest loop raised joined _ htargets' hlt hfresh').weaken
      (Nat.le_trans hlowers.grafts.length_le hback.length_le)⟩

/-! ## Finished graphs -/

namespace Graph

theorem grafts_close (last : Exit) (d : Draft) :
    Grafts last.Draws (· = finish) d.toGraph (close last d) := by
  refine (grafts_connect d.toGraph last finish).trans (R := fun _ => False) (U := fun _ => False)
    (.of_edges_eq (extends_implyAll _ _ _).length_le (implyAll_edges _ _ _)) nofun nofun

/-- Where a body was lowered and closed, everything behind a jump in it is cut off. -/
theorem allCut_close {b : Block} {g : Graph} (hflows : g.FlowsInside)
    (hfresh : g.Fresh (pointsOf b.stmts)) (hfinish : finish < g.nodes.length) (parent : Exit) :
    (close (lowerSeq none b.stmts parent (.ofGraph g)).1
      (lowerSeq none b.stmts parent (.ofGraph g)).2).AllCut g.nodes.length
        (deadStmtsOf b.stmts) :=
  (allCut_lower.2.1 b.stmts none parent (.ofGraph g) hflows.targetsInside hfresh).grafts
    (extends_close _ _) (grafts_close _ _) fun _ hn => .inl (hn ▸ hfinish)

/-- After the globals of a module, its body is still new. -/
theorem fresh_chainGlobals {m : Module}
    (hids : (m.globals.flatMap Global.ids ++ idsOf m.body.stmts).Nodup) :
    (chainGlobals m.globals (.drawn start) (empty m true)).2.Fresh (pointsOf m.body.stmts) :=
  (fresh_empty_shown m true hids).after
    (steps_chainGlobals (O := fun _ => True) m.globals (.drawn start) _)

theorem exists_allCut_ofBlock (m : Module) {b : Block} (hids : (idsOf b.stmts).Nodup) :
    ∃ low, 0 < low ∧ (ofBlock m b).AllCut low (deadStmtsOf b.stmts) :=
  ⟨2, Nat.two_pos, allCut_close (flowsOnward_empty m false).inside (fresh_empty m false hids)
    Nat.one_lt_two _⟩

theorem exists_allCut_ofModule {m : Module}
    (hids : (m.globals.flatMap Global.ids ++ idsOf m.body.stmts).Nodup) :
    ∃ low, 0 < low ∧ (ofModule m).AllCut low (deadStmtsOf m.body.stmts) := by
  have hflows := admits_chainGlobals m.globals (framed_empty m true) (flowsOnward_empty m true)
    (holds_start m true)
  have hlength := (extends_chainGlobals m.globals (.drawn start) (empty m true)).length_le
  exact ⟨_, Nat.lt_of_lt_of_le Nat.two_pos hlength,
    allCut_close hflows.1.inside (fresh_chainGlobals hids)
      (Nat.lt_of_lt_of_le Nat.one_lt_two hlength) _⟩

end Graph

end ControlFlow

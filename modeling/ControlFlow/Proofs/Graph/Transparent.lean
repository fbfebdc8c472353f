import ControlFlow.Proofs.Graph.Matching
import ControlFlow.Proofs.Tree.Contexts

/-! # Plain blocks are transparent

A plain block only groups statements. The statements of a block without jumps can take the place of
the block, at any depth, and the graph stays the same, with all that is found out about it. The one
exception is an empty block that is all that stands behind a jump: while it is there, the jump has
something behind it, and the chain of nothing meets it at a join.
-/

namespace ControlFlow

section Filling

variable {R : Stmt → Stmt → Prop}

/-! ## Filling holes -/

theorem handleLike_append_left (hR : ∀ s, R s s) (earlier : List Catch) {cs cs' : List Catch}
    (h : HandleLike R cs cs') : HandleLike R (earlier ++ cs) (earlier ++ cs') := by
  induction earlier with
  | nil => exact h
  | cons c rest ih =>
      obtain ⟨_, _, ⟨_, stmts⟩⟩ := c
      exact handleLike_cons ((lowersLike_self hR).2.1 stmts) ih

theorem lowersLike_plug (hR : ∀ s, R s s) (frame : Frame) {ss ss' : List Stmt}
    (h : LowerLike R ss ss') (hplug : R (frame.plug ss) (frame.plug ss')) :
    (frame.plug ss).LowersLike R (frame.plug ss') := by
  have hself := (lowersLike_self hR).2
  cases frame with
  | block id bid => exact h
  | whileBody id cond bid orElse =>
      rcases orElse with _ | ⟨eid, orElse⟩
      · exact lowersLike_while cond h hplug
      · exact lowersLike_while_else cond h (hself.1 orElse) hplug
  | whileElse id cond body eid =>
      obtain ⟨bid, stmts⟩ := body
      exact lowersLike_while_else cond (hself.1 stmts) h hplug
  | forBody id var seq bid => exact lowersLike_for var seq h hplug
  | ifBody id cond bid orElse =>
      rcases orElse with _ | ⟨eid, orElse⟩
      · exact lowersLike_if cond h hplug
      · exact lowersLike_if_else cond h (hself.1 orElse) hplug
  | ifElse id cond body eid =>
      obtain ⟨bid, stmts⟩ := body
      exact lowersLike_if_else cond (hself.1 stmts) h hplug
  | tryBody id bid catches => exact lowersLike_try h (hself.2 catches)
  | handler id body earlier cid param bid later =>
      obtain ⟨_, stmts⟩ := body
      exact lowersLike_try (hself.1 stmts)
        (handleLike_append_left hR earlier (handleLike_cons h (hself.2 later)))

/-- Statements in front of what is lowered alike make no difference, except that a jump right in
front looks at whether there is anything behind it. -/
theorem lowerLike_append_left (hR : ∀ s, R s s) (before : List Stmt) {ss ss' : List Stmt}
    (h : LowerLike R ss ss')
    (hempty : before.getLast?.any Stmt.isJump = true → ss'.isEmpty = ss.isEmpty) :
    LowerLike R (before ++ ss) (before ++ ss') := by
  induction before with
  | nil => exact h
  | cons s rest ih =>
      cases rest with
      | nil => exact lowerLike_cons ((lowersLike_self hR).1 s) rfl h (by simpa using hempty)
      | cons t rest =>
          rw [List.getLast?_cons_cons] at hempty
          exact lowerLike_cons ((lowersLike_self hR).1 s) rfl (ih hempty) fun _ => rfl

theorem lowerSeq_append_of_live {ss : List Stmt} (hss : ∀ s ∈ ss, s.isJump = false)
    (ts : List Stmt) (loop : Option NodeId) (parent : Exit) (d : Draft) :
    lowerSeq loop (ss ++ ts) parent d =
      lowerSeq loop ts (lowerSeq loop ss parent d).1 (lowerSeq loop ss parent d).2 := by
  induction ss generalizing parent d with
  | nil => rfl
  | cons s rest ih =>
      obtain ⟨hs, hrest⟩ := List.forall_mem_cons.mp hss
      rw [List.cons_append, lowerSeq_cons_of_live hs, lowerSeq_cons_of_live hs, ih hrest]

/-- A block without jumps is lowered as its statements are. -/
theorem lowerLike_block (hR : ∀ s, R s s) (id bid : TreeId) {body : List Stmt}
    (hbody : ∀ s ∈ body, s.isJump = false) (after : List Stmt) :
    LowerLike R (.block id ⟨bid, body⟩ :: after) (body ++ after) := by
  intro loop parent d d' h
  have hsame : lowerSeq loop (.block id ⟨bid, body⟩ :: after) parent d =
      lowerSeq loop (body ++ after) parent d := by
    rw [lowerSeq_cons_of_live rfl, lowerSeq_append_of_live hbody]
    rfl
  rw [hsame]
  exact (lowersLike_self hR).2.1 (body ++ after) loop parent d d' h

/-- Where a hole can take either of two lists, the whole list is lowered alike with both. -/
theorem lowerLike_fill {old new : List Stmt} (hR : ∀ s, R s s) (c : Context)
    (hplug : ∀ (frame : Frame) (c : Context), R (frame.plug (c.fill old)) (frame.plug (c.fill new)))
    (hold : ∀ after, LowerLike R (old ++ after) (new ++ after))
    (hempty : c.trailsJump = true → new.isEmpty = old.isEmpty) :
    LowerLike R (c.fill old) (c.fill new) := by
  induction c with
  | here before after =>
      refine lowerLike_append_left hR before (hold after) fun hjump => ?_
      cases after with
      | nil => simpa using hempty (by simpa [Context.trailsJump] using hjump)
      | cons s rest => cases new <;> cases old <;> rfl
  | inside before frame hole after ih =>
      have hframe := lowersLike_plug hR frame (ih hempty) (hplug frame hole)
      have hrest := (lowersLike_self hR).2.1 after
      exact lowerLike_append_left hR before
        (lowerLike_cons hframe (by rw [Frame.isJump_plug, Frame.isJump_plug]) hrest fun _ => rfl)
        fun _ => rfl

end Filling

/-! ## Blocks in place -/

/-- Two graphs of trees that differ in the statements at one place have the same nodes and flows,
and say the same. Each control expression belongs to the same statement, up to that place in it. -/
structure Graph.ShowsAs (old new : List Stmt) (g g' : Graph) : Prop extends
    g.Matches (Stmt.Refilled old new) g' where
  sites : g'.sites = g.sites
  owner : ∀ p, (g'.owner? p).map Stmt.id = (g.owner? p).map Stmt.id
  view : ∀ stage : Analysis.Stage,
    (stage.reach g').map Analysis.view = (stage.reach g).map Analysis.view

theorem Graph.Matches.showsAs {old new : List Stmt} {g g' : Graph}
    (h : g.Matches (Stmt.Refilled old new) g') : g.ShowsAs old new g' :=
  ⟨h, h.sites_eq, h.owner_eq fun _ _ => Stmt.Refilled.id_eq, h.view_eq⟩

theorem lowerLike_fill_block (c : Context) (id bid : TreeId) {body : List Stmt}
    (hbody : ∀ s ∈ body, s.isJump = false) (hshown : body ≠ [] ∨ c.trailsJump = false) :
    LowerLike (Stmt.Refilled [.block id ⟨bid, body⟩] body) (c.fill [.block id ⟨bid, body⟩])
      (c.fill body) := by
  refine lowerLike_fill .same c .filled (lowerLike_block .same id bid hbody) fun htrails => ?_
  -- Behind a jump, the statements of the block have to be there as the block is.
  rcases hshown with hne | hnot
  · simpa using hne
  · rw [htrails] at hnot
    cases hnot

open ControlFlow.Graph

/-- The statements of a plain block without jumps can take the place of the block, at any depth, and
the graph is the same and says the same. The block must not be an empty one that is all that stands
behind a jump. -/
theorem Context.block_transparent (c : Context) (id bid : TreeId) {body : List Stmt}
    (hbody : ∀ s ∈ body, s.isJump = false) (hshown : body ≠ [] ∨ c.trailsJump = false)
    (m m' : Module) (k : TreeId) (hdecls : m'.decls = m.decls) :
    (ofBlock m ⟨k, c.fill [.block id ⟨bid, body⟩]⟩).ShowsAs [.block id ⟨bid, body⟩] body
        (ofBlock m' ⟨k, c.fill body⟩) ∧
      (∀ f : Function,
        (ofFunction m { f with body := ⟨k, c.fill [.block id ⟨bid, body⟩]⟩ }).ShowsAs
          [.block id ⟨bid, body⟩] body (ofFunction m' { f with body := ⟨k, c.fill body⟩ })) ∧
      (ofModule { m with body := ⟨k, c.fill [.block id ⟨bid, body⟩]⟩ }).ShowsAs
        [.block id ⟨bid, body⟩] body (ofModule { m with body := ⟨k, c.fill body⟩ }) := by
  have hlower := lowerLike_fill_block c id bid hbody hshown
  exact ⟨(matches_ofBlock hdecls hlower).showsAs, fun f => (matches_ofBlock hdecls hlower).showsAs,
    (matches_ofModule (by rfl) (by rfl) hlower).showsAs⟩

/-- A loop whose body returns and then goes on with a `try`, which has a place between two
statements. -/
def behindReturn : Context :=
  .inside [] (.whileBody 1 (.literal 2 (.bool true)) 3 none)
    (.inside [.jump 4 (.return none)] (.tryBody 5 6 [⟨7, none, ⟨8, [.jump 9 .break]⟩⟩])
      (.here [.simple 10 .yield] [.simple 11 .yield]) []) []

/-- A branch that may leave the loop. -/
def maybeBreak : List Stmt :=
  [.simple 12 .yield, .if 13 (.literal 14 (.bool false)) ⟨15, [.jump 16 .break]⟩ none]

theorem Context.block_transparent_in_try : (∀ s ∈ maybeBreak, s.isJump = false) ∧
    (maybeBreak ≠ [] ∨ behindReturn.trailsJump = false) ∧
    (ofBlock ⟨"m", [], [], ⟨0, []⟩, []⟩ ⟨0, behindReturn.fill [.block 17 ⟨18, maybeBreak⟩]⟩).ShowsAs
      [.block 17 ⟨18, maybeBreak⟩] maybeBreak
      (ofBlock ⟨"m", [], [], ⟨0, []⟩, []⟩ ⟨0, behindReturn.fill maybeBreak⟩) ∧
    (ofBlock ⟨"m", [], [], ⟨0, []⟩, []⟩ ⟨0, behindReturn.fill maybeBreak⟩).nodes.length = 9 := by
  have hbody : ∀ s ∈ maybeBreak, s.isJump = false := by decide
  have hshown : maybeBreak ≠ [] ∨ behindReturn.trailsJump = false := .inr rfl
  exact ⟨hbody, hshown,
    (Context.block_transparent behindReturn 17 18 hbody hshown ⟨"m", [], [], ⟨0, []⟩, []⟩
      ⟨"m", [], [], ⟨0, []⟩, []⟩ 0 rfl).1, by decide⟩

/-- An empty block that is all that stands behind a jump shows as a join. -/
theorem Context.empty_block_behind_jump_shows :
    let c : Context := .here [.jump 1 (.return none)] []
    let m : Module := ⟨"m", [], [], ⟨0, []⟩, []⟩
    c.trailsJump = true ∧ (∀ s ∈ ([] : List Stmt), s.isJump = false) ∧
      ¬ (ofBlock m ⟨0, c.fill [.block 2 ⟨3, []⟩]⟩).ShowsAs [.block 2 ⟨3, []⟩] []
        (ofBlock m ⟨0, c.fill []⟩) := by
  refine ⟨rfl, nofun, fun h => ?_⟩
  have hlength := congrArg List.length h.nodes
  revert hlength
  decide

section Exception

variable {c : Context} {id bid : TreeId}

/-- Wherever an empty block is all that stands behind a jump, it adds one join. -/
theorem Context.marks_of_trailsJump (h : c.trailsJump = true)
    (hids : (idsOf (c.fill [.block id ⟨bid, []⟩])).Nodup) (m m' : Module) (k : TreeId) :
    (ofBlock m ⟨k, c.fill [.block id ⟨bid, []⟩]⟩).marks =
      (ofBlock m' ⟨k, c.fill []⟩).marks + 1 := by
  have hsub : (idsOf (c.fill [])).Sublist (idsOf (c.fill [.block id ⟨bid, []⟩])) :=
    c.idsOf_fill_sublist (List.nil_sublist _)
  have hwith := (gains_ofBlock (m := m) (b := ⟨k, c.fill [.block id ⟨bid, []⟩]⟩) hids).marks
  have hwithout := (gains_ofBlock (m := m') (b := ⟨k, c.fill []⟩) (hids.sublist hsub)).marks
  rw [Block.joins_eq, joinsOf_fill_of_trailsJump h] at hwith
  rw [hwith, hwithout, Block.joins_eq]
  exact (Nat.add_assoc _ _ _).symm

/-- So the exception is no weaker than it has to be. -/
theorem Context.not_showsAs_of_trailsJump (h : c.trailsJump = true)
    (hids : (idsOf (c.fill [.block id ⟨bid, []⟩])).Nodup) (m m' : Module) (k : TreeId) :
    ¬ (ofBlock m ⟨k, c.fill [.block id ⟨bid, []⟩]⟩).ShowsAs [.block id ⟨bid, []⟩] []
      (ofBlock m' ⟨k, c.fill []⟩) := by
  intro hshows
  have hmarks := hshows.marks
  rw [marks_of_trailsJump h hids m m' k] at hmarks
  omega

end Exception

end ControlFlow

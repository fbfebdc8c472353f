import ControlFlow.Proofs.Pruning.DeadCode
import ControlFlow.Proofs.Pruning.Preservation
import ControlFlow.Proofs.Pruning.Referents
import ControlFlow.Proofs.Tree.Taken

/-! # What pruning reports

Pruning reports the statements that its rounds found to go, each once. Those that go along with a
loop or branch behind a jump are found as well, if they have nodes of their own and are no
declarations that are still named. Blocks, `try` statements and jumps without a value have no
nodes, so that they go without being reported.
-/

namespace ControlFlow

open ControlFlow.Graph

/-- A statement that no round finds to go by itself: it has no node, or it declares a variable that
the body still names. -/
def Block.Unlisted (b : Block) (s : Stmt) : Prop :=
  s.ownPoints = [] ∨ (Point.stmt s).DeclaresNamed b

namespace Pruning

/-- The statements of a body that are not left are accounted for by the numbers that were reported.
These are numbers of statements that have nodes and that are gone, and of which those with
statements nested in them were behind a jump. Whatever is gone without being reported could not be
found. -/
structure Accounts (body left : Block) (removed : List TreeId) : Prop where
  nodup : removed.Nodup
  gone : ∀ id ∈ removed, (∃ s ∈ body.allStmts, s.id = id ∧ s.ownPoints ≠ []) ∧
    id ∉ left.allStmts.map Stmt.id
  dead : ∀ t ∈ body.allStmts, t.id ∈ removed → t.isSimple = true ∨ body.BehindJump t
  unlisted : ∀ s ∈ body.allStmts, s.id ∉ left.allStmts.map Stmt.id → s.id ∉ removed →
    body.Unlisted s

variable {g : Graph} {effects : Array Effect} {body left : Block} {globals : List Global}
  {s t : Stmt} {ids before after : List TreeId} {low : Nat}

/-! ## One round -/

theorem nodup_of_doomed (hdepicts : g.Depicts body globals) (hdoomed : doomed g body = .ok ids) :
    ids.Nodup := by
  obtain ⟨effects, heffects⟩ := effects_of_doomed hdoomed
  rw [doomed_eq hdepicts heffects] at hdoomed
  cases hdoomed
  exact (Ascending.sorted_ofList _).imp Nat.ne_of_lt

/-- What is condemned has a node. -/
theorem Condemns.ownPoints_ne_nil (hdepicts : g.Depicts body globals) (h : Condemns g effects s) :
    s.ownPoints ≠ [] := by
  rcases h with ⟨n, -, hn⟩ | ⟨n, -, p, hp, howner⟩
  · exact List.ne_nil_of_mem (hdepicts.stmt_mem (List.mem_of_getElem? hn)).2
  · obtain ⟨q, hq, -⟩ := exists_point_of_owner hdepicts (List.mem_of_getElem? hp) howner
    exact List.ne_nil_of_mem hq

/-- The owner of a dead node is behind a jump. -/
theorem behindJump_of_dead (hdepicts : g.Depicts body globals) (hnodup : body.allStmts.Nodup)
    {n : NodeId} {p : Point} (hn : n ∈ g.dead) (hp : g.nodes[n]? = some p)
    (howner : g.owner? p = some s) : body.BehindJump s := by
  have hs := hdepicts.owner_mem (List.mem_of_getElem? hp) howner
  by_contra hlive
  exact not_dead_of_live hdepicts ((mem_liveStmtsOf_iff hnodup hs).mpr hlive) hp howner hn

/-- What is condemned is simple or behind a jump. -/
theorem Condemns.simple_or_behindJump (hdepicts : g.Depicts body globals)
    (heffects : g.effects = .ok effects) (hnodup : body.allStmts.Nodup)
    (h : Condemns g effects s) : s.isSimple = true ∨ body.BehindJump s := by
  rcases h with ⟨n, hn, hp⟩ | ⟨n, hn, p, hp, howner⟩
  · exact .inl (isSimple_of_unused heffects hp (Graph.mem_select.mp hn).2)
  · exact .inr (behindJump_of_dead hdepicts hnodup hn hp howner)

/-- What is behind a jump is condemned if it has a node. -/
theorem condemns_of_behindJump (hdepicts : g.Depicts body globals)
    (hids : (globals.flatMap Global.ids ++ idsOf body.stmts).Nodup)
    (hcut : g.AllCut low (deadStmtsOf body.stmts)) (hlow : 0 < low)
    (hbehind : body.BehindJump s) (hown : s.ownPoints ≠ []) : Condemns g effects s := by
  have hs := hbehind.mem
  obtain ⟨p, hp⟩ := List.exists_mem_of_ne_nil _ hown
  obtain ⟨n, hn, -⟩ := hcut s (mem_deadStmtsOf_iff.mpr hbehind) p hp
  have hnode := hdepicts.getElem?_of_find? (nodup_keys_of_ids hids)
    (List.mem_append_right _ (List.mem_flatMap.mpr ⟨s, hs, hp⟩)) hn
  have hdead := (hdepicts.mem_dead_iff hids.of_append_right hcut hlow hnode hs hp).mpr hbehind
  exact .inr ⟨n, hdead, p, hnode, hdepicts.owner?_of_mem_ownPoints hids hs hp⟩

/-- A round accounts for what it takes out. -/
theorem accounts_round (hdepicts : g.Depicts body globals)
    (hids : (globals.flatMap Global.ids ++ idsOf body.stmts).Nodup)
    (hcut : g.AllCut low (deadStmtsOf body.stmts)) (hlow : 0 < low)
    (hdoomed : doomed g body = .ok ids) : Accounts body (takeOut ids body) ids := by
  have hstmts : (body.allStmts.map Stmt.id).Nodup :=
    (stmtsOf_ids_sublist body.stmts).nodup hids.of_append_right
  obtain ⟨effects, heffects⟩ := effects_of_doomed hdoomed
  have hmem (t : Stmt) (ht : t ∈ body.allStmts) :=
    doomed_iff hdepicts heffects hstmts hdoomed ht
  have hcases {t : Stmt} (ht : t ∈ body.allStmts) (hid : t.id ∈ ids) :=
    ((hmem t ht).mp hid).2.simple_or_behindJump hdepicts heffects hstmts.of_map
  have hgone {s : Stmt} (hs : s ∈ body.allStmts) :=
    @gone_iff (fun s => ids.contains s.id) s body.stmts hstmts hs
  refine ⟨nodup_of_doomed hdepicts hdoomed, fun id hid => ?_, fun t => hcases, ?_⟩
  · obtain ⟨s, hs, rfl⟩ := exists_stmt_of_mem_doomed hdepicts hdoomed hid
    exact ⟨⟨s, hs, rfl, ((hmem s hs).mp hid).2.ownPoints_ne_nil hdepicts⟩,
      (hgone hs).mpr ⟨s, hs, List.contains_iff_mem.mpr hid, List.mem_cons_self⟩⟩
  · intro s hs hleft hnot
    obtain ⟨t, ht, hid, hst⟩ := (hgone hs).mp hleft
    have hid := List.contains_iff_mem.mp hid
    rcases List.mem_cons.mp hst with rfl | hinner
    · exact absurd hid hnot
    -- Something is nested in the statement that was found, so that it was behind a jump.
    have hbehind : body.BehindJump s := by
      rcases hcases ht hid with hsimple | hbehind
      · cases t with
        | simple id what => cases hinner
        | _ => cases hsimple
      · exact hbehind.inner hinner
    by_cases hown : s.ownPoints = []
    · exact .inl hown
    · have hcondemned : Condemns g effects s :=
        condemns_of_behindJump hdepicts hids hcut hlow hbehind hown
      refine .inr (declares_of_isShielded (Bool.not_eq_false _ |>.mp fun hshield => ?_))
      exact hnot ((hmem s hs).mpr ⟨hshield, hcondemned⟩)

/-! ## All rounds -/

/-- A statement whose number is left is left, without what went inside it. -/
theorem mem_takeOut (hids : (body.allStmts.map Stmt.id).Nodup) (hs : s ∈ body.allStmts)
    (hleft : s.id ∈ (takeOut ids body).allStmts.map Stmt.id) :
    s.without (fun t => ids.contains t.id) ∈ (takeOut ids body).allStmts := by
  obtain ⟨u, hu, hid⟩ := List.mem_map.mp hleft
  obtain ⟨t, ht, rfl⟩ := List.mem_map.mp ((stmts_without_sublist.2.1 body.stmts).subset hu)
  rw [id_without] at hid
  rwa [← List.inj_on_of_nodup_map hids ht hs hid]

theorem behindJump_of_takeOut (hids : (body.allStmts.map Stmt.id).Nodup) (hs : s ∈ body.allStmts)
    (h : (takeOut ids body).BehindJump (s.without fun t => ids.contains t.id)) :
    body.BehindJump s := by
  obtain ⟨t, ht, heq⟩ := List.mem_map.mp
    (deadStmts_without_subset.2.1 body.stmts (mem_deadStmtsOf_iff.mpr h))
  have hmem : t ∈ body.allStmts := deadStmtsOf_subset body.stmts ht
  have hid : t.id = s.id := by
    rw [← id_without t, heq, id_without]
  rw [← List.inj_on_of_nodup_map hids hmem hs hid]
  exact mem_deadStmtsOf_iff.mp ht

theorem unlisted_of_takeOut
    (h : (takeOut ids body).Unlisted (s.without fun t => ids.contains t.id)) :
    body.Unlisted s := by
  rcases h with hnone | ⟨id, var, heq, e, he, hnamed⟩
  · exact .inl ((ownPoints_without s).symm.trans hnone)
  · refine .inr ⟨id, var, ?_, e, exprs_without_subset.2.1 body.stmts he, hnamed⟩
    cases s with
    | simple id' what => exact heq
    | jump id' how => cases heq
    | _ =>
        have hsimple := congrArg Stmt.isSimple (Point.stmt.inj heq)
        rw [isSimple_without] at hsimple
        cases hsimple

/-- What is accounted for in a round and then in the others is accounted for in all of them. -/
theorem Accounts.append (hids : (body.allStmts.map Stmt.id).Nodup)
    (h : Accounts body (takeOut before body) before)
    (h' : Accounts (takeOut before body) (takeOut after (takeOut before body)) after) :
    Accounts body (takeOut after (takeOut before body)) (before ++ after) := by
  have hsub : ((takeOut after (takeOut before body)).allStmts.map Stmt.id).Sublist
      ((takeOut before body).allStmts.map Stmt.id) := stmt_ids_without_sublist _
  constructor
  · refine List.nodup_append'.mpr ⟨h.nodup, h'.nodup, fun id hid hid' => ?_⟩
    obtain ⟨s, hs, rfl, -⟩ := (h'.gone id hid').1
    exact (h.gone s.id hid).2 (List.mem_map_of_mem hs)
  · intro id hid
    rcases List.mem_append.mp hid with hid | hid
    · exact ⟨(h.gone id hid).1, fun hleft => (h.gone id hid).2 (hsub.subset hleft)⟩
    · obtain ⟨⟨u, hu, rfl, hown⟩, hgone⟩ := h'.gone id hid
      obtain ⟨s, hs, rfl⟩ := List.mem_map.mp ((stmts_without_sublist.2.1 body.stmts).subset hu)
      rw [ownPoints_without] at hown
      exact ⟨⟨s, hs, (id_without s).symm, hown⟩, hgone⟩
  · intro t ht hid
    rcases List.mem_append.mp hid with hid | hid
    · exact h.dead t ht hid
    · obtain ⟨u, hu, hid', -⟩ := (h'.gone t.id hid).1
      have hleft := mem_takeOut hids ht (List.mem_map.mpr ⟨u, hu, hid'⟩)
      have hcases := h'.dead _ hleft ((id_without t).symm ▸ hid)
      rw [isSimple_without] at hcases
      exact hcases.imp_right (behindJump_of_takeOut hids ht)
  · intro s hs hgone hnot
    obtain ⟨hnot, hnot'⟩ := not_or.mp fun h => hnot (List.mem_append.mpr h)
    by_cases hleft : s.id ∈ (takeOut before body).allStmts.map Stmt.id
    · refine unlisted_of_takeOut (h'.unlisted _ (mem_takeOut hids hs hleft) ?_ ?_)
      · rwa [id_without]
      · rwa [id_without]
    · exact h.unlisted s hs hleft hnot

theorem accounts_nil (body : Block) : Accounts body body [] :=
  ⟨List.nodup_nil, nofun, nofun,
    fun _ hs hgone => absurd (List.mem_map_of_mem hs) hgone⟩

/-- Where graphs cut off what is behind a jump, all rounds account for what is gone. -/
theorem Rounds.accounts {graphOf : Block → Graph} {report : Report}
    (hdepicts : ∀ b, (graphOf b).Depicts b globals)
    (hcut : ∀ b : Block, (globals.flatMap Global.ids ++ idsOf b.stmts).Nodup →
      ∃ low, 0 < low ∧ (graphOf b).AllCut low (deadStmtsOf b.stmts))
    (h : Rounds graphOf body (.ok (left, report)))
    (hids : (globals.flatMap Global.ids ++ idsOf body.stmts).Nodup) :
    Accounts body left report.removed := by
  induction h using Rounds.induction_ok with
  | settled _ => exact accounts_nil _
  | @round b _ ids _ hdoomed _ hrest ih =>
      obtain ⟨low, hlow, hcut⟩ := hcut b hids
      have hround := accounts_round (hdepicts b) hids hcut hlow hdoomed
      have hothers := ih (((List.Sublist.refl _).append (ids_without_sublist.2.1 b.stmts)).nodup hids)
      rw [hrest.eq_takeOut] at hothers ⊢
      exact hround.append ((stmtsOf_ids_sublist b.stmts).nodup hids.of_append_right) hothers

end Pruning

namespace Module

variable {m p : Module} {scope : Option String} {report : Pruning.Report}

/-- The graphs of a scope cut off what is behind a jump. -/
theorem exists_allCut_graphWith (m : Module) (scope : Option String) (b : Block)
    (hids : ((m.globalsOf scope).flatMap Global.ids ++ idsOf b.stmts).Nodup) :
    ∃ low, 0 < low ∧ (m.graphWith scope b).AllCut low (deadStmtsOf b.stmts) := by
  cases scope with
  | none => exact exists_allCut_ofModule (m := { m with body := b }) hids
  | some name => exact exists_allCut_ofBlock m hids.of_append_right

/-- What pruning reports of a module with distinct numbers. No number is reported twice, and each
is that of a statement of the body that is gone and has a node. A statement of the body is gone
exactly if it is reported, or goes along with a reported loop or branch behind a jump because no
round finds it by itself: it has no node, or it declares a variable that the body names. So where no
such statement is nested in one behind a jump, exactly the statements that are gone are reported. -/
theorem prune_reports (hids : m.ids.Nodup) (hprune : m.prune scope = .ok (p, report)) :
    ∃ body pruned, m.bodyOf? scope = some body ∧ p.bodyOf? scope = some pruned ∧
      report.removed.Nodup ∧
      (∀ id ∈ report.removed, (∃ s ∈ body.allStmts, s.id = id ∧ s.ownPoints ≠ []) ∧
        id ∉ pruned.allStmts.map Stmt.id) ∧
      (∀ s ∈ body.allStmts, s.id ∉ pruned.allStmts.map Stmt.id ↔ s.id ∈ report.removed ∨
        body.Unlisted s ∧
          ∃ t ∈ body.allStmts, t.id ∈ report.removed ∧ body.BehindJump t ∧ s ∈ t.inner) ∧
      ((∀ t, body.BehindJump t → ∀ s ∈ t.inner, ¬ body.Unlisted s) → ∀ id,
        id ∈ report.removed ↔
          id ∈ body.allStmts.map Stmt.id ∧ id ∉ pruned.allStmts.map Stmt.id) := by
  obtain ⟨body, pruned, hbody, rfl, hpruned, hrounds⟩ := exists_of_prune hprune
  have hnodup := (charts_of_bodyOf? hbody).nodup_ids hids
  rw [shownGlobals_graphWith] at hnodup
  have haccounts := hrounds.accounts (m.depicts_graphWith scope) (m.exists_allCut_graphWith scope)
    hnodup
  have hstmts : (body.allStmts.map Stmt.id).Nodup :=
    (stmtsOf_ids_sublist body.stmts).nodup hnodup.of_append_right
  have hgone {s : Stmt} (hs : s ∈ body.allStmts) : s.id ∉ pruned.allStmts.map Stmt.id ↔
      ∃ t ∈ body.allStmts, report.removed.contains t.id = true ∧ s ∈ t :: t.inner := by
    rw [hpruned]
    exact @gone_iff (fun s => report.removed.contains s.id) s body.stmts hstmts hs
  have hiff : ∀ s ∈ body.allStmts, s.id ∉ pruned.allStmts.map Stmt.id ↔
      s.id ∈ report.removed ∨ body.Unlisted s ∧
        ∃ t ∈ body.allStmts, t.id ∈ report.removed ∧ body.BehindJump t ∧ s ∈ t.inner := by
    intro s hs
    refine ⟨fun hleft => or_iff_not_imp_left.mpr fun hnot => ?_, ?_⟩
    · obtain ⟨t, ht, hid, hst⟩ := (hgone hs).mp hleft
      have hid := List.contains_iff_mem.mp hid
      rcases List.mem_cons.mp hst with rfl | hinner
      · exact absurd hid hnot
      · refine ⟨haccounts.unlisted s hs hleft hnot, t, ht, hid, ?_, hinner⟩
        refine (haccounts.dead t ht hid).resolve_left fun hsimple => ?_
        cases t with
        | simple id what => cases hinner
        | _ => cases hsimple
    · rintro (hid | ⟨-, t, ht, hid, -, hinner⟩)
      · exact (haccounts.gone s.id hid).2
      · exact (hgone hs).mpr
          ⟨t, ht, List.contains_iff_mem.mpr hid, List.mem_cons_of_mem _ hinner⟩
  refine ⟨body, pruned, hbody, bodyOf?_withBody hbody, haccounts.nodup, haccounts.gone, hiff,
    fun hlisted id => ⟨fun hid => ?_, ?_⟩⟩
  · obtain ⟨⟨s, hs, rfl, -⟩, hleft⟩ := haccounts.gone id hid
    exact ⟨List.mem_map_of_mem hs, hleft⟩
  · rintro ⟨hmem, hleft⟩
    obtain ⟨s, hs, rfl⟩ := List.mem_map.mp hmem
    refine ((hiff s hs).mp hleft).resolve_right ?_
    rintro ⟨hunlisted, t, -, -, hbehind, hinner⟩
    exact hlisted t hbehind s hinner hunlisted

/-- A return; behind it a loop that yields and is left. -/
def breaking : List Stmt :=
  [.jump 2 (.return none),
    .while 3 (.literal 4 (.bool true)) ⟨5, [.simple 6 .yield, .jump 7 .break]⟩ none]

theorem prune_breaking :
    (ofStmts breaking).prune none = .ok (ofStmts [.jump 2 (.return none)], ⟨[3, 6], 2⟩) := by
  cbv

/-- The loop and its `yield` are reported; the `break` goes along with the loop, and is not. -/
theorem prune_reports_breaking : (ofStmts breaking).ids.Nodup ∧
    (ofStmts breaking).prune none = .ok (ofStmts [.jump 2 (.return none)], ⟨[3, 6], 2⟩) ∧
    ∃ t ∈ stmtsOf breaking, t.id ∈ [3, 6] ∧ (Block.mk 1 breaking).BehindJump t ∧
      Stmt.jump 7 .break ∈ t.inner := by
  have hids : (ofStmts breaking).ids.Nodup := by decide
  obtain ⟨body, pruned, hbody, hpruned, -, -, hiff, -⟩ := prune_reports hids prune_breaking
  cases hbody
  cases hpruned
  have hbreak : Stmt.jump 7 .break ∈ stmtsOf breaking :=
    List.mem_cons_of_mem _ (List.mem_cons_of_mem _ (List.mem_cons_of_mem _ List.mem_cons_self))
  rcases (hiff _ hbreak).mp (by decide) with hlisted | ⟨-, hinside⟩
  · exact absurd hlisted (by decide)
  · exact ⟨hids, prune_breaking, hinside⟩

/-- Not all statements that are gone are reported. -/
theorem prune_omits_nodeless : (ofStmts breaking).ids.Nodup ∧
    (ofStmts breaking).prune none = .ok (ofStmts [.jump 2 (.return none)], ⟨[3, 6], 2⟩) ∧
    ¬ ∀ id, id ∈ [3, 6] ↔ id ∈ (stmtsOf breaking).map Stmt.id ∧
      id ∉ (stmtsOf [.jump 2 (.return none)]).map Stmt.id := by
  refine ⟨by decide, prune_breaking, fun hall => ?_⟩
  exact absurd ((hall 7).mpr ⟨by decide, by decide⟩) (by decide)

end Module

end ControlFlow

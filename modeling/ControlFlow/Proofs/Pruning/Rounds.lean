import ControlFlow.Proofs.Pruning.Doomed
import ControlFlow.Proofs.Tree.Without

/-! # Rounds of pruning

Pruning is a loop that takes out what a round finds to go and ends with the first round that finds
nothing. Every number that a round finds is that of a statement of the body, so that each round but
the last makes the body smaller.
-/

namespace ControlFlow.Pruning

/-- What pruning a body comes to if one more round was made before. -/
def addRound (ids : List TreeId) (r : Except AnalysisFault (Block × Report)) :
    Except AnalysisFault (Block × Report) :=
  r.map fun done => (done.1, ⟨ids ++ done.2.removed, done.2.rounds + 1⟩)

/-- The loop of pruning: round after round until one fails or finds nothing to go. -/
inductive Rounds (graphOf : Block → Graph) :
    Block → Except AnalysisFault (Block × Report) → Prop where
  | fails {b : Block} {why : AnalysisFault} :
      doomed (graphOf b) b = .error why → Rounds graphOf b (.error why)
  | settled {b : Block} : doomed (graphOf b) b = .ok [] → Rounds graphOf b (.ok (b, ⟨[], 1⟩))
  | round {b : Block} {ids : List TreeId} {r : Except AnalysisFault (Block × Report)} :
      doomed (graphOf b) b = .ok ids → ids ≠ [] → Rounds graphOf (takeOut ids b) r →
        Rounds graphOf b (addRound ids r)

variable {graphOf : Block → Graph} {globals : List Global} {b b' : Block} {ids : List TreeId}
  {report : Report}

theorem takeOut_nil (b : Block) : takeOut [] b = b := by
  have hnone : (fun s : Stmt => ([] : List TreeId).contains s.id) = fun _ => false := rfl
  obtain ⟨id, stmts⟩ := b
  rw [takeOut, hnone, Block.without, without_none.2.1]

theorem ids_takeOut_sublist (ids : List TreeId) (b : Block) : (takeOut ids b).ids.Sublist b.ids :=
  (ids_without_sublist.2.1 b.stmts).cons_cons b.id

/-- A round that finds something to go makes the body smaller. -/
theorem size_takeOut_lt {g : Graph} (hdepicts : g.Depicts b globals)
    (hids : doomed g b = .ok ids) (hne : ids ≠ []) : (takeOut ids b).size < b.size := by
  obtain ⟨id, hid⟩ := List.exists_mem_of_ne_nil ids hne
  obtain ⟨s, hs, rfl⟩ := exists_stmt_of_mem_doomed hdepicts hids hid
  exact size_without_lt ⟨s, hs, List.contains_iff_mem.mpr hid⟩

/-- Pruning a body is the loop of its rounds. -/
theorem rounds_pruneBody (hdepicts : ∀ b, (graphOf b).Depicts b globals) (b : Block) :
    Rounds graphOf b (pruneBody graphOf b) := by
  induction hsize : b.size using Nat.strong_induction_on generalizing b with
  | _ size ih =>
      unfold pruneBody
      split
      next why hwhy => exact .fails hwhy
      next ids hids =>
        by_cases hne : ids = []
        · subst hne
          rw [takeOut_nil, if_neg (Nat.lt_irrefl _)]
          exact .settled hids
        · have hlt := size_takeOut_lt (hdepicts b) hids hne
          -- The body is smaller after this round, so that the loop does go on.
          have hrest := Rounds.round hids hne (ih _ (hsize ▸ hlt) (takeOut ids b) rfl)
          rw [if_pos hlt]
          split
          next why hwhy =>
            rw [hwhy] at hrest
            exact hrest
          next done report hdone =>
            rw [hdone] at hrest
            exact hrest

/-- Induction on the rounds of a loop that goes through. -/
@[elab_as_elim]
theorem Rounds.induction_ok
    {motive : ∀ b b' report, Rounds graphOf b (.ok (b', report)) → Prop}
    (settled : ∀ {b} (hids : doomed (graphOf b) b = .ok []), motive b b ⟨[], 1⟩ (.settled hids))
    (round : ∀ {b b' ids report} (hids : doomed (graphOf b) b = .ok ids) (hne : ids ≠ [])
      (hrest : Rounds graphOf (takeOut ids b) (.ok (b', report))),
      motive (takeOut ids b) b' report hrest →
        motive b b' ⟨ids ++ report.removed, report.rounds + 1⟩ (.round hids hne hrest))
    (h : Rounds graphOf b (.ok (b', report))) : motive b b' report h := by
  have hall {c : Block} {r : Except AnalysisFault (Block × Report)} (h : Rounds graphOf c r) :
      ∀ b' report (hr : r = .ok (b', report)), motive c b' report (hr ▸ h) := by
    induction h with
    | fails _ => exact fun _ _ hr => nomatch hr
    | settled hids =>
        rintro _ _ ⟨⟩
        exact settled hids
    | @round b ids r hids hne hrest ih =>
        intro b' report hr
        cases r with
        | error why => cases hr
        | ok done =>
            cases hr
            exact round hids hne hrest (ih _ _ rfl)
  exact hall h b' report rfl

theorem contains_append_id (ids ids' : List TreeId) :
    (fun s : Stmt => (ids ++ ids').contains s.id) =
      fun s => ids.contains s.id || ids'.contains s.id := by
  funext s
  rw [List.contains_eq_any_beq, List.any_append, ← List.contains_eq_any_beq,
    ← List.contains_eq_any_beq]

/-- A statement loses in two rounds what it loses in one with all their numbers. -/
theorem without_append (ids ids' : List TreeId) (s : Stmt) :
    (s.without fun t => ids.contains t.id).without (fun t => ids'.contains t.id) =
      s.without fun t => (ids ++ ids').contains t.id := by
  rw [contains_append_id]
  exact (without_without (fun id => ids.contains id) fun id => ids'.contains id).1 s

/-- Two rounds take out what one with all their numbers does. -/
theorem takeOut_takeOut (ids ids' : List TreeId) (b : Block) :
    takeOut ids' (takeOut ids b) = takeOut (ids ++ ids') b := by
  have hstmts := (without_without (fun id => ids.contains id) fun id => ids'.contains id).2.1 b.stmts
  simp only [takeOut, Block.without, contains_append_id, hstmts]

/-- Pruning takes out the statements whose numbers it reports, and does nothing else. -/
theorem Rounds.eq_takeOut (h : Rounds graphOf b (.ok (b', report))) :
    b' = takeOut report.removed b := by
  induction h using Rounds.induction_ok with
  | settled _ => exact (takeOut_nil _).symm
  | round _ _ _ ih => rw [ih, takeOut_takeOut]

/-- Only numbers of the body are reported. -/
theorem Rounds.removed_subset (hdepicts : ∀ b, (graphOf b).Depicts b globals)
    (h : Rounds graphOf b (.ok (b', report))) : report.removed ⊆ b.ids := by
  induction h using Rounds.induction_ok with
  | settled _ => exact List.nil_subset _
  | @round b _ ids _ hids _ _ ih =>
      refine List.append_subset.mpr ⟨fun id hid => ?_, ?_⟩
      · obtain ⟨s, hs, rfl⟩ := exists_stmt_of_mem_doomed (hdepicts b) hids hid
        have hmem := (stmtsOf_ids_sublist b.stmts).subset (List.mem_map_of_mem hs)
        exact List.mem_cons_of_mem _ hmem
      · exact fun id hid => (ids_takeOut_sublist ids b).subset (ih hid)

/-- Rounds are few: no more than the body has statements or than statements went, and one more. -/
theorem Rounds.bound (hdepicts : ∀ b, (graphOf b).Depicts b globals)
    (h : Rounds graphOf b (.ok (b', report))) :
    report.rounds ≤ 1 + b.size ∧ report.rounds ≤ 1 + report.removed.length := by
  induction h using Rounds.induction_ok with
  | settled _ => exact ⟨Nat.le_add_right _ _, Nat.le_add_right _ _⟩
  | @round b _ ids _ hids hne _ ih =>
      obtain ⟨hsize, hremoved⟩ := ih
      have hlt := size_takeOut_lt (hdepicts b) hids hne
      have hpos := List.length_pos_iff.mpr hne
      simp only [List.length_append]
      exact ⟨by omega, by omega⟩

/-- The last round finds nothing to go. -/
theorem Rounds.settles (h : Rounds graphOf b (.ok (b', report))) :
    doomed (graphOf b') b' = .ok [] := by
  induction h using Rounds.induction_ok with
  | settled hids => exact hids
  | round _ _ _ ih => exact ih

/-- The loop fails only where a variable that is referred into has no node. -/
theorem Rounds.isMissingSite {r : Except AnalysisFault (Block × Report)} {why : AnalysisFault}
    (hdepicts : ∀ b, (graphOf b).Depicts b globals) (h : Rounds graphOf b r) (hr : r = .error why) :
    why.IsMissingSite := by
  induction h with
  | fails hwhy =>
      cases hr
      exact isMissingSite_of_doomed (hdepicts _) hwhy
  | settled _ => cases hr
  | @round b ids r _ _ _ ih =>
      cases r with
      | error why' =>
          cases hr
          exact ih rfl
      | ok done => cases hr

theorem pruneBody_of_settled (h : doomed (graphOf b) b = .ok []) :
    pruneBody graphOf b = .ok (b, ⟨[], 1⟩) := by
  unfold pruneBody
  rw [h]
  dsimp only
  rw [takeOut_nil, if_neg (Nat.lt_irrefl _)]

end ControlFlow.Pruning

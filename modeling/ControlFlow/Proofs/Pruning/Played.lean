import ControlFlow.Proofs.Flow.Plays
import ControlFlow.Proofs.Tree.Without

/-! # Playing what is left of a body

Where all doomed statements that are not behind a jump have no parts, what is left of a body plays
the same way as the whole body. It takes the same choices, ends the same way, and visits the same
points but for the doomed statements.
-/

namespace ControlFlow

/-- Whether a statement has no parts and passes control on. -/
def Stmt.isSimple : Stmt → Bool
  | .simple _ _ => true
  | _ => false

/-- Whether a point is not a doomed statement. -/
def Point.stays (doomed : Stmt → Bool) : Point → Bool
  | .stmt s => !doomed s
  | _ => true

/-- Of the statements that are not behind a jump, only simple ones are doomed. -/
def Spares (doomed : Stmt → Bool) (ss : List Stmt) : Prop :=
  ∀ s ∈ liveStmtsOf ss, doomed s = true → s.isSimple = true

variable {doomed : Stmt → Bool} {s : Stmt} {ss ts rest : List Stmt}

namespace Spares

theorem mono (h : Spares doomed ss) (hsub : liveStmtsOf ts ⊆ liveStmtsOf ss) : Spares doomed ts :=
  fun s hs => h s (hsub hs)

theorem of_inner (h : Spares doomed (s :: rest)) (hsub : liveStmtsOf ts ⊆ s.liveInner) :
    Spares doomed ts :=
  h.mono fun _ ht => List.mem_cons_of_mem _ (List.mem_append_left _ (hsub ht))

theorem head (h : Spares doomed (s :: rest)) : Spares doomed [s] := by
  intro t ht
  apply h t
  simp only [liveStmtsOf, ite_self, List.append_nil] at ht ⊢
  rcases List.mem_cons.mp ht with rfl | ht
  · exact List.mem_cons_self
  · exact List.mem_cons_of_mem _ (List.mem_append_left _ ht)

theorem tail (h : Spares doomed (s :: rest)) (hs : s.isJump = false) : Spares doomed rest := by
  intro t ht
  apply h t
  simp [liveStmtsOf, hs, ht]

theorem not_doomed (h : Spares doomed (s :: rest)) (hs : s.isSimple = false) :
    doomed s = false := by
  apply Bool.eq_false_iff.mpr
  intro hdoomed
  simp [h s List.mem_cons_self hdoomed] at hs

/-- A statement with parts stays, without what is doomed inside. -/
theorem single (h : Spares doomed [s]) (hs : s.isSimple = false) :
    stmtsWithout doomed [s] = [s.without doomed] :=
  stmtsWithout_single (h.not_doomed hs)

end Spares

theorem entered_without {choice : Bool} {catches : List Catch} {cid cbid : TreeId}
    {param : Option DeclId} {handler : List Stmt}
    (h : entered choice catches = some ⟨cid, param, ⟨cbid, handler⟩⟩) :
    entered choice (catchesWithout doomed catches) =
      some ⟨cid, param, ⟨cbid, stmtsWithout doomed handler⟩⟩ := by
  rw [catchesWithout_eq_map]
  unfold entered at h ⊢
  split at h <;> simp [*]

/-- What is left of a body plays as the body does. -/
theorem Plays.without {choices : List Bool} {i k : Nat} {v : List Point} {o : Ending}
    (h : Plays choices ss i v o k) (hspares : Spares doomed ss) :
    Plays choices (stmtsWithout doomed ss) i (v.filter (Point.stays doomed)) o k := by
  induction h with
  | nil i => exact .nil i
  | @cons s t rest i j k v w o hfirst _ ihs ihrest =>
      have hs : s.isJump = false :=
        Bool.eq_false_iff.mpr fun hs => hfirst.runs.jump_ne_normal hs rfl
      rw [stmtsWithout_cons, List.filter_append]
      exact .append (ihs hspares.head) (ihrest (hspares.tail hs))
  | @leave s t rest i j v o _ hne ih =>
      rw [stmtsWithout_cons]
      exact .append_leave (ih hspares.head) hne _
  | simple i id what =>
      by_cases hs : doomed (.simple id what) = true
      · simp only [stmtsWithout, hs, if_true, Point.stays, List.filter, Bool.not_true]
        exact .nil i
      · simp only [stmtsWithout, hs, Point.stays, List.filter, Bool.not_false]
        exact .simple i id what
  | jump i id how =>
      have hs := hspares.not_doomed rfl
      -- A jump that is run is never doomed, and neither is its point.
      have hvisits : (Stmt.jump id how).ownPoints.filter (Point.stays doomed) =
          (Stmt.jump id how).ownPoints := by
        apply List.filter_eq_self.mpr
        intro p hp
        cases p with
        | stmt s =>
            rw [eq_of_stmt_mem_ownPoints hp, Point.stays, hs]
            rfl
        | _ => rfl
      rw [hspares.single rfl, hvisits]
      exact .jump i id how
  | block _ ih =>
      rw [hspares.single rfl]
      exact .block (ih (hspares.of_inner (List.Subset.refl _)))
  | @ifTrue id bid cond body orElse i j v o htrue _ ih =>
      rw [hspares.single rfl, without_if]
      refine .ifTrue htrue (ih (hspares.of_inner ?_))
      rw [liveInner_if]
      exact List.subset_append_left _ _
  | @ifFalse id bid cond body orElse i j v o hfalse _ ih =>
      rw [hspares.single rfl, without_if]
      refine .ifFalse hfalse ?_
      rw [elseOf_without]
      apply ih
      apply hspares.of_inner
      rw [liveInner_if]
      exact List.subset_append_right _ _
  | @whileFalse id bid cond body orElse i j v o hfalse _ ih =>
      rw [hspares.single rfl, without_while]
      refine .whileFalse hfalse ?_
      rw [elseOf_without]
      apply ih
      apply hspares.of_inner
      rw [liveInner_while]
      exact List.subset_append_right _ _
  | @whileRound id bid cond body orElse i j k v w o o' htrue _ hround _ ihbody ihnext =>
      have hbody : Spares doomed body := by
        apply hspares.of_inner
        rw [liveInner_while]
        exact List.subset_append_left _ _
      have hnext := ihnext hspares
      rw [hspares.single rfl, without_while] at hnext ⊢
      simp only [List.filter_cons, List.filter_append, Point.stays, if_true]
      exact .whileRound htrue (ihbody hbody) hround hnext
  | @whileLeave id bid cond body orElse i j v o htrue _ hround ih =>
      rw [hspares.single rfl, without_while]
      refine .whileLeave htrue (ih (hspares.of_inner ?_)) hround
      rw [liveInner_while]
      exact List.subset_append_left _ _
  | forDone hfalse =>
      rw [hspares.single rfl]
      exact .forDone hfalse
  | forRound htrue _ hround _ ihbody ihnext =>
      have hnext := ihnext hspares
      rw [hspares.single rfl] at hnext ⊢
      simp only [List.filter_cons, List.filter_append, Point.stays, if_true]
      exact .forRound htrue (ihbody (hspares.of_inner (List.Subset.refl _))) hround hnext
  | forLeave htrue _ hround ih =>
      rw [hspares.single rfl]
      exact .forLeave htrue (ih (hspares.of_inner (List.Subset.refl _))) hround
  | @tryEnd id bid body catches i j v o _ hend ih =>
      rw [hspares.single rfl]
      refine .tryEnd (ih (hspares.of_inner (List.subset_append_left _ _))) ?_
      apply hend.imp_left
      rintro rfl
      rfl
  | tryCatch _ hcatch _ ihbody ihhandler =>
      rw [hspares.single rfl, List.filter_append]
      have hbody := ihbody (hspares.of_inner (List.subset_append_left _ _))
      refine .tryCatch hbody (entered_without hcatch) (ihhandler (hspares.of_inner ?_))
      intro t ht
      exact List.mem_append_right _ (mem_liveStmtsOfCatches (mem_of_entered hcatch) ht)

end ControlFlow

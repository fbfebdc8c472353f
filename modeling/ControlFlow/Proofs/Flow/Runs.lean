import ControlFlow.Proofs.Tree.Live

/-! # Structural runs

A run through statements visits points of a flow graph. A condition may go either way each time it
is evaluated, every node that is visited may raise, and what is raised or thrown inside the body of
a `try` that has catches enters any one of them. A run may also be looked at up to any of its
points only, so that endless runs are covered by their beginnings.
-/

namespace ControlFlow

/-- How a run ends. -/
inductive Ending where
  | normal
  | return
  /-- A `throw` statement was reached. -/
  | throw
  /-- The node that was visited last raised. -/
  | raise
  | break
  | continue
  /-- The run goes on, but is not looked at any further. -/
  | stopped
deriving DecidableEq

namespace Ending

/-- Whether catches take control. -/
def isThrown : Ending → Bool
  | .throw | .raise => true
  | _ => false

/-- Whether a loop goes on after its body ended so. -/
def goesRound : Ending → Bool
  | .normal | .continue => true
  | _ => false

/-- How a loop ends that its body leaves so. -/
def afterLoop : Ending → Ending
  | .break => .normal
  | o => o

/-- Whether a body that ends so leads to the end of its graph. -/
def finishes : Ending → Bool
  | .normal | .return | .throw => true
  | _ => false

end Ending

/-- How a jump ends the run of its block. -/
def Jump.ending : Jump → Ending
  | .return _ => .return
  | .throw _ => .throw
  | .break => .break
  | .continue => .continue

/-- The runs through a sequence of statements, with the points that they visit in order and how
they end. -/
inductive Runs : List Stmt → List Point → Ending → Prop where
  | nil : Runs [] [] .normal
  | cons {s : Stmt} {rest : List Stmt} {v w : List Point} {o : Ending} :
      Runs [s] v .normal → Runs rest w o → Runs (s :: rest) (v ++ w) o
  /-- The statements after one that does not end normally are not entered. -/
  | leave {s : Stmt} {rest : List Stmt} {v : List Point} {o : Ending} :
      Runs [s] v o → o ≠ .normal → Runs (s :: rest) v o
  /-- A statement's own points may be visited in part only. -/
  | stop {s : Stmt} {v : List Point} : v <+: s.ownPoints → Runs [s] v .stopped
  | raise {s : Stmt} {v : List Point} : v <+: s.ownPoints → v ≠ [] → Runs [s] v .raise
  | simple (id : TreeId) (what : Simple) :
      Runs [.simple id what] [.stmt (.simple id what)] .normal
  | jump (id : TreeId) (how : Jump) :
      Runs [.jump id how] (Stmt.jump id how).ownPoints how.ending
  | block {id bid : TreeId} {body : List Stmt} {v : List Point} {o : Ending} :
      Runs body v o → Runs [.block id ⟨bid, body⟩] v o
  | ifTrue {id bid : TreeId} {cond : Expr} {body : List Stmt} {orElse : Option Block}
      {v : List Point} {o : Ending} :
      Runs body v o → Runs [.if id cond ⟨bid, body⟩ orElse] (.expr cond :: v) o
  | ifFalse {id bid : TreeId} {cond : Expr} {body : List Stmt} {orElse : Option Block}
      {v : List Point} {o : Ending} :
      Runs (elseOf orElse) v o → Runs [.if id cond ⟨bid, body⟩ orElse] (.expr cond :: v) o
  | whileFalse {id bid : TreeId} {cond : Expr} {body : List Stmt} {orElse : Option Block}
      {v : List Point} {o : Ending} :
      Runs (elseOf orElse) v o → Runs [.while id cond ⟨bid, body⟩ orElse] (.expr cond :: v) o
  | whileRound {id bid : TreeId} {cond : Expr} {body : List Stmt} {orElse : Option Block}
      {v w : List Point} {o o' : Ending} :
      Runs body v o → o.goesRound = true → Runs [.while id cond ⟨bid, body⟩ orElse] w o' →
        Runs [.while id cond ⟨bid, body⟩ orElse] (.expr cond :: (v ++ w)) o'
  | whileLeave {id bid : TreeId} {cond : Expr} {body : List Stmt} {orElse : Option Block}
      {v : List Point} {o : Ending} :
      Runs body v o → o.goesRound = false →
        Runs [.while id cond ⟨bid, body⟩ orElse] (.expr cond :: v) o.afterLoop
  | forDone {id bid : TreeId} {var : LoopVar} {seq : Expr} {body : List Stmt} :
      Runs [.for id var seq ⟨bid, body⟩] [.expr seq] .normal
  | forRound {id bid : TreeId} {var : LoopVar} {seq : Expr} {body : List Stmt}
      {v w : List Point} {o o' : Ending} :
      Runs body v o → o.goesRound = true → Runs [.for id var seq ⟨bid, body⟩] w o' →
        Runs [.for id var seq ⟨bid, body⟩] (.expr seq :: .loopVar var :: (v ++ w)) o'
  | forLeave {id bid : TreeId} {var : LoopVar} {seq : Expr} {body : List Stmt}
      {v : List Point} {o : Ending} :
      Runs body v o → o.goesRound = false →
        Runs [.for id var seq ⟨bid, body⟩] (.expr seq :: .loopVar var :: v) o.afterLoop
  | tryEnd {id bid : TreeId} {body : List Stmt} {catches : List Catch} {v : List Point}
      {o : Ending} :
      Runs body v o → catches = [] ∨ o.isThrown = false → Runs [.try id ⟨bid, body⟩ catches] v o
  | tryCatch {id bid cid cbid : TreeId} {param : Option DeclId} {body handler : List Stmt}
      {catches : List Catch} {v w : List Point} {o o' : Ending} :
      Runs body v o → o.isThrown = true → ⟨cid, param, ⟨cbid, handler⟩⟩ ∈ catches →
        Runs handler w o' → Runs [.try id ⟨bid, body⟩ catches] (v ++ w) o'

theorem Jump.ending_ne_normal (how : Jump) : how.ending ≠ .normal := by
  cases how <;> exact nofun

/-- A jump never passes control on. -/
theorem Runs.jump_ne_normal {s : Stmt} {visits : List Point} {o : Ending} (hs : s.isJump = true)
    (hrun : Runs [s] visits o) : o ≠ .normal := by
  obtain ⟨id, how, rfl⟩ : ∃ id how, s = .jump id how := by
    cases s with
    | jump id how => exact ⟨id, how, rfl⟩
    | _ => cases hs
  generalize hss : [Stmt.jump id how] = ss at hrun
  induction hrun with
  | @cons s rest v w o _ _ ihs _ =>
      cases hss
      exact absurd rfl (ihs rfl)
  | leave _ hne _ => exact hne
  | stop => exact nofun
  | raise => exact nofun
  | jump id how => exact how.ending_ne_normal
  | _ => cases hss

/-- A run visits only points of its statements that are not behind a jump. -/
theorem Runs.visits_live {ss : List Stmt} {visits : List Point} {o : Ending}
    (hrun : Runs ss visits o) : visits ⊆ livePointsOf ss := by
  induction hrun with
  | nil => exact List.Subset.refl _
  | @cons s rest v w o hfirst _ ihs ihrest =>
      -- A first statement that passes control on is no jump.
      have hs : s.isJump = false := Bool.eq_false_iff.mpr fun hs => hfirst.jump_ne_normal hs rfl
      rw [livePointsOf_cons, hs]
      exact append_subset_append ihs ihrest
  | @leave s rest v o _ _ ih =>
      rw [livePointsOf_cons]
      exact List.subset_append_of_subset_left _ ih
  | @stop s v hpre =>
      rw [livePointsOf_single]
      exact List.subset_append_of_subset_left _ hpre.subset
  | @raise s v hpre _ =>
      rw [livePointsOf_single]
      exact List.subset_append_of_subset_left _ hpre.subset
  | simple id what => exact List.Subset.refl _
  | jump id how =>
      rw [livePointsOf_jump]
      exact List.Subset.refl _
  | block _ ih =>
      rw [livePointsOf_block]
      exact ih
  | ifTrue _ ih =>
      rw [livePointsOf_if]
      exact List.cons_subset_cons _ (List.subset_append_of_subset_left _ ih)
  | ifFalse _ ih =>
      rw [livePointsOf_if]
      exact List.cons_subset_cons _ (List.subset_append_of_subset_right _ ih)
  | whileFalse _ ih =>
      rw [livePointsOf_while]
      exact List.cons_subset_cons _ (List.subset_append_of_subset_right _ ih)
  | whileRound _ _ _ ihbody ihnext =>
      rw [livePointsOf_while] at ihnext ⊢
      exact List.cons_subset.mpr ⟨List.mem_cons_self, List.append_subset.mpr
        ⟨List.subset_cons_of_subset _ (List.subset_append_of_subset_left _ ihbody), ihnext⟩⟩
  | whileLeave _ _ ih =>
      rw [livePointsOf_while]
      exact List.cons_subset_cons _ (List.subset_append_of_subset_left _ ih)
  | forDone =>
      rw [livePointsOf_for]
      exact List.cons_subset_cons _ (List.nil_subset _)
  | forRound _ _ _ ihbody ihnext =>
      rw [livePointsOf_for] at ihnext ⊢
      refine List.cons_subset.mpr ⟨List.mem_cons_self, List.cons_subset.mpr ⟨by simp, ?_⟩⟩
      exact List.append_subset.mpr ⟨List.subset_cons_of_subset _
        (List.subset_cons_of_subset _ ihbody), ihnext⟩
  | forLeave _ _ ih =>
      rw [livePointsOf_for]
      exact List.cons_subset_cons _ (List.cons_subset_cons _ ih)
  | tryEnd _ _ ih =>
      rw [livePointsOf_try]
      exact List.subset_append_of_subset_left _ ih
  | tryCatch _ _ hcatch _ ihbody ihhandler =>
      rw [livePointsOf_try]
      exact append_subset_append ihbody
        (List.Subset.trans ihhandler (livePointsOf_subset_catches hcatch))

theorem Runs.visits_subset {ss : List Stmt} {visits : List Point} {o : Ending}
    (hrun : Runs ss visits o) : visits ⊆ pointsOf ss :=
  List.Subset.trans hrun.visits_live (livePointsOf_subset ss)

end ControlFlow

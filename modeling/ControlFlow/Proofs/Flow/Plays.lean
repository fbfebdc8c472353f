import ControlFlow.Proofs.Flow.Runs

/-! # Playing a body

The reference for what a body does. Its branches are decided by a list of choices, which counts as
false once it is used up: a condition that is true enters its branch or loop, a `for` goes round
once more, and what is thrown enters the last catch of the innermost `try` around it that has
catches, or the first one. A jump that finds no loop and a throw that finds no catch end the run.
-/

namespace ControlFlow

/-- The choice at a position, false after the last one. -/
def chosen (choices : List Bool) (i : Nat) : Bool := choices.getD i false

/-- The catch that a choice enters. -/
def entered (choice : Bool) (catches : List Catch) : Option Catch :=
  if choice then catches.getLast? else catches.head?

theorem mem_of_entered {choice : Bool} {catches : List Catch} {c : Catch}
    (h : entered choice catches = some c) : c ∈ catches := by
  unfold entered at h
  split at h
  next => exact List.mem_of_getLast? h
  next => exact List.mem_of_head? h

/-- What is played on given choices, from the choice that is next: the points that are visited, how
the run ends, and the choice that is next then. -/
inductive Plays (choices : List Bool) : List Stmt → Nat → List Point → Ending → Nat → Prop where
  | nil (i : Nat) : Plays choices [] i [] .normal i
  | cons {s t : Stmt} {rest : List Stmt} {i j k : Nat} {v w : List Point} {o : Ending} :
      Plays choices [s] i v .normal j → Plays choices (t :: rest) j w o k →
        Plays choices (s :: t :: rest) i (v ++ w) o k
  | leave {s t : Stmt} {rest : List Stmt} {i j : Nat} {v : List Point} {o : Ending} :
      Plays choices [s] i v o j → o ≠ .normal → Plays choices (s :: t :: rest) i v o j
  | simple (i : Nat) (id : TreeId) (what : Simple) :
      Plays choices [.simple id what] i [.stmt (.simple id what)] .normal i
  | jump (i : Nat) (id : TreeId) (how : Jump) :
      Plays choices [.jump id how] i (Stmt.jump id how).ownPoints how.ending i
  | block {id bid : TreeId} {body : List Stmt} {i j : Nat} {v : List Point} {o : Ending} :
      Plays choices body i v o j → Plays choices [.block id ⟨bid, body⟩] i v o j
  | ifTrue {id bid : TreeId} {cond : Expr} {body : List Stmt} {orElse : Option Block} {i j : Nat}
      {v : List Point} {o : Ending} :
      chosen choices i = true → Plays choices body (i + 1) v o j →
        Plays choices [.if id cond ⟨bid, body⟩ orElse] i (.expr cond :: v) o j
  | ifFalse {id bid : TreeId} {cond : Expr} {body : List Stmt} {orElse : Option Block} {i j : Nat}
      {v : List Point} {o : Ending} :
      chosen choices i = false → Plays choices (elseOf orElse) (i + 1) v o j →
        Plays choices [.if id cond ⟨bid, body⟩ orElse] i (.expr cond :: v) o j
  | whileFalse {id bid : TreeId} {cond : Expr} {body : List Stmt} {orElse : Option Block}
      {i j : Nat} {v : List Point} {o : Ending} :
      chosen choices i = false → Plays choices (elseOf orElse) (i + 1) v o j →
        Plays choices [.while id cond ⟨bid, body⟩ orElse] i (.expr cond :: v) o j
  | whileRound {id bid : TreeId} {cond : Expr} {body : List Stmt} {orElse : Option Block}
      {i j k : Nat} {v w : List Point} {o o' : Ending} :
      chosen choices i = true → Plays choices body (i + 1) v o j → o.goesRound = true →
        Plays choices [.while id cond ⟨bid, body⟩ orElse] j w o' k →
        Plays choices [.while id cond ⟨bid, body⟩ orElse] i (.expr cond :: (v ++ w)) o' k
  | whileLeave {id bid : TreeId} {cond : Expr} {body : List Stmt} {orElse : Option Block}
      {i j : Nat} {v : List Point} {o : Ending} :
      chosen choices i = true → Plays choices body (i + 1) v o j → o.goesRound = false →
        Plays choices [.while id cond ⟨bid, body⟩ orElse] i (.expr cond :: v) o.afterLoop j
  | forDone {id bid : TreeId} {var : LoopVar} {seq : Expr} {body : List Stmt} {i : Nat} :
      chosen choices i = false →
        Plays choices [.for id var seq ⟨bid, body⟩] i [.expr seq] .normal (i + 1)
  | forRound {id bid : TreeId} {var : LoopVar} {seq : Expr} {body : List Stmt} {i j k : Nat}
      {v w : List Point} {o o' : Ending} :
      chosen choices i = true → Plays choices body (i + 1) v o j → o.goesRound = true →
        Plays choices [.for id var seq ⟨bid, body⟩] j w o' k →
        Plays choices [.for id var seq ⟨bid, body⟩] i (.expr seq :: .loopVar var :: (v ++ w)) o' k
  | forLeave {id bid : TreeId} {var : LoopVar} {seq : Expr} {body : List Stmt} {i j : Nat}
      {v : List Point} {o : Ending} :
      chosen choices i = true → Plays choices body (i + 1) v o j → o.goesRound = false →
        Plays choices [.for id var seq ⟨bid, body⟩] i (.expr seq :: .loopVar var :: v)
          o.afterLoop j
  | tryEnd {id bid : TreeId} {body : List Stmt} {catches : List Catch} {i j : Nat}
      {v : List Point} {o : Ending} :
      Plays choices body i v o j → catches = [] ∨ o.isThrown = false →
        Plays choices [.try id ⟨bid, body⟩ catches] i v o j
  | tryCatch {id bid cid cbid : TreeId} {param : Option DeclId} {body handler : List Stmt}
      {catches : List Catch} {i j k : Nat} {v w : List Point} {o : Ending} :
      Plays choices body i v .throw j →
        entered (chosen choices j) catches = some ⟨cid, param, ⟨cbid, handler⟩⟩ →
        Plays choices handler (j + 1) w o k →
        Plays choices [.try id ⟨bid, body⟩ catches] i (v ++ w) o k

namespace Plays

variable {choices : List Bool} {ss ts : List Stmt} {i j k k' : Nat} {v w v' : List Point}
  {o o' : Ending}

/-- What is played is one of the structural runs. -/
theorem runs (h : Plays choices ss i v o k) : Runs ss v o := by
  induction h with
  | nil i => exact .nil
  | cons _ _ ihs ihrest => exact .cons ihs ihrest
  | leave _ ho ih => exact .leave ih ho
  | simple i id what => exact .simple id what
  | jump i id how => exact .jump id how
  | block _ ih => exact .block ih
  | ifTrue _ _ ih => exact .ifTrue ih
  | ifFalse _ _ ih => exact .ifFalse ih
  | whileFalse _ _ ih => exact .whileFalse ih
  | whileRound _ _ hround _ ihbody ihnext => exact .whileRound ihbody hround ihnext
  | whileLeave _ _ hround ih => exact .whileLeave ih hround
  | forDone _ => exact .forDone
  | forRound _ _ hround _ ihbody ihnext => exact .forRound ihbody hround ihnext
  | forLeave _ _ hround ih => exact .forLeave ih hround
  | tryEnd _ hend ih => exact .tryEnd ih hend
  | tryCatch _ hcatch _ ihbody ihhandler =>
      exact .tryCatch ihbody rfl (mem_of_entered hcatch) ihhandler

/-- Given the choices, there is one play only. -/
theorem unique (h : Plays choices ss i v o k) (h' : Plays choices ss i v' o' k') :
    v' = v ∧ o' = o ∧ k' = k := by
  induction h generalizing v' o' k' with
  | nil i =>
      cases h'
      exact ⟨rfl, rfl, rfl⟩
  | cons _ _ ihs ihrest =>
      cases h' with
      | cons hs hrest =>
          obtain ⟨rfl, -, rfl⟩ := ihs hs
          obtain ⟨rfl, rfl, rfl⟩ := ihrest hrest
          exact ⟨rfl, rfl, rfl⟩
      -- The first statement ends in one way only, so that both plays go on or both leave.
      | leave hs hne => exact absurd (ihs hs).2.1 hne
  | leave _ hne ih =>
      cases h' with
      | cons hs _ => exact absurd (ih hs).2.1.symm hne
      | leave hs _ => exact ih hs
  | simple i id what =>
      cases h'
      exact ⟨rfl, rfl, rfl⟩
  | jump i id how =>
      cases h'
      exact ⟨rfl, rfl, rfl⟩
  | block _ ih =>
      cases h' with
      | block hbody => exact ih hbody
  | ifTrue htrue _ ih =>
      cases h' with
      | ifTrue _ hbody =>
          obtain ⟨rfl, rfl, rfl⟩ := ih hbody
          exact ⟨rfl, rfl, rfl⟩
      | ifFalse hfalse _ => simp [htrue] at hfalse
  | ifFalse hfalse _ ih =>
      cases h' with
      | ifTrue htrue _ => simp [hfalse] at htrue
      | ifFalse _ helse =>
          obtain ⟨rfl, rfl, rfl⟩ := ih helse
          exact ⟨rfl, rfl, rfl⟩
  | whileFalse hfalse _ ih =>
      cases h' with
      | whileFalse _ helse =>
          obtain ⟨rfl, rfl, rfl⟩ := ih helse
          exact ⟨rfl, rfl, rfl⟩
      | whileRound htrue _ _ _ => simp [hfalse] at htrue
      | whileLeave htrue _ _ => simp [hfalse] at htrue
  | whileRound htrue _ hround _ ihbody ihnext =>
      cases h' with
      | whileFalse hfalse _ => simp [htrue] at hfalse
      | whileRound _ hbody _ hnext =>
          obtain ⟨rfl, rfl, rfl⟩ := ihbody hbody
          obtain ⟨rfl, rfl, rfl⟩ := ihnext hnext
          exact ⟨rfl, rfl, rfl⟩
      | whileLeave _ hbody hleave =>
          obtain ⟨-, rfl, -⟩ := ihbody hbody
          simp [hround] at hleave
  | whileLeave htrue _ hleave ih =>
      cases h' with
      | whileFalse hfalse _ => simp [htrue] at hfalse
      | whileRound _ hbody hround _ =>
          obtain ⟨-, rfl, -⟩ := ih hbody
          simp [hround] at hleave
      | whileLeave _ hbody _ =>
          obtain ⟨rfl, rfl, rfl⟩ := ih hbody
          exact ⟨rfl, rfl, rfl⟩
  | forDone hfalse =>
      cases h' with
      | forDone _ => exact ⟨rfl, rfl, rfl⟩
      | forRound htrue _ _ _ => simp [hfalse] at htrue
      | forLeave htrue _ _ => simp [hfalse] at htrue
  | forRound htrue _ hround _ ihbody ihnext =>
      cases h' with
      | forDone hfalse => simp [htrue] at hfalse
      | forRound _ hbody _ hnext =>
          obtain ⟨rfl, rfl, rfl⟩ := ihbody hbody
          obtain ⟨rfl, rfl, rfl⟩ := ihnext hnext
          exact ⟨rfl, rfl, rfl⟩
      | forLeave _ hbody hleave =>
          obtain ⟨-, rfl, -⟩ := ihbody hbody
          simp [hround] at hleave
  | forLeave htrue _ hleave ih =>
      cases h' with
      | forDone hfalse => simp [htrue] at hfalse
      | forRound _ hbody hround _ =>
          obtain ⟨-, rfl, -⟩ := ih hbody
          simp [hround] at hleave
      | forLeave _ hbody _ =>
          obtain ⟨rfl, rfl, rfl⟩ := ih hbody
          exact ⟨rfl, rfl, rfl⟩
  | tryEnd _ hend ih =>
      cases h' with
      | tryEnd hbody _ => exact ih hbody
      | tryCatch hbody hcatch _ =>
          obtain ⟨-, rfl, -⟩ := ih hbody
          rcases hend with rfl | hthrown
          · cases mem_of_entered hcatch
          · cases hthrown
  | tryCatch _ hcatch _ ihbody ihhandler =>
      cases h' with
      | tryEnd hbody hend =>
          obtain ⟨-, rfl, -⟩ := ihbody hbody
          rcases hend with rfl | hthrown
          · cases mem_of_entered hcatch
          · cases hthrown
      | tryCatch hbody hcatch' hhandler =>
          obtain ⟨rfl, -, rfl⟩ := ihbody hbody
          rw [hcatch] at hcatch'
          cases hcatch'
          obtain ⟨rfl, rfl, rfl⟩ := ihhandler hhandler
          exact ⟨rfl, rfl, rfl⟩

/-! ## Sequences -/

theorem append (h : Plays choices ss i v .normal j) (h' : Plays choices ts j w o k) :
    Plays choices (ss ++ ts) i (v ++ w) o k := by
  induction ss generalizing i v with
  | nil =>
      cases h
      exact h'
  | cons s rest ih =>
      rcases rest with _ | ⟨t, rest⟩
      · -- After a single statement, the others follow as they are.
        rcases ts with _ | ⟨t, ts⟩
        · cases h'
          rw [List.append_nil, List.append_nil]
          exact h
        · exact .cons h h'
      · cases h with
        | cons hs hrest =>
            rw [List.append_assoc]
            exact .cons hs (ih hrest)
        | leave _ hne => exact absurd rfl hne

theorem append_leave (h : Plays choices ss i v o j) (hne : o ≠ .normal) (ts : List Stmt) :
    Plays choices (ss ++ ts) i v o j := by
  induction ss generalizing i v with
  | nil =>
      cases h
      exact absurd rfl hne
  | cons s rest ih =>
      rcases rest with _ | ⟨t, rest⟩
      · rcases ts with _ | ⟨t, ts⟩
        · exact h
        · exact .leave h hne
      · cases h with
        | cons hs hrest => exact .cons hs (ih hrest)
        | leave hs _ => exact .leave hs hne

end Plays

end ControlFlow

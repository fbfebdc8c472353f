import ControlFlow.Proofs.Pruning.Convergence
import ControlFlow.Proofs.Tree.Scope
import Mathlib

/-! # Pruning keeps declarations in scope

A round takes out no declaration whose variable the body still names, unless it goes along with a
statement around it, and then so does everything in its scope. What is left refers to variables
where it did before, with the same declarations in scope, however many rounds there are.
-/

namespace ControlFlow

namespace Pruning

variable {g : Graph} {body left : Block} {globals : List Global} {s : Stmt} {ids : List TreeId}
  {report : Report} {graphOf : Block → Graph} {d : DeclId}

/-- Where the numbers of statements are distinct, no declaration of a variable that is still named
has the number of a statement that goes. -/
theorem not_doomed_of_declared (hdepicts : g.Depicts body globals)
    (hids : (body.allStmts.map Stmt.id).Nodup) (hdoomed : doomed g body = .ok ids)
    (hs : s ∈ body.allStmts) (hd : d ∈ named body) (hdeclared : s.declared? = some d) :
    s.id ∉ ids := by
  intro hid
  obtain ⟨effects, heffects⟩ := effects_of_doomed hdoomed
  have hshield := ((doomed_iff hdepicts heffects hids hdoomed hs).mp hid).1
  unfold isShielded at hshield
  split at hshield
  next id var =>
    cases hdeclared
    rw [List.contains_iff_mem.mpr hd] at hshield
    cases hshield
  next hother =>
    unfold Stmt.declared? at hdeclared
    split at hdeclared
    next id var => exact hother id var rfl
    next => cases hdeclared

theorem references_takeOut (hdepicts : g.Depicts body globals)
    (hids : (body.allStmts.map Stmt.id).Nodup) (hdoomed : doomed g body = .ok ids) :
    (takeOut ids body).references.Sublist body.references := by
  refine references_without.2.1 body.stmts [] [] (fun _ _ => rfl) (List.Subset.refl (named body))
    fun s hs d hd hdeclared => ?_
  simpa using not_doomed_of_declared hdepicts hids hdoomed hs hd hdeclared

/-- What is left after all rounds refers to variables as the body did. -/
theorem Rounds.references (hdepicts : ∀ b, (graphOf b).Depicts b globals)
    (h : Rounds graphOf body (.ok (left, report))) (hids : (body.allStmts.map Stmt.id).Nodup) :
    left.references.Sublist body.references := by
  induction h using Rounds.induction_ok with
  | settled _ => exact List.Sublist.refl _
  | @round b _ _ _ hdoomed _ _ ih =>
      have hleft := ih ((stmt_ids_without_sublist b.stmts).nodup hids)
      exact hleft.trans (references_takeOut (hdepicts b) hids hdoomed)

theorem mem_of_declared_takeOut (hs : s ∈ (takeOut ids body).allStmts)
    (hdeclared : s.declared? = some d) : s ∈ body.allStmts := by
  obtain ⟨t, ht, rfl⟩ := List.mem_map.mp ((stmts_without_sublist.2.1 body.stmts).subset hs)
  rw [declared?_without] at hdeclared
  rwa [without_of_declared hdeclared]

end Pruning

theorem Block.mem_of_mem_scope {b : Block} {r : Reference} (hr : r ∈ b.references) {s : Stmt}
    (hs : s ∈ r.scope) : s ∈ b.allStmts ∧ s.declared? = some r.decl := by
  obtain ⟨hdeclared, hmem⟩ := inTree_references.2.1 b.stmts [] r hr s hs
  exact ⟨hmem.resolve_left List.not_mem_nil, hdeclared⟩

namespace Module

variable {m m' : Module} {scope : Option String} {body : Block} {report : Pruning.Report}

/-- Pruning keeps a well scoped body well scoped, where its statements have distinct numbers. The
references that are left are among those that there were, in the same order and with the same
declarations in scope. So each of them has one, if the body declares its variable anywhere; and a
declaration stays if a reference to its variable does and nothing else declares the variable. -/
theorem prune_keeps_scopes (hbody : m.bodyOf? scope = some body)
    (hids : (body.allStmts.map Stmt.id).Nodup) (hscoped : body.WellScoped)
    (hprune : m.prune scope = .ok (m', report)) :
    ∃ pruned, m'.bodyOf? scope = some pruned ∧ pruned.WellScoped ∧
      pruned.references.Sublist body.references ∧
      (∀ r ∈ pruned.references, body.Declares r.decl → r.scope ≠ []) ∧
      (∀ r ∈ pruned.references, ∀ s ∈ r.scope,
        s ∈ pruned.allStmts ∧ s.declared? = some r.decl) ∧
      ∀ s ∈ body.allStmts, ∀ d, s.declared? = some d →
        (∀ t ∈ body.allStmts, t.declared? = some d → t = s) →
        (∃ r ∈ pruned.references, r.decl = d) → s ∈ pruned.allStmts := by
  obtain ⟨body', pruned, hbody', rfl, hpruned, hrounds⟩ := exists_of_prune hprune
  rw [hbody] at hbody'
  cases hbody'
  have hreferences := hrounds.references (m.depicts_graphWith scope) hids
  have hstays {s : Stmt} {d : DeclId} (hs : s ∈ pruned.allStmts) (hd : s.declared? = some d) :
      s ∈ body.allStmts := by
    rw [hpruned] at hs
    exact Pruning.mem_of_declared_takeOut hs hd
  have hscope : ∀ r ∈ pruned.references, body.Declares r.decl → r.scope ≠ [] :=
    fun r hr => hscoped r (hreferences.subset hr)
  refine ⟨pruned, bodyOf?_withBody hbody, fun r hr hdeclares => ?_, hreferences, hscope,
    fun r hr s hs => Block.mem_of_mem_scope hr hs, ?_⟩
  · obtain ⟨s, hs, hd⟩ := hdeclares
    exact hscope r hr ⟨s, hstays hs hd, hd⟩
  · rintro s hs d hd honly ⟨r, hr, rfl⟩
    obtain ⟨t, ht⟩ := List.exists_mem_of_ne_nil _ (hscope r hr ⟨s, hs, hd⟩)
    obtain ⟨hmem, hdeclared⟩ := Block.mem_of_mem_scope hr ht
    rwa [← honly t (hstays hmem hdeclared) hdeclared]

/-- A declaration of the variable `x`. -/
def declaringX (id : TreeId) : Stmt := .simple id (.declare ⟨0, "x", .int, none⟩)

/-- A return of the variable `x`. -/
def returningX : Stmt := .jump 3 (.return (some (.name 4 "x" (some 0))))

/-- A module with the variable `x` and nothing but top-level statements. -/
def withX (stmts : List Stmt) : Module :=
  ⟨"m", [⟨0, "x", .localVariable, .int, false⟩], [], ⟨1, stmts⟩, []⟩

/-- Behind a return of `x` there is a branch that declares it once more. -/
def declaredTwice : List Stmt :=
  [declaringX 2, returningX, .if 5 (.literal 6 (.bool true)) ⟨7, [declaringX 8]⟩ none]

/-- The branch behind the return has the number of the declaration. -/
def sameNumber : List Stmt :=
  [declaringX 2, returningX, .if 2 (.literal 5 (.bool true)) ⟨6, []⟩ none]

theorem wellScoped_of_returningX {rest : List Stmt}
    (hrest : referencesOf [returningX, declaringX 2] rest = []) :
    (Block.mk 1 (declaringX 2 :: returningX :: rest)).WellScoped := by
  have hreferences : (Block.mk 1 (declaringX 2 :: returningX :: rest)).references =
      ⟨4, 0, [declaringX 2]⟩ :: referencesOf [returningX, declaringX 2] rest := rfl
  intro r hr _
  rw [hreferences, hrest, List.mem_singleton] at hr
  subst hr
  exact List.cons_ne_nil _ _

theorem prune_keeps_scopes_declaredTwice :
    ((Block.mk 1 declaredTwice).allStmts.map Stmt.id).Nodup ∧
      (Block.mk 1 declaredTwice).WellScoped ∧
      (withX declaredTwice).prune none = .ok (withX [declaringX 2, returningX], ⟨[5], 2⟩) ∧
      (Block.mk 1 [declaringX 2, returningX]).WellScoped := by
  have hids : ((Block.mk 1 declaredTwice).allStmts.map Stmt.id).Nodup := by decide
  have hscoped : (Block.mk 1 declaredTwice).WellScoped := wellScoped_of_returningX rfl
  have hprune : (withX declaredTwice).prune none =
      .ok (withX [declaringX 2, returningX], ⟨[5], 2⟩) := by cbv
  obtain ⟨pruned, hpruned, hscoped', -⟩ := prune_keeps_scopes rfl hids hscoped hprune
  cases hpruned
  exact ⟨hids, hscoped, hprune, hscoped'⟩

/-- A declaration can go while its variable is still named: along with a dead branch, where the
variable has another declaration, or because it has the number of a statement that goes. -/
theorem prune_drops_declarations :
    ((Block.mk 1 declaredTwice).WellScoped ∧
      (withX declaredTwice).prune none = .ok (withX [declaringX 2, returningX], ⟨[5], 2⟩) ∧
      declaringX 8 ∈ (Block.mk 1 declaredTwice).allStmts ∧
      declaringX 8 ∉ (Block.mk 1 [declaringX 2, returningX]).allStmts ∧
      ∃ r ∈ (Block.mk 1 [declaringX 2, returningX]).references,
        (declaringX 8).declared? = some r.decl) ∧
    (Block.mk 1 sameNumber).WellScoped ∧
      (withX sameNumber).prune none = .ok (withX [returningX], ⟨[2], 2⟩) ∧
      declaringX 2 ∈ (Block.mk 1 sameNumber).allStmts ∧
      declaringX 2 ∉ (Block.mk 1 [returningX]).allStmts ∧
      ∃ r ∈ (Block.mk 1 [returningX]).references, (declaringX 2).declared? = some r.decl := by
  have htwice : (withX declaredTwice).prune none =
      .ok (withX [declaringX 2, returningX], ⟨[5], 2⟩) := by cbv
  have hsame : (withX sameNumber).prune none = .ok (withX [returningX], ⟨[2], 2⟩) := by cbv
  have hinside : declaringX 8 ∈ (Block.mk 1 declaredTwice).allStmts :=
    List.mem_cons_of_mem _ (List.mem_cons_of_mem _ (List.mem_cons_of_mem _ List.mem_cons_self))
  have hgone : declaringX 8 ∉ (Block.mk 1 [declaringX 2, returningX]).allStmts := by
    simp [Block.allStmts, stmtsOf, declaringX, returningX, Stmt.inner]
  have hgone' : declaringX 2 ∉ (Block.mk 1 [returningX]).allStmts := by
    simp [Block.allStmts, stmtsOf, declaringX, returningX, Stmt.inner]
  exact ⟨⟨wellScoped_of_returningX rfl, htwice, hinside, hgone, _, List.mem_cons_self, rfl⟩,
    wellScoped_of_returningX rfl, hsame, List.mem_cons_self, hgone', _, List.mem_cons_self, rfl⟩

end Module

end ControlFlow

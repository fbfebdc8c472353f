import ControlFlow.Proofs.Tree.Without
import Mathlib.Data.List.Basic

/-! # References and their scopes

A declaration statement is in scope from the statement after it to the end of its block, and in
everything nested there. Each reference to a variable is listed with the declarations of that
variable that are in scope where it stands. Removal leaves references as they are, with the same
declarations in scope, if it spares the declarations of all variables that are referred to.
-/

namespace ControlFlow

/-- The variable that a statement declares. -/
def Stmt.declared? : Stmt → Option DeclId
  | .simple _ (.declare var) => some var.decl
  | _ => none

/-- The statements that declare a variable, of some. -/
def declaring (d : DeclId) (ss : List Stmt) : List Stmt := ss.filter fun s => s.declared? = some d

/-- A name that was resolved to a variable. -/
structure Reference where
  id : TreeId
  decl : DeclId
  /-- The declarations of the variable that come before, in the same block or in one around it. -/
  scope : List Stmt

/-- The references in some expressions behind which some statements stand. -/
def referencesIn (before : List Stmt) (es : List Expr) : List Reference :=
  es.filterMap fun e => e.named?.map fun d => ⟨e.id, d, declaring d before⟩

mutual

/-- The references in a statement, at any depth. The statements before it are those of its own
block and of the blocks around it. -/
def Stmt.references (before : List Stmt) : Stmt → List Reference
  | .simple _ what => referencesIn before what.exprs
  | .jump _ how => referencesIn before how.exprs
  | .block _ ⟨_, body⟩ => referencesOf before body
  | .while _ cond ⟨_, body⟩ none => referencesIn before cond.walk ++ referencesOf before body
  | .while _ cond ⟨_, body⟩ (some ⟨_, orElse⟩) =>
      referencesIn before cond.walk ++ referencesOf before body ++ referencesOf before orElse
  | .for _ _ seq ⟨_, body⟩ => referencesIn before seq.walk ++ referencesOf before body
  | .if _ cond ⟨_, body⟩ none => referencesIn before cond.walk ++ referencesOf before body
  | .if _ cond ⟨_, body⟩ (some ⟨_, orElse⟩) =>
      referencesIn before cond.walk ++ referencesOf before body ++ referencesOf before orElse
  | .try _ ⟨_, body⟩ catches => referencesOf before body ++ referencesOfCatches before catches

/-- The references in a sequence. Each statement comes before the next ones. -/
def referencesOf (before : List Stmt) : List Stmt → List Reference
  | [] => []
  | s :: rest => s.references before ++ referencesOf (s :: before) rest

def referencesOfCatches (before : List Stmt) : List Catch → List Reference
  | [] => []
  | ⟨_, _, ⟨_, body⟩⟩ :: rest => referencesOf before body ++ referencesOfCatches before rest

end

namespace Block

/-- The references in a block, at any depth. -/
def references (b : Block) : List Reference := referencesOf [] b.stmts

/-- Some statement of a block declares a variable. -/
def Declares (b : Block) (d : DeclId) : Prop := ∃ s ∈ b.allStmts, s.declared? = some d

/-- Each reference to a variable that is declared in a block comes after such a declaration, in the
same block or below it. -/
def WellScoped (b : Block) : Prop := ∀ r ∈ b.references, b.Declares r.decl → r.scope ≠ []

end Block

variable {before : List Stmt} {doomed : Stmt → Bool}

theorem references_while (id : TreeId) (cond : Expr) (bid : TreeId) (body : List Stmt)
    (orElse : Option Block) : (Stmt.while id cond ⟨bid, body⟩ orElse).references before =
      referencesIn before cond.walk ++ referencesOf before body ++
        referencesOf before (elseOf orElse) := by
  rcases orElse with _ | ⟨eid, orElse⟩ <;> simp [Stmt.references, referencesOf]

theorem references_if (id : TreeId) (cond : Expr) (bid : TreeId) (body : List Stmt)
    (orElse : Option Block) : (Stmt.if id cond ⟨bid, body⟩ orElse).references before =
      referencesIn before cond.walk ++ referencesOf before body ++
        referencesOf before (elseOf orElse) := by
  rcases orElse with _ | ⟨eid, orElse⟩ <;> simp [Stmt.references, referencesOf]

/-! ## All references, and nothing but declarations in scope -/

theorem decl_referencesIn (before : List Stmt) (es : List Expr) :
    (referencesIn before es).map Reference.decl = es.filterMap Expr.named? := by
  rw [referencesIn, List.map_filterMap]
  congr 1
  funext e
  cases e.named? <;> rfl

/-- The variables that are referred to are those that the expressions name, in their order. -/
theorem decl_references :
    (∀ s : Stmt, ∀ before, (s.references before).map Reference.decl =
      s.exprs.filterMap Expr.named?) ∧
    (∀ ss, ∀ before, (referencesOf before ss).map Reference.decl =
      (exprsOf ss).filterMap Expr.named?) ∧
    (∀ cs, ∀ before, (referencesOfCatches before cs).map Reference.decl =
      (exprsOfCatches cs).filterMap Expr.named?) := by
  refine tree_induction ?simple ?jump ?block ?while_ ?for_ ?if_ ?try_ ?nil ?cons ?noCatch ?catch_
  case simple => exact fun _ what before => decl_referencesIn before what.exprs
  case jump => exact fun _ how before => decl_referencesIn before how.exprs
  case block => exact fun _ _ _ ih => ih
  case while_ =>
    intro id cond bid body orElse ihbody ihelse before
    simp only [references_while, exprs_while, List.map_append, List.filterMap_append,
      decl_referencesIn, ihbody, ihelse]
  case for_ =>
    intro id var seq bid body ih before
    simp only [Stmt.references, Stmt.exprs, List.map_append, List.filterMap_append,
      decl_referencesIn, ih]
  case if_ =>
    intro id cond bid body orElse ihbody ihelse before
    simp only [references_if, exprs_if, List.map_append, List.filterMap_append,
      decl_referencesIn, ihbody, ihelse]
  case try_ =>
    intro id bid body catches ihbody ihcatches before
    simp only [Stmt.references, Stmt.exprs, List.map_append, List.filterMap_append, ihbody,
      ihcatches]
  case nil => exact fun _ => rfl
  case cons =>
    intro s rest ihs ihrest before
    simp only [referencesOf, exprsOf, List.map_append, List.filterMap_append, ihs, ihrest]
  case noCatch => exact fun _ => rfl
  case catch_ =>
    intro id param bid body rest ihbody ihrest before
    simp only [referencesOfCatches, exprsOfCatches, List.map_append, List.filterMap_append, ihbody,
      ihrest]

/-- Whatever is in scope of a reference declares its variable, and stands before or in the tree. -/
def Reference.InTree (r : Reference) (before inside : List Stmt) : Prop :=
  ∀ s ∈ r.scope, s.declared? = some r.decl ∧ (s ∈ before ∨ s ∈ inside)

theorem Reference.InTree.mono {r : Reference} {inside inside' : List Stmt}
    (h : r.InTree before inside) (hsub : inside ⊆ inside') : r.InTree before inside' :=
  fun s hs => ⟨(h s hs).1, (h s hs).2.imp_right fun hmem => hsub hmem⟩

theorem inTree_referencesIn {es : List Expr} {r : Reference} (hr : r ∈ referencesIn before es)
    (inside : List Stmt) : r.InTree before inside := by
  obtain ⟨e, -, he⟩ := List.mem_filterMap.mp hr
  obtain ⟨d, -, rfl⟩ := Option.map_eq_some_iff.mp he
  intro s hs
  obtain ⟨hmem, hdeclared⟩ := List.mem_filter.mp hs
  exact ⟨of_decide_eq_true hdeclared, .inl hmem⟩

theorem inTree_references :
    (∀ s : Stmt, ∀ before, ∀ r ∈ s.references before, r.InTree before s.inner) ∧
    (∀ ss, ∀ before, ∀ r ∈ referencesOf before ss, r.InTree before (stmtsOf ss)) ∧
    (∀ cs, ∀ before, ∀ r ∈ referencesOfCatches before cs,
      r.InTree before (stmtsOfCatches cs)) := by
  have hboth {before as bs : List Stmt} {rs qs : List Reference}
      (has : ∀ r ∈ rs, r.InTree before as) (hbs : ∀ r ∈ qs, r.InTree before bs) :
      ∀ r ∈ rs ++ qs, r.InTree before (as ++ bs) :=
    List.forall_mem_append.mpr ⟨fun r hr => (has r hr).mono (List.subset_append_left _ _),
      fun r hr => (hbs r hr).mono (List.subset_append_right _ _)⟩
  have hcontrol {before as : List Stmt} {es : List Expr} {qs : List Reference}
      (has : ∀ r ∈ qs, r.InTree before as) : ∀ r ∈ referencesIn before es ++ qs,
      r.InTree before as :=
    List.forall_mem_append.mpr ⟨fun r hr => inTree_referencesIn hr as, has⟩
  refine tree_induction ?simple ?jump ?block ?while_ ?for_ ?if_ ?try_ ?nil ?cons ?noCatch ?catch_
  case simple => exact fun _ _ _ _ hr => inTree_referencesIn hr _
  case jump => exact fun _ _ _ _ hr => inTree_referencesIn hr _
  case block => exact fun _ _ _ ih => ih
  case while_ =>
    intro id cond bid body orElse ihbody ihelse before
    rw [references_while, inner_while, List.append_assoc]
    exact hcontrol (hboth (ihbody before) (ihelse before))
  case for_ => exact fun _ _ _ _ _ ih before => hcontrol (ih before)
  case if_ =>
    intro id cond bid body orElse ihbody ihelse before
    rw [references_if, inner_if, List.append_assoc]
    exact hcontrol (hboth (ihbody before) (ihelse before))
  case try_ => exact fun _ _ _ _ ihbody ihcatches before => hboth (ihbody before) (ihcatches before)
  case nil => exact fun _ _ hr => nomatch hr
  case cons =>
    intro s rest ihs ihrest before r hr
    rcases List.mem_append.mp hr with hr | hr
    · exact (ihs before r hr).mono fun t ht => List.mem_cons_of_mem s (List.mem_append_left _ ht)
    · intro t ht
      obtain ⟨hdeclared, hmem⟩ := ihrest (s :: before) r hr t ht
      refine ⟨hdeclared, ?_⟩
      rcases hmem with hmem | hmem
      · rcases List.mem_cons.mp hmem with rfl | hmem
        · exact .inr List.mem_cons_self
        · exact .inl hmem
      · exact .inr (List.mem_cons_of_mem s (List.mem_append_right _ hmem))
  case noCatch => exact fun _ _ hr => nomatch hr
  case catch_ => exact fun _ _ _ _ _ ihbody ihrest before => hboth (ihbody before) (ihrest before)

/-! ## Removal -/

/-- Two sequences have the same declarations of some variables. -/
def SameDeclarations (named : List DeclId) (ss ts : List Stmt) : Prop :=
  ∀ d ∈ named, declaring d ss = declaring d ts

theorem referencesIn_eq {named : List DeclId} {before' : List Stmt} {es : List Expr}
    (hsame : SameDeclarations named before' before) (hnamed : es.filterMap Expr.named? ⊆ named) :
    referencesIn before' es = referencesIn before es := by
  apply List.filterMap_congr
  intro e he
  cases hd : e.named? with
  | none => rfl
  | some d =>
      have hmem := hnamed (List.mem_filterMap.mpr ⟨e, he, hd⟩)
      simp only [Option.map_some, hsame d hmem]

theorem declared?_without (s : Stmt) : (s.without doomed).declared? = s.declared? := by
  unfold Stmt.without
  split <;> rfl

theorem without_of_declared {s : Stmt} {d : DeclId} (h : s.declared? = some d) :
    s.without doomed = s := by
  cases s with
  | simple id what => rfl
  | _ => cases h

/-- A statement that goes declares nothing that is named. -/
theorem SameDeclarations.cons_right {named : List DeclId} {before' : List Stmt} {s : Stmt}
    (h : SameDeclarations named before' before) (hs : ∀ d ∈ named, s.declared? ≠ some d) :
    SameDeclarations named before' (s :: before) := by
  intro d hd
  rw [h d hd, declaring, declaring, List.filter_cons_of_neg (by simpa using hs d hd)]

theorem SameDeclarations.cons_without {named : List DeclId} {before' : List Stmt}
    (h : SameDeclarations named before' before) (s : Stmt) :
    SameDeclarations named (s.without doomed :: before') (s :: before) := by
  intro d hd
  have hrest : before'.filter (fun t => t.declared? = some d) =
      before.filter fun t => t.declared? = some d := h d hd
  by_cases hs : s.declared? = some d
  · simp [declaring, without_of_declared hs, hs, hrest]
  · simp [declaring, declared?_without, hs, hrest]

/-- Removal that spares the declarations of whatever is named leaves references in their order,
each with the same declarations in scope. -/
theorem references_without {named : List DeclId} :
    (∀ s : Stmt, ∀ before' before, SameDeclarations named before' before →
      s.exprs.filterMap Expr.named? ⊆ named →
      (∀ t ∈ s.inner, ∀ d ∈ named, t.declared? = some d → doomed t = false) →
      ((s.without doomed).references before').Sublist (s.references before)) ∧
    (∀ ss, ∀ before' before, SameDeclarations named before' before →
      (exprsOf ss).filterMap Expr.named? ⊆ named →
      (∀ t ∈ stmtsOf ss, ∀ d ∈ named, t.declared? = some d → doomed t = false) →
      (referencesOf before' (stmtsWithout doomed ss)).Sublist (referencesOf before ss)) ∧
    (∀ cs, ∀ before' before, SameDeclarations named before' before →
      (exprsOfCatches cs).filterMap Expr.named? ⊆ named →
      (∀ t ∈ stmtsOfCatches cs, ∀ d ∈ named, t.declared? = some d → doomed t = false) →
      (referencesOfCatches before' (catchesWithout doomed cs)).Sublist
        (referencesOfCatches before cs)) := by
  refine tree_induction ?simple ?jump ?block ?while_ ?for_ ?if_ ?try_ ?nil ?cons ?noCatch ?catch_
  case simple =>
    intro id what before' before hsame hnamed _
    rw [Stmt.exprs] at hnamed
    rw [Stmt.without, Stmt.references, Stmt.references, referencesIn_eq hsame hnamed]
  case jump =>
    intro id how before' before hsame hnamed _
    rw [Stmt.exprs] at hnamed
    rw [Stmt.without, Stmt.references, Stmt.references, referencesIn_eq hsame hnamed]
  case block => exact fun _ _ _ ih => ih
  case while_ =>
    intro id cond bid body orElse ihbody ihelse before' before hsame hnamed hspares
    rw [exprs_while, List.filterMap_append, List.filterMap_append, List.append_subset,
      List.append_subset] at hnamed
    rw [inner_while, List.forall_mem_append] at hspares
    rw [without_while, references_while, references_while, elseOf_without,
      referencesIn_eq hsame hnamed.1.1]
    exact ((List.Sublist.refl _).append (ihbody _ _ hsame hnamed.1.2 hspares.1)).append
      (ihelse _ _ hsame hnamed.2 hspares.2)
  case for_ =>
    intro id var seq bid body ih before' before hsame hnamed hspares
    rw [Stmt.exprs, List.filterMap_append, List.append_subset] at hnamed
    simp only [Stmt.without, Stmt.references, referencesIn_eq hsame hnamed.1]
    exact (List.Sublist.refl _).append (ih _ _ hsame hnamed.2 hspares)
  case if_ =>
    intro id cond bid body orElse ihbody ihelse before' before hsame hnamed hspares
    rw [exprs_if, List.filterMap_append, List.filterMap_append, List.append_subset,
      List.append_subset] at hnamed
    rw [inner_if, List.forall_mem_append] at hspares
    rw [without_if, references_if, references_if, elseOf_without,
      referencesIn_eq hsame hnamed.1.1]
    exact ((List.Sublist.refl _).append (ihbody _ _ hsame hnamed.1.2 hspares.1)).append
      (ihelse _ _ hsame hnamed.2 hspares.2)
  case try_ =>
    intro id bid body catches ihbody ihcatches before' before hsame hnamed hspares
    rw [Stmt.exprs, List.filterMap_append, List.append_subset] at hnamed
    rw [Stmt.inner, List.forall_mem_append] at hspares
    exact (ihbody _ _ hsame hnamed.1 hspares.1).append (ihcatches _ _ hsame hnamed.2 hspares.2)
  case nil => exact fun _ _ _ _ _ => List.Sublist.refl _
  case cons =>
    intro s rest ihs ihrest before' before hsame hnamed hspares
    rw [exprsOf, List.filterMap_append, List.append_subset] at hnamed
    rw [stmtsOf, List.forall_mem_cons, List.forall_mem_append] at hspares
    rw [stmtsWithout, referencesOf]
    split
    next hs =>
      have hnothing : ∀ d ∈ named, s.declared? ≠ some d := by
        intro d hd hdeclared
        rw [hspares.1 d hd hdeclared] at hs
        cases hs
      exact (ihrest _ _ (hsame.cons_right hnothing) hnamed.2 hspares.2.2).trans
        (List.sublist_append_right _ _)
    next hs =>
      exact (ihs _ _ hsame hnamed.1 hspares.2.1).append
        (ihrest _ _ (hsame.cons_without s) hnamed.2 hspares.2.2)
  case noCatch => exact fun _ _ _ _ _ => List.Sublist.refl _
  case catch_ =>
    intro id param bid body rest ihbody ihrest before' before hsame hnamed hspares
    rw [exprsOfCatches, List.filterMap_append, List.append_subset] at hnamed
    rw [stmtsOfCatches, List.forall_mem_append] at hspares
    exact (ihbody _ _ hsame hnamed.1 hspares.1).append (ihrest _ _ hsame hnamed.2 hspares.2)

end ControlFlow

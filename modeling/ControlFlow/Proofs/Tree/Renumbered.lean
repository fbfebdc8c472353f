import ControlFlow.Proofs.Tree.Without
import ControlFlow.Tree.Label

/-! # Renumbered trees

A tree whose numbers are replaced, each by what a map sends it to, has the same shape: the same
labels, the same sizes and the same walks, with their numbers replaced. Maps that agree on the
numbers of a tree renumber it alike.
-/

namespace ControlFlow

/-! ## Expressions -/

mutual

/-- An expression with its numbers replaced. -/
def Expr.renumber (f : TreeId → TreeId) : Expr → Expr
  | .literal id value => .literal (f id) value
  | .name id name decl => .name (f id) name decl
  | .assign id target source => .assign (f id) (target.renumber f) (source.renumber f)
  | .call id callee function args => .call (f id) callee function (renumberEach f args)
  | .operator id op operands => .operator (f id) op (renumberEach f operands)

/-- Several expressions with their numbers replaced. -/
def renumberEach (f : TreeId → TreeId) : List Expr → List Expr
  | [] => []
  | e :: rest => e.renumber f :: renumberEach f rest

end

variable {f h r : TreeId → TreeId}

theorem renumberEach_eq_map (es : List Expr) : renumberEach f es = es.map (Expr.renumber f) := by
  induction es with
  | nil => rfl
  | cons e rest ih => rw [renumberEach, ih, List.map_cons]

namespace Expr

@[simp] theorem id_renumber (e : Expr) : (e.renumber f).id = f e.id := by
  cases e <;> rfl

@[simp] theorem named?_renumber (e : Expr) : (e.renumber f).named? = e.named? := by
  cases e <;> rfl

theorem walks_renumber : (∀ e : Expr, (e.renumber f).walk = e.walk.map (renumber f)) ∧
    ∀ es, walkEach (renumberEach f es) = (walkEach es).map (renumber f) := by
  refine expr_induction ?literal ?name ?assign ?call ?operator ?nil ?cons
  case literal => exact fun _ _ => rfl
  case name => exact fun _ _ _ => rfl
  case assign =>
    intro id target source htarget hsource
    simp [renumber, walk, htarget, hsource]
  case call =>
    intro id callee function args hargs
    simp [renumber, walk, hargs]
  case operator =>
    intro id op operands hoperands
    simp [renumber, walk, hoperands]
  case nil => rfl
  case cons =>
    intro e rest he hrest
    simp [renumberEach, walkEach, he, hrest]

@[simp] theorem walk_renumber (e : Expr) : (e.renumber f).walk = e.walk.map (renumber f) :=
  walks_renumber.1 e

theorem map_id_renumber (es : List Expr) :
    (es.map (renumber f)).map id = (es.map id).map f := by
  simp [Function.comp_def]

@[simp] theorem ids_renumber (e : Expr) : (e.renumber f).ids = e.ids.map f := by
  rw [ids, walk_renumber, map_id_renumber, ids]

theorem labels_renumber : (∀ e : Expr, (e.renumber f).label = e.label) ∧
    ∀ es, labelsOf (renumberEach f es) = labelsOf es := by
  refine expr_induction ?literal ?name ?assign ?call ?operator ?nil ?cons
  case literal => exact fun _ _ => rfl
  case name => exact fun _ _ _ => rfl
  case assign =>
    intro id target source htarget hsource
    simp [renumber, label, htarget, hsource]
  case call =>
    intro id callee function args hargs
    simp [renumber, label, hargs]
  case operator =>
    -- How an operator is written depends on the number of its operands.
    intro id op operands hoperands
    rcases operands with _ | ⟨left, _ | ⟨right, _ | ⟨third, rest⟩⟩⟩ <;>
      simp_all [renumber, renumberEach, label, labelsOf]
  case nil => rfl
  case cons =>
    intro e rest he hrest
    simp [renumberEach, labelsOf, he, hrest]

@[simp] theorem label_renumber (e : Expr) : (e.renumber f).label = e.label := labels_renumber.1 e

theorem bases_renumber : (∀ e : Expr, (e.renumber f).base? = e.base?) ∧
    ∀ es, ((renumberEach f es).head?.bind base?) = es.head?.bind base? := by
  refine expr_induction ?literal ?name ?assign ?call ?operator ?nil ?cons
  case literal => exact fun _ _ => rfl
  case name => exact fun _ _ _ => rfl
  case assign => exact fun _ _ _ _ _ => rfl
  case call => exact fun _ _ _ _ _ => rfl
  case operator =>
    intro id op operands hoperands
    cases operands with
    | nil => rfl
    | cons first rest => exact hoperands
  case nil => rfl
  case cons => exact fun _ _ he _ => he

@[simp] theorem base?_renumber (e : Expr) : (e.renumber f).base? = e.base? := bases_renumber.1 e

theorem each_renumber_self : (∀ e : Expr, e.renumber (fun n => n) = e) ∧
    ∀ es, renumberEach (fun n => n) es = es := by
  refine expr_induction ?literal ?name ?assign ?call ?operator ?nil ?cons
  case literal => exact fun _ _ => rfl
  case name => exact fun _ _ _ => rfl
  case assign =>
    intro id target source htarget hsource
    simp [renumber, htarget, hsource]
  case call =>
    intro id callee function args hargs
    simp [renumber, hargs]
  case operator =>
    intro id op operands hoperands
    simp [renumber, hoperands]
  case nil => rfl
  case cons =>
    intro e rest he hrest
    simp [renumberEach, he, hrest]

@[simp] theorem renumber_self (e : Expr) : e.renumber (fun n => n) = e := each_renumber_self.1 e

/-- Numbers are replaced one after the other, or at once. -/
theorem each_renumber_renumber :
    (∀ e : Expr, (∀ n ∈ e.ids, f (r n) = h n) → (e.renumber r).renumber f = e.renumber h) ∧
    ∀ es, (∀ n ∈ (walkEach es).map id, f (r n) = h n) →
      renumberEach f (renumberEach r es) = renumberEach h es := by
  refine expr_induction ?literal ?name ?assign ?call ?operator ?nil ?cons
  case literal =>
    intro n value hn
    simp [renumber, hn n List.mem_cons_self]
  case name =>
    intro n name decl hn
    simp [renumber, hn n List.mem_cons_self]
  case assign =>
    intro n target source htarget hsource hn
    simp only [ids, walk, id, List.map_cons, List.map_append, List.forall_mem_cons,
      List.forall_mem_append] at hn
    simp only [renumber, hn.1, htarget hn.2.1, hsource hn.2.2]
  case call =>
    intro n callee function args hargs hn
    simp only [ids, walk, id, List.map_cons, List.forall_mem_cons] at hn
    simp only [renumber, hn.1, hargs hn.2]
  case operator =>
    intro n op operands hoperands hn
    simp only [ids, walk, id, List.map_cons, List.forall_mem_cons] at hn
    simp only [renumber, hn.1, hoperands hn.2]
  case nil => exact fun _ => rfl
  case cons =>
    intro e rest he hrest hn
    simp only [walkEach, List.map_append, List.forall_mem_append] at hn
    simp only [renumberEach, he hn.1, hrest hn.2]

theorem renumber_renumber {e : Expr} (hn : ∀ n ∈ e.ids, f (r n) = h n) :
    (e.renumber r).renumber f = e.renumber h :=
  each_renumber_renumber.1 e hn

end Expr

section Optional

variable (value : Option Expr)

theorem optional_walk_renumber : ((value.map (Expr.renumber f)).map Expr.walk).getD [] =
    ((value.map Expr.walk).getD []).map (Expr.renumber f) := by
  cases value <;> simp

theorem optional_renumber_self : value.map (Expr.renumber fun n => n) = value := by
  cases value <;> simp

theorem optional_renumber_renumber
    (hn : ∀ n ∈ ((value.map Expr.walk).getD []).map Expr.id, f (r n) = h n) :
    (value.map (Expr.renumber r)).map (Expr.renumber f) = value.map (Expr.renumber h) := by
  cases value with
  | none => rfl
  | some e => exact congrArg some (Expr.renumber_renumber hn)

end Optional

theorem declarationLabel_renumber (scope : String) (ty : Ty) (name : String)
    (init : Option Expr) :
    declarationLabel scope ty name (init.map (Expr.renumber f)) =
      declarationLabel scope ty name init := by
  cases init <;> simp [declarationLabel]

/-! ## Statements -/

def LoopVar.renumber (f : TreeId → TreeId) (var : LoopVar) : LoopVar := { var with id := f var.id }

def LocalVar.renumber (f : TreeId → TreeId) (var : LocalVar) : LocalVar :=
  { var with init := var.init.map (Expr.renumber f) }

def Simple.renumber (f : TreeId → TreeId) : Simple → Simple
  | .expr e => .expr (e.renumber f)
  | .declare var => .declare (var.renumber f)
  | .assert e => .assert (e.renumber f)
  | .yield => .yield
  | .comment text => .comment text
  | .location text => .location text

def Jump.renumber (f : TreeId → TreeId) : Jump → Jump
  | .return value => .return (value.map (Expr.renumber f))
  | .throw value => .throw (value.map (Expr.renumber f))
  | .break => .break
  | .continue => .continue

mutual

/-- A statement with the numbers of all its nodes replaced. -/
def Stmt.renumber (f : TreeId → TreeId) : Stmt → Stmt
  | .simple id what => .simple (f id) (what.renumber f)
  | .jump id how => .jump (f id) (how.renumber f)
  | .block id ⟨bid, body⟩ => .block (f id) ⟨f bid, renumberSeq f body⟩
  | .while id cond ⟨bid, body⟩ none =>
      .while (f id) (cond.renumber f) ⟨f bid, renumberSeq f body⟩ none
  | .while id cond ⟨bid, body⟩ (some ⟨eid, orElse⟩) =>
      .while (f id) (cond.renumber f) ⟨f bid, renumberSeq f body⟩
        (some ⟨f eid, renumberSeq f orElse⟩)
  | .for id var seq ⟨bid, body⟩ =>
      .for (f id) (var.renumber f) (seq.renumber f) ⟨f bid, renumberSeq f body⟩
  | .if id cond ⟨bid, body⟩ none =>
      .if (f id) (cond.renumber f) ⟨f bid, renumberSeq f body⟩ none
  | .if id cond ⟨bid, body⟩ (some ⟨eid, orElse⟩) =>
      .if (f id) (cond.renumber f) ⟨f bid, renumberSeq f body⟩
        (some ⟨f eid, renumberSeq f orElse⟩)
  | .try id ⟨bid, body⟩ catches =>
      .try (f id) ⟨f bid, renumberSeq f body⟩ (renumberCatches f catches)

/-- A sequence of statements with the numbers of all their nodes replaced. -/
def renumberSeq (f : TreeId → TreeId) : List Stmt → List Stmt
  | [] => []
  | s :: rest => s.renumber f :: renumberSeq f rest

def renumberCatches (f : TreeId → TreeId) : List Catch → List Catch
  | [] => []
  | ⟨id, param, ⟨bid, body⟩⟩ :: rest =>
      ⟨f id, param, ⟨f bid, renumberSeq f body⟩⟩ :: renumberCatches f rest

end

/-- A block with the numbers of all its nodes replaced. -/
def Block.renumber (f : TreeId → TreeId) (b : Block) : Block := ⟨f b.id, renumberSeq f b.stmts⟩

namespace Simple

theorem exprs_renumber (what : Simple) :
    (what.renumber f).exprs = what.exprs.map (Expr.renumber f) := by
  cases what with
  | expr e => exact Expr.walk_renumber e
  | declare var => exact optional_walk_renumber var.init
  | assert e => exact Expr.walk_renumber e
  | _ => rfl

theorem label_renumber (what : Simple) : (what.renumber f).label = what.label := by
  cases what with
  | expr e => simp [renumber, label]
  | declare var => exact declarationLabel_renumber _ _ _ var.init
  | assert e => simp [renumber, label]
  | _ => rfl

theorem renumber_self (what : Simple) : what.renumber (fun n => n) = what := by
  cases what with
  | expr e => simp [renumber]
  | declare var => simp [renumber, LocalVar.renumber, optional_renumber_self]
  | assert e => simp [renumber]
  | _ => rfl

theorem renumber_renumber {what : Simple} (hn : ∀ n ∈ what.exprs.map Expr.id, f (r n) = h n) :
    (what.renumber r).renumber f = what.renumber h := by
  cases what with
  | expr e => exact congrArg expr (Expr.renumber_renumber hn)
  | declare var =>
      have hinit := optional_renumber_renumber var.init hn
      simp only [renumber, LocalVar.renumber, hinit]
  | assert e => exact congrArg assert (Expr.renumber_renumber hn)
  | _ => rfl

end Simple

namespace Jump

theorem exprs_renumber (how : Jump) :
    (how.renumber f).exprs = how.exprs.map (Expr.renumber f) := by
  cases how with
  | «return» value => exact optional_walk_renumber value
  | throw value => exact optional_walk_renumber value
  | _ => rfl

theorem label_renumber (how : Jump) : (how.renumber f).label = how.label := by
  cases how with
  | «return» value => cases value <;> simp [renumber, label]
  | throw value => cases value <;> simp [renumber, label]
  | _ => rfl

theorem renumber_self (how : Jump) : how.renumber (fun n => n) = how := by
  cases how <;> simp [renumber, optional_renumber_self]

theorem renumber_renumber {how : Jump} (hn : ∀ n ∈ how.exprs.map Expr.id, f (r n) = h n) :
    (how.renumber r).renumber f = how.renumber h := by
  cases how with
  | «return» value => exact congrArg «return» (optional_renumber_renumber value hn)
  | throw value => exact congrArg throw (optional_renumber_renumber value hn)
  | _ => rfl

end Jump

theorem renumber_while (id : TreeId) (cond : Expr) (bid : TreeId) (body : List Stmt)
    (orElse : Option Block) : (Stmt.while id cond ⟨bid, body⟩ orElse).renumber f =
      .while (f id) (cond.renumber f) ⟨f bid, renumberSeq f body⟩
        (orElse.map (Block.renumber f)) := by
  rcases orElse with _ | ⟨eid, orElse⟩ <;> rfl

theorem renumber_if (id : TreeId) (cond : Expr) (bid : TreeId) (body : List Stmt)
    (orElse : Option Block) : (Stmt.if id cond ⟨bid, body⟩ orElse).renumber f =
      .if (f id) (cond.renumber f) ⟨f bid, renumberSeq f body⟩
        (orElse.map (Block.renumber f)) := by
  rcases orElse with _ | ⟨eid, orElse⟩ <;> rfl

theorem elseOf_renumber (orElse : Option Block) :
    elseOf (orElse.map (Block.renumber f)) = renumberSeq f (elseOf orElse) := by
  rcases orElse with _ | ⟨eid, orElse⟩ <;> rfl

namespace Stmt

@[simp] theorem id_renumber (s : Stmt) : (s.renumber f).id = f s.id := by
  unfold renumber
  split <;> rfl

@[simp] theorem isJump_renumber (s : Stmt) : (s.renumber f).isJump = s.isJump := by
  unfold renumber
  split <;> rfl

end Stmt

@[simp] theorem isEmpty_renumberSeq (ss : List Stmt) :
    (renumberSeq f ss).isEmpty = ss.isEmpty := by
  cases ss <;> rfl

/-- Labels do not show numbers. -/
theorem label_renumber :
    (∀ s : Stmt, (s.renumber f).label = s.label) ∧
    (∀ ss, tailLabel (renumberSeq f ss) = tailLabel ss) ∧
    ∀ cs, catchesLabel (renumberCatches f cs) = catchesLabel cs := by
  refine tree_induction ?simple ?jump ?block ?while_ ?for_ ?if_ ?try_ ?nil ?cons ?noCatch ?catch_
  case simple => exact fun _ what => what.label_renumber
  case jump => exact fun _ how => how.label_renumber
  case block =>
    intro id bid body ih
    rw [Stmt.renumber, Stmt.label, Stmt.label, ih]
  case while_ =>
    intro id cond bid body orElse ihbody ihelse
    rcases orElse with _ | ⟨eid, orElse⟩
    · simp [Stmt.renumber, Stmt.label, ihbody]
    · rw [elseOf_some] at ihelse
      simp [Stmt.renumber, Stmt.label, ihbody, ihelse]
  case for_ =>
    intro id var seq bid body ih
    simp [Stmt.renumber, Stmt.label, LoopVar.renumber, ih]
  case if_ =>
    intro id cond bid body orElse ihbody ihelse
    rcases orElse with _ | ⟨eid, orElse⟩
    · simp [Stmt.renumber, Stmt.label, ihbody]
    · rw [elseOf_some] at ihelse
      simp [Stmt.renumber, Stmt.label, ihbody, ihelse]
  case try_ =>
    intro id bid body catches ihbody ihcatches
    rw [Stmt.renumber, Stmt.label, Stmt.label, ihbody, ihcatches]
  case nil => rfl
  case cons =>
    intro s rest ihs ihrest
    rw [renumberSeq, tailLabel, tailLabel, ihs, ihrest]
  case noCatch => rfl
  case catch_ =>
    intro id param bid body rest ihbody ihrest
    rw [renumberCatches, catchesLabel, catchesLabel, ihbody, ihrest]

theorem exprs_renumber :
    (∀ s : Stmt, (s.renumber f).exprs = s.exprs.map (Expr.renumber f)) ∧
    (∀ ss, exprsOf (renumberSeq f ss) = (exprsOf ss).map (Expr.renumber f)) ∧
    ∀ cs, exprsOfCatches (renumberCatches f cs) = (exprsOfCatches cs).map (Expr.renumber f) := by
  refine tree_induction ?simple ?jump ?block ?while_ ?for_ ?if_ ?try_ ?nil ?cons ?noCatch ?catch_
  case simple => exact fun _ what => what.exprs_renumber
  case jump => exact fun _ how => how.exprs_renumber
  case block => exact fun _ _ _ ih => ih
  case while_ =>
    intro id cond bid body orElse ihbody ihelse
    rw [renumber_while, exprs_while, exprs_while, elseOf_renumber, cond.walk_renumber, ihbody, ihelse,
      List.map_append, List.map_append]
  case for_ =>
    intro id var seq bid body ih
    simp [Stmt.renumber, Stmt.exprs, ih]
  case if_ =>
    intro id cond bid body orElse ihbody ihelse
    rw [renumber_if, exprs_if, exprs_if, elseOf_renumber, cond.walk_renumber, ihbody, ihelse,
      List.map_append, List.map_append]
  case try_ =>
    intro id bid body catches ihbody ihcatches
    simp [Stmt.renumber, Stmt.exprs, ihbody, ihcatches]
  case nil => rfl
  case cons =>
    intro s rest ihs ihrest
    simp [renumberSeq, exprsOf, ihs, ihrest]
  case noCatch => rfl
  case catch_ =>
    intro id param bid body rest ihbody ihrest
    simp [renumberCatches, exprsOfCatches, ihbody, ihrest]

theorem blocks_renumber :
    (∀ s : Stmt, (s.renumber f).blocks = s.blocks.map (Block.renumber f)) ∧
    (∀ ss, blocksOf (renumberSeq f ss) = (blocksOf ss).map (Block.renumber f)) ∧
    ∀ cs, blocksOfCatches (renumberCatches f cs) =
      (blocksOfCatches cs).map (Block.renumber f) := by
  refine tree_induction ?simple ?jump ?block ?while_ ?for_ ?if_ ?try_ ?nil ?cons ?noCatch ?catch_
  case simple => exact fun _ _ => rfl
  case jump => exact fun _ _ => rfl
  case block =>
    intro id bid body ih
    simp only [Stmt.renumber, Stmt.blocks, Block.renumber, ih, List.map_cons]
  case while_ =>
    intro id cond bid body orElse ihbody ihelse
    rcases orElse with _ | ⟨eid, orElse⟩
    · simp only [Stmt.renumber, Stmt.blocks, Block.renumber, ihbody, List.map_cons]
    · rw [elseOf_some] at ihelse
      simp only [Stmt.renumber, Stmt.blocks, Block.renumber, ihbody, ihelse, List.map_cons,
        List.map_append]
  case for_ =>
    intro id var seq bid body ih
    simp only [Stmt.renumber, Stmt.blocks, Block.renumber, ih, List.map_cons]
  case if_ =>
    intro id cond bid body orElse ihbody ihelse
    rcases orElse with _ | ⟨eid, orElse⟩
    · simp only [Stmt.renumber, Stmt.blocks, Block.renumber, ihbody, List.map_cons]
    · rw [elseOf_some] at ihelse
      simp only [Stmt.renumber, Stmt.blocks, Block.renumber, ihbody, ihelse, List.map_cons,
        List.map_append]
  case try_ =>
    intro id bid body catches ihbody ihcatches
    simp only [Stmt.renumber, Stmt.blocks, Block.renumber, ihbody, ihcatches, List.map_cons,
      List.map_append]
  case nil => rfl
  case cons =>
    intro s rest ihs ihrest
    simp [renumberSeq, blocksOf, ihs, ihrest]
  case noCatch => rfl
  case catch_ =>
    intro id param bid body rest ihbody ihrest
    simp [renumberCatches, blocksOfCatches, Block.renumber, ihbody, ihrest]

theorem size_renumber :
    (∀ s : Stmt, (s.renumber f).size = s.size) ∧
    (∀ ss, sizeOfSeq (renumberSeq f ss) = sizeOfSeq ss) ∧
    ∀ cs, sizeOfCatches (renumberCatches f cs) = sizeOfCatches cs := by
  refine tree_induction ?simple ?jump ?block ?while_ ?for_ ?if_ ?try_ ?nil ?cons ?noCatch ?catch_
  case simple => exact fun _ _ => rfl
  case jump => exact fun _ _ => rfl
  case block =>
    intro id bid body ih
    rw [Stmt.renumber, Stmt.size, Stmt.size, ih]
  case while_ =>
    intro id cond bid body orElse ihbody ihelse
    rw [renumber_while, size_while, size_while, elseOf_renumber, ihbody, ihelse]
  case for_ =>
    intro id var seq bid body ih
    rw [Stmt.renumber, Stmt.size, Stmt.size, ih]
  case if_ =>
    intro id cond bid body orElse ihbody ihelse
    rw [renumber_if, size_if, size_if, elseOf_renumber, ihbody, ihelse]
  case try_ =>
    intro id bid body catches ihbody ihcatches
    rw [Stmt.renumber, Stmt.size, Stmt.size, ihbody, ihcatches]
  case nil => rfl
  case cons =>
    intro s rest ihs ihrest
    rw [renumberSeq, sizeOfSeq, sizeOfSeq, ihs, ihrest]
  case noCatch => rfl
  case catch_ =>
    intro id param bid body rest ihbody ihrest
    rw [renumberCatches, sizeOfCatches, sizeOfCatches, ihbody, ihrest]

/-- Where the number alone tells what is doomed, it is the same statements that go. -/
theorem without_renumber {p q : TreeId → Bool} (hpq : ∀ n, q (f n) = p n) :
    (∀ s : Stmt, (s.renumber f).without (fun t => q t.id) =
      (s.without fun t => p t.id).renumber f) ∧
    (∀ ss, stmtsWithout (fun t => q t.id) (renumberSeq f ss) =
      renumberSeq f (stmtsWithout (fun t => p t.id) ss)) ∧
    ∀ cs, catchesWithout (fun t => q t.id) (renumberCatches f cs) =
      renumberCatches f (catchesWithout (fun t => p t.id) cs) := by
  refine tree_induction ?simple ?jump ?block ?while_ ?for_ ?if_ ?try_ ?nil ?cons ?noCatch ?catch_
  case simple => exact fun _ _ => rfl
  case jump => exact fun _ _ => rfl
  case block =>
    intro id bid body ih
    simp only [Stmt.renumber, Stmt.without, ih]
  case while_ =>
    intro id cond bid body orElse ihbody ihelse
    rcases orElse with _ | ⟨eid, orElse⟩
    · simp only [Stmt.renumber, Stmt.without, ihbody]
    · rw [elseOf_some] at ihelse
      simp only [Stmt.renumber, Stmt.without, ihbody, ihelse]
  case for_ =>
    intro id var seq bid body ih
    simp only [Stmt.renumber, Stmt.without, ih]
  case if_ =>
    intro id cond bid body orElse ihbody ihelse
    rcases orElse with _ | ⟨eid, orElse⟩
    · simp only [Stmt.renumber, Stmt.without, ihbody]
    · rw [elseOf_some] at ihelse
      simp only [Stmt.renumber, Stmt.without, ihbody, ihelse]
  case try_ =>
    intro id bid body catches ihbody ihcatches
    simp only [Stmt.renumber, Stmt.without, ihbody, ihcatches]
  case nil => rfl
  case cons =>
    intro s rest ihs ihrest
    rw [renumberSeq, stmtsWithout, stmtsWithout, Stmt.id_renumber, hpq, ihs, ihrest]
    split <;> rfl
  case noCatch => rfl
  case catch_ =>
    intro id param bid body rest ihbody ihrest
    simp only [renumberCatches, catchesWithout, ihbody, ihrest]

theorem renumberSeq_self :
    (∀ s : Stmt, s.renumber (fun n => n) = s) ∧
    (∀ ss, renumberSeq (fun n => n) ss = ss) ∧
    ∀ cs, renumberCatches (fun n => n) cs = cs := by
  refine tree_induction ?simple ?jump ?block ?while_ ?for_ ?if_ ?try_ ?nil ?cons ?noCatch ?catch_
  case simple =>
    intro id what
    rw [Stmt.renumber, what.renumber_self]
  case jump =>
    intro id how
    rw [Stmt.renumber, how.renumber_self]
  case block =>
    intro id bid body ih
    rw [Stmt.renumber, ih]
  case while_ =>
    intro id cond bid body orElse ihbody ihelse
    rcases orElse with _ | ⟨eid, orElse⟩
    · rw [Stmt.renumber, cond.renumber_self, ihbody]
    · rw [elseOf_some] at ihelse
      rw [Stmt.renumber, cond.renumber_self, ihbody, ihelse]
  case for_ =>
    intro id var seq bid body ih
    rw [Stmt.renumber, seq.renumber_self, ih]
    rfl
  case if_ =>
    intro id cond bid body orElse ihbody ihelse
    rcases orElse with _ | ⟨eid, orElse⟩
    · rw [Stmt.renumber, cond.renumber_self, ihbody]
    · rw [elseOf_some] at ihelse
      rw [Stmt.renumber, cond.renumber_self, ihbody, ihelse]
  case try_ =>
    intro id bid body catches ihbody ihcatches
    rw [Stmt.renumber, ihbody, ihcatches]
  case nil => rfl
  case cons =>
    intro s rest ihs ihrest
    rw [renumberSeq, ihs, ihrest]
  case noCatch => rfl
  case catch_ =>
    intro id param bid body rest ihbody ihrest
    rw [renumberCatches, ihbody, ihrest]

/-- The numbers of a tree are replaced in their places. -/
theorem ids_renumber :
    (∀ s : Stmt, (s.renumber f).ids = s.ids.map f) ∧
    (∀ ss, idsOf (renumberSeq f ss) = (idsOf ss).map f) ∧
    ∀ cs, idsOfCatches (renumberCatches f cs) = (idsOfCatches cs).map f := by
  refine tree_induction ?simple ?jump ?block ?while_ ?for_ ?if_ ?try_ ?nil ?cons ?noCatch ?catch_
  case simple =>
    intro id what
    rw [Stmt.renumber, Stmt.ids, Stmt.ids, what.exprs_renumber, Expr.map_id_renumber,
      List.map_cons]
  case jump =>
    intro id how
    rw [Stmt.renumber, Stmt.ids, Stmt.ids, how.exprs_renumber, Expr.map_id_renumber,
      List.map_cons]
  case block =>
    intro id bid body ih
    rw [Stmt.renumber, Stmt.ids, Stmt.ids, ih, List.map_cons, List.map_cons]
  case while_ =>
    intro id cond bid body orElse ihbody ihelse
    rcases orElse with _ | ⟨eid, orElse⟩
    · simp [Stmt.renumber, Stmt.ids, ihbody]
    · rw [elseOf_some] at ihelse
      simp [Stmt.renumber, Stmt.ids, ihbody, ihelse]
  case for_ =>
    intro id var seq bid body ih
    simp [Stmt.renumber, Stmt.ids, LoopVar.renumber, ih]
  case if_ =>
    intro id cond bid body orElse ihbody ihelse
    rcases orElse with _ | ⟨eid, orElse⟩
    · simp [Stmt.renumber, Stmt.ids, ihbody]
    · rw [elseOf_some] at ihelse
      simp [Stmt.renumber, Stmt.ids, ihbody, ihelse]
  case try_ =>
    intro id bid body catches ihbody ihcatches
    simp [Stmt.renumber, Stmt.ids, ihbody, ihcatches]
  case nil => rfl
  case cons =>
    intro s rest ihs ihrest
    rw [renumberSeq, idsOf, idsOf, ihs, ihrest, List.map_append]
  case noCatch => rfl
  case catch_ =>
    intro id param bid body rest ihbody ihrest
    simp [renumberCatches, idsOfCatches, ihbody, ihrest]

theorem renumberSeq_renumberSeq :
    (∀ s : Stmt, (∀ n ∈ s.ids, f (r n) = h n) → (s.renumber r).renumber f = s.renumber h) ∧
    (∀ ss, (∀ n ∈ idsOf ss, f (r n) = h n) →
      renumberSeq f (renumberSeq r ss) = renumberSeq h ss) ∧
    ∀ cs, (∀ n ∈ idsOfCatches cs, f (r n) = h n) →
      renumberCatches f (renumberCatches r cs) = renumberCatches h cs := by
  refine tree_induction ?simple ?jump ?block ?while_ ?for_ ?if_ ?try_ ?nil ?cons ?noCatch ?catch_
  case simple =>
    intro id what hn
    obtain ⟨hid, hwhat⟩ := List.forall_mem_cons.mp hn
    simp only [Stmt.renumber, hid, Simple.renumber_renumber hwhat]
  case jump =>
    intro id how hn
    obtain ⟨hid, hhow⟩ := List.forall_mem_cons.mp hn
    simp only [Stmt.renumber, hid, Jump.renumber_renumber hhow]
  case block =>
    intro id bid body ih hn
    simp only [Stmt.ids, List.forall_mem_cons] at hn
    obtain ⟨hid, hbid, hbody⟩ := hn
    simp only [Stmt.renumber, hid, hbid, ih hbody]
  case while_ =>
    intro id cond bid body orElse ihbody ihelse hn
    rcases orElse with _ | ⟨eid, orElse⟩
    · simp only [Stmt.ids, List.forall_mem_cons, List.forall_mem_append] at hn
      obtain ⟨hid, hcond, hbid, hbody⟩ := hn
      simp only [Stmt.renumber, hid, Expr.renumber_renumber hcond, hbid, ihbody hbody]
    · simp only [Stmt.ids, List.forall_mem_cons, List.forall_mem_append] at hn
      obtain ⟨hid, hcond, hbid, hbody, heid, helse⟩ := hn
      rw [elseOf_some] at ihelse
      simp only [Stmt.renumber, hid, Expr.renumber_renumber hcond, hbid, ihbody hbody, heid,
        ihelse helse]
  case for_ =>
    intro id var seq bid body ih hn
    simp only [Stmt.ids, List.forall_mem_cons, List.forall_mem_append] at hn
    obtain ⟨hid, hseq, hvar, hbid, hbody⟩ := hn
    simp only [Stmt.renumber, LoopVar.renumber, hid, Expr.renumber_renumber hseq, hvar, hbid,
      ih hbody]
  case if_ =>
    intro id cond bid body orElse ihbody ihelse hn
    rcases orElse with _ | ⟨eid, orElse⟩
    · simp only [Stmt.ids, List.forall_mem_cons, List.forall_mem_append] at hn
      obtain ⟨hid, hcond, hbid, hbody⟩ := hn
      simp only [Stmt.renumber, hid, Expr.renumber_renumber hcond, hbid, ihbody hbody]
    · simp only [Stmt.ids, List.forall_mem_cons, List.forall_mem_append] at hn
      obtain ⟨hid, hcond, hbid, hbody, heid, helse⟩ := hn
      rw [elseOf_some] at ihelse
      simp only [Stmt.renumber, hid, Expr.renumber_renumber hcond, hbid, ihbody hbody, heid,
        ihelse helse]
  case try_ =>
    intro id bid body catches ihbody ihcatches hn
    simp only [Stmt.ids, List.forall_mem_cons, List.forall_mem_append] at hn
    obtain ⟨hid, hbid, hbody, hcatches⟩ := hn
    simp only [Stmt.renumber, hid, hbid, ihbody hbody, ihcatches hcatches]
  case nil => exact fun _ => rfl
  case cons =>
    intro s rest ihs ihrest hn
    obtain ⟨hs, hrest⟩ := List.forall_mem_append.mp hn
    simp only [renumberSeq, ihs hs, ihrest hrest]
  case noCatch => exact fun _ => rfl
  case catch_ =>
    intro id param bid body rest ihbody ihrest hn
    simp only [idsOfCatches, List.forall_mem_cons, List.forall_mem_append] at hn
    obtain ⟨hid, hbid, hbody, hrest⟩ := hn
    simp only [renumberCatches, hid, hbid, ihbody hbody, ihrest hrest]

namespace Block

variable (b : Block)

@[simp] theorem stmts_renumber : (b.renumber f).stmts = renumberSeq f b.stmts := rfl

@[simp] theorem exprs_renumber : (b.renumber f).exprs = b.exprs.map (Expr.renumber f) :=
  ControlFlow.exprs_renumber.2.1 b.stmts

@[simp] theorem size_renumber : (b.renumber f).size = b.size :=
  ControlFlow.size_renumber.2.1 b.stmts

theorem ids_renumber : (b.renumber f).ids = b.ids.map f := by
  rw [ids, ids, List.map_cons, ← ControlFlow.ids_renumber.2.1 b.stmts]
  rfl

theorem blocks_renumber : (b.renumber f).blocks = b.blocks.map (renumber f) := by
  rw [blocks, blocks, List.map_cons, ← ControlFlow.blocks_renumber.2.1 b.stmts]
  rfl

theorem renumber_self : b.renumber (fun n => n) = b := by
  obtain ⟨id, stmts⟩ := b
  rw [renumber, renumberSeq_self.2.1]

variable {b}

theorem renumber_renumber (hn : ∀ n ∈ b.ids, f (r n) = h n) :
    (b.renumber r).renumber f = b.renumber h := by
  obtain ⟨hid, hstmts⟩ := List.forall_mem_cons.mp hn
  simp only [renumber, hid, renumberSeq_renumberSeq.2.1 b.stmts hstmts]

end Block

/-! ## Modules -/

def Global.renumber (f : TreeId → TreeId) (v : Global) : Global :=
  { v with id := f v.id, init := v.init.map (Expr.renumber f) }

def Function.renumber (f : TreeId → TreeId) (fn : Function) : Function :=
  { fn with body := fn.body.renumber f }

/-- A module with the numbers of all its tree nodes replaced. Declarations keep theirs. -/
def Module.renumber (f : TreeId → TreeId) (m : Module) : Module :=
  { m with
    globals := m.globals.map (Global.renumber f)
    body := m.body.renumber f
    functions := m.functions.map (Function.renumber f) }

namespace Global

@[simp] theorem label_renumber (v : Global) : (v.renumber f).label = v.label :=
  declarationLabel_renumber _ _ _ v.init

theorem ids_eq (v : Global) : v.ids = v.id :: ((v.init.map Expr.walk).getD []).map Expr.id := by
  unfold ids
  cases v.init <;> rfl

theorem ids_renumber (v : Global) : (v.renumber f).ids = v.ids.map f := by
  rw [ids_eq, ids_eq, renumber, optional_walk_renumber, Expr.map_id_renumber, List.map_cons]

theorem renumber_self (v : Global) : v.renumber (fun n => n) = v := by
  rw [renumber, optional_renumber_self]

theorem renumber_renumber {v : Global} (hn : ∀ n ∈ v.ids, f (r n) = h n) :
    (v.renumber r).renumber f = v.renumber h := by
  rw [ids_eq] at hn
  obtain ⟨hid, hinit⟩ := List.forall_mem_cons.mp hn
  simp only [renumber, hid, optional_renumber_renumber v.init hinit]

end Global

namespace Function

theorem renumber_self (fn : Function) : fn.renumber (fun n => n) = fn := by
  rw [renumber, Block.renumber_self]

theorem renumber_renumber {fn : Function} (hn : ∀ n ∈ fn.body.ids, f (r n) = h n) :
    (fn.renumber r).renumber f = fn.renumber h := by
  simp only [renumber, Block.renumber_renumber hn]

end Function

namespace Module

variable (m : Module)

@[simp] theorem globals_renumber : (m.renumber f).globals = m.globals.map (Global.renumber f) :=
  rfl

@[simp] theorem body_renumber : (m.renumber f).body = m.body.renumber f := rfl

@[simp] theorem functions_renumber :
    (m.renumber f).functions = m.functions.map (Function.renumber f) :=
  rfl

theorem blocks_renumber : (m.renumber f).blocks = m.blocks.map (Block.renumber f) := by
  simp [blocks, Block.blocks_renumber, Function.renumber, List.flatMap_map, List.map_flatMap]

theorem ids_renumber : (m.renumber f).ids = m.ids.map f := by
  simp [ids, Block.ids_renumber, Global.ids_renumber, Function.renumber, List.flatMap_map,
    List.map_flatMap]

theorem renumber_self : m.renumber (fun n => n) = m := by
  have hglobals : m.globals.map (Global.renumber fun n => n) = m.globals :=
    (List.map_congr_left fun v _ => v.renumber_self).trans (List.map_id' _)
  have hfunctions : m.functions.map (Function.renumber fun n => n) = m.functions :=
    (List.map_congr_left fun fn _ => fn.renumber_self).trans (List.map_id' _)
  rw [renumber, hglobals, hfunctions, Block.renumber_self]

variable {m}

theorem renumber_renumber (hn : ∀ n ∈ m.ids, f (r n) = h n) :
    (m.renumber r).renumber f = m.renumber h := by
  simp only [ids, List.forall_mem_append, List.forall_mem_flatMap] at hn
  obtain ⟨⟨hglobals, hfunctions⟩, hbody⟩ := hn
  have hglobal : (m.globals.map (Global.renumber r)).map (Global.renumber f) =
      m.globals.map (Global.renumber h) := by
    rw [List.map_map]
    exact List.map_congr_left fun v hv => Global.renumber_renumber (hglobals v hv)
  have hfunction : (m.functions.map (Function.renumber r)).map (Function.renumber f) =
      m.functions.map (Function.renumber h) := by
    rw [List.map_map]
    exact List.map_congr_left fun fn hfn => Function.renumber_renumber (hfunctions fn hfn)
  simp only [renumber, hglobal, hfunction, Block.renumber_renumber hbody]

end Module

end ControlFlow

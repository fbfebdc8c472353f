import ControlFlow.Proofs.Document.Printed
import ControlFlow.Proofs.Tree.Parts
import ControlFlow.Tree.Format

/-! # Stored trees

A tree comes back from its document, and every document of the form of a tree is that of a tree.
-/

namespace ControlFlow

open Document

theorem mapM_map_of_left_inverse {β γ : Type} {f : β → γ} {g : γ → Option β} {xs : List β}
    (h : ∀ x ∈ xs, g (f x) = some x) : (xs.map f).mapM g = some xs := by
  induction xs with
  | nil => rfl
  | cons x xs ih =>
      rw [List.map_cons, List.mapM_cons, h x List.mem_cons_self,
        ih fun y hy => h y (List.mem_cons_of_mem x hy)]
      rfl

theorem exists_map_of_forall {β γ : Type} {f : β → γ} {ys : List γ}
    (h : ∀ y ∈ ys, ∃ x, y = f x) : ∃ xs : List β, ys = xs.map f := by
  induction ys with
  | nil => exact ⟨[], rfl⟩
  | cons y ys ih =>
      obtain ⟨x, rfl⟩ := h y List.mem_cons_self
      obtain ⟨xs, rfl⟩ := ih fun y hy => h y (List.mem_cons_of_mem _ hy)
      exact ⟨x :: xs, rfl⟩

theorem exprDocuments_eq_map (es : List Expr) : exprDocuments es = es.map Expr.toDocument := by
  induction es with
  | nil => rfl
  | cons e rest ih => rw [exprDocuments, ih, List.map_cons]

theorem stmtDocuments_eq_map (ss : List Stmt) : stmtDocuments ss = ss.map Stmt.toDocument := by
  induction ss with
  | nil => rfl
  | cons s rest ih => rw [stmtDocuments, ih, List.map_cons]

/-- The document of a catch. -/
def Catch.toDocument (c : Catch) : Document :=
  .object [("id", ofId c.id), ("param", ofId? c.param), ("body", c.body.toDocument)]

theorem catchDocuments_eq_map (cs : List Catch) : catchDocuments cs = cs.map Catch.toDocument := by
  induction cs with
  | nil => rfl
  | cons c rest ih =>
      obtain ⟨id, param, bid, body⟩ := c
      rw [catchDocuments, ih]
      rfl

/-- The document of a block that may be missing. -/
def elseDocument : Option Block → Document
  | none => .null
  | some b => b.toDocument

namespace Stmt

theorem toDocument_block (id : TreeId) (body : Block) :
    (block id body).toDocument = node id (tagged "block" body.toDocument) := by
  obtain ⟨bid, body⟩ := body
  rfl

theorem toDocument_while (id : TreeId) (cond : Expr) (body : Block) (orElse : Option Block) :
    (Stmt.while id cond body orElse).toDocument = node id (tagged "while" (.object
      [("cond", cond.toDocument), ("body", body.toDocument),
        ("else_body", elseDocument orElse)])) := by
  obtain ⟨bid, body⟩ := body
  rcases orElse with _ | ⟨eid, orElse⟩ <;> rfl

theorem toDocument_for (id : TreeId) (var : LoopVar) (seq : Expr) (body : Block) :
    (Stmt.for id var seq body).toDocument = node id (tagged "for" (.object
      [("var", var.toDocument), ("seq", seq.toDocument), ("body", body.toDocument)])) := by
  obtain ⟨bid, body⟩ := body
  rfl

theorem toDocument_if (id : TreeId) (cond : Expr) (body : Block) (orElse : Option Block) :
    (Stmt.if id cond body orElse).toDocument = node id (tagged "if" (.object
      [("cond", cond.toDocument), ("then_body", body.toDocument),
        ("else_body", elseDocument orElse)])) := by
  obtain ⟨bid, body⟩ := body
  rcases orElse with _ | ⟨eid, orElse⟩ <;> rfl

theorem toDocument_try (id : TreeId) (body : Block) (catches : List Catch) :
    (Stmt.try id body catches).toDocument = node id (tagged "try" (.object
      [("body", body.toDocument), ("catches", .array (catches.map Catch.toDocument))])) := by
  obtain ⟨bid, body⟩ := body
  rw [← catchDocuments_eq_map]
  rfl

end Stmt

/-! ## Trees come back from their documents -/

namespace Document

@[simp] theorem id?_ofId (n : Nat) : (ofId n).id? = some n := rfl

@[simp] theorem optionalId?_ofId? (n : Option Nat) : (ofId? n).optionalId? = some n := by
  cases n <;> rfl

@[simp] theorem passing?_toDocument (p : Passing) : p.toDocument.passing? = some p := by
  cases p <;> rfl

@[simp] theorem declKind?_toDocument (k : DeclKind) : k.toDocument.declKind? = some k := by
  cases k with
  | globalVariable => rfl
  | localVariable => rfl
  | parameter passing => simp [DeclKind.toDocument, tagged, declKind?]
  | function params =>
      have hparams : (params.map Passing.toDocument).mapM passing? = some params :=
        mapM_map_of_left_inverse fun p _ => passing?_toDocument p
      simp [DeclKind.toDocument, tagged, declKind?, hparams]

@[simp] theorem container?_toDocument (c : Container) : c.toDocument.container? = some c := by
  cases c <;> rfl

@[simp] theorem ty?_toDocument (t : Ty) : t.toDocument.ty? = some t := by
  cases t with
  | iterator c => simp [Ty.toDocument, tagged, ty?]
  | _ => rfl

@[simp] theorem declaration?_toDocument (d : Declaration) :
    d.toDocument.declaration? = some d := by
  simp [Declaration.toDocument, declaration?]

theorem exprs?_toDocument : (∀ e : Expr, e.toDocument.expr? = some e) ∧
    ∀ es, exprs? (exprDocuments es) = some es := by
  refine expr_induction ?literal ?name ?assign ?call ?operator ?nil ?cons
  case literal =>
    intro id value
    cases value <;> rfl
  case name =>
    intro id name decl
    simp [Expr.toDocument, node, tagged, expr?]
  case assign =>
    intro id target source htarget hsource
    simp [Expr.toDocument, node, tagged, expr?, htarget, hsource]
  case call =>
    intro id callee function args hargs
    simp [Expr.toDocument, node, tagged, expr?, hargs]
  case operator =>
    intro id op operands hoperands
    simp [Expr.toDocument, node, tagged, expr?, hoperands]
  case nil => rfl
  case cons =>
    intro e rest he hrest
    simp [exprDocuments, exprs?, he, hrest]

@[simp] theorem expr?_toDocument (e : Expr) : e.toDocument.expr? = some e := exprs?_toDocument.1 e

@[simp] theorem optionalExpr?_exprDocument? (e : Option Expr) :
    (exprDocument? e).optionalExpr? = some e := by
  cases e with
  | none => rfl
  | some e =>
      have hexpr := expr?_toDocument e
      cases e <;> simpa [exprDocument?, Expr.toDocument, node, optionalExpr?] using hexpr

@[simp] theorem loopVar?_toDocument (var : LoopVar) : var.toDocument.loopVar? = some var := by
  simp [LoopVar.toDocument, loopVar?]

@[simp] theorem localVar?_toDocument (var : LocalVar) : var.toDocument.localVar? = some var := by
  simp [LocalVar.toDocument, localVar?]

theorem stmt?_simple (id : TreeId) (what : Simple) :
    (Stmt.simple id what).toDocument.stmt? = some (.simple id what) := by
  cases what with
  | expr e =>
      change e.toDocument.expr?.map (fun e => Stmt.simple id (.expr e)) = _
      rw [expr?_toDocument, Option.map_some]
  | declare var =>
      change var.toDocument.localVar?.map (fun var => Stmt.simple id (.declare var)) = _
      rw [localVar?_toDocument, Option.map_some]
  | assert e =>
      change e.toDocument.expr?.map (fun e => Stmt.simple id (.assert e)) = _
      rw [expr?_toDocument, Option.map_some]
  | yield => rfl
  | comment words => rfl
  | location place => rfl

theorem stmt?_jump (id : TreeId) (how : Jump) :
    (Stmt.jump id how).toDocument.stmt? = some (.jump id how) := by
  cases how with
  | «return» value =>
      change (exprDocument? value).optionalExpr?.map (fun e => Stmt.jump id (.return e)) = _
      rw [optionalExpr?_exprDocument?, Option.map_some]
  | throw value =>
      change (exprDocument? value).optionalExpr?.map (fun e => Stmt.jump id (.throw e)) = _
      rw [optionalExpr?_exprDocument?, Option.map_some]
  | «break» => rfl
  | «continue» => rfl

/-! What is read of a compound statement, by its parts. -/

section Compound

variable (id bid : TreeId) (body : List Stmt)

theorem stmt?_block : (Stmt.block id ⟨bid, body⟩).toDocument.stmt? =
    (stmts? (stmtDocuments body)).map fun body => .block id ⟨bid, body⟩ :=
  Option.map_eq_bind.symm

theorem stmt?_while (cond : Expr) : (Stmt.while id cond ⟨bid, body⟩ none).toDocument.stmt? =
    cond.toDocument.expr?.bind fun cond => (stmts? (stmtDocuments body)).bind fun body =>
      some (.while id cond ⟨bid, body⟩ none) :=
  rfl

theorem stmt?_whileElse (cond : Expr) (eid : TreeId) (orElse : List Stmt) :
    (Stmt.while id cond ⟨bid, body⟩ (some ⟨eid, orElse⟩)).toDocument.stmt? =
      cond.toDocument.expr?.bind fun cond => (stmts? (stmtDocuments body)).bind fun body =>
        (stmts? (stmtDocuments orElse)).bind fun orElse =>
          some (.while id cond ⟨bid, body⟩ (some ⟨eid, orElse⟩)) :=
  rfl

theorem stmt?_for (var : LoopVar) (seq : Expr) : (Stmt.for id var seq ⟨bid, body⟩).toDocument.stmt? =
    var.toDocument.loopVar?.bind fun var => seq.toDocument.expr?.bind fun seq =>
      (stmts? (stmtDocuments body)).bind fun body => some (.for id var seq ⟨bid, body⟩) :=
  rfl

theorem stmt?_if (cond : Expr) : (Stmt.if id cond ⟨bid, body⟩ none).toDocument.stmt? =
    cond.toDocument.expr?.bind fun cond => (stmts? (stmtDocuments body)).bind fun body =>
      some (.if id cond ⟨bid, body⟩ none) :=
  rfl

theorem stmt?_ifElse (cond : Expr) (eid : TreeId) (orElse : List Stmt) :
    (Stmt.if id cond ⟨bid, body⟩ (some ⟨eid, orElse⟩)).toDocument.stmt? =
      cond.toDocument.expr?.bind fun cond => (stmts? (stmtDocuments body)).bind fun body =>
        (stmts? (stmtDocuments orElse)).bind fun orElse =>
          some (.if id cond ⟨bid, body⟩ (some ⟨eid, orElse⟩)) :=
  rfl

theorem stmt?_try (catches : List Catch) : (Stmt.try id ⟨bid, body⟩ catches).toDocument.stmt? =
    (stmts? (stmtDocuments body)).bind fun body => (catches? (catchDocuments catches)).bind
      fun catches => some (.try id ⟨bid, body⟩ catches) :=
  rfl

end Compound

theorem stmts?_toDocument : (∀ s : Stmt, s.toDocument.stmt? = some s) ∧
    (∀ ss, stmts? (stmtDocuments ss) = some ss) ∧
    ∀ cs, catches? (catchDocuments cs) = some cs := by
  refine tree_induction ?simple ?jump ?block ?while_ ?for_ ?if_ ?try_ ?nil ?cons ?noCatch ?catch_
  case simple => exact stmt?_simple
  case jump => exact stmt?_jump
  case block =>
    intro id bid body hbody
    rw [stmt?_block, hbody, Option.map_some]
  case while_ =>
    intro id cond bid body orElse hbody helse
    rcases orElse with _ | ⟨eid, orElse⟩
    · simp only [stmt?_while, expr?_toDocument, hbody, Option.bind_some]
    · rw [elseOf_some] at helse
      simp only [stmt?_whileElse, expr?_toDocument, hbody, helse, Option.bind_some]
  case for_ =>
    intro id var seq bid body hbody
    simp only [stmt?_for, loopVar?_toDocument, expr?_toDocument, hbody, Option.bind_some]
  case if_ =>
    intro id cond bid body orElse hbody helse
    rcases orElse with _ | ⟨eid, orElse⟩
    · simp only [stmt?_if, expr?_toDocument, hbody, Option.bind_some]
    · rw [elseOf_some] at helse
      simp only [stmt?_ifElse, expr?_toDocument, hbody, helse, Option.bind_some]
  case try_ =>
    intro id bid body catches hbody hcatches
    simp only [stmt?_try, hbody, hcatches, Option.bind_some]
  case nil => rfl
  case cons =>
    intro s rest hs hrest
    simp [stmtDocuments, stmts?, hs, hrest]
  case noCatch => rfl
  case catch_ =>
    intro id param bid body rest hbody hrest
    simp [catchDocuments, blockDocument, catches?, hbody, hrest]

@[simp] theorem block?_toDocument (b : Block) : b.toDocument.block? = some b := by
  obtain ⟨id, stmts⟩ := b
  simp [Block.toDocument, blockDocument, block?, stmts?_toDocument.2.1 stmts]

@[simp] theorem global?_toDocument (g : Global) : g.toDocument.global? = some g := by
  simp [Global.toDocument, global?]

@[simp] theorem function?_toDocument (f : Function) : f.toDocument.function? = some f := by
  have hparams : (f.params.map ofId).mapM id? = some f.params :=
    mapM_map_of_left_inverse fun n _ => id?_ofId n
  simp [Function.toDocument, function?, hparams]

/-- A module comes back from its document. -/
theorem module?_toDocument (m : Module) : m.toDocument.module? = some m := by
  have hdecls : (m.decls.map Declaration.toDocument).mapM declaration? = some m.decls :=
    mapM_map_of_left_inverse fun d _ => declaration?_toDocument d
  have hglobals : (m.globals.map Global.toDocument).mapM global? = some m.globals :=
    mapM_map_of_left_inverse fun g _ => global?_toDocument g
  have hfunctions : (m.functions.map Function.toDocument).mapM function? = some m.functions :=
    mapM_map_of_left_inverse fun f _ => function?_toDocument f
  simp [Module.toDocument, module?, hdecls, hglobals, hfunctions]

end Document

/-! ## Documents of the forms of trees -/

namespace TreeForm

theorem sound_schema : schema.Sound := by
  refine ⟨fun {name fields closed} h => ?_, fun {name fields closed} h => ?_,
    fun {name fields closed} h => ?_⟩
  · cases name <;> cases h <;> decide
  · cases name <;> cases h <;> simp [Field.given, Field.optional, Field.defaulted]
  · cases name <;> cases h <;> simp [Field.given, Field.optional, Field.defaulted]
    · -- In a module there is a list of declarations, so that brackets may open here.
      rintro value depth rfl name - decls hdecls - - - -
      obtain ⟨inner, ds, rfl, -, -⟩ := (Slot.holds_mandatory.mp hdecls).sequence
      exact Slot.holds_mandatory.mpr (Fits.sequence rfl nofun)
    · rintro value depth rfl - - - - - - - -
      refine Slot.holds_mandatory.mpr ?_
      cases depth <;> exact Fits.flag false

/-- A document of some form, with a bound for its nesting. -/
abbrev IsOf (depth : Nat) (name : TreeForm) (d : Document) : Prop :=
  Conforms schema depth (.form name) d

variable {depth : Nat} {d : Document}

/-! ### Parts of every tree -/

theorem exists_id (h : Conforms schema depth number d) : ∃ n, d = ofId n := by
  obtain ⟨n, rfl, hn⟩ := h.number
  exact ⟨n.toNat, congrArg Document.number (Int.toNat_of_nonneg hn).symm⟩

theorem exists_id? (h : d = .null ∨ Conforms schema depth number d) : ∃ n, d = ofId? n := by
  rcases h with rfl | h
  · exact ⟨none, rfl⟩
  · obtain ⟨n, rfl⟩ := exists_id h
    exact ⟨some n, rfl⟩

theorem exists_passing (h : IsOf depth passing d) : ∃ p : Passing, d = p.toDocument := by
  rcases h.choice rfl with rfl | rfl | rfl | rfl | ⟨⟨⟩⟩
  · exact ⟨.unknown, rfl⟩
  · exact ⟨.copy, rfl⟩
  · exact ⟨.read, rfl⟩
  · exact ⟨.update, rfl⟩

theorem exists_container (h : IsOf depth container d) : ∃ c : Container, d = c.toDocument := by
  rcases h.choice rfl with rfl | rfl | rfl | rfl | rfl | rfl | ⟨⟨⟩⟩
  · exact ⟨.bytes, rfl⟩
  · exact ⟨.list, rfl⟩
  · exact ⟨.map, rfl⟩
  · exact ⟨.set, rfl⟩
  · exact ⟨.stream, rfl⟩
  · exact ⟨.vector, rfl⟩

theorem exists_declKind (h : IsOf depth declKind d) : ∃ k : DeclKind, d = k.toDocument := by
  rcases h.choice rfl with rfl | rfl | ⟨inner, parts, rfl, hparts, rfl⟩ |
    ⟨inner, parts, rfl, hparts, rfl⟩ | ⟨⟨⟩⟩
  · exact ⟨.globalVariable, rfl⟩
  · exact ⟨.localVariable, rfl⟩
  · obtain ⟨inner, rfl, kind, hkind, rfl⟩ := Conforms.members hparts rfl
    obtain ⟨p, rfl⟩ := exists_passing hkind
    exact ⟨.parameter p, rfl⟩
  · obtain ⟨inner, rfl, params, hparams, rfl⟩ := Conforms.members hparts rfl
    obtain ⟨inner, ds, rfl, rfl, hds⟩ := Conforms.sequence hparams
    obtain ⟨ps, rfl⟩ := exists_map_of_forall fun e he => exists_passing (hds e he)
    exact ⟨.function ps, rfl⟩

theorem exists_ty (h : IsOf depth ty d) : ∃ t : Ty, d = t.toDocument := by
  rcases h.choice rfl with rfl | rfl | rfl | rfl | rfl | rfl | ⟨inner, parts, rfl, hparts, rfl⟩ |
    ⟨inner, parts, rfl, hparts, rfl⟩ | ⟨inner, parts, rfl, hparts, rfl⟩ | ⟨⟨⟩⟩
  · exact ⟨.bool, rfl⟩
  · exact ⟨.int, rfl⟩
  · exact ⟨.string, rfl⟩
  · exact ⟨.bytes, rfl⟩
  · exact ⟨.stream, rfl⟩
  · exact ⟨.streamView, rfl⟩
  · obtain ⟨c, rfl⟩ := exists_container hparts
    exact ⟨.iterator c, rfl⟩
  · obtain ⟨inner, rfl, name, hname, finalizer, hfinalizer, rfl⟩ := Conforms.members hparts rfl
    obtain ⟨name, rfl⟩ := Conforms.text hname
    obtain ⟨finalizer, rfl⟩ := Conforms.flag hfinalizer
    exact ⟨.struct name finalizer, rfl⟩
  · obtain ⟨name, rfl⟩ := Conforms.text hparts
    exact ⟨.other name, rfl⟩

theorem exists_declaration (h : IsOf depth declaration d) : ∃ v : Declaration, d = v.toDocument := by
  obtain ⟨inner, rfl, id, hid, name, hname, kind, hkind, ty, hty, external, hexternal, rfl⟩ :=
    h.members rfl
  obtain ⟨id, rfl⟩ := exists_id hid
  obtain ⟨name, rfl⟩ := Conforms.text hname
  obtain ⟨kind, rfl⟩ := exists_declKind hkind
  obtain ⟨ty, rfl⟩ := exists_ty hty
  obtain ⟨external, rfl⟩ := Conforms.flag hexternal
  exact ⟨⟨id, name, kind, ty, external⟩, rfl⟩

theorem exists_literal (h : IsOf depth literal d) : ∃ value : Literal, d = value.toDocument := by
  rcases h.choice rfl with ⟨inner, value, rfl, hvalue, rfl⟩ | ⟨inner, value, rfl, hvalue, rfl⟩ |
    ⟨inner, value, rfl, hvalue, rfl⟩ | ⟨⟨⟩⟩
  · obtain ⟨value, rfl⟩ := Conforms.flag hvalue
    exact ⟨.bool value, rfl⟩
  · obtain ⟨n, rfl, -⟩ := Conforms.number hvalue
    exact ⟨.int n, rfl⟩
  · obtain ⟨s, rfl⟩ := Conforms.text hvalue
    exact ⟨.text s, rfl⟩

/-! ### Expressions -/

theorem exists_exprs (hexpr : ∀ inner < depth, ∀ d, IsOf inner expr d → ∃ e : Expr, d = e.toDocument)
    (h : Conforms schema depth (.sequence (.form expr)) d) :
    ∃ es, d = .array (exprDocuments es) := by
  obtain ⟨inner, ds, rfl, rfl, hds⟩ := h.sequence
  obtain ⟨es, rfl⟩ :=
    exists_map_of_forall fun e he => hexpr inner (Nat.lt_succ_self _) e (hds e he)
  exact ⟨es, by rw [exprDocuments_eq_map]⟩

/-- An expression of a kind, if all documents of less nesting are those of expressions. -/
theorem exists_exprKind (hexpr : ∀ inner < depth, ∀ d, IsOf inner expr d → ∃ e : Expr, d = e.toDocument)
    (id : TreeId) (h : IsOf depth exprKind d) : ∃ e : Expr, node id d = e.toDocument := by
  rcases h.choice rfl with ⟨inner, parts, rfl, hparts, rfl⟩ | ⟨inner, parts, rfl, hparts, rfl⟩ |
    ⟨inner, parts, rfl, hparts, rfl⟩ | ⟨inner, parts, rfl, hparts, rfl⟩ |
    ⟨inner, parts, rfl, hparts, rfl⟩ | ⟨⟨⟩⟩
  · obtain ⟨value, rfl⟩ := exists_literal hparts
    exact ⟨.literal id value, rfl⟩
  · obtain ⟨inner, rfl, name, hname, decl, hdecl, rfl⟩ := Conforms.members hparts rfl
    obtain ⟨name, rfl⟩ := Conforms.text hname
    obtain ⟨decl, rfl⟩ := exists_id? hdecl
    exact ⟨.name id name decl, rfl⟩
  · obtain ⟨inner, rfl, target, htarget, source, hsource, rfl⟩ := Conforms.members hparts rfl
    obtain ⟨target, rfl⟩ := hexpr inner (by omega) _ htarget
    obtain ⟨source, rfl⟩ := hexpr inner (by omega) _ hsource
    exact ⟨.assign id target source, rfl⟩
  · obtain ⟨inner, rfl, callee, hcallee, function, hfunction, args, hargs, rfl⟩ :=
      Conforms.members hparts rfl
    obtain ⟨callee, rfl⟩ := Conforms.text hcallee
    obtain ⟨function, rfl⟩ := exists_id? hfunction
    obtain ⟨args, rfl⟩ := exists_exprs (fun j hj => hexpr j (by omega)) hargs
    exact ⟨.call id callee function args, rfl⟩
  · obtain ⟨inner, rfl, op, hop, operands, hoperands, rfl⟩ := Conforms.members hparts rfl
    obtain ⟨op, rfl⟩ := Conforms.text hop
    obtain ⟨operands, rfl⟩ := exists_exprs (fun j hj => hexpr j (by omega)) hoperands
    exact ⟨.operator id op operands, rfl⟩

theorem exists_expr (h : IsOf depth expr d) : ∃ e : Expr, d = e.toDocument := by
  induction depth using Nat.strongRecOn generalizing d with
  | ind depth ih =>
      obtain ⟨inner, rfl, id, hid, kind, hkind, rfl⟩ := h.members rfl
      obtain ⟨id, rfl⟩ := exists_id hid
      exact exists_exprKind (fun j hj d => ih j (by omega)) id hkind

theorem exists_expr? (h : d = .null ∨ IsOf depth expr d) : ∃ e, d = exprDocument? e := by
  rcases h with rfl | h
  · exact ⟨none, rfl⟩
  · obtain ⟨e, rfl⟩ := exists_expr h
    exact ⟨some e, rfl⟩

/-! ### Statements -/

theorem exists_loopVar (h : IsOf depth loopVar d) : ∃ var : LoopVar, d = var.toDocument := by
  obtain ⟨inner, rfl, id, hid, decl, hdecl, name, hname, ty, hty, rfl⟩ := h.members rfl
  obtain ⟨id, rfl⟩ := exists_id hid
  obtain ⟨decl, rfl⟩ := exists_id hdecl
  obtain ⟨name, rfl⟩ := Conforms.text hname
  obtain ⟨ty, rfl⟩ := exists_ty hty
  exact ⟨⟨id, decl, name, ty⟩, rfl⟩

theorem exists_localVar (h : IsOf depth localVar d) : ∃ var : LocalVar, d = var.toDocument := by
  obtain ⟨inner, rfl, decl, hdecl, name, hname, ty, hty, init, hinit, rfl⟩ := h.members rfl
  obtain ⟨decl, rfl⟩ := exists_id hdecl
  obtain ⟨name, rfl⟩ := Conforms.text hname
  obtain ⟨ty, rfl⟩ := exists_ty hty
  obtain ⟨init, rfl⟩ := exists_expr? hinit
  exact ⟨⟨decl, name, ty, init⟩, rfl⟩

/-- All documents of the form of a statement with less nesting are those of statements. -/
def AllStmts (depth : Nat) : Prop :=
  ∀ inner < depth, ∀ d, IsOf inner stmt d → ∃ s : Stmt, d = s.toDocument

theorem AllStmts.mono {inner : Nat} (h : AllStmts depth) (hle : inner ≤ depth) : AllStmts inner :=
  fun j hj => h j (Nat.lt_of_lt_of_le hj hle)

theorem exists_block (hstmts : AllStmts depth) (h : IsOf depth block d) :
    ∃ b : Block, d = b.toDocument := by
  obtain ⟨inner, rfl, id, hid, stmts, hbody, rfl⟩ := h.members rfl
  obtain ⟨id, rfl⟩ := exists_id hid
  obtain ⟨inner, ds, rfl, rfl, hds⟩ := Conforms.sequence hbody
  obtain ⟨ss, rfl⟩ := exists_map_of_forall fun e he => hstmts inner (by omega) e (hds e he)
  refine ⟨⟨id, ss⟩, ?_⟩
  rw [Block.toDocument, blockDocument, stmtDocuments_eq_map]
  rfl

theorem exists_else (hstmts : AllStmts depth) (h : d = .null ∨ IsOf depth block d) :
    ∃ b, d = elseDocument b := by
  rcases h with rfl | h
  · exact ⟨none, rfl⟩
  · obtain ⟨b, rfl⟩ := exists_block hstmts h
    exact ⟨some b, rfl⟩

theorem exists_handler (hstmts : AllStmts depth) (h : IsOf depth handler d) :
    ∃ c : Catch, d = c.toDocument := by
  obtain ⟨inner, rfl, id, hid, param, hparam, body, hbody, rfl⟩ := h.members rfl
  obtain ⟨id, rfl⟩ := exists_id hid
  obtain ⟨param, rfl⟩ := exists_id? hparam
  obtain ⟨body, rfl⟩ := exists_block (hstmts.mono (by omega)) hbody
  exact ⟨⟨id, param, body⟩, rfl⟩

theorem exists_while (hstmts : AllStmts depth) (id : TreeId) (h : IsOf depth whileStmt d) :
    ∃ s : Stmt, node id (tagged "while" d) = s.toDocument := by
  obtain ⟨inner, rfl, cond, hcond, body, hbody, orElse, helse, rfl⟩ := h.members rfl
  obtain ⟨cond, rfl⟩ := exists_expr hcond
  obtain ⟨body, rfl⟩ := exists_block (hstmts.mono (by omega)) hbody
  obtain ⟨orElse, rfl⟩ := exists_else (hstmts.mono (by omega)) helse
  exact ⟨.while id cond body orElse, (Stmt.toDocument_while ..).symm⟩

theorem exists_if (hstmts : AllStmts depth) (id : TreeId) (h : IsOf depth ifStmt d) :
    ∃ s : Stmt, node id (tagged "if" d) = s.toDocument := by
  obtain ⟨inner, rfl, cond, hcond, body, hbody, orElse, helse, rfl⟩ := h.members rfl
  obtain ⟨cond, rfl⟩ := exists_expr hcond
  obtain ⟨body, rfl⟩ := exists_block (hstmts.mono (by omega)) hbody
  obtain ⟨orElse, rfl⟩ := exists_else (hstmts.mono (by omega)) helse
  exact ⟨.if id cond body orElse, (Stmt.toDocument_if ..).symm⟩

theorem exists_for (hstmts : AllStmts depth) (id : TreeId) (h : IsOf depth forStmt d) :
    ∃ s : Stmt, node id (tagged "for" d) = s.toDocument := by
  obtain ⟨inner, rfl, var, hvar, seq, hseq, body, hbody, rfl⟩ := h.members rfl
  obtain ⟨var, rfl⟩ := exists_loopVar hvar
  obtain ⟨seq, rfl⟩ := exists_expr hseq
  obtain ⟨body, rfl⟩ := exists_block (hstmts.mono (by omega)) hbody
  exact ⟨.for id var seq body, (Stmt.toDocument_for ..).symm⟩

theorem exists_try (hstmts : AllStmts depth) (id : TreeId) (h : IsOf depth tryStmt d) :
    ∃ s : Stmt, node id (tagged "try" d) = s.toDocument := by
  obtain ⟨inner, rfl, body, hbody, catches, hcatches, rfl⟩ := h.members rfl
  obtain ⟨body, rfl⟩ := exists_block (hstmts.mono (by omega)) hbody
  obtain ⟨inner, ds, rfl, rfl, hds⟩ := Conforms.sequence hcatches
  obtain ⟨cs, rfl⟩ :=
    exists_map_of_forall fun e he => exists_handler (hstmts.mono (by omega)) (hds e he)
  exact ⟨.try id body cs, (Stmt.toDocument_try ..).symm⟩

/-- A statement of a kind, if all documents of less nesting are those of statements. -/
theorem exists_stmtKind (hstmts : AllStmts depth) (id : TreeId) (h : IsOf depth stmtKind d) :
    ∃ s : Stmt, node id d = s.toDocument := by
  have hless {inner : Nat} (hdepth : depth = inner + 1) : AllStmts inner :=
    hstmts.mono (hdepth ▸ Nat.le_succ inner)
  rcases h.choice rfl with ⟨inner, e, hdepth, he, rfl⟩ | ⟨inner, b, hdepth, hb, rfl⟩ |
    ⟨inner, parts, hdepth, hparts, rfl⟩ | ⟨inner, parts, hdepth, hparts, rfl⟩ |
    ⟨inner, parts, hdepth, hparts, rfl⟩ | ⟨inner, parts, hdepth, hparts, rfl⟩ |
    ⟨inner, e, hdepth, he, rfl⟩ | ⟨inner, e, hdepth, he, rfl⟩ | rfl | rfl |
    ⟨inner, var, hdepth, hvar, rfl⟩ | ⟨inner, e, hdepth, he, rfl⟩ | rfl |
    ⟨inner, words, hdepth, hwords, rfl⟩ | ⟨inner, place, hdepth, hplace, rfl⟩ | ⟨⟨⟩⟩
  · obtain ⟨e, rfl⟩ := exists_expr he
    exact ⟨.simple id (.expr e), rfl⟩
  · obtain ⟨b, rfl⟩ := exists_block (hless hdepth) hb
    exact ⟨.block id b, (Stmt.toDocument_block ..).symm⟩
  · exact exists_while (hless hdepth) id hparts
  · exact exists_for (hless hdepth) id hparts
  · exact exists_if (hless hdepth) id hparts
  · exact exists_try (hless hdepth) id hparts
  · obtain ⟨e, rfl⟩ := exists_expr? he
    exact ⟨.jump id (.return e), rfl⟩
  · obtain ⟨e, rfl⟩ := exists_expr? he
    exact ⟨.jump id (.throw e), rfl⟩
  · exact ⟨.jump id .break, rfl⟩
  · exact ⟨.jump id .continue, rfl⟩
  · obtain ⟨var, rfl⟩ := exists_localVar hvar
    exact ⟨.simple id (.declare var), rfl⟩
  · obtain ⟨e, rfl⟩ := exists_expr he
    exact ⟨.simple id (.assert e), rfl⟩
  · exact ⟨.simple id .yield, rfl⟩
  · obtain ⟨words, rfl⟩ := Conforms.text hwords
    exact ⟨.simple id (.comment words), rfl⟩
  · obtain ⟨place, rfl⟩ := Conforms.text hplace
    exact ⟨.simple id (.location place), rfl⟩

theorem exists_stmt (h : IsOf depth stmt d) : ∃ s : Stmt, d = s.toDocument := by
  induction depth using Nat.strongRecOn generalizing d with
  | ind depth ih =>
      obtain ⟨inner, rfl, id, hid, kind, hkind, rfl⟩ := h.members rfl
      obtain ⟨id, rfl⟩ := exists_id hid
      exact exists_stmtKind (fun j hj d => ih j (by omega)) id hkind

/-! ### Modules -/

theorem allStmts (depth : Nat) : AllStmts depth := fun _ _ _ => exists_stmt

theorem exists_global (h : IsOf depth global d) : ∃ g : Global, d = g.toDocument := by
  obtain ⟨inner, rfl, id, hid, decl, hdecl, name, hname, ty, hty, init, hinit, rfl⟩ :=
    h.members rfl
  obtain ⟨id, rfl⟩ := exists_id hid
  obtain ⟨decl, rfl⟩ := exists_id hdecl
  obtain ⟨name, rfl⟩ := Conforms.text hname
  obtain ⟨ty, rfl⟩ := exists_ty hty
  obtain ⟨init, rfl⟩ := exists_expr? hinit
  exact ⟨⟨id, decl, name, ty, init⟩, rfl⟩

theorem exists_function (h : IsOf depth function d) : ∃ f : Function, d = f.toDocument := by
  obtain ⟨inner, rfl, name, hname, params, hparams, body, hbody, rfl⟩ := h.members rfl
  obtain ⟨name, rfl⟩ := Conforms.text hname
  obtain ⟨_, ds, rfl, rfl, hds⟩ := Conforms.sequence hparams
  obtain ⟨params, rfl⟩ := exists_map_of_forall fun e he => exists_id (hds e he)
  obtain ⟨body, rfl⟩ := exists_block (allStmts _) hbody
  exact ⟨⟨name, params, body⟩, rfl⟩

/-- Every document of the form of a module is that of a module. -/
theorem exists_module (h : IsOf depth module d) : ∃ m : Module, d = m.toDocument := by
  obtain ⟨inner, -, name, hname, decls, hdecls, globals, hglobals, body, hbody, functions,
    hfunctions, rfl⟩ := h.members rfl
  obtain ⟨name, rfl⟩ := Conforms.text hname
  obtain ⟨_, ds, -, rfl, hds⟩ := Conforms.sequence hdecls
  obtain ⟨decls, rfl⟩ := exists_map_of_forall fun e he => exists_declaration (hds e he)
  obtain ⟨_, ds, -, rfl, hds⟩ := Conforms.sequence hglobals
  obtain ⟨globals, rfl⟩ := exists_map_of_forall fun e he => exists_global (hds e he)
  obtain ⟨body, rfl⟩ := exists_block (allStmts _) hbody
  obtain ⟨_, ds, -, rfl, hds⟩ := Conforms.sequence hfunctions
  obtain ⟨functions, rfl⟩ := exists_map_of_forall fun e he => exists_function (hds e he)
  exact ⟨⟨name, decls, globals, body, functions⟩, rfl⟩

end TreeForm

end ControlFlow

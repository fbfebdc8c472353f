import ControlFlow.Graph.Basic

/-! # The parts of a statement tree

What a sequence of statements consists of, at any depth and in source order: its statements, the
points that they show in a flow graph, the control expressions and loop variables with the
statements that they belong to, and the numbers of all tree nodes. The other parts are sublists
of the numbers, so where the numbers are distinct, each part occurs once.
-/

namespace ControlFlow

/-- The statements of an `else`; none if it is missing. -/
def elseOf : Option Block → List Stmt
  | none => []
  | some b => b.stmts

@[simp] theorem elseOf_none : elseOf none = [] := rfl

@[simp] theorem elseOf_some (id : TreeId) (stmts : List Stmt) : elseOf (some ⟨id, stmts⟩) = stmts :=
  rfl

theorem append_subset_append {α : Type} {as bs cs ds : List α} (h : as ⊆ cs) (h' : bs ⊆ ds) :
    as ++ bs ⊆ cs ++ ds :=
  List.append_subset.mpr ⟨List.subset_append_of_subset_left _ h,
    List.subset_append_of_subset_right _ h'⟩

/-- Induction over expressions and lists of them. -/
theorem expr_induction {P : Expr → Prop} {Q : List Expr → Prop}
    (literal : ∀ id value, P (.literal id value)) (name : ∀ id name decl, P (.name id name decl))
    (assign : ∀ id target source, P target → P source → P (.assign id target source))
    (call : ∀ id callee function args, Q args → P (.call id callee function args))
    (operator : ∀ id op operands, Q operands → P (.operator id op operands))
    (nil : Q []) (cons : ∀ e rest, P e → Q rest → Q (e :: rest)) : (∀ e, P e) ∧ ∀ es, Q es :=
  Expr.walk.mutual_induct P Q literal name assign call operator nil cons

/-- Induction over statement trees, one case for each kind of statement. -/
theorem tree_induction {P : Stmt → Prop} {Q : List Stmt → Prop} {R : List Catch → Prop}
    (simple : ∀ id what, P (.simple id what)) (jump : ∀ id how, P (.jump id how))
    (block : ∀ id bid body, Q body → P (.block id ⟨bid, body⟩))
    (while_ : ∀ id cond bid body orElse, Q body → Q (elseOf orElse) →
      P (.while id cond ⟨bid, body⟩ orElse))
    (for_ : ∀ id var seq bid body, Q body → P (.for id var seq ⟨bid, body⟩))
    (if_ : ∀ id cond bid body orElse, Q body → Q (elseOf orElse) →
      P (.if id cond ⟨bid, body⟩ orElse))
    (try_ : ∀ id bid body catches, Q body → R catches → P (.try id ⟨bid, body⟩ catches))
    (nil : Q []) (cons : ∀ s rest, P s → Q rest → Q (s :: rest))
    (noCatch : R []) (catch_ : ∀ id param bid body rest, Q body → R rest →
      R (⟨id, param, ⟨bid, body⟩⟩ :: rest)) :
    (∀ s, P s) ∧ (∀ ss, Q ss) ∧ ∀ cs, R cs := by
  have h := @Stmt.exprs.mutual_induct P R Q simple jump block
    (fun id cond bid body hbody => while_ id cond bid body none hbody nil)
    (fun id cond bid body eid orElse hbody helse =>
      while_ id cond bid body (some ⟨eid, orElse⟩) hbody helse)
    for_
    (fun id cond bid body hbody => if_ id cond bid body none hbody nil)
    (fun id cond bid body eid orElse hbody helse =>
      if_ id cond bid body (some ⟨eid, orElse⟩) hbody helse)
    try_ noCatch catch_ nil cons
  exact ⟨h.1, h.2.2, h.2.1⟩

/-! ## Statements -/

mutual

/-- The statements nested in a statement, at any depth. -/
def Stmt.inner : Stmt → List Stmt
  | .simple _ _ | .jump _ _ => []
  | .block _ ⟨_, body⟩ => stmtsOf body
  | .while _ _ ⟨_, body⟩ none => stmtsOf body
  | .while _ _ ⟨_, body⟩ (some ⟨_, orElse⟩) => stmtsOf body ++ stmtsOf orElse
  | .for _ _ _ ⟨_, body⟩ => stmtsOf body
  | .if _ _ ⟨_, body⟩ none => stmtsOf body
  | .if _ _ ⟨_, body⟩ (some ⟨_, orElse⟩) => stmtsOf body ++ stmtsOf orElse
  | .try _ ⟨_, body⟩ catches => stmtsOf body ++ stmtsOfCatches catches

/-- The statements of a sequence, at any depth. -/
def stmtsOf : List Stmt → List Stmt
  | [] => []
  | s :: rest => s :: (s.inner ++ stmtsOf rest)

def stmtsOfCatches : List Catch → List Stmt
  | [] => []
  | ⟨_, _, ⟨_, body⟩⟩ :: rest => stmtsOf body ++ stmtsOfCatches rest

end

/-- The statements of a block, at any depth. -/
def Block.allStmts (b : Block) : List Stmt := stmtsOf b.stmts

@[simp] theorem inner_while (id : TreeId) (cond : Expr) (bid : TreeId) (body : List Stmt)
    (orElse : Option Block) :
    (Stmt.while id cond ⟨bid, body⟩ orElse).inner = stmtsOf body ++ stmtsOf (elseOf orElse) := by
  rcases orElse with _ | ⟨_, _⟩ <;> simp [Stmt.inner, stmtsOf]

@[simp] theorem inner_if (id : TreeId) (cond : Expr) (bid : TreeId) (body : List Stmt)
    (orElse : Option Block) :
    (Stmt.if id cond ⟨bid, body⟩ orElse).inner = stmtsOf body ++ stmtsOf (elseOf orElse) := by
  rcases orElse with _ | ⟨_, _⟩ <;> simp [Stmt.inner, stmtsOf]

theorem exprs_while (id : TreeId) (cond : Expr) (bid : TreeId) (body : List Stmt)
    (orElse : Option Block) : (Stmt.while id cond ⟨bid, body⟩ orElse).exprs =
      cond.walk ++ exprsOf body ++ exprsOf (elseOf orElse) := by
  rcases orElse with _ | ⟨eid, orElse⟩ <;> simp [Stmt.exprs, exprsOf]

theorem exprs_if (id : TreeId) (cond : Expr) (bid : TreeId) (body : List Stmt)
    (orElse : Option Block) : (Stmt.if id cond ⟨bid, body⟩ orElse).exprs =
      cond.walk ++ exprsOf body ++ exprsOf (elseOf orElse) := by
  rcases orElse with _ | ⟨eid, orElse⟩ <;> simp [Stmt.exprs, exprsOf]

/-! ## Points -/

/-- The points that a statement itself shows in a flow graph, in the order in which it does. A
jump without a value, a block and a `try` show none. -/
def Stmt.ownPoints : Stmt → List Point
  | .simple id what => [.stmt (.simple id what)]
  | .jump id (.return (some e)) => [.stmt (.jump id (.return (some e)))]
  | .jump id (.throw (some e)) => [.stmt (.jump id (.throw (some e)))]
  | .jump _ _ | .block _ _ | .try _ _ _ => []
  | .while _ cond _ _ | .if _ cond _ _ => [.expr cond]
  | .for _ var seq _ => [.expr seq, .loopVar var]

/-- The points of a sequence of statements, at any depth. -/
def pointsOf (ss : List Stmt) : List Point := (stmtsOf ss).flatMap Stmt.ownPoints

def pointsOfCatches (cs : List Catch) : List Point := (stmtsOfCatches cs).flatMap Stmt.ownPoints

theorem pointsOf_cons (s : Stmt) (rest : List Stmt) :
    pointsOf (s :: rest) = pointsOf [s] ++ pointsOf rest := by
  simp [pointsOf, stmtsOf]

theorem pointsOf_single (s : Stmt) :
    pointsOf [s] = s.ownPoints ++ s.inner.flatMap Stmt.ownPoints := by
  simp [pointsOf, stmtsOf]

@[simp] theorem pointsOf_block (id bid : TreeId) (body : List Stmt) :
    pointsOf [.block id ⟨bid, body⟩] = pointsOf body :=
  pointsOf_single _

@[simp] theorem pointsOf_while (id : TreeId) (cond : Expr) (bid : TreeId) (body : List Stmt)
    (orElse : Option Block) : pointsOf [.while id cond ⟨bid, body⟩ orElse] =
      .expr cond :: (pointsOf body ++ pointsOf (elseOf orElse)) := by
  rw [pointsOf_single, inner_while, List.flatMap_append]
  rfl

@[simp] theorem pointsOf_for (id : TreeId) (var : LoopVar) (seq : Expr) (bid : TreeId)
    (body : List Stmt) : pointsOf [.for id var seq ⟨bid, body⟩] =
      .expr seq :: .loopVar var :: pointsOf body :=
  pointsOf_single _

@[simp] theorem pointsOf_if (id : TreeId) (cond : Expr) (bid : TreeId) (body : List Stmt)
    (orElse : Option Block) : pointsOf [.if id cond ⟨bid, body⟩ orElse] =
      .expr cond :: (pointsOf body ++ pointsOf (elseOf orElse)) := by
  rw [pointsOf_single, inner_if, List.flatMap_append]
  rfl

@[simp] theorem pointsOf_try (id bid : TreeId) (body : List Stmt) (catches : List Catch) :
    pointsOf [.try id ⟨bid, body⟩ catches] = pointsOf body ++ pointsOfCatches catches := by
  rw [pointsOf_single, Stmt.inner, List.flatMap_append]
  rfl

@[simp] theorem pointsOfCatches_cons (id : TreeId) (param : Option DeclId) (bid : TreeId)
    (body : List Stmt) (rest : List Catch) : pointsOfCatches (⟨id, param, ⟨bid, body⟩⟩ :: rest) =
      pointsOf body ++ pointsOfCatches rest :=
  List.flatMap_append

/-- Points of statements are known by tree numbers. -/
theorem key_of_mem_ownPoints {s : Stmt} {p : Point} (h : p ∈ s.ownPoints) :
    ∃ id, p.key = .tree id := by
  unfold Stmt.ownPoints at h
  split at h <;> simp only [List.mem_cons, List.not_mem_nil, or_false] at h
  next => exact ⟨_, congrArg Point.key h⟩
  next => exact ⟨_, congrArg Point.key h⟩
  next => exact ⟨_, congrArg Point.key h⟩
  next => exact ⟨_, congrArg Point.key h⟩
  next => exact ⟨_, congrArg Point.key h⟩
  next =>
    rcases h with rfl | rfl
    · exact ⟨_, rfl⟩
    · exact ⟨_, rfl⟩

theorem key_of_mem_pointsOf {ss : List Stmt} {p : Point} (h : p ∈ pointsOf ss) :
    ∃ id, p.key = .tree id := by
  obtain ⟨s, -, hp⟩ := List.mem_flatMap.mp h
  exact key_of_mem_ownPoints hp

/-- The control expressions and the loop variable of a statement, each with the statement. -/
def Stmt.controls : Stmt → List (TreeId × Stmt)
  | .while id cond body orElse => [(cond.id, .while id cond body orElse)]
  | .if id cond body orElse => [(cond.id, .if id cond body orElse)]
  | .for id var seq body => [(seq.id, .for id var seq body), (var.id, .for id var seq body)]
  | _ => []

/-- The number of a control expression or loop variable. -/
def Point.controlId? : Point → Option TreeId
  | .expr e => some e.id
  | .loopVar var => some var.id
  | _ => none

/-- A statement shows itself or its controls. -/
theorem ownPoints_cases {s : Stmt} {p : Point} (h : p ∈ s.ownPoints) :
    p = .stmt s ∨ ∃ id, p.controlId? = some id ∧ (id, s) ∈ s.controls := by
  unfold Stmt.ownPoints at h
  split at h <;> simp only [List.mem_cons, List.not_mem_nil, or_false] at h
  next => exact .inl h
  next => exact .inl h
  next => exact .inl h
  next =>
    subst h
    exact .inr ⟨_, rfl, List.mem_singleton_self _⟩
  next =>
    subst h
    exact .inr ⟨_, rfl, List.mem_singleton_self _⟩
  next =>
    right
    rcases h with rfl | rfl
    · exact ⟨_, rfl, List.mem_cons_self⟩
    · exact ⟨_, rfl, List.mem_cons_of_mem _ (List.mem_singleton_self _)⟩

theorem eq_of_stmt_mem_ownPoints {s t : Stmt} (h : Point.stmt s ∈ t.ownPoints) : s = t := by
  rcases ownPoints_cases h with heq | ⟨id, hid, -⟩
  · cases heq
    rfl
  · cases hid

/-- The control expressions and loop variables of a sequence of statements, at any depth. -/
def controlsOf (ss : List Stmt) : List (TreeId × Stmt) := (stmtsOf ss).flatMap Stmt.controls

def controlsOfCatches (cs : List Catch) : List (TreeId × Stmt) :=
  (stmtsOfCatches cs).flatMap Stmt.controls

/-! ## Numbers -/

/-- The numbers of an expression and of all expressions inside it. -/
def Expr.ids (e : Expr) : List TreeId := e.walk.map Expr.id

mutual

/-- The numbers of all nodes in a statement, its own first. -/
def Stmt.ids : Stmt → List TreeId
  | .simple id what => id :: what.exprs.map Expr.id
  | .jump id how => id :: how.exprs.map Expr.id
  | .block id ⟨bid, body⟩ => id :: bid :: idsOf body
  | .while id cond ⟨bid, body⟩ none => id :: (cond.ids ++ bid :: idsOf body)
  | .while id cond ⟨bid, body⟩ (some ⟨eid, orElse⟩) =>
      id :: (cond.ids ++ bid :: (idsOf body ++ eid :: idsOf orElse))
  | .for id var seq ⟨bid, body⟩ => id :: (seq.ids ++ var.id :: bid :: idsOf body)
  | .if id cond ⟨bid, body⟩ none => id :: (cond.ids ++ bid :: idsOf body)
  | .if id cond ⟨bid, body⟩ (some ⟨eid, orElse⟩) =>
      id :: (cond.ids ++ bid :: (idsOf body ++ eid :: idsOf orElse))
  | .try id ⟨bid, body⟩ catches => id :: bid :: (idsOf body ++ idsOfCatches catches)

/-- The numbers of all nodes in a sequence of statements. -/
def idsOf : List Stmt → List TreeId
  | [] => []
  | s :: rest => s.ids ++ idsOf rest

def idsOfCatches : List Catch → List TreeId
  | [] => []
  | ⟨id, _, ⟨bid, body⟩⟩ :: rest => id :: bid :: (idsOf body ++ idsOfCatches rest)

end

/-- The numbers of all nodes in a block, its own first. -/
def Block.ids (b : Block) : List TreeId := b.id :: idsOf b.stmts

/-- The numbers of a global and its initial value. -/
def Global.ids (v : Global) : List TreeId := v.id :: (v.init.map Expr.ids).getD []

/-- The numbers of all nodes in a module. -/
def Module.ids (m : Module) : List TreeId :=
  m.globals.flatMap Global.ids ++ (m.functions.flatMap fun f => f.body.ids) ++ m.body.ids

end ControlFlow

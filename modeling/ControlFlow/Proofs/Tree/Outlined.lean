import ControlFlow.Proofs.Tree.Numbered
import ControlFlow.Tree.Outline

/-! # Modules of outlines

An outline whose declarations are all there has a module. Its nodes are numbered from below with
the first numbers, as many as the outline has nodes, and whatever refers to a declaration agrees
with it.
-/

namespace ControlFlow

/-! ## The nodes of an outline, and the declarations that it looks up -/

mutual

/-- The number of nodes that an expression will have. -/
def ExprOutline.nodeCount : ExprOutline → Nat
  | .literal _ | .name _ | .unresolved _ => 1
  | .assign target source => target.nodeCount + source.nodeCount + 1
  | .call _ args | .callUnresolved _ args => countExprs args + 1
  | .operator _ operands => countExprs operands + 1

def countExprs : List ExprOutline → Nat
  | [] => 0
  | e :: rest => e.nodeCount + countExprs rest

end

def countExpr? (e : Option ExprOutline) : Nat := (e.map ExprOutline.nodeCount).getD 0

mutual

/-- The number of nodes that a statement will have. -/
def StmtOutline.nodeCount : StmtOutline → Nat
  | .expr e | .assert e => e.nodeCount + 1
  | .set _ value => value.nodeCount + 3
  | .declare _ value | .return value | .throw value => countExpr? value + 1
  | .break | .continue | .yield | .comment _ | .location _ => 1
  | .block body => countStmts body + 2
  | .if cond body none | .while cond body none => cond.nodeCount + countStmts body + 2
  | .if cond body (some orElse) | .while cond body (some orElse) =>
      cond.nodeCount + countStmts body + countStmts orElse + 3
  | .for _ seq body => seq.nodeCount + countStmts body + 3
  | .try body catches => countStmts body + countCatches catches + 2

def countStmts : List StmtOutline → Nat
  | [] => 0
  | s :: rest => s.nodeCount + countStmts rest

def countCatches : List (Option DeclId × List StmtOutline) → Nat
  | [] => 0
  | (_, body) :: rest => countStmts body + countCatches rest + 2

end

def countGlobals : List (DeclId × Option ExprOutline) → Nat
  | [] => 0
  | (_, init) :: rest => countExpr? init + 1 + countGlobals rest

def countFunctions : List (String × List DeclId × List StmtOutline) → Nat
  | [] => 0
  | (_, _, body) :: rest => countStmts body + 1 + countFunctions rest

mutual

/-- The declarations that an expression looks up. -/
def ExprOutline.cited : ExprOutline → List DeclId
  | .literal _ | .unresolved _ => []
  | .name d => [d]
  | .assign target source => target.cited ++ source.cited
  | .call d args => d :: citedByExprs args
  | .callUnresolved _ args => citedByExprs args
  | .operator _ operands => citedByExprs operands

def citedByExprs : List ExprOutline → List DeclId
  | [] => []
  | e :: rest => e.cited ++ citedByExprs rest

end

def citedByExpr? (e : Option ExprOutline) : List DeclId := (e.map ExprOutline.cited).getD []

mutual

/-- The declarations that a statement looks up. The parameter of a catch is not looked up. -/
def StmtOutline.cited : StmtOutline → List DeclId
  | .expr e | .assert e => e.cited
  | .set d value => d :: value.cited
  | .declare d init => d :: citedByExpr? init
  | .return value | .throw value => citedByExpr? value
  | .break | .continue | .yield | .comment _ | .location _ => []
  | .block body => citedByStmts body
  | .if cond body none | .while cond body none => cond.cited ++ citedByStmts body
  | .if cond body (some orElse) | .while cond body (some orElse) =>
      cond.cited ++ (citedByStmts body ++ citedByStmts orElse)
  | .for d seq body => d :: (seq.cited ++ citedByStmts body)
  | .try body catches => citedByStmts body ++ citedByCatches catches

def citedByStmts : List StmtOutline → List DeclId
  | [] => []
  | s :: rest => s.cited ++ citedByStmts rest

def citedByCatches : List (Option DeclId × List StmtOutline) → List DeclId
  | [] => []
  | (_, body) :: rest => citedByStmts body ++ citedByCatches rest

end

namespace ModuleOutline

/-- The number of nodes that a module will have. -/
def nodeCount (o : ModuleOutline) : Nat :=
  countGlobals o.globals + countFunctions o.functions + (countStmts o.body + 1)

/-- The declarations that a module looks up. The parameters of functions are not looked up. -/
def cited (o : ModuleOutline) : List DeclId :=
  (o.globals.flatMap fun g => g.1 :: citedByExpr? g.2) ++
    (o.functions.flatMap fun f => citedByStmts f.2.2) ++ citedByStmts o.body

end ModuleOutline

/-- Induction over outlines of statements, one case for each kind. -/
theorem outline_induction {P : StmtOutline → Prop} {Q : List StmtOutline → Prop}
    {R : List (Option DeclId × List StmtOutline) → Prop}
    (expr : ∀ e, P (.expr e)) (assert : ∀ e, P (.assert e)) (set : ∀ d value, P (.set d value))
    (declare : ∀ d init, P (.declare d init)) (return_ : ∀ value, P (.return value))
    (throw : ∀ value, P (.throw value)) (break_ : P .break) (continue_ : P .continue)
    (yield : P .yield) (comment : ∀ text, P (.comment text))
    (location : ∀ text, P (.location text)) (block : ∀ body, Q body → P (.block body))
    (if_ : ∀ cond body, Q body → P (.if cond body none))
    (while_ : ∀ cond body, Q body → P (.while cond body none))
    (ifElse : ∀ cond body orElse, Q body → Q orElse → P (.if cond body (some orElse)))
    (whileElse : ∀ cond body orElse, Q body → Q orElse → P (.while cond body (some orElse)))
    (for_ : ∀ d seq body, Q body → P (.for d seq body))
    (try_ : ∀ body catches, Q body → R catches → P (.try body catches))
    (nil : Q []) (cons : ∀ s rest, P s → Q rest → Q (s :: rest))
    (noCatch : R []) (catch_ : ∀ param body rest, Q body → R rest → R ((param, body) :: rest)) :
    (∀ s, P s) ∧ (∀ ss, Q ss) ∧ ∀ cs, R cs := by
  have h := @StmtOutline.nodeCount.mutual_induct P R Q expr assert set declare return_ throw break_
    continue_ yield comment location block if_ while_ ifElse whileElse for_ try_ nil cons noCatch
    catch_
  exact ⟨h.1, h.2.2, h.2.1⟩

/-! ## Numbering -/

/-- Numbering goes well, takes some numbers of nodes and none of declarations from its supply, and
numbers the nodes of its result from below. -/
def Assigns {α : Type} (decls : List Declaration) (nodes : α → List TreeNode) (lo count : Nat)
    (number : Supply → Option (α × Supply)) : Prop :=
  ∃ (a : α) (hi : Nat), (∀ free, number ⟨lo, free⟩ = some (a, ⟨hi, free⟩)) ∧ hi = lo + count ∧
    Numbered decls lo (nodes a) hi

section

variable {decls : List Declaration} {α β : Type} {nodes : α → List TreeNode} {node : β → TreeNode}
  {lo count : Nat}

theorem exists_decl {d : DeclId} (h : d < decls.length) : ∃ decl, decls[d]? = some decl :=
  ⟨_, List.getElem?_eq_getElem h⟩

/-- A node with nothing below it takes one number. -/
theorem assigns_leaf (b : β) {number : Supply → Option (β × Supply)}
    (hnumber : ∀ free, number ⟨lo, free⟩ = some (b, ⟨lo + 1, free⟩))
    (hparts : (node b).children = []) (hid : (node b).id = lo) (hcites : (node b).Cites decls) :
    Assigns decls (fun b => [node b]) lo 1 number :=
  ⟨b, lo + 1, hnumber, rfl, (Numbered.nil lo).node (hparts ▸ .refl _) hid hcites⟩

/-- A node is numbered right after what it is made of. -/
theorem Assigns.wrap {number : Supply → Option (α × Supply)}
    {whole : Supply → Option (β × Supply)} (h : Assigns decls nodes lo count number)
    (make : α → TreeId → β)
    (hwhole : ∀ s, whole s = (number s).bind fun (a, s) => some (make a s.node, s.takeNode.2))
    (hparts : ∀ a hi, (node (make a hi)).children = nodes a)
    (hid : ∀ a hi, (node (make a hi)).id = hi) (hcites : ∀ a hi, (node (make a hi)).Cites decls) :
    Assigns decls (fun b => [node b]) lo (count + 1) whole := by
  obtain ⟨a, hi, hnumber, hhi, hn⟩ := h
  refine ⟨make a hi, hi + 1, fun free => ?_, congrArg (· + 1) hhi, ?_⟩
  · rw [hwhole, hnumber]
    rfl
  · exact hn.node (hparts a hi ▸ .refl _) (hid a hi) (hcites a hi)

theorem assigns_number_expr :
    (∀ e : ExprOutline, ∀ lo, (∀ d ∈ e.cited, d < decls.length) →
      Assigns decls (fun e => [.expr e]) lo e.nodeCount (e.number decls)) ∧
    (∀ es, ∀ lo, (∀ d ∈ citedByExprs es, d < decls.length) →
      Assigns decls (List.map .expr) lo (countExprs es) (numberExprs decls es)) := by
  refine ExprOutline.nodeCount.mutual_induct _ _ ?literal ?name ?unresolved ?assign ?call
    ?callUnresolved ?operator ?nil ?cons
  case literal =>
    exact fun value lo _ =>
      assigns_leaf (.literal lo value) (fun _ => rfl) rfl rfl (TreeNode.cites_none rfl)
  case name =>
    intro d lo hcited
    obtain ⟨decl, hdecl⟩ := exists_decl (hcited d List.mem_cons_self)
    exact assigns_leaf (.name lo decl.name (some d))
      (fun free => by rw [ExprOutline.number, hdecl]; rfl) rfl rfl
      (TreeNode.cites_some rfl hdecl nofun)
  case unresolved =>
    exact fun name lo _ =>
      assigns_leaf (.name lo name none) (fun _ => rfl) rfl rfl (TreeNode.cites_none rfl)
  case assign =>
    intro target source ihtarget ihsource lo hcited
    obtain ⟨htarget, hsource⟩ := List.forall_mem_append.mp hcited
    obtain ⟨t, mid, ht, hmid, hnt⟩ := ihtarget lo htarget
    obtain ⟨s, hi, hs, hhi, hns⟩ := ihsource mid hsource
    refine ⟨.assign hi t s, hi + 1, by simp [ExprOutline.number, Supply.takeNode, ht, hs], ?_, ?_⟩
    · rw [ExprOutline.nodeCount]
      omega
    · exact (hnt.append hns).node (.refl _) rfl (TreeNode.cites_none rfl)
  case call =>
    intro d args ih lo hcited
    obtain ⟨hd, hargs⟩ := List.forall_mem_cons.mp hcited
    obtain ⟨decl, hdecl⟩ := exists_decl hd
    exact (ih lo hargs).wrap (fun es id => Expr.call id decl.name (some d) es)
      (fun s => by rw [ExprOutline.number, hdecl]; rfl) (fun _ _ => rfl) (fun _ _ => rfl)
      fun _ _ => TreeNode.cites_some rfl hdecl nofun
  case callUnresolved =>
    intro callee args ih lo hcited
    exact (ih lo hcited).wrap (fun es id => Expr.call id callee none es) (fun _ => rfl)
      (fun _ _ => rfl) (fun _ _ => rfl) fun _ _ => TreeNode.cites_none rfl
  case operator =>
    intro op operands ih lo hcited
    exact (ih lo hcited).wrap (fun es id => Expr.operator id op es) (fun _ => rfl)
      (fun _ _ => rfl) (fun _ _ => rfl) fun _ _ => TreeNode.cites_none rfl
  case nil => exact fun lo _ => ⟨_, _, fun _ => rfl, rfl, .nil lo⟩
  case cons =>
    intro e rest ihe ihrest lo hcited
    obtain ⟨he, hrest⟩ := List.forall_mem_append.mp hcited
    obtain ⟨e', mid, he', hmid, hne⟩ := ihe lo he
    obtain ⟨es, hi, hes, hhi, hns⟩ := ihrest mid hrest
    refine ⟨e' :: es, hi, by simp [numberExprs, he', hes], ?_, hne.append hns⟩
    rw [countExprs]
    omega

theorem assigns_numberExpr? (e : Option ExprOutline) (lo : Nat)
    (hcited : ∀ d ∈ citedByExpr? e, d < decls.length) :
    Assigns decls (fun e => e.toList.map .expr) lo (countExpr? e) (numberExpr? decls e) := by
  cases e with
  | none => exact ⟨none, lo, fun _ => rfl, rfl, .nil lo⟩
  | some e =>
      obtain ⟨e', hi, he, hhi, hn⟩ := assigns_number_expr.1 e lo hcited
      exact ⟨some e', hi, by simp [numberExpr?, he], hhi, hn⟩

/-- A block is numbered after its statements. -/
theorem Numbered.block {lo hi : Nat} {ss : List Stmt} (h : Numbered decls lo (ss.map .stmt) hi) :
    Numbered decls lo [.block ⟨hi, ss⟩] (hi + 1) :=
  h.node (.refl _) rfl (TreeNode.cites_none rfl)

/-- The body behind a condition, or behind the sequence of a loop, is numbered after it. -/
theorem exists_guarded {cond : ExprOutline} {body : List StmtOutline} (lo : Nat)
    (hbody : ∀ lo, (∀ d ∈ citedByStmts body, d < decls.length) →
      Assigns decls (List.map .stmt) lo (countStmts body) (numberStmts decls body))
    (hcited : ∀ d ∈ cond.cited, d < decls.length)
    (hcited' : ∀ d ∈ citedByStmts body, d < decls.length) :
    ∃ (c : Expr) (mid : Nat) (ss : List Stmt) (hi : Nat),
      (∀ free, cond.number decls ⟨lo, free⟩ = some (c, ⟨mid, free⟩)) ∧
      (∀ free, numberStmts decls body ⟨mid, free⟩ = some (ss, ⟨hi, free⟩)) ∧
      hi = lo + cond.nodeCount + countStmts body ∧
      Numbered decls lo [.expr c, .block ⟨hi, ss⟩] (hi + 1) := by
  obtain ⟨c, mid, hc, hmid, hnc⟩ := assigns_number_expr.1 cond lo hcited
  obtain ⟨ss, hi, hss, hhi, hn⟩ := hbody mid hcited'
  exact ⟨c, mid, ss, hi, hc, hss, hmid ▸ hhi, hnc.append hn.block⟩

theorem assigns_number_stmt :
    (∀ s : StmtOutline, ∀ lo, (∀ d ∈ s.cited, d < decls.length) →
      Assigns decls (fun s => [.stmt s]) lo s.nodeCount (s.number decls)) ∧
    (∀ ss, ∀ lo, (∀ d ∈ citedByStmts ss, d < decls.length) →
      Assigns decls (List.map .stmt) lo (countStmts ss) (numberStmts decls ss)) ∧
    (∀ cs, ∀ lo, (∀ d ∈ citedByCatches cs, d < decls.length) →
      Assigns decls (List.map .handler) lo (countCatches cs) (numberCatches decls cs)) := by
  refine outline_induction ?expr ?assert ?set ?declare ?return_ ?throw ?break_ ?continue_ ?yield
    ?comment ?location ?block ?if_ ?while_ ?ifElse ?whileElse ?for_ ?try_ ?nil ?cons ?noCatch
    ?catch_
  case expr =>
    intro e lo hcited
    exact (assigns_number_expr.1 e lo hcited).wrap (fun e id => Stmt.simple id (.expr e))
      (fun _ => rfl) (fun _ _ => rfl) (fun _ _ => rfl) fun _ _ => TreeNode.cites_none rfl
  case assert =>
    intro e lo hcited
    exact (assigns_number_expr.1 e lo hcited).wrap (fun e id => Stmt.simple id (.assert e))
      (fun _ => rfl) (fun _ _ => rfl) (fun _ _ => rfl) fun _ _ => TreeNode.cites_none rfl
  case set =>
    -- The value comes before the target.
    intro d value lo hcited
    obtain ⟨hd, hvalue⟩ := List.forall_mem_cons.mp hcited
    obtain ⟨decl, hdecl⟩ := exists_decl hd
    obtain ⟨e, hi, he, hhi, hn⟩ := assigns_number_expr.1 value lo hvalue
    have htarget : Numbered decls hi [.expr (.name hi decl.name (some d))] (hi + 1) :=
      (Numbered.nil hi).node (.refl _) rfl (TreeNode.cites_some rfl hdecl nofun)
    have hassign : Numbered decls lo
        [.expr (.assign (hi + 1) (.name hi decl.name (some d)) e)] (hi + 2) :=
      (hn.append htarget).node (.swap _ _ _) rfl (TreeNode.cites_none rfl)
    refine ⟨.simple (hi + 2) (.expr (.assign (hi + 1) (.name hi decl.name (some d)) e)), hi + 3,
      by simp [StmtOutline.number, numberSimple, Supply.takeNode, hdecl, he], ?_, ?_⟩
    · rw [StmtOutline.nodeCount]
      omega
    · exact hassign.node (.refl _) rfl (TreeNode.cites_none rfl)
  case declare =>
    intro d init lo hcited
    obtain ⟨hd, hinit⟩ := List.forall_mem_cons.mp hcited
    obtain ⟨decl, hdecl⟩ := exists_decl hd
    exact (assigns_numberExpr? init lo hinit).wrap
      (fun e id => Stmt.simple id (.declare ⟨d, decl.name, decl.ty, e⟩))
      (fun s => by rw [StmtOutline.number, hdecl]; rfl) (fun _ _ => rfl) (fun _ _ => rfl)
      fun _ _ => TreeNode.cites_some rfl hdecl (by simp)
  case return_ =>
    intro value lo hcited
    exact (assigns_numberExpr? value lo hcited).wrap (fun e id => Stmt.jump id (.return e))
      (fun _ => rfl) (fun _ _ => rfl) (fun _ _ => rfl) fun _ _ => TreeNode.cites_none rfl
  case throw =>
    intro value lo hcited
    exact (assigns_numberExpr? value lo hcited).wrap (fun e id => Stmt.jump id (.throw e))
      (fun _ => rfl) (fun _ _ => rfl) (fun _ _ => rfl) fun _ _ => TreeNode.cites_none rfl
  case break_ =>
    exact fun lo _ =>
      assigns_leaf (.jump lo .break) (fun _ => rfl) rfl rfl (TreeNode.cites_none rfl)
  case continue_ =>
    exact fun lo _ =>
      assigns_leaf (.jump lo .continue) (fun _ => rfl) rfl rfl (TreeNode.cites_none rfl)
  case yield =>
    exact fun lo _ =>
      assigns_leaf (.simple lo .yield) (fun _ => rfl) rfl rfl (TreeNode.cites_none rfl)
  case comment =>
    exact fun text lo _ =>
      assigns_leaf (.simple lo (.comment text)) (fun _ => rfl) rfl rfl (TreeNode.cites_none rfl)
  case location =>
    exact fun text lo _ =>
      assigns_leaf (.simple lo (.location text)) (fun _ => rfl) rfl rfl (TreeNode.cites_none rfl)
  case block =>
    intro body ih lo hcited
    obtain ⟨ss, mid, hss, hmid, hn⟩ := ih lo hcited
    refine ⟨.block (mid + 1) ⟨mid, ss⟩, mid + 2,
      by simp [StmtOutline.number, Supply.takeNode, hss], ?_, ?_⟩
    · rw [StmtOutline.nodeCount]
      omega
    · exact hn.block.node (.refl _) rfl (TreeNode.cites_none rfl)
  case if_ =>
    intro cond body ihbody lo hcited
    obtain ⟨hcond, hbody⟩ := List.forall_mem_append.mp hcited
    obtain ⟨c, mid, ss, hi, hc, hss, hhi, hn⟩ := exists_guarded lo ihbody hcond hbody
    refine ⟨.if (hi + 1) c ⟨hi, ss⟩ none, hi + 2,
      by simp [StmtOutline.number, Supply.takeNode, hc, hss], ?_, ?_⟩
    · rw [StmtOutline.nodeCount]
      omega
    · exact hn.node (.refl _) rfl (TreeNode.cites_none rfl)
  case while_ =>
    intro cond body ihbody lo hcited
    obtain ⟨hcond, hbody⟩ := List.forall_mem_append.mp hcited
    obtain ⟨c, mid, ss, hi, hc, hss, hhi, hn⟩ := exists_guarded lo ihbody hcond hbody
    refine ⟨.while (hi + 1) c ⟨hi, ss⟩ none, hi + 2,
      by simp [StmtOutline.number, Supply.takeNode, hc, hss], ?_, ?_⟩
    · rw [StmtOutline.nodeCount]
      omega
    · exact hn.node (.refl _) rfl (TreeNode.cites_none rfl)
  case ifElse =>
    intro cond body orElse ihbody ihelse lo hcited
    obtain ⟨hcond, hbodies⟩ := List.forall_mem_append.mp hcited
    obtain ⟨hbody, helse⟩ := List.forall_mem_append.mp hbodies
    obtain ⟨c, mid, ss, mid', hc, hss, hmid', hn⟩ := exists_guarded lo ihbody hcond hbody
    obtain ⟨es, hi, hes, hhi, hne⟩ := ihelse (mid' + 1) helse
    refine ⟨.if (hi + 1) c ⟨mid', ss⟩ (some ⟨hi, es⟩), hi + 2,
      by simp [StmtOutline.number, Supply.takeNode, hc, hss, hes], ?_, ?_⟩
    · rw [StmtOutline.nodeCount]
      omega
    · exact (hn.append hne.block).node (.refl _) rfl (TreeNode.cites_none rfl)
  case whileElse =>
    intro cond body orElse ihbody ihelse lo hcited
    obtain ⟨hcond, hbodies⟩ := List.forall_mem_append.mp hcited
    obtain ⟨hbody, helse⟩ := List.forall_mem_append.mp hbodies
    obtain ⟨c, mid, ss, mid', hc, hss, hmid', hn⟩ := exists_guarded lo ihbody hcond hbody
    obtain ⟨es, hi, hes, hhi, hne⟩ := ihelse (mid' + 1) helse
    refine ⟨.while (hi + 1) c ⟨mid', ss⟩ (some ⟨hi, es⟩), hi + 2,
      by simp [StmtOutline.number, Supply.takeNode, hc, hss, hes], ?_, ?_⟩
    · rw [StmtOutline.nodeCount]
      omega
    · exact (hn.append hne.block).node (.refl _) rfl (TreeNode.cites_none rfl)
  case for_ =>
    -- The loop variable comes after the body.
    intro d seq body ihbody lo hcited
    obtain ⟨hd, hparts⟩ := List.forall_mem_cons.mp hcited
    obtain ⟨hseq, hbody⟩ := List.forall_mem_append.mp hparts
    obtain ⟨decl, hdecl⟩ := exists_decl hd
    obtain ⟨e, mid, ss, hi, he, hss, hhi, hn⟩ := exists_guarded lo ihbody hseq hbody
    have hvar : Numbered decls (hi + 1) [.loopVar ⟨hi + 1, d, decl.name, decl.ty⟩] (hi + 2) :=
      (Numbered.nil _).node (.refl _) rfl (TreeNode.cites_some rfl hdecl (by simp))
    refine ⟨.for (hi + 2) ⟨hi + 1, d, decl.name, decl.ty⟩ e ⟨hi, ss⟩, hi + 3,
      by simp [StmtOutline.number, Supply.takeNode, hdecl, he, hss], ?_, ?_⟩
    · rw [StmtOutline.nodeCount]
      omega
    · exact (hn.append hvar).node (.cons _ (.swap _ _ _)) rfl (TreeNode.cites_none rfl)
  case try_ =>
    intro body catches ihbody ihcatches lo hcited
    obtain ⟨hbody, hcatches⟩ := List.forall_mem_append.mp hcited
    obtain ⟨ss, mid, hss, hmid, hn⟩ := ihbody lo hbody
    obtain ⟨cs, hi, hcs, hhi, hnc⟩ := ihcatches (mid + 1) hcatches
    refine ⟨.try hi ⟨mid, ss⟩ cs, hi + 1,
      by simp [StmtOutline.number, Supply.takeNode, hss, hcs], ?_, ?_⟩
    · rw [StmtOutline.nodeCount]
      omega
    · exact (hn.block.append hnc).node (.refl _) rfl (TreeNode.cites_none rfl)
  case nil => exact fun lo _ => ⟨_, _, fun _ => rfl, rfl, .nil lo⟩
  case cons =>
    intro s rest ihs ihrest lo hcited
    obtain ⟨hs, hrest⟩ := List.forall_mem_append.mp hcited
    obtain ⟨s', mid, hs', hmid, hns⟩ := ihs lo hs
    obtain ⟨ss, hi, hss, hhi, hnss⟩ := ihrest mid hrest
    refine ⟨s' :: ss, hi, by simp [numberStmts, hs', hss], ?_, hns.append hnss⟩
    rw [countStmts]
    omega
  case noCatch => exact fun lo _ => ⟨_, _, fun _ => rfl, rfl, .nil lo⟩
  case catch_ =>
    intro param body rest ihbody ihrest lo hcited
    obtain ⟨hbody, hrest⟩ := List.forall_mem_append.mp hcited
    obtain ⟨ss, mid, hss, hmid, hn⟩ := ihbody lo hbody
    obtain ⟨cs, hi, hcs, hhi, hnc⟩ := ihrest (mid + 2) hrest
    have hcatch : Numbered decls lo [.handler ⟨mid + 1, param, ⟨mid, ss⟩⟩] (mid + 2) :=
      hn.block.node (.refl _) rfl (TreeNode.cites_none rfl)
    refine ⟨⟨mid + 1, param, ⟨mid, ss⟩⟩ :: cs, hi,
      by simp [numberCatches, Supply.takeNode, hss, hcs], ?_,
      hcatch.append hnc⟩
    rw [countCatches]
    omega

theorem assigns_numberBlock (body : List StmtOutline) (lo : Nat)
    (hcited : ∀ d ∈ citedByStmts body, d < decls.length) :
    Assigns decls (fun b => [.block b]) lo (countStmts body + 1) (numberBlock decls body) :=
  (assigns_number_stmt.2.1 body lo hcited).wrap (fun ss id => (⟨id, ss⟩ : Block)) (fun _ => rfl)
    (fun _ _ => rfl) (fun _ _ => rfl) fun _ _ => TreeNode.cites_none rfl

theorem assigns_numberGlobals (gs : List (DeclId × Option ExprOutline)) (lo : Nat)
    (hcited : ∀ d ∈ gs.flatMap fun g => g.1 :: citedByExpr? g.2, d < decls.length) :
    Assigns decls (List.map .global) lo (countGlobals gs) (numberGlobals decls gs) := by
  induction gs generalizing lo with
  | nil => exact ⟨_, _, fun _ => rfl, rfl, .nil lo⟩
  | cons g rest ih =>
      obtain ⟨d, init⟩ := g
      rw [List.flatMap_cons] at hcited
      obtain ⟨hg, hrest⟩ := List.forall_mem_append.mp hcited
      obtain ⟨hd, hinit⟩ := List.forall_mem_cons.mp hg
      obtain ⟨decl, hdecl⟩ := exists_decl hd
      obtain ⟨e, mid, he, hmid, hn⟩ := assigns_numberExpr? init lo hinit
      obtain ⟨vs, hi, hvs, hhi, hnvs⟩ := ih (mid + 1) hrest
      have hglobal : Numbered decls lo [.global ⟨mid, d, decl.name, decl.ty, e⟩] (mid + 1) :=
        hn.node (.refl _) rfl (TreeNode.cites_some rfl hdecl (by simp))
      refine ⟨⟨mid, d, decl.name, decl.ty, e⟩ :: vs, hi,
        by simp [numberGlobals, Supply.takeNode, hdecl, he, hvs], ?_, hglobal.append hnvs⟩
      rw [countGlobals]
      omega

theorem assigns_numberFunctions (fs : List (String × List DeclId × List StmtOutline)) (lo : Nat)
    (hcited : ∀ d ∈ fs.flatMap fun f => citedByStmts f.2.2, d < decls.length) :
    Assigns decls (List.map fun f => .block f.body) lo (countFunctions fs)
      (numberFunctions decls fs) := by
  induction fs generalizing lo with
  | nil => exact ⟨_, _, fun _ => rfl, rfl, .nil lo⟩
  | cons f rest ih =>
      obtain ⟨name, params, body⟩ := f
      rw [List.flatMap_cons] at hcited
      obtain ⟨hf, hrest⟩ := List.forall_mem_append.mp hcited
      obtain ⟨b, mid, hb, hmid, hn⟩ := assigns_numberBlock body lo hf
      obtain ⟨fs, hi, hfs, hhi, hnfs⟩ := ih mid hrest
      refine ⟨⟨name, params, b⟩ :: fs, hi, by simp [numberFunctions, hb, hfs], ?_, hn.append hnfs⟩
      rw [countFunctions]
      omega

end

/-! ## Modules -/

/-- The declarations of an outline take the numbers from the first free one up, in their order. -/
theorem numberDecls_eq (ds : List DeclOutline) (s : Supply) :
    numberDecls ds s =
      (ds.mapIdx fun i d => d.number (s.decl + i), ⟨s.node, s.decl + ds.length⟩) := by
  induction ds generalizing s with
  | nil => rfl
  | cons d rest ih => simp [numberDecls, Supply.takeDecl, ih, Nat.add_assoc, Nat.add_comm 1]

theorem DeclOutline.id_number (o : DeclOutline) (d : DeclId) : (o.number d).id = d := by
  cases o <;> rfl

/-- The nodes and the declarations of a module are numbered as they should be. -/
structure Module.WellNumbered (m : Module) (count : Nat) : Prop where
  /-- No two nodes have one number. -/
  distinct : m.ids.Nodup
  /-- The numbers in use are those below the count. -/
  initial : ∀ id, (∃ n : TreeNode, n.Within m.roots ∧ n.id = id) ↔ id < count
  /-- A node has a greater number than all that is below it. -/
  ascending : ∀ n k : TreeNode, n.Within m.roots → k.Below n → k.id < n.id
  /-- A declaration has its position as its number. -/
  positions : ∀ (i : Nat) (decl : Declaration), m.decls[i]? = some decl → decl.id = i
  /-- Whatever refers to a declaration refers to one that is there, and says of it what is so. -/
  cites : ∀ n : TreeNode, n.Within m.roots → n.Cites m.decls

theorem Numbered.wellNumbered {m : Module} {count : Nat} (h : Numbered m.decls 0 m.roots count)
    (hpositions : ∀ (i : Nat) (decl : Declaration), m.decls[i]? = some decl → decl.id = i) :
    m.WellNumbered count := by
  obtain ⟨k, rfl, hperm⟩ := h.perm_range'
  rw [← m.ids_eq_flatMap_roots] at hperm
  refine ⟨hperm.nodup_iff.mpr List.nodup_range', fun id => ?_, fun n k hn hk => ?_, hpositions,
    fun n hn => ?_⟩
  · rw [← m.mem_ids_iff, hperm.mem_iff, List.mem_range'_1]
    exact and_iff_right (Nat.zero_le id)
  · obtain ⟨first, hfirst⟩ := h.of_within hn
    obtain ⟨-, -, hlt⟩ := hfirst.of_below hk
    exact hlt
  · obtain ⟨first, hfirst⟩ := h.of_within hn
    exact hfirst.cites

/-- An outline whose declarations are all there has a module, which is numbered as it should be. No
number is as great as the count of nodes, so that all fit 32 bits where the count does. -/
theorem ModuleOutline.number_wellNumbered {o : ModuleOutline}
    (h : ∀ d ∈ o.cited, d < o.decls.length) :
    ∃ m, o.number = some m ∧ m.WellNumbered o.nodeCount := by
  let decls := o.decls.mapIdx fun i d => d.number (0 + i)
  have hdecls : numberDecls o.decls .fresh = (decls, ⟨0, 0 + o.decls.length⟩) :=
    numberDecls_eq o.decls .fresh
  have hlength : o.decls.length = decls.length := List.length_mapIdx.symm
  rw [hlength] at h
  obtain ⟨hparts, hbody⟩ := List.forall_mem_append.mp h
  obtain ⟨hglobals, hfunctions⟩ := List.forall_mem_append.mp hparts
  obtain ⟨vs, mid, hvs, hmid, hnvs⟩ := assigns_numberGlobals o.globals 0 hglobals
  obtain ⟨fs, mid', hfs, hmid', hnfs⟩ := assigns_numberFunctions o.functions mid hfunctions
  obtain ⟨b, hi, hb, hhi, hnb⟩ := assigns_numberBlock o.body mid' hbody
  refine ⟨⟨o.name, decls, vs, b, fs⟩, by simp [ModuleOutline.number, hdecls, hvs, hfs, hb], ?_⟩
  have hcount : hi = o.nodeCount := by
    rw [ModuleOutline.nodeCount]
    omega
  refine hcount ▸ Numbered.wellNumbered ((hnvs.append hnfs).append hnb) fun i decl hdecl => ?_
  rw [List.getElem?_mapIdx, Option.map_eq_some_iff] at hdecl
  obtain ⟨d, -, rfl⟩ := hdecl
  exact (d.id_number _).trans (Nat.zero_add i)

/-- A global with an initial value, a function that loops and catches, and a body that calls it. -/
def ModuleOutline.nested : ModuleOutline where
  name := "m"
  decls := [.global "total" .int false, .parameter "text" .read .string false,
    .local "part" .int false, .function "sum" [.read] true]
  globals := [(0, some (.literal (.int 0)))]
  functions := [("sum", [1],
    [.for 2 (.name 1) [.set 0 (.operator "+" [.name 0, .name 2])],
      .try [.if (.name 0) [.throw none] (some [.yield])] [(none, [.return (some (.name 0))])]])]
  body := [.declare 2 none, .while (.name 0) [.expr (.call 3 [.name 2]), .break] (some [])]

theorem ModuleOutline.number_wellNumbered_nested :
    (∀ d ∈ nested.cited, d < nested.decls.length) ∧
      ∃ m, nested.number = some m ∧ m.WellNumbered 35 :=
  ⟨by decide, number_wellNumbered (by decide : ∀ d ∈ nested.cited, d < nested.decls.length)⟩

end ControlFlow

import ControlFlow.Proofs.Analysis.Shared
import ControlFlow.Proofs.Reaching.Observed

/-! # Stores that nobody sees

A store goes to a variable as a whole or to a part of it, such as the place that an iterator stands
at. It is seen where the variable, or one that it shares storage with, is named, and where control
leaves the body if other code may read the variable itself. It makes no difference there whether the
variable shares storage with a global.
-/

namespace ControlFlow

open Reaching Search

namespace Point

def isYield : Point → Bool
  | .stmt (.simple _ .yield) => true
  | _ => false

/-- Control leaves the body at a point: at the end, for a while, or for a call. -/
def Leaves (p : Point) : Prop :=
  p.isEnd = true ∨ p.isYield = true ∨ ∃ s ∈ p.exprs, s.isCall = true

end Point

namespace Graph

variable {g : Graph}

/-! ## Calls and yields -/

theorem escapes_evaluation? (e : Option Expr) :
    (g.evaluation? e).escapes = (e.toList.flatMap Expr.walk).any Expr.isCall := by
  cases e <;> simp [evaluation?, evaluation, Effect.none]

theorem any_isCall_of_named {target : Expr} {d : DeclId} (h : target.named? = some d) :
    target.walk.any Expr.isCall = false := by
  obtain ⟨id, name, rfl⟩ := eq_name_of_named h
  simp [Expr.walk, Expr.isCall]

theorem escapes_store (target : Expr) :
    (g.store target).escapes = target.walk.any Expr.isCall := by
  cases hnamed : target.named? with
  | some d =>
      rw [store_of_named hnamed, any_isCall_of_named hnamed]
      rfl
  | none =>
      rw [store_of_unnamed hnamed]
      cases target.base? <;>
        simp [Effect.and, Effect.define, Effect.keepIf, Effect.none, evaluation]

theorem escapes_exprStmt (e : Expr) : (g.exprStmt e).escapes = e.walk.any Expr.isCall := by
  cases e with
  | assign id target source =>
      simp [exprStmt, Effect.and, escapes_store, evaluation, Expr.walk, Expr.isCall]
  | _ => rfl

/-- Other code runs exactly at calls and yields. -/
theorem escapes_pointEffect (p : Point) :
    (g.pointEffect p).escapes = (p.exprs.any Expr.isCall || p.isYield) := by
  have hdeclaration (d : DeclId) (ty : Ty) (init : Option Expr) :
      (g.declaration d ty init).escapes = (init.toList.flatMap Expr.walk).any Expr.isCall :=
    (Bool.false_or _).trans (escapes_evaluation? init)
  have hjump (value : Option Expr) : ((Effect.keepIf true).and (g.evaluation? value)).escapes =
      (value.toList.flatMap Expr.walk).any Expr.isCall :=
    (Bool.false_or _).trans (escapes_evaluation? value)
  cases p with
  | mark kind counter => rfl
  | expr e => exact (hjump (some e)).trans (Bool.or_false _).symm
  | loopVar var => rfl
  | global v => exact (hdeclaration v.decl v.ty v.init).trans (Bool.or_false _).symm
  | stmt s =>
      cases s with
      | simple id what =>
          cases what with
          | expr e =>
              refine (escapes_exprStmt e).trans ?_
              simp [Point.exprs, Point.roots, Point.isYield]
          | declare var =>
              exact (hdeclaration var.decl var.ty var.init).trans (Bool.or_false _).symm
          | assert e => exact (hjump (some e)).trans (Bool.or_false _).symm
          | _ => rfl
      | jump id how =>
          cases how with
          | «return» value => exact (hjump value).trans (Bool.or_false _).symm
          | throw value => exact (hjump value).trans (Bool.or_false _).symm
          | _ => rfl
      | _ => rfl

variable {p : Point} {target : Expr} {b : DeclId}

theorem exists_of_target? (h : p.target? = some target) :
    ∃ id aid source, p = .stmt (.simple id (.expr (.assign aid target source))) := by
  unfold Point.target? at h
  split at h
  next id aid _ source =>
    cases h
    exact ⟨id, aid, source, rfl⟩
  next => cases h

/-- A store to a variable need not stay for anything but a call. -/
theorem keep_of_store (htarget : p.target? = some target) (hbase : target.base? = some b) :
    (g.pointEffect p).keep = p.exprs.any Expr.isCall := by
  have hstore : (g.store target).keep = target.walk.any Expr.isCall := by
    cases hnamed : target.named? with
    | some d =>
        rw [store_of_named hnamed, any_isCall_of_named hnamed]
        rfl
    | none =>
        rw [store_of_unnamed hnamed, hbase]
        simp [Effect.and, Effect.define, Effect.none, evaluation]
  obtain ⟨id, aid, source, rfl⟩ := exists_of_target? htarget
  simp [pointEffect, stmtEffect, exprStmt, Effect.and, hstore, evaluation, Point.exprs,
    Point.roots, Expr.walk, Expr.isCall]

theorem own?_of_store (htarget : p.target? = some target) (hbase : target.base? = some b) :
    p.own? = some b := by
  obtain ⟨id, aid, source, rfl⟩ := exists_of_target? htarget
  exact hbase

/-- Without a call, a store defines its variable and stays only if that is external. -/
theorem effect_of_store (htarget : p.target? = some target) (hbase : target.base? = some b) :
    (g.effect p).keep = false ↔
      (∀ s ∈ p.exprs, s.isCall = false) ∧ g.isExternal b = false := by
  have hkeep := keep_of_store (g := g) htarget hbase
  have hcalls : (g.pointEffect p).keep = false ↔ ∀ s ∈ p.exprs, s.isCall = false := by
    simp [hkeep]
  rw [← hcalls]
  refine Bool.or_eq_false_iff.trans (and_congr_right fun hstays => ?_)
  simp only [List.any_eq_false, mem_defines_of_not_keep hstays, own?_of_store htarget hbase,
    Option.some.injEq, forall_eq', Bool.not_eq_true]

end Graph

namespace Analysis

variable {g : Graph} {a : Analysis} {b d : DeclId} {m n : NodeId} {q : Point}

/-! ## Seeing a store -/

/-- A point sees what is stored in a variable: it names the variable or one that shares storage
with it, or control leaves there and other code may read the variable. -/
def Sees (a : Analysis) (d : DeclId) (q : Point) : Prop :=
  q.Reads d ∨ (∃ u s, q.Reads u ∧ a.graph.IntroducesAt s u ∧ a.graph.Shares s d) ∨
    (a.isVisible d = true ∧ q.Leaves)

theorem looksAt_iff_sees (hone : a.graph.OneSite) (heffects : a.graph.effects = .ok a.effects)
    (hq : a.graph.nodes[m]? = some q) : a.LooksAt d m ↔ a.Sees d q := by
  obtain ⟨r, hr, hwide⟩ := Graph.exists_effect (Graph.classifies_effects heffects) hq
  have huses : d ∈ r.uses ↔
      q.Reads d ∨ ∃ u s, q.Reads u ∧ a.graph.IntroducesAt s u ∧ a.graph.Shares s d := by
    simp only [Graph.mem_uses_iff hone heffects hq hr, Graph.refers_iff hone heffects]
  have hescapes : r.escapes = true ↔ q.isYield = true ∨ ∃ s ∈ q.exprs, s.isCall = true := by
    have hpoint : (a.graph.effect q).escapes = (q.exprs.any Expr.isCall || q.isYield) :=
      Graph.escapes_pointEffect q
    rw [hwide.escapes, hpoint, Bool.or_eq_true, List.any_eq_true, or_comm]
  unfold LooksAt Sees Point.Leaves
  simp only [hr, hq, Option.some.injEq, exists_eq_left', huses, hescapes, or_assoc]
  rw [or_comm (a := q.isEnd = true), or_assoc]

/-- The analysis of a graph has the effects of the graph, and the definitions were followed. -/
theorem of_ofSolved (h : ofSolved g = .ok a) :
    a.graph = g ∧ g.effects = .ok a.effects ∧ a.Followed := by
  have hsolve : (ofGraph g).solve = (a, none) := by
    unfold ofSolved at h
    split at h
    next hsolve =>
      cases h
      exact hsolve
    next => cases h
  obtain ⟨hgraph, hfollowed⟩ := followed_of_solve hsolve
  have hgraph : a.graph = g := hgraph
  refine ⟨hgraph, ?_, hfollowed⟩
  cases heffects : g.effects with
  | error why =>
      rw [ofSolved_error heffects] at h
      cases h
  | ok effects =>
      rw [ofSolved_ok (hgraph ▸ hfollowed.inside) heffects] at h
      cases h
      rfl

/-- The unused nodes of a graph can be listed. A statement that stores to a variable, or to a part
of one, is among them exactly if there is no call in it, the variable is not marked as external, and
no flow path from there, past no other node that sets the variable, leads to a node that sees the
store. So it is not unused if such a path leads to a node that names the variable or one that its
node refers into, or out of the body while other code may read the variable itself. -/
theorem unused_store_iff (hone : g.OneSite) (hsolved : ofSolved g = .ok a) {p : Point}
    {target : Expr} (hp : g.nodes[n]? = some p) (htarget : p.target? = some target)
    (hbase : target.base? = some b) :
    ∃ found, a.unused = .ok found ∧
      (n ∈ found ↔ (∀ s ∈ p.exprs, s.isCall = false) ∧ g.isExternal b = false ∧
        ∀ m q, Path g.flows (fun l => l = n || !definesAt a.effects b l) n m →
          g.nodes[m]? = some q → ¬ a.Sees b q) ∧
      ∀ s v m q, g.IntroducesAt s b → Graph.Refers a.effects s v →
        Path g.flows (fun l => l = n || !definesAt a.effects b l) n m → g.nodes[m]? = some q →
        (q.Reads b ∨ q.Reads v ∨ (a.isVisible b = true ∧ q.Leaves)) → n ∉ found := by
  obtain ⟨rfl, heffects, hfollowed⟩ := of_ofSolved hsolved
  have hnodes : a.graph.nodes ≠ [] := List.ne_nil_of_mem (List.mem_of_getElem? hp)
  have hmark : p.isMark = false := by
    obtain ⟨id, aid, source, rfl⟩ := Graph.exists_of_target? htarget
    rfl
  obtain ⟨e, he, hwide⟩ := Graph.exists_effect (Graph.classifies_effects heffects) hp
  have hkeep : e.keep = false ↔
      (∀ s ∈ p.exprs, s.isCall = false) ∧ a.graph.isExternal b = false := by
    rw [hwide.keep]
    exact Graph.effect_of_store htarget hbase
  have hdefines (hstays : e.keep = false) (d : DeclId) : d ∈ e.defines ↔ b = d := by
    rw [hwide.keep] at hstays
    have hpoint : (a.graph.pointEffect p).keep = false := (Bool.or_eq_false_iff.mp hstays).1
    rw [hwide.defines, ← Option.some.injEq, ← Graph.own?_of_store htarget hbase]
    exact Ascending.mem_ofList.trans (Graph.mem_defines_of_not_keep hpoint)
  have hfound : n ∈ a.graph.select a.isUnused ↔ (∀ s ∈ p.exprs, s.isCall = false) ∧
      a.graph.isExternal b = false ∧
        ∀ m q, Path a.graph.flows (fun l => l = n || !definesAt a.effects b l) n m →
          a.graph.nodes[m]? = some q → ¬ a.Sees b q := by
    rw [Graph.mem_select, isUnused_iff hfollowed, ← and_assoc, ← hkeep]
    constructor
    · rintro ⟨-, e', he', hstays, hpaths⟩
      cases he.symm.trans he'
      refine ⟨hstays, fun m q hpath hq hsees => ?_⟩
      exact hpaths b ((hdefines hstays b).mpr rfl) m hpath
        ((looksAt_iff_sees hone heffects hq).mpr hsees)
    · rintro ⟨hstays, hpaths⟩
      refine ⟨⟨p, hp, hmark⟩, e, he, hstays, fun d hd m hpath hlooks => ?_⟩
      cases (hdefines hstays d).mp hd
      have hq := List.getElem?_eq_getElem (hfollowed.lt_of_path hpath)
      exact hpaths m _ hpath hq ((looksAt_iff_sees hone heffects hq).mp hlooks)
  refine ⟨_, unused_of_followed hfollowed hnodes, hfound, ?_⟩
  intro s v m q hs hrefers hpath hq hseen hunused
  refine (hfound.mp hunused).2.2 m q hpath hq ?_
  rcases hseen with hreads | hreads | hleaves
  · exact .inl hreads
  · obtain ⟨t, ht, hback⟩ := hrefers.symm hone heffects hs
    exact .inr (.inl ⟨v, t, hreads, ht, (Graph.refers_iff hone heffects).mp hback⟩)
  · exact .inr (.inr hleaves)

/-- A store to the place that an iterator stands at. -/
def lentStore : Stmt :=
  let target := Expr.operator 8 "*" [.name 7 "it" (some 1)]
  .simple 11 (.expr (.assign 10 target (.literal 9 (.int 5))))

/-- A reader of the global that the iterator stands in. -/
def lender (nameId id : TreeId) : Stmt := .jump id (.return (some (.name nameId "g" (some 0))))

/-- A call of the function that is nothing but such a reader. -/
def askLender : Stmt := .simple 13 (.expr (.call 12 "f" (some 2) []))

/-- A module with the store in front of some other statement. -/
def lending (next : Stmt) : Module :=
  let begin := Expr.operator 5 "begin" [.name 4 "g" (some 0)]
  ⟨"m", [⟨0, "g", .globalVariable, .other "vector<int>", false⟩,
      ⟨1, "it", .localVariable, .iterator .vector, false⟩, ⟨2, "f", .function [], .int, false⟩],
    [⟨0, 0, "g", .other "vector<int>", none⟩],
    ⟨14, [.simple 6 (.declare ⟨1, "it", .iterator .vector, some begin⟩), lentStore, next]⟩,
    [⟨"f", [], ⟨3, [lender 1 2]⟩⟩]⟩

/-- The effects in that module. -/
def lendingEffects (next : Effect) : Array Effect :=
  #[.none, .none, ⟨[], [0], [1], false, false⟩, ⟨[0, 1], [1], [0], false, false⟩,
    ⟨[0, 1], [1], [], false, false⟩, next]

/-- The global is read next, so the store through the iterator is not unused. -/
theorem unused_store_iff_lending :
    (Graph.ofModule (lending (lender 12 13))).OneSite ∧
    ofSolved (.ofModule (lending (lender 12 13))) = .ok (solved
      (.ofModule (lending (lender 12 13))) (lendingEffects ⟨[0, 1], [], [], true, false⟩)) ∧
    (Graph.ofModule (lending (lender 12 13))).nodes[4]? = some (.stmt lentStore) ∧
    ∃ target, (Point.stmt lentStore).target? = some target ∧ target.base? = some 1 ∧
      ∃ found, (solved (.ofModule (lending (lender 12 13)))
        (lendingEffects ⟨[0, 1], [], [], true, false⟩)).unused = .ok found ∧ 4 ∉ found := by
  have hone : (Graph.ofModule (lending (lender 12 13))).OneSite := by
    unfold Graph.OneSite
    decide
  have hinside : (Graph.ofModule (lending (lender 12 13))).FlowsInside := by
    unfold Graph.FlowsInside
    decide
  have heffects : (Graph.ofModule (lending (lender 12 13))).effects =
      .ok (lendingEffects ⟨[0, 1], [], [], true, false⟩) := by
    with_unfolding_all rfl
  have hsolved := ofSolved_ok hinside heffects
  have hnode : (Graph.ofModule (lending (lender 12 13))).nodes[4]? = some (.stmt lentStore) := rfl
  have hreads : (Point.stmt (lender 12 13)).Reads 0 := by
    refine ⟨.name 12 "g" (some 0), ?_, rfl⟩
    simp [Point.evaluated, Point.exprs, Point.roots, lender, Expr.walk]
  obtain ⟨found, hfound, -, hseen⟩ := unused_store_iff hone hsolved hnode rfl rfl
  refine ⟨hone, hsolved, hnode, _, rfl, rfl, found, hfound, ?_⟩
  exact hseen 3 0 5 (.stmt (lender 12 13)) ⟨_, rfl, rfl⟩ ⟨_, rfl, List.mem_cons_self⟩
    (.edge (by decide)) rfl (.inr (.inl hreads))

/-- A function that is called next reads the global, but the store through the iterator is
unused. -/
theorem unused_store_lent : (Graph.ofModule (lending askLender)).OneSite ∧
    ofSolved (.ofModule (lending askLender)) = .ok (solved (.ofModule (lending askLender))
      (lendingEffects ⟨[], [], [], true, true⟩)) ∧
    (Graph.ofModule (lending askLender)).nodes[4]? = some (.stmt lentStore) ∧
    (∃ target, (Point.stmt lentStore).target? = some target ∧ target.named? = none ∧
      target.base? = some 1) ∧
    (Graph.ofModule (lending askLender)).IntroducesAt 3 1 ∧
    Graph.Refers (lendingEffects ⟨[], [], [], true, true⟩) 3 0 ∧
    ((Graph.ofModule (lending askLender)).decl? 0).any Declaration.isGlobal = true ∧
    Path (Graph.ofModule (lending askLender)).flows
      (fun l => l = 4 || !definesAt (lendingEffects ⟨[], [], [], true, true⟩) 1 l) 4 5 ∧
    (Graph.ofModule (lending askLender)).nodes[5]? = some (.stmt askLender) ∧
    (Point.stmt askLender).Leaves ∧
    (solved (.ofModule (lending askLender)) (lendingEffects ⟨[], [], [], true, true⟩)).unused =
      .ok [4] := by
  have hone : (Graph.ofModule (lending askLender)).OneSite := by
    unfold Graph.OneSite
    decide
  have hinside : (Graph.ofModule (lending askLender)).FlowsInside := by
    unfold Graph.FlowsInside
    decide
  have heffects : (Graph.ofModule (lending askLender)).effects =
      .ok (lendingEffects ⟨[], [], [], true, true⟩) := by
    with_unfolding_all rfl
  refine ⟨hone, ofSolved_ok hinside heffects, rfl, ⟨_, rfl, rfl, rfl⟩, ⟨_, rfl, rfl⟩,
    ⟨_, rfl, List.mem_cons_self⟩, ?_, .edge ?_, rfl, .inr (.inr ⟨_, List.mem_cons_self, rfl⟩), ?_⟩
  · decide
  · decide
  · cbv

end Analysis

end ControlFlow

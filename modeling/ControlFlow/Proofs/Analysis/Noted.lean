import ControlFlow.Proofs.Analysis.Recorded
import ControlFlow.Proofs.Pruning.Doomed
import Mathlib

/-! # What effects note

The effect of a point notes the calls and the names at any depth of its expressions, and the store
that the point makes by itself. It does not look for stores inside a value that a variable is given:
what is assigned there is neither defined by the effect nor a reason to stay.
-/

namespace ControlFlow

/-! ## Expressions at a point -/

namespace Point

/-- The expressions that stand at a point. What has statements nested in it has no expressions of
its own: its condition or sequence is another point. -/
def roots : Point → List Expr
  | .stmt (.simple _ (.expr e)) | .stmt (.simple _ (.assert e)) | .expr e => [e]
  | .stmt (.simple _ (.declare var)) => var.init.toList
  | .stmt (.jump _ (.return value)) | .stmt (.jump _ (.throw value)) => value.toList
  | .global v => v.init.toList
  | .stmt _ | .loopVar _ | .mark _ _ => []

/-- The expressions at a point, at any depth. -/
def exprs (p : Point) : List Expr := p.roots.flatMap Expr.walk

/-- The target of an assignment that is a whole statement. -/
def target? : Point → Option Expr
  | .stmt (.simple _ (.expr (.assign _ target _))) => some target
  | _ => none

/-- The expressions at a point but for a plain name that is the target of its assignment. -/
def evaluated : Point → List Expr
  | .stmt (.simple _ (.expr (.assign _ (.name _ _ (some _)) source))) => source.walk
  | p => p.exprs

/-- The variable that a point sets by itself: the one that it introduces, or the one that its
assignment stores to in the end. -/
def own? (p : Point) : Option DeclId := p.declared?.or (p.target?.bind Expr.base?)

/-- An assignment at a point is buried if it stands inside the value that a variable is given there,
or in a statement for nothing but a value that names no variable. -/
inductive Buries (p : Point) : Expr → Prop where
  | inValue {s : Expr} : p.declared?.isSome = true ∨ p.target?.isSome = true →
      s ∈ p.operands.flatMap Expr.walk → p.Buries s
  | nameless {id : TreeId} {root s : Expr} : p = .stmt (.simple id (.expr root)) →
      p.target? = none → (∀ t ∈ root.walk, t.named? = none) → s ∈ root.walk → p.Buries s

end Point

/-! ## Notes -/

/-- An effect notes what is read, updated and called in some expressions, beside the definition of
some variables. -/
structure Effect.Notes (g : Graph) (e : Effect) (own : List DeclId) (exprs : List Expr) :
    Prop where
  uses : ∀ d, d ∈ e.uses ↔ ∃ s ∈ exprs, s.named? = some d
  defines : ∀ d, d ∈ e.defines ↔ d ∈ own ∨ ∃ s ∈ exprs, d ∈ g.updates s
  calls : (∃ s ∈ exprs, s.isCall = true) → e.keep = true ∧ e.escapes = true

namespace Effect.Notes

variable {g : Graph} {a b : Effect} {own own' : List DeclId} {xs ys : List Expr}

theorem of_no_uses (huses : a.uses = []) : a.Notes g a.defines [] := by
  constructor
  · simp [huses]
  · simp
  · simp

theorem and (ha : a.Notes g own xs) (hb : b.Notes g own' ys) :
    (a.and b).Notes g (own ++ own') (xs ++ ys) := by
  have hsplit {P : Expr → Prop} :
      (∃ s ∈ xs ++ ys, P s) ↔ (∃ s ∈ xs, P s) ∨ ∃ s ∈ ys, P s := by
    simp only [List.mem_append, or_and_right, exists_or]
  constructor
  · intro d
    rw [hsplit, ← ha.uses, ← hb.uses]
    exact List.mem_append
  · intro d
    rw [hsplit, List.mem_append, or_or_or_comm, ← ha.defines, ← hb.defines]
    exact List.mem_append
  · intro hcall
    simp only [Effect.and, Bool.or_eq_true]
    rcases hsplit.mp hcall with hcall | hcall
    · exact (ha.calls hcall).imp .inl .inl
    · exact (hb.calls hcall).imp .inr .inr

theorem keepIf_and (h : a.Notes g own xs) (keep : Bool) :
    ((Effect.keepIf keep).and a).Notes g own xs := by
  have hkeep : (Effect.keepIf keep).Notes g [] [] := of_no_uses rfl
  exact hkeep.and h

/-- An assignment is not noted for itself. -/
theorem cons_assign (h : a.Notes g own xs) (id : TreeId) (target source : Expr) :
    a.Notes g own (.assign id target source :: xs) := by
  obtain ⟨huses, hdefines, hcalls⟩ := h
  constructor
  · simpa [Expr.named?] using huses
  · simpa [Graph.updates] using hdefines
  · simpa [Expr.isCall] using hcalls

end Effect.Notes

namespace Graph

variable {g : Graph} {p : Point} {s : Expr} {d : DeclId}

theorem evaluation_notes (e : Expr) (pins : Bool) : (g.evaluation e pins).Notes g [] e.walk := by
  constructor
  · intro d
    exact List.mem_filterMap
  · intro d
    simp only [evaluation, List.mem_flatMap, List.not_mem_nil, false_or]
  · intro hcall
    have hany : e.walk.any Expr.isCall = true := List.any_eq_true.mpr hcall
    simp [evaluation, hany]

theorem root_notes (e : Expr) (pins : Bool) :
    (g.evaluation e pins).Notes g [] ([e].flatMap Expr.walk) := by
  rw [List.flatMap_singleton]
  exact evaluation_notes e pins

theorem evaluation?_notes (e : Option Expr) :
    (g.evaluation? e).Notes g [] (e.toList.flatMap Expr.walk) := by
  cases e with
  | none => exact .of_no_uses rfl
  | some e => exact root_notes e false

theorem declaration_notes (d : DeclId) (ty : Ty) (init : Option Expr) :
    (g.declaration d ty init).Notes g [d] (init.toList.flatMap Expr.walk) := by
  have hown (aliases : List DeclId) (keep : Bool) :
      (Effect.mk [] [d] aliases keep false).Notes g [d] [] :=
    .of_no_uses rfl
  exact (hown _ _).and (evaluation?_notes init)

/-- A store notes the variable that it goes to, and what is evaluated to find the place in it. -/
theorem store_notes (target : Expr) : (g.store target).Notes g target.base?.toList
    (if target.named?.isSome then [] else target.walk) := by
  cases hnamed : target.named? with
  | some d =>
      rw [store_of_named hnamed, base?_of_named hnamed]
      exact .of_no_uses rfl
  | none =>
      rw [store_of_unnamed hnamed]
      cases target.base? with
      | some base =>
          have hown : (Effect.define base).Notes g [base] [] := .of_no_uses rfl
          exact hown.and (evaluation_notes target false)
      | none => exact (evaluation_notes target false).keepIf_and true

/-- Of an assignment, all but a plain target is evaluated. -/
theorem assign_notes (id aid : TreeId) (target source : Expr) :
    (g.exprStmt (.assign aid target source)).Notes g target.base?.toList
      (Point.stmt (.simple id (.expr (.assign aid target source)))).evaluated := by
  have hnotes := (store_notes (g := g) target).and (evaluation_notes source false)
  rw [List.append_nil] at hnotes
  unfold Point.evaluated
  split
  next hplain =>
    cases hplain
    exact hnotes
  next hcompound =>
    -- Where the target is no plain name, it is evaluated as well.
    have hunnamed : target.named? = none := by
      cases target with
      | name nid name decl =>
          cases decl with
          | none => rfl
          | some d => exact absurd rfl (hcompound id aid nid name d source)
      | _ => rfl
    rw [hunnamed] at hnotes
    have hexprs : (Point.stmt (.simple id (.expr (.assign aid target source)))).exprs =
        .assign aid target source :: (target.walk ++ source.walk) := List.append_nil _
    rw [hexprs]
    exact hnotes.cons_assign aid target source

/-- What is evaluated at a point is noted, and so is the variable that the point sets by itself. -/
theorem pointEffect_notes (p : Point) :
    (g.pointEffect p).Notes g p.own?.toList p.evaluated := by
  cases p with
  | mark kind counter => exact .of_no_uses rfl
  | expr e => exact (root_notes e false).keepIf_and true
  | loopVar var => exact declaration_notes var.decl var.ty none
  | global v => exact declaration_notes v.decl v.ty v.init
  | stmt s =>
      cases s with
      | simple id what =>
          cases what with
          | expr e =>
              cases e with
              | assign aid target source => exact assign_notes id aid target source
              | call cid callee function args => exact root_notes _ false
              | _ => exact root_notes _ true
          | declare var => exact declaration_notes var.decl var.ty var.init
          | assert e => exact (root_notes e true).keepIf_and true
          | _ => exact .of_no_uses rfl
      | jump id how =>
          cases how with
          | «return» value => exact (evaluation?_notes value).keepIf_and true
          | throw value => exact (evaluation?_notes value).keepIf_and true
          | _ => exact .of_no_uses rfl
      | _ => exact .of_no_uses rfl

/-! ## Calls -/

theorem isCall_of_mem_updates (h : d ∈ g.updates s) : s.isCall = true := by
  cases s with
  | call id callee function args => rfl
  | _ => cases h

/-- A plain name that a call passes for update is updated. -/
theorem mem_updates {id : TreeId} {callee : String} {f : DeclId} {args : List Expr}
    {decl : Declaration} {params : List Passing} {arg : Expr} (hdecl : g.decl? f = some decl)
    (hkind : decl.kind = .function params) (hlength : params.length = args.length)
    (harg : (.update, arg) ∈ params.zip args) (hnamed : arg.named? = some d) :
    d ∈ g.updates (.call id callee (some f) args) := by
  unfold updates
  simp only [Option.bind_some, hdecl, Option.map_some, hkind, hlength, if_true]
  exact List.mem_filterMap.mpr ⟨_, harg, by simpa using hnamed⟩

/-- Calls stand only in what is evaluated. -/
theorem mem_evaluated_of_isCall (hs : s ∈ p.exprs) (hcall : s.isCall = true) :
    s ∈ p.evaluated := by
  unfold Point.evaluated
  split
  next id aid nid name d source =>
    simp only [Point.exprs, Point.roots, List.flatMap_singleton, Expr.walk, List.singleton_append,
      List.mem_cons] at hs
    rcases hs with rfl | rfl | hs
    · cases hcall
    · cases hcall
    · exact hs
  next => exact hs

/-- A point that need not stay defines what it sets by itself, and nothing else. -/
theorem mem_defines_of_not_keep (hkeep : (g.pointEffect p).keep = false) :
    d ∈ (g.pointEffect p).defines ↔ p.own? = some d := by
  have hnotes := pointEffect_notes (g := g) p
  rw [hnotes.defines, Option.mem_toList]
  refine ⟨fun h => h.resolve_right ?_, .inl⟩
  rintro ⟨s, hs, hd⟩
  have hstays := (hnotes.calls ⟨s, hs, isCall_of_mem_updates hd⟩).1
  rw [hkeep] at hstays
  cases hstays

/-! ## Assignments -/

/-- A point stays if its assignment stores to no variable. -/
theorem target_noted {target : Expr} (h : p.target? = some target) :
    (∃ d, target.base? = some d ∧ d ∈ (g.pointEffect p).defines) ∨
      (g.pointEffect p).keep = true := by
  cases hbase : target.base? with
  | some d =>
      have hown : p.own? = some d := by
        unfold Point.target? at h
        split at h
        next id aid t source =>
          cases h
          exact hbase
        next => cases h
      refine .inl ⟨d, rfl, ((pointEffect_notes p).defines d).mpr (.inl ?_)⟩
      exact Option.mem_toList.mpr hown
  | none =>
      have hnamed : target.named? = none := by
        cases target with
        | name id name decl => exact hbase
        | _ => rfl
      unfold Point.target? at h
      split at h
      next id aid t source =>
        cases h
        right
        simp [pointEffect, stmtEffect, exprStmt, store_of_unnamed hnamed, hbase, Effect.and,
          Effect.keepIf]
      next => cases h

/-- A statement for nothing but a value stays if it names a variable. -/
theorem keep_exprStmt_of_named {e : Expr} (hassign : e.isAssign = false) (hs : s ∈ e.walk)
    (hnamed : s.named? = some d) : (g.exprStmt e).keep = true := by
  have hreads : e.reads.isEmpty = false := by
    have hd : d ∈ e.reads := List.mem_filterMap.mpr ⟨s, hs, hnamed⟩
    cases h : e.reads with
    | nil =>
        rw [h] at hd
        cases hd
    | cons _ _ => rfl
  cases e with
  | assign id target source => cases hassign
  | call id callee function args => simp [exprStmt, evaluation, Expr.walk, Expr.isCall]
  | _ => simp [exprStmt, evaluation, hreads]

/-- An assignment in an expression statement is noted or makes the statement stay, unless it is
buried. -/
theorem assign_in_expr_noted {id sid : TreeId} {target source root : Expr}
    (hp : p = .stmt (.simple sid (.expr root))) (hs : .assign id target source ∈ root.walk) :
    (∃ d, target.base? = some d ∧ d ∈ (g.pointEffect p).defines) ∨
      (g.pointEffect p).keep = true ∨ p.Buries (.assign id target source) := by
  cases hassign : root.isAssign with
  | true =>
      cases root with
      | assign aid top value =>
          rcases List.mem_cons.mp hs with heq | hinside
          · cases heq
            exact (target_noted (by rw [hp]; rfl)).imp_right .inl
          · refine .inr (.inr (.inValue (.inr (by rw [hp]; rfl)) ?_))
            rw [hp]
            simpa [Point.operands] using hinside
      | _ => cases hassign
  | false =>
      by_cases hnamed : ∃ t ∈ root.walk, ∃ d, t.named? = some d
      · obtain ⟨t, ht, d, hd⟩ := hnamed
        rw [hp]
        exact .inr (.inl (keep_exprStmt_of_named hassign ht hd))
      · have htarget : p.target? = none := by
          rw [hp]
          cases root with
          | assign aid top value => cases hassign
          | _ => rfl
        refine .inr (.inr (.nameless hp htarget (fun t ht => ?_) hs))
        exact Option.eq_none_iff_forall_ne_some.mpr fun d hd => hnamed ⟨t, ht, d, hd⟩

/-- An assignment at a point is noted or makes the point stay, unless it is buried. -/
theorem assign_noted {id : TreeId} {target source : Expr}
    (hs : .assign id target source ∈ p.exprs) :
    (∃ d, target.base? = some d ∧ d ∈ (g.pointEffect p).defines) ∨
      (g.pointEffect p).keep = true ∨ p.Buries (.assign id target source) := by
  cases p with
  | mark kind counter => cases hs
  | loopVar var => cases hs
  | expr e => exact .inr (.inl rfl)
  | global v => exact .inr (.inr (.inValue (.inl rfl) hs))
  | stmt t =>
      cases t with
      | simple sid what =>
          cases what with
          | declare var => exact .inr (.inr (.inValue (.inl rfl) hs))
          | expr root =>
              rw [Point.exprs, Point.roots, List.flatMap_singleton] at hs
              exact assign_in_expr_noted rfl hs
          | assert e => exact .inr (.inl rfl)
          | _ => cases hs
      | jump jid how => exact .inr (.inl (by cases how <;> rfl))
      | _ => cases hs

end Graph

/-! ## Stores -/

/-- What happens when an expression is evaluated is done by an expression inside it. -/
theorem exists_of_mem_events {m : Module} {event : Event} :
    (∀ e : Expr, event ∈ e.events m → ∃ s ∈ e.walk, event ∈ s.ownEvents m) ∧
    (∀ es : List Expr, event ∈ eventsOf m es → ∃ s ∈ walkEach es, event ∈ s.ownEvents m) := by
  have h := @Expr.walk.mutual_induct
    (fun e => event ∈ e.events m → ∃ s ∈ e.walk, event ∈ s.ownEvents m)
    (fun es => event ∈ eventsOf m es → ∃ s ∈ walkEach es, event ∈ s.ownEvents m)
  apply h
  case case1 =>
    intro id value hevent
    cases hevent
  case case2 =>
    intro id name decl hevent
    exact ⟨_, List.mem_singleton_self _, hevent⟩
  case case3 =>
    intro id target source ihtarget ihsource hevent
    rw [Expr.events, List.mem_append, List.mem_append] at hevent
    rcases hevent with (hevent | hevent) | hevent
    · obtain ⟨s, hs, hown⟩ := ihsource hevent
      exact ⟨s, List.mem_cons_of_mem _ (List.mem_append_right _ hs), hown⟩
    · have htarget : event ∈ target.events m := by
        split at hevent
        · cases hevent
        · exact hevent
      obtain ⟨s, hs, hown⟩ := ihtarget htarget
      exact ⟨s, List.mem_cons_of_mem _ (List.mem_append_left _ hs), hown⟩
    · exact ⟨_, List.mem_cons_self, hevent⟩
  case case4 =>
    intro id callee function args ih hevent
    rcases List.mem_append.mp hevent with hevent | hevent
    · obtain ⟨s, hs, hown⟩ := ih hevent
      exact ⟨s, List.mem_cons_of_mem _ hs, hown⟩
    · exact ⟨_, List.mem_cons_self, hevent⟩
  case case5 =>
    intro id op operands ih hevent
    obtain ⟨s, hs, hown⟩ := ih hevent
    exact ⟨s, List.mem_cons_of_mem _ hs, hown⟩
  case case6 =>
    intro hevent
    cases hevent
  case case7 =>
    intro e rest ihe ihrest hevent
    rcases List.mem_append.mp hevent with hevent | hevent
    · obtain ⟨s, hs, hown⟩ := ihe hevent
      exact ⟨s, List.mem_append_left _ hs, hown⟩
    · obtain ⟨s, hs, hown⟩ := ihrest hevent
      exact ⟨s, List.mem_append_right _ hs, hown⟩

theorem exists_of_mem_events? {m : Module} {event : Event} {e : Option Expr}
    (h : event ∈ eventsOf? m e) : ∃ s ∈ e.toList.flatMap Expr.walk, event ∈ s.ownEvents m := by
  cases e with
  | none => cases h
  | some e =>
      rw [Option.toList_some, List.flatMap_singleton]
      exact exists_of_mem_events.1 e h

/-- A point stores the variable that it sets by itself, and what the expressions at it store. -/
theorem Point.store_cases {p : Point} {m : Module} {d : DeclId} (h : .store d ∈ p.events m) :
    p.own? = some d ∨ ∃ s ∈ p.exprs, .store d ∈ s.ownEvents m := by
  have hroot (e : Expr) (he : .store d ∈ e.events m) :
      ∃ s ∈ [e].flatMap Expr.walk, .store d ∈ s.ownEvents m := by
    rw [List.flatMap_singleton]
    exact exists_of_mem_events.1 e he
  have hvariable {own : DeclId} {init : Option Expr}
      (hevent : .store d ∈ eventsOf? m init ++ [.store own]) :
      some own = some d ∨ ∃ s ∈ init.toList.flatMap Expr.walk, .store d ∈ s.ownEvents m := by
    rcases List.mem_append.mp hevent with hevent | hevent
    · exact .inr (exists_of_mem_events? hevent)
    · cases List.mem_singleton.mp hevent
      exact .inl rfl
  cases p with
  | mark kind counter => cases h
  | expr e => exact .inr (hroot e h)
  | loopVar var =>
      cases List.mem_singleton.mp h
      exact .inl rfl
  | global v => exact hvariable h
  | stmt t =>
      cases t with
      | simple sid what =>
          cases what with
          | expr e => exact .inr (hroot e h)
          | declare var => exact hvariable h
          | assert e => exact .inr (hroot e h)
          | yield => cases List.mem_singleton.mp h
          | _ => cases h
      | jump jid how =>
          cases how with
          | «return» value => exact .inr (exists_of_mem_events? h)
          | throw value => exact .inr (exists_of_mem_events? h)
          | _ => cases h
      | _ => cases h

/-- Unused nodes need not stay. -/
theorem Analysis.keep_of_mem_unused {a : Analysis} {found : List NodeId} {n : NodeId} {e : Effect}
    (h : a.unused = .ok found) (hn : n ∈ found) (he : a.effects[n]? = some e) :
    e.keep = false := by
  unfold Analysis.unused at h
  split at h
  next => cases h
  next =>
    split at h
    next => cases h
    next =>
      cases h
      obtain ⟨hkeep, -⟩ := Bool.and_eq_true_iff.mp (Graph.mem_select.mp hn).2
      simpa [he] using hkeep

namespace Graph

variable {g : Graph} {effects : Array Effect} {n : NodeId} {p : Point}

/-- Where a graph is classified, a node has the effect of its point, with more to read perhaps. -/
theorem exists_effect (h : g.Classifies effects) (hp : g.nodes[n]? = some p) :
    ∃ e, effects[n]? = some e ∧ (g.effect p).Widened e := by
  have hn : n < effects.size := by
    rw [h.size_eq]
    exact (List.getElem?_eq_some_iff.mp hp).1
  have he := Array.getElem?_eq_getElem hn
  exact ⟨effects[n], he, h.widened n p _ hp he⟩

/-- Once a graph is classified, every node notes the calls and the names at any depth of its
expressions, and the store of its own; only assignments that are buried in a value go unnoticed. A
node that need not stay defines what it sets by itself, and nothing else. So an unused node in which
no assignment is buried makes no store that its effect does not define. -/
theorem effects_note_unburied (heffects : g.effects = .ok effects) (hp : g.nodes[n]? = some p) :
    ∃ e, effects[n]? = some e ∧
      (∀ id callee function args, .call id callee function args ∈ p.exprs →
        e.keep = true ∧ e.escapes = true ∧
        ∀ f decl params arg d, function = some f → g.decl? f = some decl →
          decl.kind = .function params → params.length = args.length →
          (.update, arg) ∈ params.zip args → arg.named? = some d → d ∈ e.defines) ∧
      (∀ s ∈ p.evaluated, ∀ d, s.named? = some d → d ∈ e.uses) ∧
      (∀ target, p.target? = some target →
        (∃ d, target.base? = some d ∧ d ∈ e.defines) ∨ e.keep = true) ∧
      (∀ id target source, .assign id target source ∈ p.exprs →
        (∃ d, target.base? = some d ∧ d ∈ e.defines) ∨ e.keep = true ∨
          p.Buries (.assign id target source)) ∧
      (e.keep = false → ∀ d, d ∈ e.defines ↔ p.own? = some d) ∧
      ∀ (a : Analysis) (found : List NodeId), a.graph = g → a.effects = effects →
        a.unused = .ok found → n ∈ found →
        (∀ s ∈ p.exprs, s.isAssign = true → ¬ p.Buries s) →
        ∀ d, .store d ∈ p.events g.module → d ∈ e.defines := by
  obtain ⟨e, he, hwide⟩ := exists_effect (classifies_effects heffects) hp
  have hnotes := pointEffect_notes (g := g) p
  have hdefines (d : DeclId) : d ∈ e.defines ↔ d ∈ (g.pointEffect p).defines := by
    rw [hwide.defines]
    exact Ascending.mem_ofList
  have huses (d : DeclId) (hd : d ∈ (g.pointEffect p).uses) : d ∈ e.uses :=
    hwide.uses d (Ascending.mem_ofList.mpr hd)
  have hkeep (h : (g.pointEffect p).keep = true) : e.keep = true := by
    rw [hwide.keep]
    simp [effect, h]
  have hcalls {s : Expr} (hs : s ∈ p.exprs) (hcall : s.isCall = true) :
      e.keep = true ∧ e.escapes = true := by
    have hcalls := hnotes.calls ⟨s, mem_evaluated_of_isCall hs hcall, hcall⟩
    refine ⟨hkeep hcalls.1, ?_⟩
    rw [hwide.escapes]
    exact hcalls.2
  have hassign {id : TreeId} {target source : Expr} (hs : .assign id target source ∈ p.exprs) :
      (∃ d, target.base? = some d ∧ d ∈ e.defines) ∨ e.keep = true ∨
        p.Buries (.assign id target source) := by
    simp only [hdefines]
    exact (assign_noted hs).imp_right (Or.imp_left hkeep)
  have hown (hstays : e.keep = false) (d : DeclId) : d ∈ e.defines ↔ p.own? = some d := by
    rw [hdefines]
    refine mem_defines_of_not_keep (Bool.eq_false_iff.mpr fun h => ?_)
    rw [hkeep h] at hstays
    cases hstays
  refine ⟨e, he, ?_, ?_, ?_, fun id target source => hassign, hown, ?_⟩
  · intro id callee function args hs
    obtain ⟨hstays, hescapes⟩ := hcalls hs rfl
    refine ⟨hstays, hescapes, ?_⟩
    rintro f decl params arg d rfl hdecl hkind hlength harg hnamed
    rw [hdefines, hnotes.defines]
    exact .inr ⟨_, mem_evaluated_of_isCall hs rfl,
      mem_updates hdecl hkind hlength harg hnamed⟩
  · intro s hs d hnamed
    exact huses d ((hnotes.uses d).mpr ⟨s, hs, hnamed⟩)
  · intro target htarget
    simp only [hdefines]
    exact (target_noted htarget).imp_right hkeep
  · rintro a found rfl rfl hfound hn hopen d hstore
    have hstays := Analysis.keep_of_mem_unused hfound hn he
    have habsurd (h : e.keep = true) : d ∈ e.defines := by
      rw [hstays] at h
      cases h
    rcases Point.store_cases hstore with howns | ⟨s, hs, hstores⟩
    · exact (hown hstays d).mpr howns
    · cases s with
      | assign id target source =>
          have hbase : target.base? = some d := by simpa [Expr.ownEvents] using hstores
          rcases hassign hs with ⟨b, hb, hdefined⟩ | hstays | hburied
          · rw [hbase] at hb
            cases hb
            exact hdefined
          · exact habsurd hstays
          · exact absurd hburied (hopen _ hs rfl)
      | call id callee function args => exact habsurd (hcalls hs rfl).1
      | literal id value => cases hstores
      | name id name decl => simp [Expr.ownEvents] at hstores
      | operator id op operands => cases hstores

/-- A store to the part of a variable that a call picks, which gets the variable for update. -/
def pickedStore : Stmt :=
  let place := Expr.call 3 "pick" (some 1) [.name 2 "v" (some 0)]
  let target := Expr.operator 4 "[]" [.name 1 "v" (some 0), place]
  .simple 7 (.expr (.assign 6 target (.literal 5 (.int 1))))

/-- A module with nothing but that store. -/
def picking : Module :=
  ⟨"picking", [⟨0, "v", .localVariable, .int, false⟩, ⟨1, "pick", .function [.update], .int, false⟩],
    [], ⟨0, [pickedStore]⟩, []⟩

/-- The call inside the target makes the store stay and lets other code in; the variable is read and
defined. -/
theorem effects_note_unburied_picking :
    (ofModule picking).effects = .ok #[.none, .none, ⟨[0], [0], [], true, true⟩] ∧
    (ofModule picking).nodes[2]? = some (.stmt pickedStore) ∧
    ∃ e, (#[.none, .none, ⟨[0], [0], [], true, true⟩] : Array Effect)[2]? = some e ∧
      e.keep = true ∧ e.escapes = true ∧ 0 ∈ e.defines ∧ 0 ∈ e.uses := by
  have heffects : (ofModule picking).effects = .ok #[.none, .none, ⟨[0], [0], [], true, true⟩] := by
    with_unfolding_all rfl
  have hnode : (ofModule picking).nodes[2]? = some (.stmt pickedStore) := rfl
  obtain ⟨e, he, hcalls, hreads, -⟩ := effects_note_unburied heffects hnode
  have hcall : .call 3 "pick" (some 1) [.name 2 "v" (some 0)] ∈ (Point.stmt pickedStore).exprs := by
    simp [Point.exprs, Point.roots, pickedStore, Expr.walk, walkEach]
  have hname : .name 2 "v" (some 0) ∈ (Point.stmt pickedStore).evaluated := by
    simp [Point.evaluated, Point.exprs, Point.roots, pickedStore, Expr.walk, walkEach]
  obtain ⟨hkeep, hescapes, hupdates⟩ := hcalls _ _ _ _ hcall
  refine ⟨heffects, hnode, e, he, hkeep, hescapes, ?_, hreads _ hname 0 rfl⟩
  exact hupdates 1 _ [.update] _ 0 rfl rfl rfl rfl List.mem_cons_self rfl

/-- Two variables are set in one statement, of which only the second one is read afterwards. -/
def chainedStore : Stmt :=
  let inner := Expr.assign 5 (.name 3 "y" (some 0)) (.literal 4 (.int 1))
  .simple 7 (.expr (.assign 6 (.name 2 "x" (some 1)) inner))

/-- A module with that statement, where `y` is a global. -/
def chaining : Module :=
  ⟨"m", [⟨0, "y", .globalVariable, .int, false⟩, ⟨1, "x", .localVariable, .int, false⟩],
    [⟨0, 0, "y", .int, none⟩],
    ⟨10, [.simple 1 (.declare ⟨1, "x", .int, none⟩), chainedStore,
      .jump 9 (.return (some (.name 8 "y" (some 0))))]⟩, []⟩

/-- The store to `y` is buried in the value that `x` is given: the effect of the statement does not
define `y` and need not stay, and the statement is unused although `y` is read next. -/
theorem effects_miss_buried : ∃ effects e,
    (ofModule chaining).effects = .ok effects ∧
    (ofModule chaining).nodes[4]? = some (.stmt chainedStore) ∧ effects[4]? = some e ∧
    .assign 5 (.name 3 "y" (some 0)) (.literal 4 (.int 1)) ∈ (Point.stmt chainedStore).exprs ∧
    0 ∉ e.defines ∧ e.keep = false ∧
    .store 0 ∈ (Point.stmt chainedStore).events (ofModule chaining).module ∧
    (Analysis.solved (ofModule chaining) effects).unused = .ok [3, 4] := by
  refine ⟨#[.none, .none, .define 0, .define 1, ⟨[0], [1], [], false, false⟩,
    ⟨[0], [], [], true, false⟩], _, ?_, rfl, rfl, ?_, ?_, rfl, ?_, ?_⟩
  · with_unfolding_all rfl
  · simp [Point.exprs, Point.roots, chainedStore, Expr.walk]
  · decide
  · decide
  · cbv

end Graph

end ControlFlow

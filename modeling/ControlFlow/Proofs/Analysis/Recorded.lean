import ControlFlow.Proofs.Analysis.Classified
import ControlFlow.Proofs.Flow.Events
import ControlFlow.Proofs.Tree.Parts

/-! # Effects record what happens

Where assignments stand only at the top of expression statements, the effect of a point says what
happens there. It uses every variable that is read, defines exactly those that are stored, and
escapes wherever shared variables are exposed.
-/

namespace ControlFlow

def Expr.isAssign : Expr → Bool
  | .assign _ _ _ => true
  | _ => false

/-- No assignment stands in an expression. -/
def Expr.StoresNothing (e : Expr) : Prop := ∀ s ∈ e.walk, s.isAssign = false

/-- The expressions that are evaluated at a point. Of an assignment that is a statement, these are
the two sides. -/
def Point.operands : Point → List Expr
  | .stmt (.simple _ (.expr (.assign _ target source))) => [target, source]
  | .stmt (.simple _ (.expr e)) | .stmt (.simple _ (.assert e)) | .expr e => [e]
  | .stmt (.simple _ (.declare var)) => var.init.toList
  | .stmt (.jump _ (.return value)) | .stmt (.jump _ (.throw value)) => value.toList
  | .global v => v.init.toList
  | .stmt _ | .loopVar _ | .mark _ _ => []

/-- No assignment stands below the top of an expression statement. -/
def Block.StoresAtTop (b : Block) : Prop :=
  ∀ p ∈ pointsOf b.stmts, ∀ e ∈ p.operands, e.StoresNothing

/-! ## Events of expressions -/

/-- Without assignments, evaluating an expression does what the expressions inside it do. -/
theorem mem_events {m : Module} {event : Event} :
    (∀ e : Expr, e.StoresNothing →
      (event ∈ e.events m ↔ ∃ s ∈ e.walk, event ∈ s.ownEvents m)) ∧
    (∀ es : List Expr, (∀ s ∈ walkEach es, s.isAssign = false) →
      (event ∈ eventsOf m es ↔ ∃ s ∈ walkEach es, event ∈ s.ownEvents m)) := by
  have h := @Expr.walk.mutual_induct
    (fun e => e.StoresNothing → (event ∈ e.events m ↔ ∃ s ∈ e.walk, event ∈ s.ownEvents m))
    (fun es => (∀ s ∈ walkEach es, s.isAssign = false) →
      (event ∈ eventsOf m es ↔ ∃ s ∈ walkEach es, event ∈ s.ownEvents m))
  apply h
  case case1 =>
    intro id value _
    simp [Expr.events, Expr.walk, Expr.ownEvents]
  case case2 =>
    intro id name decl _
    simp [Expr.events, Expr.walk]
  case case3 =>
    intro id target source _ _ hnone
    -- An assignment is no expression without assignments.
    cases hnone (.assign id target source) List.mem_cons_self
  case case4 =>
    intro id callee function args ih hnone
    have hargs := ih fun s hs => hnone s (List.mem_cons_of_mem _ hs)
    simp only [Expr.events, Expr.walk, List.mem_append, hargs, List.mem_cons, exists_eq_or_imp]
    exact or_comm
  case case5 =>
    intro id op operands ih hnone
    have hoperands := ih fun s hs => hnone s (List.mem_cons_of_mem _ hs)
    have hown : event ∉ (Expr.operator id op operands).ownEvents m := List.not_mem_nil
    simp only [Expr.events, Expr.walk, hoperands, List.mem_cons, exists_eq_or_imp, hown, false_or]
  case case6 =>
    intro _
    simp [eventsOf, walkEach]
  case case7 =>
    intro e rest ihe ihrest hnone
    have he := ihe fun s hs => hnone s (List.mem_append_left _ hs)
    have hrest := ihrest fun s hs => hnone s (List.mem_append_right _ hs)
    simp only [eventsOf, walkEach, List.mem_append, he, hrest, or_and_right, exists_or]

theorem updatedNames_eq (params : List Passing) (args : List Expr) :
    updatedNames params args =
      (params.zip args).filterMap fun p => if p.1 = .update then p.2.named? else none := by
  induction params generalizing args with
  | nil => simp [updatedNames]
  | cons passing params ih =>
      rcases args with _ | ⟨arg, args⟩
      · cases passing <;> simp [updatedNames]
      · cases passing with
        | update => cases hnamed : arg.named? <;> simp [updatedNames, ih, hnamed]
        | _ => simp [updatedNames, ih]

namespace Graph

variable {g : Graph}

theorem decl?_eq_lastDecl? : g.decl? = g.module.lastDecl? := by
  ext1 d
  have hfold (decls : List Declaration) (first : Option Declaration) :
      decls.foldl (fun last decl => if decl.id = d then some decl else last) first =
        (decls.reverse.find? fun decl => decl.id = d).or first := by
    induction decls generalizing first with
    | nil => rfl
    | cons decl rest ih =>
        rw [List.foldl_cons, ih, List.reverse_cons, List.find?_append]
        by_cases hid : decl.id = d
        · simp [hid]
        · simp [hid]
  exact (hfold g.module.decls none).trans (Option.or_none)

theorem updates_call (id : TreeId) (callee : String) (function : Option DeclId)
    (args : List Expr) :
    g.updates (.call id callee function args) = g.module.callStores function args := by
  unfold updates Module.callStores
  rw [decl?_eq_lastDecl?]
  dsimp only
  cases (function.bind g.module.lastDecl?).map Declaration.kind with
  | none => rfl
  | some kind =>
      cases kind with
      | function params => simp only [updatedNames_eq]
      | _ => rfl

/-! ## Records -/

end Graph

/-- An effect uses what is read, defines exactly what is stored, and escapes where shared variables
are exposed. -/
structure Effect.Records (e : Effect) (events : List Event) : Prop where
  uses : ∀ d, .read d ∈ events → d ∈ e.uses
  defines : ∀ d, .store d ∈ events ↔ d ∈ e.defines
  escapes : .expose ∈ events → e.escapes = true

namespace Effect.Records

variable {a b : Effect} {xs ys : List Event}

theorem keepIf (keep : Bool) : (Effect.keepIf keep).Records [] :=
  ⟨nofun, fun _ => ⟨nofun, nofun⟩, nofun⟩

theorem define (d : DeclId) : (Effect.define d).Records [.store d] :=
  ⟨fun _ h => by simp at h, fun _ => by simp [Effect.define], fun h => by simp at h⟩

theorem and (ha : a.Records xs) (hb : b.Records ys) : (a.and b).Records (xs ++ ys) := by
  constructor
  · intro d h
    exact List.mem_append.mpr ((List.mem_append.mp h).imp (ha.uses d) (hb.uses d))
  · intro d
    simp only [Effect.and, List.mem_append, ha.defines, hb.defines]
  · intro h
    simp only [Effect.and, Bool.or_eq_true]
    exact (List.mem_append.mp h).imp ha.escapes hb.escapes

theorem congr (h : a.Records xs) (hmem : ∀ event, event ∈ ys ↔ event ∈ xs) : a.Records ys := by
  constructor
  · exact fun d hd => h.uses d ((hmem _).mp hd)
  · exact fun d => (hmem _).trans (h.defines d)
  · exact fun he => h.escapes ((hmem _).mp he)

theorem widened (h : a.Records xs) (hab : a.Widened b) : b.Records xs := by
  constructor
  · exact fun d hd => hab.uses d (h.uses d hd)
  · rw [hab.defines]
    exact h.defines
  · rw [hab.escapes]
    exact h.escapes

theorem normal (h : a.Records xs) : a.normal.Records xs := by
  constructor
  · exact fun d hd => Ascending.mem_ofList.mpr (h.uses d hd)
  · exact fun d => (h.defines d).trans Ascending.mem_ofList.symm
  · exact h.escapes

end Effect.Records

namespace Graph

variable {g : Graph} {e : Expr}

theorem evaluation_records (he : e.StoresNothing) (pins : Bool) :
    (g.evaluation e pins).Records (e.events g.module) := by
  constructor
  · intro d h
    obtain ⟨s, hs, hread⟩ := (mem_events.1 e he).mp h
    apply List.mem_filterMap.mpr
    refine ⟨s, hs, ?_⟩
    cases s <;> simp_all [Expr.ownEvents, Expr.named?]
  · intro d
    rw [mem_events.1 e he]
    simp only [evaluation, List.mem_flatMap]
    apply exists_congr
    intro s
    apply and_congr_right
    intro hs
    cases s with
    | assign id target source => cases he _ hs
    | call id callee function args => simp [updates_call, Expr.ownEvents]
    | _ => simp [updates, Expr.ownEvents]
  · intro h
    obtain ⟨s, hs, hexpose⟩ := (mem_events.1 e he).mp h
    apply List.any_eq_true.mpr
    refine ⟨s, hs, ?_⟩
    cases s <;> simp_all [Expr.ownEvents, Expr.isCall]

theorem evaluation?_records {e : Option Expr} (he : ∀ s ∈ e.toList, s.StoresNothing) :
    (g.evaluation? e).Records (eventsOf? g.module e) := by
  cases e with
  | none => exact .keepIf false
  | some e => exact evaluation_records (he e (List.mem_singleton_self e)) false

theorem declaration_records {init : Option Expr} (hinit : ∀ e ∈ init.toList, e.StoresNothing)
    (d : DeclId) (ty : Ty) :
    (g.declaration d ty init).Records (eventsOf? g.module init ++ [.store d]) := by
  -- What a declaration refers to and whether it stays is no matter of its events.
  have hown (aliases : List DeclId) (keep : Bool) :
      (Effect.mk [] [d] aliases keep false).Records [.store d] :=
    ⟨(Effect.Records.define d).uses, (Effect.Records.define d).defines,
      (Effect.Records.define d).escapes⟩
  apply ((hown _ _).and (evaluation?_records hinit)).congr
  intro event
  simp only [List.mem_append, or_comm]

theorem store_records {target : Expr} (htarget : target.StoresNothing) :
    (g.store target).Records ((if target.named?.isSome then [] else target.events g.module) ++
      target.base?.toList.map .store) := by
  cases hnamed : target.named? with
  | some d =>
      rw [store_of_named hnamed, base?_of_named hnamed]
      exact .define d
  | none =>
      -- A target that is no plain name is also evaluated.
      have hevents := evaluation_records (g := g) htarget false
      rw [store_of_unnamed hnamed]
      cases target.base? with
      | some base =>
          apply ((Effect.Records.define base).and hevents).congr
          intro event
          simp [or_comm]
      | none =>
          apply ((Effect.Records.keepIf true).and hevents).congr
          simp

theorem exprStmt_records {id : TreeId}
    (he : ∀ s ∈ (Point.stmt (.simple id (.expr e))).operands, s.StoresNothing) :
    (g.exprStmt e).Records (e.events g.module) := by
  cases e with
  | assign id target source =>
      have htarget := he target List.mem_cons_self
      have hsource := he source (List.mem_cons_of_mem _ List.mem_cons_self)
      apply ((store_records htarget).and (evaluation_records hsource false)).congr
      intro event
      simp only [Expr.events, Expr.ownEvents, List.mem_append]
      grind
  | call id callee function args => exact evaluation_records (he _ List.mem_cons_self) false
  | _ => exact evaluation_records (he _ List.mem_cons_self) true

/-- The effect of a point says what happens there. -/
theorem effect_records {p : Point} (hp : ∀ e ∈ p.operands, e.StoresNothing) :
    (g.effect p).Records (p.events g.module) := by
  have hpoint : (g.pointEffect p).Records (p.events g.module) := by
    cases p with
    | mark kind counter => exact .keepIf false
    | expr e =>
        exact (Effect.Records.keepIf true).and (evaluation_records (hp e List.mem_cons_self) false)
    | loopVar var =>
        have hnone : ∀ e ∈ (none : Option Expr).toList, e.StoresNothing := by simp
        exact declaration_records hnone var.decl var.ty
    | global v => exact declaration_records hp v.decl v.ty
    | stmt s =>
        cases s with
        | simple id what =>
            cases what with
            | expr e => exact exprStmt_records hp
            | declare var => exact declaration_records hp var.decl var.ty
            | assert e =>
                exact (Effect.Records.keepIf true).and
                  (evaluation_records (hp e List.mem_cons_self) true)
            | yield =>
                refine ⟨fun d hd => ?_, fun d => ?_, fun _ => rfl⟩
                · simp [Point.events] at hd
                · simp [Point.events, pointEffect, stmtEffect]
            | comment text => exact .keepIf true
            | location text => exact .keepIf true
        | jump id how =>
            cases how with
            | «return» value => exact (Effect.Records.keepIf true).and (evaluation?_records hp)
            | throw value => exact (Effect.Records.keepIf true).and (evaluation?_records hp)
            | «break» => exact .keepIf true
            | «continue» => exact .keepIf true
        | _ => exact .keepIf true
  obtain ⟨huses, hdefines, hescapes⟩ := hpoint.normal
  exact ⟨huses, hdefines, hescapes⟩

end Graph

end ControlFlow

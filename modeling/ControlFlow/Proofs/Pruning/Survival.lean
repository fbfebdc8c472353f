import ControlFlow.Proofs.Analysis.Noted
import ControlFlow.Proofs.Pruning.Preservation
import ControlFlow.Proofs.Tree.Behind
import ControlFlow.Proofs.Tree.Thinned

/-! # Pruning only deletes, and never an effect

Pruning thins out one body and changes nothing else. A statement that has an effect of its own and
is not behind a jump survives every round, and so do the statements around it.
-/

namespace ControlFlow

/-! ## Effects -/

/-- A statement has an effect of its own, whoever sees its values. What is not simple is a jump or
has statements nested in it. -/
inductive Graph.Effectful (g : Graph) : Stmt → Prop where
  | compound {s : Stmt} : s.isSimple = false → g.Effectful s
  | assert (id : TreeId) (e : Expr) : g.Effectful (.simple id (.assert e))
  | yield (id : TreeId) : g.Effectful (.simple id .yield)
  | comment (id : TreeId) (words : String) : g.Effectful (.simple id (.comment words))
  | location (id : TreeId) (place : String) : g.Effectful (.simple id (.location place))
  | call {s : Stmt} {e : Expr} : e ∈ s.exprs → e.isCall = true → g.Effectful s
  | finalizer (id : TreeId) {var : LocalVar} : var.ty.hasFinalizer = true →
      g.Effectful (.simple id (.declare var))
  | external {s : Stmt} {d : DeclId} : d ∈ (g.effect (.stmt s)).defines → g.isExternal d = true →
      g.Effectful s

namespace Graph

variable {g g' : Graph} {s : Stmt} {e : Expr}

/-- Whatever contains a call stays. -/
theorem keep_of_call {id : TreeId} {what : Simple} (he : e ∈ what.exprs) (hcall : e.isCall = true) :
    (g.pointEffect (.stmt (.simple id what))).keep = true := by
  have hmem : e ∈ (Point.stmt (.simple id what)).exprs := by
    rw [Point.exprs]
    cases what with
    | expr root => rwa [Point.roots, List.flatMap_singleton]
    | assert root => rwa [Point.roots, List.flatMap_singleton]
    | declare var =>
        obtain ⟨d, name, ty, init⟩ := var
        cases init with
        | none => cases he
        | some root => rwa [Point.roots, Option.toList_some, List.flatMap_singleton]
    | _ => cases he
  exact ((pointEffect_notes _).calls ⟨e, mem_evaluated_of_isCall hmem hcall, hcall⟩).1

theorem keep_effect {p : Point} (h : (g.pointEffect p).keep = true) : (g.effect p).keep = true := by
  simp [effect, h]

/-- A simple statement with an effect always stays. -/
theorem Effectful.keep (h : g.Effectful s) (hs : s.isSimple = true) :
    (g.effect (.stmt s)).keep = true := by
  cases h with
  | compound hnot =>
      rw [hs] at hnot
      cases hnot
  | assert id e => rfl
  | yield id => rfl
  | comment id words => rfl
  | location id place => rfl
  | call he hcall =>
      cases s with
      | simple id what => exact keep_effect (keep_of_call he hcall)
      | _ => cases hs
  | finalizer id hty =>
      apply keep_effect
      simp [pointEffect, stmtEffect, declaration, Effect.and, hty]
  | external hd hexternal =>
      have hany : (g.pointEffect (.stmt s)).defines.any g.isExternal = true :=
        List.any_eq_true.mpr ⟨_, Ascending.mem_ofList.mp hd, hexternal⟩
      simp [effect, hany]

/-! Which variables a node defines and which of them are external is up to the declarations. -/

theorem decl?_eq_of_decls (h : g.module.decls = g'.module.decls) : g.decl? = g'.decl? := by
  funext d
  simp only [decl?, h]

theorem isExternal_eq_of_decls (h : g.module.decls = g'.module.decls) :
    g.isExternal = g'.isExternal := by
  funext d
  simp only [isExternal, decl?_eq_of_decls h]

theorem defines_evaluation_of_decls (h : g.module.decls = g'.module.decls) (root : Expr)
    (pins : Bool) : (g.evaluation root pins).defines = (g'.evaluation root pins).defines := by
  have hupdates : g.updates = g'.updates := by
    funext e
    cases e <;> simp only [updates, decl?_eq_of_decls h]
  simp only [evaluation, hupdates]

theorem defines_exprStmt_of_decls (h : g.module.decls = g'.module.decls) (root : Expr) :
    (g.exprStmt root).defines = (g'.exprStmt root).defines := by
  have heval := defines_evaluation_of_decls h
  cases root with
  | assign id target source =>
      have hstore : (g.store target).defines = (g'.store target).defines := by
        unfold store
        split
        · rfl
        · exact congrArg (_ ++ ·) (heval _ false)
      simp only [exprStmt, Effect.and, hstore, heval]
  | _ => exact heval _ _

theorem defines_eq_of_decls (h : g.module.decls = g'.module.decls) (id : TreeId) (what : Simple) :
    (g.effect (.stmt (.simple id what))).defines =
      (g'.effect (.stmt (.simple id what))).defines := by
  have heval := defines_evaluation_of_decls h
  have hpoint : (g.stmtEffect (.simple id what)).defines =
      (g'.stmtEffect (.simple id what)).defines := by
    cases what with
    | expr root => exact defines_exprStmt_of_decls h root
    | declare var =>
        obtain ⟨d, name, ty, init⟩ := var
        cases init with
        | none => rfl
        | some root => exact congrArg ([d] ++ ·) (heval root false)
    | assert root => exact congrArg ([] ++ ·) (heval root true)
    | _ => rfl
  exact congrArg Ascending.ofList hpoint

theorem isSimple_without {doomed : Stmt → Bool} (s : Stmt) :
    (s.without doomed).isSimple = s.isSimple := by
  unfold Stmt.without
  split <;> rfl

/-- What has an effect in one graph still has it in the graph of what a removal left. -/
theorem Effectful.without (h : g.Effectful s) (hdecls : g.module.decls = g'.module.decls)
    (doomed : Stmt → Bool) : g'.Effectful (s.without doomed) := by
  cases s with
  | simple id what =>
      cases h with
      | compound hnot => cases hnot
      | assert _ e => exact .assert id e
      | yield => exact .yield id
      | comment _ words => exact .comment id words
      | location _ place => exact .location id place
      | call he hcall => exact .call (s := .simple id what) he hcall
      | finalizer _ hty => exact .finalizer id hty
      | external hd hexternal =>
          rw [defines_eq_of_decls hdecls] at hd
          rw [isExternal_eq_of_decls hdecls] at hexternal
          exact .external (s := .simple id what) hd hexternal
  | _ => exact .compound ((isSimple_without _).trans rfl)

end Graph

/-! ## Survival -/

/-- Where removal spares statements that are not simple, whatever is not behind a jump and stays is
not behind one in what is left. -/
theorem mem_liveStmts_without {doomed : Stmt → Bool} {t : Stmt} (ht : doomed t = false) :
    (∀ s : Stmt, (∀ u ∈ s.liveInner, doomed u = true → u.isSimple = true) → t ∈ s.liveInner →
      t.without doomed ∈ (s.without doomed).liveInner) ∧
    (∀ ss, Spares doomed ss → t ∈ liveStmtsOf ss →
      t.without doomed ∈ liveStmtsOf (stmtsWithout doomed ss)) ∧
    (∀ cs, (∀ u ∈ liveStmtsOfCatches cs, doomed u = true → u.isSimple = true) →
      t ∈ liveStmtsOfCatches cs →
      t.without doomed ∈ liveStmtsOfCatches (catchesWithout doomed cs)) := by
  have hboth {as bs as' bs' : List Stmt}
      (has : (∀ u ∈ as, doomed u = true → u.isSimple = true) → t ∈ as → t.without doomed ∈ as')
      (hbs : (∀ u ∈ bs, doomed u = true → u.isSimple = true) → t ∈ bs → t.without doomed ∈ bs')
      (hspares : ∀ u ∈ as ++ bs, doomed u = true → u.isSimple = true) (hmem : t ∈ as ++ bs) :
      t.without doomed ∈ as' ++ bs' := by
    obtain ⟨has', hbs'⟩ := List.forall_mem_append.mp hspares
    rcases List.mem_append.mp hmem with hmem | hmem
    · exact List.mem_append_left _ (has has' hmem)
    · exact List.mem_append_right _ (hbs hbs' hmem)
  refine tree_induction ?simple ?jump ?block ?while_ ?for_ ?if_ ?try_ ?nil ?cons ?noCatch ?catch_
  case simple => exact fun _ _ _ hmem => absurd hmem List.not_mem_nil
  case jump => exact fun _ _ _ hmem => absurd hmem List.not_mem_nil
  case block => exact fun _ _ _ ih => ih
  case while_ =>
    intro id cond bid body orElse ihbody ihelse
    rw [without_while, liveInner_while, liveInner_while, elseOf_without]
    exact hboth ihbody ihelse
  case for_ => exact fun _ _ _ _ _ ih => ih
  case if_ =>
    intro id cond bid body orElse ihbody ihelse
    rw [without_if, liveInner_if, liveInner_if, elseOf_without]
    exact hboth ihbody ihelse
  case try_ => exact fun _ _ _ _ ihbody ihcatches => hboth ihbody ihcatches
  case nil => exact fun _ hmem => absurd hmem List.not_mem_nil
  case cons =>
    intro s rest ihs ihrest hspares hmem
    have hrest (hs : t ∈ if s.isJump then [] else liveStmtsOf rest) : s.isJump = false ∧
        t.without doomed ∈ liveStmtsOf (stmtsWithout doomed rest) := by
      split at hs
      next => cases hs
      next hjump =>
        have hjump := Bool.not_eq_true _ |>.mp hjump
        exact ⟨hjump, ihrest (hspares.tail hjump) hs⟩
    by_cases hs : doomed s = true
    · -- A doomed statement is simple here, so that nothing is nested in it.
      rw [stmtsWithout, if_pos hs]
      have hsimple := hspares s List.mem_cons_self hs
      rcases List.mem_cons.mp hmem with rfl | hmem
      · rw [hs] at ht
        cases ht
      · rcases List.mem_append.mp hmem with hmem | hmem
        · cases s with
          | simple id what => cases hmem
          | _ => cases hsimple
        · exact (hrest hmem).2
    · rw [stmtsWithout, if_neg hs, liveStmtsOf, isJump_without]
      rcases List.mem_cons.mp hmem with rfl | hmem
      · exact List.mem_cons_self
      · apply List.mem_cons_of_mem
        rcases List.mem_append.mp hmem with hmem | hmem
        · exact List.mem_append_left _ (ihs (fun u hu => hspares u
            (List.mem_cons_of_mem _ (List.mem_append_left _ hu))) hmem)
        · obtain ⟨hjump, hmem⟩ := hrest hmem
          rw [if_neg (by simp [hjump])]
          exact List.mem_append_right _ hmem
  case noCatch => exact fun _ hmem => absurd hmem List.not_mem_nil
  case catch_ => exact fun _ _ _ _ _ ihbody ihrest => hboth ihbody ihrest

namespace Pruning

variable {g : Graph} {body left : Block} {globals : List Global} {s : Stmt} {ids : List TreeId}
  {report : Report} {graphOf : Block → Graph}

/-- What has an effect and is not behind a jump does not go in a round. -/
theorem not_doomed_of_effectful (hdepicts : g.Depicts body globals) (hnodup : body.ids.Nodup)
    (hdoomed : doomed g body = .ok ids) (hs : s ∈ liveStmtsOf body.stmts)
    (heffect : g.Effectful s) : s.id ∉ ids := by
  intro hid
  obtain ⟨effects, heffects⟩ := effects_of_doomed hdoomed
  obtain ⟨n, hunused, hn⟩ := exists_unused_of_doomed hdepicts heffects hnodup hdoomed hs hid
  have hkeep := heffect.keep (isSimple_of_unused heffects hn hunused)
  rw [Analysis.keep_of_isUnused heffects hn hunused] at hkeep
  cases hkeep

/-- What has an effect and is not behind a jump survives all rounds, without what goes inside. -/
theorem Rounds.survives (hdepicts : ∀ b, (graphOf b).Depicts b globals)
    (hdecls : ∀ b c, (graphOf b).module.decls = (graphOf c).module.decls)
    (h : Rounds graphOf body (.ok (left, report))) (hnodup : body.ids.Nodup)
    (hs : s ∈ liveStmtsOf body.stmts) (heffect : (graphOf body).Effectful s) :
    s.without (fun t => report.removed.contains t.id) ∈ liveStmtsOf left.stmts := by
  induction h using Rounds.induction_ok generalizing s with
  | settled _ =>
      have hnone : (fun t : Stmt => ([] : List TreeId).contains t.id) = fun _ => false := rfl
      rw [hnone, without_none.1]
      exact hs
  | @round b _ ids _ hids _ _ ih =>
      have hstays : ids.contains s.id = false := by
        simpa using not_doomed_of_effectful (hdepicts b) hnodup hids hs heffect
      have hlive := (mem_liveStmts_without hstays).2.1 b.stmts
        (spares_of_doomed (hdepicts b) hnodup hids) hs
      have hleft := ih (nodup_takeOut hnodup) hlive (heffect.without (hdecls _ _) _)
      rwa [without_append] at hleft

end Pruning

namespace Module

variable {m : Module} {scope : Option String} {body pruned : Block}

/-- A module has another body, for the first function of a name or at the top level, and nothing
else in it is different. -/
inductive SwapsBody (m : Module) : Option String → Block → Block → Module → Prop where
  | top (pruned : Block) : m.SwapsBody none m.body pruned { m with body := pruned }
  | function {before after : List Function} {f : Function} (pruned : Block) :
      m.functions = before ++ f :: after → (∀ f' ∈ before, f'.name ≠ f.name) →
      m.SwapsBody (some f.name) f.body pruned
        { m with functions := before ++ { f with body := pruned } :: after }

theorem setBody_append {name : String} {before after : List Function} {f : Function}
    (hbefore : ∀ f' ∈ before, f'.name ≠ name) (hf : f.name = name) :
    Pruning.setBody name pruned (before ++ f :: after) =
      before ++ { f with body := pruned } :: after := by
  induction before with
  | nil => exact if_pos hf
  | cons f' before ih =>
      obtain ⟨hfirst, hrest⟩ := List.forall_mem_cons.mp hbefore
      rw [List.cons_append, Pruning.setBody, if_neg hfirst, ih hrest]
      rfl

theorem swapsBody_withBody (hbody : m.bodyOf? scope = some body) (pruned : Block) :
    m.SwapsBody scope body pruned (m.withBody pruned scope) := by
  cases scope with
  | none =>
      cases hbody
      exact .top pruned
  | some name =>
      obtain ⟨f, hf, rfl⟩ := Option.map_eq_some_iff.mp hbody
      obtain ⟨hname, before, after, hsplit, hbefore⟩ := List.find?_eq_some_iff_append.mp hf
      have hname : f.name = name := by simpa using hname
      have hbefore : ∀ f' ∈ before, f'.name ≠ name := fun f' hf' => by simpa using hbefore f' hf'
      rw [withBody, hsplit, setBody_append hbefore hname]
      subst hname
      exact .function pruned hsplit hbefore

theorem decls_graphWith (m : Module) (scope : Option String) (b : Block) :
    (m.graphWith scope b).module.decls = m.decls := by
  cases scope with
  | none =>
      change (Graph.ofModule { m with body := b }).module.decls = _
      rw [Graph.ofModule_module]
  | some name => exact congrArg Module.decls (Graph.ofBlock_module m b)

/-- Pruning a scope of a module with distinct numbers fails if the function is not there, or if the
variable that a declaration refers into has no node. Otherwise it changes one body, that of the
first function of the name or the top-level one, and this only by deleting statements. A statement
that is not behind a jump survives if it has an effect of its own. -/
theorem prune_only_deletes (hids : m.ids.Nodup) (scope : Option String) :
    (∃ name, scope = some name ∧ (∀ f ∈ m.functions, f.name ≠ name) ∧
      m.prune scope = .error (.unknownFunction m.name name)) ∨
    ∃ body, m.bodyOf? scope = some body ∧
      ((∃ why, m.prune scope = .error (.analysis why) ∧ why.IsMissingSite) ∨
      ∃ m' pruned report, m.prune scope = .ok (m', report) ∧
        m.SwapsBody scope body pruned m' ∧ pruned.Thinned body ∧
        ∀ s ∈ body.allStmts, ¬ body.BehindJump s → (m.graphWith scope body).Effectful s →
          ∃ t ∈ pruned.allStmts, t.Thinned s) := by
  rcases prune_converges m scope with ⟨name, hscope, hnone, herror⟩ | ⟨body, hbody, hresult⟩
  · refine .inl ⟨name, hscope, fun f hf => ?_, herror⟩
    simpa using List.find?_eq_none.mp hnone f hf
  · refine .inr ⟨body, hbody, ?_⟩
    rcases hresult with ⟨why, herror, hsite, -⟩ | ⟨m', pruned, report, hprune, -⟩
    · exact .inl ⟨why, herror, hsite⟩
    · obtain ⟨body', pruned, hbody', rfl, hpruned, hrounds⟩ := exists_of_prune hprune
      rw [hbody] at hbody'
      cases hbody'
      refine .inr ⟨_, pruned, report, hprune, swapsBody_withBody hbody pruned, ?_, ?_⟩
      · rw [hpruned]
        exact Block.without_thinned body
      · intro s hs hbehind heffect
        have hnodup := nodup_bodyOf?_ids hids hbody
        have hstmts : body.allStmts.Nodup :=
          ((stmtsOf_ids_sublist body.stmts).nodup (List.nodup_cons.mp hnodup).2).of_map _
        have hlive := (mem_liveStmtsOf_iff hstmts hs).mpr hbehind
        have hdecls (b c : Block) : (m.graphWith scope b).module.decls =
            (m.graphWith scope c).module.decls :=
          (decls_graphWith m scope b).trans (decls_graphWith m scope c).symm
        have hsurvives := hrounds.survives (m.depicts_graphWith scope) hdecls hnodup hlive heffect
        exact ⟨_, liveStmts_subset.2.1 _ hsurvives, thinned_without.1 s⟩

/-- A call in a branch, and code that is not used there, after it and behind a return. -/
def guarded : List Stmt :=
  [.if 2 (.name 3 "c" none) ⟨4, [.simple 5 (.expr (.call 6 "g" none [])),
      .simple 7 (.expr (.literal 8 (.bool true)))]⟩ none,
    .simple 9 (.expr (.literal 10 (.bool true))), .jump 11 (.return none), .simple 12 .yield]

/-- The branch stays, with the call in it and without what is not used. -/
theorem prune_only_deletes_guarded : (ofStmts guarded).ids.Nodup ∧
    ∃ pruned, (ofStmts guarded).prune none = .ok (ofStmts pruned, ⟨[7, 9, 12], 2⟩) ∧
      ∃ t ∈ stmtsOf pruned, t.Thinned (.simple 5 (.expr (.call 6 "g" none []))) := by
  have hids : (ofStmts guarded).ids.Nodup := by decide
  have hprune : (ofStmts guarded).prune none = .ok (ofStmts [.if 2 (.name 3 "c" none)
      ⟨4, [.simple 5 (.expr (.call 6 "g" none []))]⟩ none, .jump 11 (.return none)],
      ⟨[7, 9, 12], 2⟩) := by cbv
  refine ⟨hids, _, hprune, ?_⟩
  rcases prune_only_deletes hids none with ⟨_, hnone, -⟩ | ⟨body, hbody, ⟨_, herror, -⟩ | hdeletes⟩
  · cases hnone
  · cases hprune.symm.trans herror
  · obtain ⟨m', pruned, report, hok, hswaps, -, hsurvives⟩ := hdeletes
    cases hbody
    cases hprune.symm.trans hok
    cases hswaps
    have hmem : Stmt.simple 5 (.expr (.call 6 "g" none [])) ∈ (Block.mk 1 guarded).allStmts :=
      List.mem_cons_of_mem _ List.mem_cons_self
    have hnodup : (Block.mk 1 guarded).allStmts.Nodup :=
      ((stmtsOf_ids_sublist guarded).nodup (List.nodup_cons.mp hids).2).of_map _
    refine hsurvives _ hmem ?_ (.call List.mem_cons_self rfl)
    exact (mem_liveStmtsOf_iff hnodup hmem).mp (List.mem_cons_of_mem _ List.mem_cons_self)

end Module

end ControlFlow

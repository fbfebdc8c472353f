import ControlFlow.Proofs.Analysis.Sited
import ControlFlow.Proofs.Pruning.Scoped
import ControlFlow.Proofs.Pruning.Survival
import ControlFlow.Proofs.Tree.Binding

/-! # Views and iterators of well scoped programs

A graph can be analysed if and only if each variable that a view or an iterator in it is initialised
from has a node. Declaration statements, loops and globals make such nodes, but the parameters of
catches do not: a well scoped body can be analysed as long as no view or iterator is initialised
from a variable that only catches introduce. Rounds of pruning keep this so, since they keep the
declarations of what is named.
-/

namespace ControlFlow

namespace Graph

/-- The globals that a graph shows. -/
def shownGlobals (g : Graph) : List Global := if g.showsGlobals then g.module.globals else []

/-- The names in the initial values of the globals that a graph shows, and in a body. -/
def mentions (g : Graph) (b : Block) : List Mention :=
  g.shownGlobals.flatMap Global.mentions ++ b.mentions

/-- A statement of a body introduces a variable, or the variable is one of the globals shown. -/
def HasBinder (g : Graph) (b : Block) (d : DeclId) : Prop :=
  d ∈ introducedBy b.stmts ∨ ∃ v ∈ g.shownGlobals, v.decl = d

/-- A variable is declared as one of a kind. -/
def IsKind (g : Graph) (kind : DeclKind) (d : DeclId) : Prop :=
  ∃ decl, g.decl? d = some decl ∧ decl.kind = kind

/-- Each local variable that is named is introduced around its name, by a declaration statement, by
a loop or by a catch; and where the globals are shown, each global that is named is one of them. -/
structure WellBound (g : Graph) (b : Block) : Prop where
  locals : ∀ μ ∈ g.mentions b, g.IsKind .localVariable μ.decl →
    μ.decl ∈ μ.binders.declared ∨ μ.decl ∈ μ.binders.caught
  globals : g.showsGlobals = true → ∀ μ ∈ g.mentions b, g.IsKind .globalVariable μ.decl →
    ∃ v ∈ g.shownGlobals, v.decl = μ.decl

variable {g g' : Graph} {b : Block} {d : DeclId}

/-- Local variables are expected to have nodes, and globals where these are shown. -/
theorem any_declaresHere_iff : (g.decl? d).any g.declaresHere = true ↔
    g.IsKind .localVariable d ∨ g.showsGlobals = true ∧ g.IsKind .globalVariable d := by
  unfold IsKind
  cases hdecl : g.decl? d with
  | none => simp
  | some decl => cases hkind : decl.kind <;> simp [declaresHere, hkind]

theorem sharedOf_globals (globals : List Global) :
    sharedOf (globals.flatMap Global.mentions) =
      globals.flatMap fun v => initialNames v.ty v.init := by
  induction globals with
  | nil => rfl
  | cons v rest ih =>
      rw [List.flatMap_cons, sharedOf_append, ih, Global.mentions, sharedOf_mentionsIn]
      rfl

/-- What the nodes of a graph are initialised from is what is named so in its body and globals. -/
theorem mem_sharedOf_mentions_iff (h : g.Depicts b g.shownGlobals)
    (hkeys : ((globalPoints g.shownGlobals ++ pointsOf b.stmts).map Point.key).Nodup) :
    d ∈ sharedOf (g.mentions b) ↔ ∃ p ∈ g.nodes, d ∈ p.referents := by
  rw [mentions, sharedOf_append, sharedOf_globals, Block.mentions, sharedOf_mentions.2.1,
    List.mem_append, List.mem_flatMap, List.mem_flatMap]
  constructor
  · rintro (⟨v, hv, hd⟩ | ⟨s, hs, hd⟩)
    · exact ⟨.global v, (h.mem_nodes_iff hkeys rfl).mpr
        (List.mem_append_left _ (List.mem_map.mpr ⟨v, hv, rfl⟩)), hd⟩
    · unfold Stmt.referents at hd
      split at hd
      next id what =>
        have hpoint : Point.stmt (.simple id what) ∈ pointsOf b.stmts :=
          List.mem_flatMap.mpr ⟨_, hs, List.mem_singleton_self _⟩
        refine ⟨_, (h.mem_nodes_iff hkeys rfl).mpr (List.mem_append_right _ hpoint), ?_⟩
        cases what with
        | declare var => exact hd
        | _ => cases hd
      next => cases hd
  · rintro ⟨p, hp, hd⟩
    obtain ⟨own, hown⟩ := declared?_of_referents hd
    have hmark : p.isMark = false := by
      cases p with
      | mark kind counter => cases hown
      | _ => rfl
    rcases List.mem_append.mp ((h.mem_nodes_iff hkeys hmark).mp hp) with hglobal | hpoint
    · obtain ⟨v, hv, rfl⟩ := List.mem_map.mp hglobal
      exact .inl ⟨v, hv, hd⟩
    · obtain ⟨s, hs, hmem⟩ := List.mem_flatMap.mp hpoint
      rcases ownPoints_cases hmem with rfl | ⟨id, hid, -⟩
      · unfold Point.referents at hd
        split at hd
        next id var heq =>
          cases heq
          exact .inr ⟨_, hs, hd⟩
        next heq => cases heq
        next => cases hd
      · -- Conditions, sequences and loop variables have no initial values.
        cases p with
        | expr e => cases hd
        | loopVar var => cases hd
        | _ => cases hid

/-- What the nodes of a graph introduce is what its body and its globals introduce. -/
theorem introduces_iff (h : g.Depicts b g.shownGlobals)
    (hkeys : ((globalPoints g.shownGlobals ++ pointsOf b.stmts).map Point.key).Nodup) :
    g.Introduces d ↔ g.HasBinder b d := by
  constructor
  · rintro ⟨p, hp, hd⟩
    have hmark : p.isMark = false := by
      cases p with
      | mark kind counter => cases hd
      | _ => rfl
    rcases List.mem_append.mp ((h.mem_nodes_iff hkeys hmark).mp hp) with hglobal | hpoint
    · obtain ⟨v, hv, rfl⟩ := List.mem_map.mp hglobal
      cases hd
      exact .inr ⟨v, hv, rfl⟩
    · obtain ⟨s, hs, hmem⟩ := List.mem_flatMap.mp hpoint
      exact .inl (List.mem_flatMap.mpr ⟨s, hs, List.mem_filterMap.mpr ⟨p, hmem, hd⟩⟩)
  · rintro (hbody | ⟨v, hv, rfl⟩)
    · obtain ⟨s, hs, hd⟩ := List.mem_flatMap.mp hbody
      obtain ⟨p, hp, hd⟩ := List.mem_filterMap.mp hd
      have hmem : p ∈ pointsOf b.stmts := List.mem_flatMap.mpr ⟨s, hs, hp⟩
      have hmark : p.isMark = false := by
        cases p with
        | mark kind counter => cases hd
        | _ => rfl
      exact ⟨p, (h.mem_nodes_iff hkeys hmark).mpr (List.mem_append_right _ hmem), hd⟩
    · exact ⟨.global v, (h.mem_nodes_iff hkeys rfl).mpr
        (List.mem_append_left _ (List.mem_map.mpr ⟨v, hv, rfl⟩)), rfl⟩

theorem mem_sharedOf {μs : List Mention} :
    d ∈ sharedOf μs ↔ ∃ μ ∈ μs, μ.shared = true ∧ μ.decl = d := by
  simp [sharedOf, and_assoc]

/-- A graph can be classified if and only if whatever views and iterators are initialised from is
introduced, as far as it is expected to be. -/
theorem effects_ok_iff_introduced (h : g.Depicts b g.shownGlobals)
    (hkeys : ((globalPoints g.shownGlobals ++ pointsOf b.stmts).map Point.key).Nodup) :
    (∃ effects, g.effects = .ok effects) ↔
      ∀ μ ∈ g.mentions b, μ.shared = true → (g.decl? μ.decl).any g.declaresHere = true →
        g.HasBinder b μ.decl := by
  rw [effects_ok_iff]
  constructor
  · intro hsites μ hμ hshared hhere
    obtain ⟨p, hp, hd⟩ := (mem_sharedOf_mentions_iff h hkeys).mp (mem_sharedOf.mpr
      ⟨μ, hμ, hshared, rfl⟩)
    exact (introduces_iff h hkeys).mp (hsites p hp _ (mem_aliases_iff.mpr ⟨hd, hhere⟩))
  · intro hintroduced p hp d hd
    obtain ⟨hreferent, hhere⟩ := mem_aliases_iff.mp hd
    obtain ⟨μ, hμ, hshared, rfl⟩ := mem_sharedOf.mp
      ((mem_sharedOf_mentions_iff h hkeys).mpr ⟨p, hp, hreferent⟩)
    exact (introduces_iff h hkeys).mpr (hintroduced μ hμ hshared hhere)

/-- A graph of a well bound body can be classified if and only if every local variable that a view
or an iterator is initialised from is introduced by more than a catch. -/
theorem WellBound.effects_ok_iff (hbound : g.WellBound b) (h : g.Depicts b g.shownGlobals)
    (hkeys : ((globalPoints g.shownGlobals ++ pointsOf b.stmts).map Point.key).Nodup) :
    (∃ effects, g.effects = .ok effects) ↔
      ∀ μ ∈ g.mentions b, μ.shared = true → g.IsKind .localVariable μ.decl →
        g.HasBinder b μ.decl := by
  rw [effects_ok_iff_introduced h hkeys]
  constructor
  · exact fun hintroduced μ hμ hshared hlocal =>
      hintroduced μ hμ hshared (any_declaresHere_iff.mpr (.inl hlocal))
  · intro hintroduced μ hμ hshared hhere
    rcases any_declaresHere_iff.mp hhere with hlocal | ⟨hshows, hglobal⟩
    · exact hintroduced μ hμ hshared hlocal
    · exact .inr (hbound.globals hshows μ hμ hglobal)

end Graph

/-! ## Rounds -/

namespace Pruning

open ControlFlow.Graph

variable {g g' : Graph} {b : Block} {d : DeclId} {ids : List TreeId} {graphOf : Block → Graph}

/-- Rounds go through if each can be made where the rounds before have led. -/
theorem Rounds.goes_through {I : Block → Prop} {r : Except AnalysisFault (Block × Report)}
    (hround : ∀ b, I b → ∃ ids, doomed (graphOf b) b = .ok ids ∧ I (takeOut ids b))
    (h : Rounds graphOf b r) (hb : I b) : ∃ done, r = .ok done := by
  induction h with
  | fails hwhy =>
      obtain ⟨ids, hids, -⟩ := hround _ hb
      rw [hids] at hwhy
      cases hwhy
  | settled _ => exact ⟨_, rfl⟩
  | round hdoomed _ _ ih =>
      obtain ⟨ids, hids, hI⟩ := hround _ hb
      rw [hids] at hdoomed
      cases hdoomed
      obtain ⟨done, rfl⟩ := ih hI
      exact ⟨_, rfl⟩

/-- Whatever views and iterators are initialised from is declared around or is a global, as far as
it is expected to be; and all numbers are distinct. -/
structure Grounded (g : Graph) (b : Block) : Prop where
  ids : (g.shownGlobals.flatMap Global.ids ++ idsOf b.stmts).Nodup
  referents : ∀ μ ∈ g.mentions b, μ.shared = true →
    (g.decl? μ.decl).any g.declaresHere = true →
      μ.decl ∈ μ.binders.declared ∨ ∃ v ∈ g.shownGlobals, v.decl = μ.decl

theorem Grounded.effects_ok (h : Grounded g b) (hdepicts : g.Depicts b g.shownGlobals) :
    ∃ effects, g.effects = .ok effects := by
  refine (effects_ok_iff_introduced hdepicts (nodup_keys_of_ids h.ids)).mpr
    fun μ hμ hshared hhere => (h.referents μ hμ hshared hhere).imp_left fun hdeclared => ?_
  rcases List.mem_append.mp hμ with hglobal | hbody
  · -- Nothing is declared around the initial value of a global.
    obtain ⟨v, -, hv⟩ := List.mem_flatMap.mp hglobal
    rw [(mem_mentionsIn.mp hv).2.2] at hdeclared
    cases hdeclared
  · exact Block.introduced_of_mem_declared hbody hdeclared

/-- A round leaves a body as grounded as it was. -/
theorem Grounded.takeOut (h : Grounded g b) (hdepicts : g.Depicts b g.shownGlobals)
    (hdoomed : doomed g b = .ok ids) (hdecls : g'.decl? = g.decl?)
    (hshows : g'.showsGlobals = g.showsGlobals) (hglobals : g'.shownGlobals = g.shownGlobals) :
    Grounded g' (takeOut ids b) := by
  have hids : (b.allStmts.map Stmt.id).Nodup :=
    (stmtsOf_ids_sublist b.stmts).nodup h.ids.of_append_right
  have hhere : g'.declaresHere = g.declaresHere := by
    funext decl
    unfold Graph.declaresHere
    rw [hshows]
  have hspares : ∀ t ∈ stmtsOf b.stmts, ∀ d ∈ named b, t.declared? = some d →
      ids.contains t.id = false := by
    intro t ht d hd hdeclared
    simpa using not_doomed_of_declared hdepicts hids hdoomed ht hd hdeclared
  have hkeep : Binders.none.Keep (named b) .none := fun d _ hdeclared => hdeclared
  have hremain : Remain b.mentions (Pruning.takeOut ids b).mentions :=
    remain_without.2.1 b.stmts _ _ (hkeep.within hspares) (List.Subset.refl (named b)) hspares
  refine ⟨?_, fun ν hν hshared hexpected => ?_⟩
  · rw [hglobals]
    exact ((List.Sublist.refl _).append (ids_without_sublist.2.1 b.stmts)).nodup h.ids
  · rw [hdecls, hhere] at hexpected
    rw [hglobals]
    rcases List.mem_append.mp hν with hglobal | hbody
    · rw [hglobals] at hglobal
      exact h.referents ν (List.mem_append_left _ hglobal) hshared hexpected
    · obtain ⟨μ, hμ, hdecl, hsame, hdeclared⟩ := hremain ν hbody
      rw [← hdecl] at hexpected ⊢
      exact (h.referents μ (List.mem_append_right _ hμ) (hsame.trans hshared) hexpected).imp_left
        fun hμd => hdecl ▸ hdeclared hμd

end Pruning

namespace Module

open ControlFlow.Graph

variable {m : Module} {scope : Option String} {body : Block}

theorem shownGlobals_graphWith (m : Module) (scope : Option String) (b : Block) :
    (m.graphWith scope b).shownGlobals = m.globalsOf scope := by
  cases scope with
  | none =>
      have hsteps := Steps.extends (steps_ofModule { m with body := b })
      rw [shownGlobals, graphWith, hsteps.showsGlobals_eq, hsteps.module_eq]
      rfl
  | some name =>
      have hsteps := Steps.extends (steps_ofBlock m b)
      rw [shownGlobals, graphWith, hsteps.showsGlobals_eq]
      rfl

theorem showsGlobals_graphWith (m : Module) (scope : Option String) (b : Block) :
    (m.graphWith scope b).showsGlobals = scope.isNone := by
  cases scope with
  | none => exact (Steps.extends (steps_ofModule { m with body := b })).showsGlobals_eq
  | some name => exact (Steps.extends (steps_ofBlock m b)).showsGlobals_eq

theorem Charts.depicts_shown {g : Graph} {b : Block} (h : m.Charts g b) :
    g.Depicts b g.shownGlobals := by
  have hblock (b : Block) : (ofBlock m b).Depicts b (ofBlock m b).shownGlobals := by
    rw [show (ofBlock m b).shownGlobals = [] from shownGlobals_graphWith m (some "") b]
    exact depicts_ofBlock m b
  cases h with
  | module =>
      rw [show (ofModule m).shownGlobals = m.globals from shownGlobals_graphWith m none m.body]
      exact depicts_ofModule m
  | function hf => exact hblock _
  | block hb => exact hblock _

/-- The numbers that a graph of a module with distinct numbers shows are distinct. -/
theorem Charts.nodup_ids (hids : m.ids.Nodup) {g : Graph} {b : Block} (h : m.Charts g b) :
    (g.shownGlobals.flatMap Global.ids ++ idsOf b.stmts).Nodup := by
  have hblock {b : Block} (hb : b ∈ m.blocks) :
      ((ofBlock m b).shownGlobals.flatMap Global.ids ++ idsOf b.stmts).Nodup := by
    rw [show (ofBlock m b).shownGlobals = [] from shownGlobals_graphWith m (some "") b]
    exact (List.nodup_cons.mp (nodup_of_mem_blocks hids hb)).2
  cases h with
  | module =>
      rw [show (ofModule m).shownGlobals = m.globals from shownGlobals_graphWith m none m.body]
      exact nodup_shown_ids hids
  | function hf =>
      exact hblock (List.mem_append_right _ (List.mem_flatMap.mpr ⟨_, hf, List.mem_cons_self⟩))
  | block hb => exact hblock hb

theorem charts_of_bodyOf? (hbody : m.bodyOf? scope = some body) :
    m.Charts (m.graphWith scope body) body := by
  cases scope with
  | none =>
      cases hbody
      exact .module
  | some name =>
      obtain ⟨f, hf, rfl⟩ := Option.map_eq_some_iff.mp hbody
      exact .function (List.mem_of_find?_eq_some hf)

theorem prune_of_grounded (hbody : m.bodyOf? scope = some body)
    (h : Pruning.Grounded (m.graphWith scope body) body) :
    ∃ m' report, m.prune scope = .ok (m', report) := by
  have hdepicts (b : Block) :
      (m.graphWith scope b).Depicts b (m.graphWith scope b).shownGlobals := by
    rw [shownGlobals_graphWith]
    exact m.depicts_graphWith scope b
  have hround (b : Block) (hb : Pruning.Grounded (m.graphWith scope b) b) :
      ∃ ids, Pruning.doomed (m.graphWith scope b) b = .ok ids ∧
        Pruning.Grounded (m.graphWith scope (Pruning.takeOut ids b)) (Pruning.takeOut ids b) := by
    obtain ⟨effects, heffects⟩ := hb.effects_ok (hdepicts b)
    obtain ⟨ids, hids, -⟩ := Pruning.doomed_ok (hdepicts b) heffects
    refine ⟨ids, hids, hb.takeOut (hdepicts b) hids (decl?_eq_of_decls ?_) ?_ ?_⟩
    · rw [decls_graphWith, decls_graphWith]
    · rw [showsGlobals_graphWith, showsGlobals_graphWith]
    · rw [shownGlobals_graphWith, shownGlobals_graphWith]
  have hrounds := Pruning.rounds_pruneBody (m.depicts_graphWith scope) body
  obtain ⟨done, hdone⟩ := hrounds.goes_through hround h
  rw [prune_eq hbody, hdone]
  exact ⟨_, _, rfl⟩

/-- In a module with distinct numbers whose names are all introduced, a graph can be classified if
and only if every local variable that a view or an iterator is initialised from is introduced by
more than a catch; pruning fails at once if one of them is not, and it never fails if all of them
are declared around by statements or loops. -/
theorem analysis_of_wellBound (hids : m.ids.Nodup) :
    (∀ g b, m.Charts g b → g.WellBound b →
      ((∃ a, (Analysis.ofGraph g).classify = .ok a) ↔ ∀ μ ∈ g.mentions b, μ.shared = true →
        g.IsKind .localVariable μ.decl → g.HasBinder b μ.decl)) ∧
    ∀ scope body g, m.bodyOf? scope = some body → m.graph scope = .ok g → g.WellBound body →
      ((∀ μ ∈ g.mentions body, μ.shared = true → g.IsKind .localVariable μ.decl →
        μ.decl ∈ μ.binders.declared) → ∃ m' report, m.prune scope = .ok (m', report)) ∧
      ((∃ μ ∈ g.mentions body, μ.shared = true ∧ g.IsKind .localVariable μ.decl ∧
        ¬ g.HasBinder body μ.decl) → ∃ name referrer, m.prune scope =
          .error (.analysis (.noSite name referrer))) := by
  have hclassify (g : Graph) : (∃ a, (Analysis.ofGraph g).classify = .ok a) ↔
      ∃ effects, g.effects = .ok effects := by
    unfold Analysis.classify Analysis.ofGraph
    cases g.effects with
    | error why =>
        constructor
        · rintro ⟨a, ha⟩
          cases ha
        · rintro ⟨effects, heffects⟩
          cases heffects
    | ok effects => exact ⟨fun _ => ⟨_, rfl⟩, fun _ => ⟨_, rfl⟩⟩
  have heffects (g : Graph) (b : Block) (hcharts : m.Charts g b) (hbound : g.WellBound b) :=
    hbound.effects_ok_iff hcharts.depicts_shown (nodup_keys_of_ids (hcharts.nodup_ids hids))
  refine ⟨fun g b hcharts hbound => (hclassify g).trans (heffects g b hcharts hbound), ?_⟩
  intro scope body g hbody hgraph hbound
  rw [graph_eq hbody] at hgraph
  cases hgraph
  have hcharts := charts_of_bodyOf? hbody
  refine ⟨fun hdeclared => prune_of_grounded hbody ⟨hcharts.nodup_ids hids, ?_⟩, ?_⟩
  · intro μ hμ hshared hhere
    rcases any_declaresHere_iff.mp hhere with hlocal | ⟨hshows, hglobal⟩
    · exact .inl (hdeclared μ hμ hshared hlocal)
    · exact .inr (hbound.globals hshows μ hμ hglobal)
  · rintro ⟨μ, hμ, hshared, hlocal, hunbound⟩
    cases hfails : (m.graphWith scope body).effects with
    | ok effects =>
        exact absurd ((heffects _ _ hcharts hbound).mp ⟨effects, hfails⟩ μ hμ hshared hlocal)
          hunbound
    | error why =>
        obtain ⟨name, referrer, rfl⟩ := effects_error hfails
        refine ⟨name, referrer, ?_⟩
        rw [prune_eq hbody, Pruning.pruneBody, Pruning.doomed_error hfails]

/-- A module with an iterator over `e` in a catch, whose parameter may be `e`, behind some other
statements. -/
def iterating (param : Option DeclId) (first : List Stmt) : Module :=
  let iterator := .simple 7 (.declare ⟨1, "it", .iterator .bytes, some (.name 8 "e" (some 0))⟩)
  let leave := .jump 9 (.return (some (.name 10 "it" (some 1))))
  ⟨"m", [⟨0, "e", .localVariable, .bytes, false⟩,
    ⟨1, "it", .localVariable, .iterator .bytes, false⟩], [],
    ⟨1, first ++ [.try 2 ⟨3, [.simple 4 .yield]⟩ [⟨5, param, ⟨6, [iterator, leave]⟩⟩]]⟩, []⟩

/-- A declaration of `e`. -/
def declaringE : Stmt := .simple 11 (.declare ⟨0, "e", .bytes, none⟩)

theorem decl?_iterating (param : Option DeclId) (first : List Stmt) :
    (ofModule (iterating param first)).decl? = (empty (iterating param first) true).decl? :=
  decl?_eq_of_decls (congrArg Module.decls (ofModule_module _))

theorem shownGlobals_iterating (param : Option DeclId) (first : List Stmt) :
    (ofModule (iterating param first)).shownGlobals = [] :=
  shownGlobals_graphWith (iterating param first) none (iterating param first).body

theorem mentions_iterating (param : Option DeclId) (first : List Stmt) :
    (ofModule (iterating param first)).mentions (iterating param first).body =
      (iterating param first).body.mentions := by
  rw [mentions, shownGlobals_iterating]
  rfl

theorem wellBound_iterating (param : Option DeclId) (first : List Stmt)
    (hbody : ∀ μ ∈ (iterating param first).body.mentions,
      (μ.decl ∈ μ.binders.declared ∨ μ.decl ∈ μ.binders.caught) ∧ (μ.decl = 0 ∨ μ.decl = 1)) :
    (ofModule (iterating param first)).WellBound (iterating param first).body := by
  rw [← mentions_iterating] at hbody
  refine ⟨fun μ hμ _ => (hbody μ hμ).1, fun _ μ hμ hglobal => ?_⟩
  -- Both variables are local ones.
  obtain ⟨decl, hdecl, hkind⟩ := hglobal
  rw [decl?_iterating] at hdecl
  rcases (hbody μ hμ).2 with hzero | hone
  · rw [hzero] at hdecl
    cases hdecl
    cases hkind
  · rw [hone] at hdecl
    cases hdecl
    cases hkind

/-- An iterator over a variable that is declared around it can be pruned, even if it stands in a
catch; one over the parameter of the catch cannot. -/
theorem analysis_of_wellBound_iterating :
    ((iterating none [declaringE]).ids.Nodup ∧
      (ofModule (iterating none [declaringE])).WellBound (iterating none [declaringE]).body ∧
      (∃ a, (Analysis.ofGraph (ofModule (iterating none [declaringE]))).classify = .ok a) ∧
      ∃ m' report, (iterating none [declaringE]).prune none = .ok (m', report)) ∧
    (iterating (some 0) []).ids.Nodup ∧
      (ofModule (iterating (some 0) [])).WellBound (iterating (some 0) []).body ∧
      ∃ name referrer, (iterating (some 0) []).prune none =
        .error (.analysis (.noSite name referrer)) := by
  have hids : (iterating none [declaringE]).ids.Nodup := by decide
  have hids' : (iterating (some 0) []).ids.Nodup := by decide
  have hbound := wellBound_iterating none [declaringE] (by decide)
  have hbound' := wellBound_iterating (some 0) [] (by decide)
  obtain ⟨hclassify, hprune⟩ := analysis_of_wellBound hids
  have hdeclared : ∀ μ ∈ (ofModule (iterating none [declaringE])).mentions
      (iterating none [declaringE]).body, μ.decl ∈ μ.binders.declared ∧
        μ.decl ∈ introducedBy (iterating none [declaringE]).body.stmts := by
    rw [mentions_iterating]
    decide
  have hlocal : (ofModule (iterating (some 0) [])).IsKind .localVariable 0 := by
    unfold IsKind
    rw [decl?_iterating]
    exact ⟨_, rfl, rfl⟩
  have hunbound : ¬ (ofModule (iterating (some 0) [])).HasBinder (iterating (some 0) []).body 0 := by
    unfold HasBinder
    rw [shownGlobals_iterating]
    decide
  have hcaught : ⟨0, true, ⟨[1], [0]⟩⟩ ∈ (ofModule (iterating (some 0) [])).mentions
      (iterating (some 0) []).body := by
    rw [mentions_iterating]
    exact List.mem_cons_self
  refine ⟨⟨hids, hbound, (hclassify _ _ .module hbound).mpr fun μ hμ _ _ =>
    .inl (hdeclared μ hμ).2, ?_⟩, hids', hbound', ?_⟩
  · exact (hprune none _ _ rfl rfl hbound).1 fun μ hμ _ _ => (hdeclared μ hμ).1
  · exact ((analysis_of_wellBound hids').2 none _ _ rfl rfl hbound').2
      ⟨_, hcaught, rfl, hlocal, hunbound⟩

/-- An iterator over the parameter of a catch: all names are introduced around them, but the module
can neither be analysed nor pruned. -/
theorem analysis_lacks_caught : (iterating (some 0) []).ids.Nodup ∧
    (ofModule (iterating (some 0) [])).WellBound (iterating (some 0) []).body ∧
    (Analysis.ofGraph (ofModule (iterating (some 0) []))).solve.2 =
      some (.noSite (some "e") "local iterator<bytes> it = e;") ∧
    (iterating (some 0) []).prune none =
      .error (.analysis (.noSite (some "e") "local iterator<bytes> it = e;")) := by
  have hsolve : (Analysis.ofGraph (ofModule (iterating (some 0) []))).solve.2 =
      some (.noSite (some "e") "local iterator<bytes> it = e;") := by cbv
  have hprune : (iterating (some 0) []).prune none =
      .error (.analysis (.noSite (some "e") "local iterator<bytes> it = e;")) := by cbv
  exact ⟨by decide, wellBound_iterating (some 0) [] (by decide), hsolve, hprune⟩

end Module

end ControlFlow

import ControlFlow.CommandLine.Run
import ControlFlow.Proofs.Graph.Census
import ControlFlow.Proofs.Pruning.Reported
import Mathlib.Data.Set.Finite.List
import Mathlib.Order.WellFounded

/-! # What is pruned without being announced

The report of unreachable nodes announces those that no edge enters, and the unused ones; pruning
goes by what no drawn path from the start reaches. The two differ behind jumps. A loop there enters
its own condition, so that none of its nodes is announced, and a join that nothing enters is a mark,
which never is; but all that is behind them is dead.
-/

namespace ControlFlow

open Search (Path)

theorem Search.Path.trans {edges : List (Nat × Nat)} {passes : Nat → Bool} {k l m : Nat}
    (h : Path edges passes k l) (hpass : passes l = true) (h' : Path edges passes l m) :
    Path edges passes k m := by
  induction h' with
  | edge hedge => exact .step h hpass hedge
  | step _ hpass' hedge ih => exact .step ih hpass' hedge

theorem Search.Path.origin_mem {edges : List (Nat × Nat)} {passes : Nat → Bool} {k m : Nat}
    (h : Path edges passes k m) : ∃ l, (k, l) ∈ edges := by
  induction h with
  | edge hedge => exact ⟨_, hedge⟩
  | step _ _ _ ih => exact ih

namespace Graph

/-- A drawn path leads from one node to another. -/
def Reaches (g : Graph) (k n : NodeId) : Prop := Path g.edges (fun _ => true) k n

/-- A node, and all from which drawn paths lead to it. -/
def ancestors (g : Graph) (n : NodeId) : Set NodeId := { k | k = n ∨ g.Reaches k n }

/-- No edge is drawn into a node. -/
def Unentered (g : Graph) (n : NodeId) : Prop := ∀ e ∈ g.edges, e.2 ≠ n

variable {g : Graph} {k l n : NodeId}

/-! ## Going back along edges -/

theorem Reaches.trans (h : g.Reaches k l) (h' : g.Reaches l n) : g.Reaches k n :=
  Search.Path.trans h rfl h'

theorem mem_unreachable : n ∈ g.unreachable ↔
    (∃ p, g.nodes[n]? = some p ∧ p.isMark = false) ∧ g.Unentered n := by
  unfold unreachable Unentered
  rw [mem_select]
  simp

/-- Where a node is not live, none of its ancestors is. -/
theorem not_live_of_mem_ancestors (hk : k ∈ g.ancestors n) (hn : ¬ g.Live n) : ¬ g.Live k := by
  rcases hk with rfl | hk
  · exact hn
  rintro (rfl | hlive)
  · exact hn (.inr hk)
  · exact hn (.inr (hlive.trans rfl hk))

theorem mem_ancestors_of_reaches (h : g.Reaches l k) (hk : k ∈ g.ancestors n) :
    l ∈ g.ancestors n := by
  rcases hk with rfl | hk
  · exact .inr h
  · exact .inr (h.trans hk)

theorem finite_ancestors (g : Graph) (n : NodeId) : (g.ancestors n).Finite := by
  refine (List.finite_toSet (n :: g.edges.map Prod.fst)).subset fun k hk => ?_
  rcases hk with rfl | hk
  · exact List.mem_cons_self
  · obtain ⟨l, hl⟩ := Search.Path.origin_mem hk
    exact List.mem_cons_of_mem _ (List.mem_map_of_mem hl)

/-- Whoever goes back along edges comes to a cycle, or to a node that no edge enters. -/
theorem exists_origin (g : Graph) (n : NodeId) :
    ∃ k ∈ g.ancestors n, g.Reaches k k ∨ g.Unentered k := by
  by_cases hcycle : ∃ k ∈ g.ancestors n, g.Reaches k k
  · obtain ⟨k, hk, hself⟩ := hcycle
    exact ⟨k, hk, .inl hself⟩
  -- Without cycles, one of the finitely many ancestors has no ancestor but itself.
  have : Finite (g.ancestors n) := g.finite_ancestors n
  have : IsTrans (g.ancestors n) fun k l => g.Reaches k l := ⟨fun _ _ _ h h' => h.trans h'⟩
  have : Std.Irrefl fun k l : g.ancestors n => g.Reaches k l :=
    ⟨fun k h => hcycle ⟨k, k.2, h⟩⟩
  have hwf := Finite.wellFounded_of_trans_of_irrefl fun k l : g.ancestors n => g.Reaches k l
  obtain ⟨⟨k, hk⟩, -, hfirst⟩ := hwf.has_min Set.univ ⟨⟨n, .inl rfl⟩, trivial⟩
  refine ⟨k, hk, .inr fun e he hek => ?_⟩
  have hedge : g.Reaches e.1 k := .edge (hek ▸ he)
  exact hfirst ⟨e.1, mem_ancestors_of_reaches hedge hk⟩ trivial hedge

end Graph

namespace Module

open ControlFlow.Graph

variable {m : Module} {g : Graph} {b : Block} {k n : NodeId}

/-- A mark of a graph with distinct numbers that is neither its start nor its end is a join. -/
theorem Charts.isJoin (hids : m.ids.Nodup) (h : m.Charts g b) {p : Point}
    (hp : g.nodes[k]? = some p) (hmark : p.isMark = true) (hstart : k ≠ start)
    (hfinish : k ≠ finish) : g.isJoin k = true := by
  obtain ⟨showsGlobals, hsteps⟩ := h.exists_steps
  obtain ⟨_, hgains⟩ := h.gains hids
  have hframed := (framed_empty m showsGlobals).mono (Steps.extends hsteps)
  have hnodup : g.nodes.Nodup := h.depicts_shown.nodup_keys.of_map _
  have heq {l : NodeId} (hl : g.nodes[l]? = some p) : k = l :=
    (List.getElem?_inj (List.getElem?_eq_some_iff.mp hp).1 hnodup).mp (hp.trans hl.symm)
  have hmem : p ∈ g.markNodes := List.mem_filter.mpr ⟨List.mem_of_getElem? hp, hmark⟩
  rw [hgains.markNodes] at hmem
  rcases List.mem_append.mp hmem with hends | hjoins
  · rcases List.mem_pair.mp (List.mem_filter.mp hends).1 with rfl | rfl
    · exact absurd (heq hframed.getElem?_start) hstart
    · exact absurd (heq hframed.getElem?_finish) hfinish
  · obtain ⟨counter, -, rfl⟩ := List.mem_map.mp hjoins
    unfold Graph.isJoin
    rw [hp]

/-- Where no node is announced, each dead node lies on or behind a drawn cycle that no drawn path
from the start reaches, or behind a join that nothing enters. -/
theorem Charts.exists_origin_of_dead (hids : m.ids.Nodup) (h : m.Charts g b)
    (hnone : g.unreachable = []) (hn : n ∈ g.dead) :
    ∃ k ∈ g.ancestors n, ¬ g.Live k ∧
      (g.Reaches k k ∨ g.isJoin k = true ∧ g.Unentered k) := by
  have honward := h.depicts_shown.onward
  obtain ⟨⟨q, hq, hqmark⟩, hdead⟩ := mem_dead.mp hn
  obtain ⟨k, hk, horigin⟩ := g.exists_origin n
  have hlive := not_live_of_mem_ancestors hk hdead
  refine ⟨k, hk, hlive, horigin.imp_right fun hunentered => ⟨?_, hunentered⟩⟩
  -- All nodes but marks are entered, so that this one is a mark and leads on to the dead node.
  have hmark {p : Point} (hp : g.nodes[k]? = some p) : p.isMark = true := by
    refine Bool.not_eq_false _ |>.mp fun hpart => ?_
    exact List.not_mem_nil (hnone ▸ mem_unreachable.mpr ⟨⟨p, hp, hpart⟩, hunentered⟩)
  have hleads : g.Reaches k n := by
    refine hk.resolve_left ?_
    rintro rfl
    rw [hmark hq] at hqmark
    cases hqmark
  obtain ⟨l, hedge⟩ := Search.Path.origin_mem hleads
  obtain ⟨⟨hlt, hfinish⟩, -⟩ := honward _ (mem_flows.mpr (.inl hedge))
  have hp := List.getElem?_eq_getElem hlt
  exact h.isJoin hids hp (hmark hp) (fun hstart => hlive (.inl hstart)) hfinish

end Module

/-! ## A round where nothing is announced -/

namespace Pruning

variable {g : Graph} {effects : Array Effect} {body : Block} {globals : List Global} {s : Stmt}
  {low : Nat}

theorem isShielded_iff : isShielded (named body) s = true ↔ (Point.stmt s).DeclaresNamed body := by
  refine ⟨declares_of_isShielded, ?_⟩
  rintro ⟨id, var, heq, e, he, hnamed⟩
  cases heq
  exact List.contains_iff_mem.mpr (List.mem_filterMap.mpr ⟨e, he, hnamed⟩)

/-- Where no node is unused, a round finds what is behind a jump, unless it is unlisted. -/
theorem doomed_of_select_nil (hdepicts : g.Depicts body globals)
    (heffects : g.effects = .ok effects)
    (hids : (globals.flatMap Global.ids ++ idsOf body.stmts).Nodup)
    (hcut : g.AllCut low (deadStmtsOf body.stmts)) (hlow : 0 < low)
    (hnone : g.select (Analysis.solved g effects).isUnused = []) :
    ∃ ids, doomed g body = .ok ids ∧
      ∀ id, id ∈ ids ↔ ∃ s, body.BehindJump s ∧ ¬ body.Unlisted s ∧ s.id = id := by
  have hnodup : body.allStmts.Nodup :=
    ((stmtsOf_ids_sublist body.stmts).nodup hids.of_append_right).of_map _
  obtain ⟨ids, hdoomed, hmem⟩ := doomed_ok hdepicts heffects
  refine ⟨ids, hdoomed, fun id => (hmem id).trans ⟨?_, ?_⟩⟩
  · rintro ⟨s, rfl, hshield, hcondemned⟩
    have hnode := hcondemned.ownPoints_ne_nil hdepicts
    rcases hcondemned with ⟨n, hn, -⟩ | ⟨n, hn, p, hp, howner⟩
    · rw [hnone] at hn
      cases hn
    · refine ⟨s, behindJump_of_dead hdepicts hnodup hn hp howner, ?_, rfl⟩
      rintro (hown | hdeclares)
      · exact hnode hown
      · rw [isShielded_iff.mpr hdeclares] at hshield
        cases hshield
  · rintro ⟨s, hbehind, hlisted, rfl⟩
    obtain ⟨hnode, hdeclares⟩ := not_or.mp hlisted
    refine ⟨s, rfl, Bool.eq_false_iff.mpr fun hshield => hdeclares (isShielded_iff.mp hshield), ?_⟩
    exact condemns_of_behindJump hdepicts hids hcut hlow hbehind hnode

theorem setBody_of_find? {name : String} {f : Function} {fs : List Function}
    (h : fs.find? (fun f => f.name = name) = some f) : setBody name f.body fs = fs := by
  induction fs with
  | nil => rfl
  | cons f' rest ih =>
      by_cases hname : f'.name = name
      · rw [List.find?_cons_of_pos (by simpa using hname)] at h
        cases h
        exact if_pos hname
      · rw [List.find?_cons_of_neg (by simpa using hname)] at h
        rw [setBody, if_neg hname, ih h]

end Pruning

namespace Module

variable {m : Module} {scope : Option String} {body : Block}

theorem withBody_self (hbody : m.bodyOf? scope = some body) : m.withBody body scope = m := by
  cases scope with
  | none =>
      cases hbody
      rfl
  | some name =>
      obtain ⟨f, hf, rfl⟩ := Option.map_eq_some_iff.mp hbody
      rw [withBody, Pruning.setBody_of_find? hf]

theorem exists_graph_error (hbody : m.bodyOf? scope = none) :
    ∃ fault, m.graph scope = .error fault := by
  cases scope with
  | none => cases hbody
  | some name =>
      refine ⟨.unknownFunction m.name name, ?_⟩
      change (m.function name).map (Graph.ofFunction m) = _
      unfold function
      rw [Option.map_eq_none_iff.mp hbody]
      rfl

/-- Pruning changes nothing exactly where its first round finds nothing. -/
theorem prune_eq_self_iff (hbody : m.bodyOf? scope = some body) :
    m.prune scope = .ok (m, ⟨[], 1⟩) ↔ Pruning.doomed (m.graphWith scope body) body = .ok [] := by
  constructor
  · intro hprune
    obtain ⟨body', pruned, hbody', -, rfl, hrounds⟩ := exists_of_prune hprune
    rw [hbody] at hbody'
    cases hbody'
    have hsettles := hrounds.settles
    rwa [Pruning.takeOut_nil] at hsettles
  · intro hdoomed
    simp only [prune_eq hbody, Pruning.pruneBody_of_settled hdoomed, withBody_self hbody]

end Module

namespace CommandLine

open ControlFlow.Graph

variable {a : Analysis} {unused : List NodeId} {m : Module} {scope : Option String}

/-- Lines that are not empty make a text that is not. -/
theorem intercalate_eq_empty {separator : String} {lines : List String}
    (hlines : ∀ line ∈ lines, line ≠ "") : separator.intercalate lines = "" ↔ lines = [] := by
  cases lines with
  | nil => simp
  | cons line rest =>
      have hline := hlines line List.mem_cons_self
      cases rest with
      | nil => simpa using hline
      | cons next rest => simp [String.intercalate_cons_cons, hline]

/-- The report is empty only if there is nothing to list, since each of its lines has a title. -/
theorem unreachableText_eq_empty :
    unreachableText a unused = "" ↔ a.graph.unreachable = [] ∧ unused = [] := by
  unfold unreachableText
  rw [intercalate_eq_empty, List.append_eq_nil_iff, List.map_eq_nil_iff, List.map_eq_nil_iff]
  intro line hline
  rcases List.mem_append.mp hline with hline | hline
  · obtain ⟨n, -, rfl⟩ := List.mem_map.mp hline
    simp
  · obtain ⟨n, -, rfl⟩ := List.mem_map.mp hline
    simp

/-- Where the report is empty, the scope has a graph in which every node is entered and used. -/
theorem exists_effects_of_silent (hsilent : stageText m scope .unreachable = .ok "") :
    ∃ body effects, m.bodyOf? scope = some body ∧
      (m.graphWith scope body).effects = .ok effects ∧
      (m.graphWith scope body).unreachable = [] ∧
      (m.graphWith scope body).select
        (Analysis.solved (m.graphWith scope body) effects).isUnused = [] := by
  cases hbody : m.bodyOf? scope with
  | none =>
      obtain ⟨fault, hfault⟩ := Module.exists_graph_error hbody
      have herror : stageText m scope .unreachable = .error _ := congrArg (· >>= _) hfault
      rw [hsilent] at herror
      cases herror
  | some body =>
      have hdepicts := m.depicts_graphWith scope body
      have hreport : stageText m scope .unreachable = stageText.inScope (m.graphWith scope body)
          fun a => return unreachableText a (← a.unused) :=
        congrArg (· >>= _) (Module.graph_eq hbody)
      rw [hsilent] at hreport
      unfold stageText.inScope at hreport
      cases heffects : (m.graphWith scope body).effects with
      | error why =>
          rw [Analysis.ofSolved_error heffects] at hreport
          cases hreport
      | ok effects =>
          simp only [Analysis.ofSolved_ok hdepicts.inside heffects,
            Analysis.unused_solved hdepicts.nodes_ne_nil heffects] at hreport
          have htext := (Except.ok.inj hreport).symm
          exact ⟨body, effects, rfl, heffects, unreachableText_eq_empty.mp htext⟩

/-- Where the report of unreachable nodes is empty, pruning changes nothing exactly if all that is
behind a jump has no nodes or is a declaration that is still named. Whatever is dead there lies on
or behind a drawn cycle that no drawn path from the start reaches, or behind a join that nothing
enters. -/
theorem prune_of_silent (hids : m.ids.Nodup) (hsilent : stageText m scope .unreachable = .ok "") :
    ∃ body g, m.bodyOf? scope = some body ∧ m.graph scope = .ok g ∧
      (m.prune scope = .ok (m, ⟨[], 1⟩) ↔ ∀ s, body.BehindJump s → body.Unlisted s) ∧
      ∀ n ∈ g.dead, ∃ k ∈ g.ancestors n, ¬ g.Live k ∧
        (g.Reaches k k ∨ g.isJoin k = true ∧ g.Unentered k) := by
  obtain ⟨body, effects, hbody, heffects, hentered, hused⟩ := exists_effects_of_silent hsilent
  have hcharts := Module.charts_of_bodyOf? hbody
  have hnodup := hcharts.nodup_ids hids
  rw [Module.shownGlobals_graphWith] at hnodup
  obtain ⟨low, hlow, hcut⟩ := m.exists_allCut_graphWith scope body hnodup
  obtain ⟨ids, hdoomed, hmem⟩ := Pruning.doomed_of_select_nil (m.depicts_graphWith scope body)
    heffects hnodup hcut hlow hused
  refine ⟨body, _, hbody, Module.graph_eq hbody, ?_,
    fun n hn => hcharts.exists_origin_of_dead hids hentered hn⟩
  rw [Module.prune_eq_self_iff hbody, hdoomed]
  constructor
  · rintro hnil s hbehind
    cases hnil
    by_contra hlisted
    exact List.not_mem_nil ((hmem s.id).mpr ⟨s, hbehind, hlisted, rfl⟩)
  · intro hall
    refine congrArg Except.ok (List.eq_nil_iff_forall_not_mem.mpr fun id hid => ?_)
    obtain ⟨s, hbehind, hlisted, -⟩ := (hmem id).mp hid
    exact hlisted (hall s hbehind)

/-- A loop that goes on at once; behind that a `try` with nothing in it, and then the declaration of
the variable that the loop tests. -/
def idle : Module :=
  let x : Stmt := .simple 8 (.declare ⟨1, "x", .bool, some (.literal 9 (.bool true))⟩)
  let loop := .while 2 (.name 3 "x" (some 1)) ⟨4, [.jump 5 .continue, .try 6 ⟨7, []⟩ [], x]⟩ none
  ⟨"idle", [⟨1, "x", .localVariable, .bool, false⟩], [], ⟨0, [loop]⟩, []⟩

/-- Nothing is announced, and nothing is pruned: the `try` has no nodes, and the declaration, which
is dead, is still named. -/
theorem prune_of_silent_idle : idle.ids.Nodup ∧ stageText idle none .unreachable = .ok "" ∧
    (ofModule idle).dead = [4] ∧ idle.prune none = .ok (idle, ⟨[], 1⟩) := by
  have hids : idle.ids.Nodup := by decide
  have hsilent : stageText idle none .unreachable = .ok "" := by cbv
  obtain ⟨body, g, hbody, -, hiff, -⟩ := prune_of_silent hids hsilent
  cases hbody
  refine ⟨hids, hsilent, by cbv, hiff.mpr fun s hbehind => ?_⟩
  rcases List.mem_pair.mp (mem_deadStmtsOf_iff.mpr hbehind) with rfl | rfl
  · exact .inl rfl
  · exact .inr ⟨8, _, rfl, .name 3 "x" (some 1), List.mem_cons_self, rfl⟩

/-- Nothing is announced, but the loop behind the jump is pruned. -/
theorem prune_despite_silence : Module.spinning.ids.Nodup ∧
    stageText Module.spinning none .unreachable = .ok "" ∧
    Module.spinning.prune none =
      .ok ({ Module.spinning with body := ⟨0, [.jump 1 (.return none)]⟩ }, ⟨[2, 5], 2⟩) := by
  refine ⟨by decide, ?_, ?_⟩
  · cbv
  · cbv

end CommandLine

end ControlFlow

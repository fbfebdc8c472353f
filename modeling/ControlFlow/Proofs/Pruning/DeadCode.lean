import ControlFlow.Proofs.Flow.Coverage
import ControlFlow.Proofs.Graph.CutOff
import ControlFlow.Proofs.Pruning.Convergence

/-! # Dead code

The dead nodes of a flow graph are those that no drawn path from its start reaches. Although such
paths leave out many ways that a run can take, the dead nodes are exactly what stands behind a jump
in the body: all of it, and nothing that a run could visit.
-/

namespace ControlFlow

namespace Graph

variable {g : Graph} {b : Block} {globals : List Global} {low : Nat} {p : Point} {n : NodeId}
  {s : Stmt}

/-- A node that is found for a key is the only one with that key. -/
theorem Depicts.eq_of_find? (h : g.Depicts b globals) (hp : g.nodes[n]? = some p) {m : NodeId}
    (hm : g.find? p.key = some m) : m = n := by
  rw [find?_of_getElem? h.nodup_keys hp] at hm
  exact (Option.some.inj hm).symm

theorem Depicts.not_dead_of_global (h : g.Depicts b globals) {v : Global}
    (hv : g.nodes[n]? = some (.global v)) : n ∉ g.dead := by
  obtain ⟨m, hm, hlive⟩ := h.live_globals v (h.global_mem (List.mem_of_getElem? hv))
  rw [h.eq_of_find? hv hm] at hlive
  exact fun hdead => (mem_dead.mp hdead).2 hlive

/-- Where all numbers are distinct, a node that is no mark and no global has as its owner the one
statement that shows it. -/
theorem Depicts.exists_owner (h : g.Depicts b globals) (hids : (idsOf b.stmts).Nodup)
    (hp : p ∈ g.nodes) (hmark : p.isMark = false) (hglobal : ∀ v, p ≠ .global v) :
    ∃ s ∈ b.allStmts, p ∈ s.ownPoints ∧ g.owner? p = some s := by
  obtain ⟨s, hs, hown⟩ := h.exists_own hp hmark hglobal
  refine ⟨s, hs, hown, ?_⟩
  rcases ownPoints_cases hown with rfl | ⟨id, hid, hcontrol⟩
  · rfl
  obtain ⟨t, ht⟩ := Pruning.exists_controlOwner h hs hcontrol
  obtain ⟨htmem, htown⟩ := h.controlOwner_mem ht
  -- The number of the control is a number of both statements.
  have hmem {u : Stmt} (hu : (id, u) ∈ u.controls) : id ∈ u.ownIds :=
    List.mem_cons_of_mem _ (List.mem_map.mpr ⟨(id, u), hu, rfl⟩)
  have heq := eq_of_mem_ownIds hids htmem hs (hmem htown) (hmem hcontrol)
  subst heq
  cases p with
  | expr e =>
      cases hid
      exact ht
  | loopVar var =>
      cases hid
      exact ht
  | _ => cases hid

/-- Where all numbers are distinct, the owner of each point is the statement that shows it. -/
theorem Depicts.owner?_of_mem_ownPoints (h : g.Depicts b globals)
    (hids : (globals.flatMap Global.ids ++ idsOf b.stmts).Nodup) (hs : s ∈ b.allStmts)
    (hp : p ∈ s.ownPoints) : g.owner? p = some s := by
  have hkind : p.isMark = false ∧ ∀ v, p ≠ .global v := by
    rcases ownPoints_cases hp with rfl | ⟨id, hid, -⟩
    · exact ⟨rfl, nofun⟩
    · cases p with
      | expr e => exact ⟨rfl, nofun⟩
      | loopVar var => exact ⟨rfl, nofun⟩
      | _ => cases hid
  have hnode : p ∈ g.nodes := (h.mem_nodes_iff (nodup_keys_of_ids hids) hkind.1).mpr
    (List.mem_append_right _ (List.mem_flatMap.mpr ⟨s, hs, hp⟩))
  obtain ⟨t, ht, htown, howner⟩ := h.exists_owner hids.of_append_right hnode hkind.1 hkind.2
  -- Both statements have the number of the point.
  have hown {u : Stmt} (hu : p ∈ u.ownPoints) : p.key ∈ u.ownIds.map Key.tree :=
    (ownPoints_keys_sublist u).subset (List.mem_map_of_mem hu)
  obtain ⟨id, hid, hkey⟩ := List.mem_map.mp (hown htown)
  obtain ⟨id', hid', hkey'⟩ := List.mem_map.mp (hown hp)
  cases hkey.trans hkey'.symm
  rw [howner, eq_of_mem_ownIds hids.of_append_right ht hs hid hid']

/-- What is cut off is dead. -/
theorem AllCut.dead {ss : List Stmt} (h : g.AllCut low ss) (hlow : 0 < low) (hs : s ∈ ss)
    (hp : g.nodes[n]? = some p) (hown : p ∈ s.ownPoints)
    (hkeys : (g.nodes.map Point.key).Nodup) : n ∈ g.dead := by
  obtain ⟨m, hm, hcut⟩ := h s hs p hown
  rw [find?_of_getElem? hkeys hp] at hm
  cases hm
  obtain ⟨id, hid⟩ := key_of_mem_ownPoints hown
  refine mem_dead.mpr ⟨⟨p, hp, ?_⟩, hcut.not_live hlow⟩
  cases p with
  | mark kind counter => cases hid
  | _ => rfl

/-- Where what is behind a jump is cut off, a node is dead if and only if the statement that shows
it is behind a jump. -/
theorem Depicts.mem_dead_iff (h : g.Depicts b globals) (hids : (idsOf b.stmts).Nodup)
    (hcut : g.AllCut low (deadStmtsOf b.stmts)) (hlow : 0 < low) (hp : g.nodes[n]? = some p)
    (hs : s ∈ b.allStmts) (hown : p ∈ s.ownPoints) : n ∈ g.dead ↔ b.BehindJump s := by
  have hnodup : b.allStmts.Nodup := ((stmtsOf_ids_sublist b.stmts).nodup hids).of_map _
  constructor
  · intro hdead
    by_contra hlive
    obtain ⟨m, hm, hpath⟩ := h.live s ((mem_liveStmtsOf_iff hnodup hs).mpr hlive) p hown
    rw [h.eq_of_find? hp hm] at hpath
    exact (mem_dead.mp hdead).2 hpath
  · exact fun hbehind => hcut.dead hlow (mem_deadStmtsOf_iff.mpr hbehind) hp hown h.nodup_keys

end Graph

namespace Module

open ControlFlow.Graph

variable {m : Module} {g : Graph} {b : Block}

/-- The graphs of a module with distinct numbers show their body, each point by a node of its own,
and cut off what is behind a jump in it. -/
theorem Charts.depicts (hids : m.ids.Nodup) (h : m.Charts g b) :
    ∃ globals low, g.Depicts b globals ∧ (idsOf b.stmts).Nodup ∧
      ((globalPoints globals ++ pointsOf b.stmts).map Point.key).Nodup ∧
      0 < low ∧ g.AllCut low (deadStmtsOf b.stmts) := by
  have hblock {b : Block} (hb : b ∈ m.blocks) : ∃ globals low, (ofBlock m b).Depicts b globals ∧
      (idsOf b.stmts).Nodup ∧ ((globalPoints globals ++ pointsOf b.stmts).map Point.key).Nodup ∧
      0 < low ∧ (ofBlock m b).AllCut low (deadStmtsOf b.stmts) := by
    have hnodup := (List.nodup_cons.mp (nodup_of_mem_blocks hids hb)).2
    obtain ⟨low, hlow, hcut⟩ := exists_allCut_ofBlock m hnodup
    exact ⟨[], low, depicts_ofBlock m b, hnodup, nodup_point_keys hnodup, hlow, hcut⟩
  cases h with
  | module =>
      have hnodup := nodup_shown_ids hids
      obtain ⟨low, hlow, hcut⟩ := exists_allCut_ofModule hnodup
      exact ⟨m.globals, low, depicts_ofModule m, hnodup.of_append_right, nodup_keys_of_ids hnodup,
        hlow, hcut⟩
  | function hf =>
      exact hblock (List.mem_append_right _ (List.mem_flatMap.mpr ⟨_, hf, List.mem_cons_self⟩))
  | block hb => exact hblock hb

/-- In a graph of a module with distinct numbers, the dead nodes are exactly those of the
statements behind a jump. Each node that is no mark and no global is owned by the statement that
shows it, and every point behind a jump has a node, which is dead; but no global is dead, and no
node that a run visits. -/
theorem dead_iff_behindJump (hids : m.ids.Nodup) (h : m.Charts g b) :
    (∀ n, n ∈ g.dead ↔
      ∃ p s, g.nodes[n]? = some p ∧ g.owner? p = some s ∧ b.BehindJump s) ∧
    (∀ p ∈ g.nodes, p.isMark = false → (∀ v, p ≠ .global v) →
      ∃ s ∈ b.allStmts, p ∈ s.ownPoints ∧ g.owner? p = some s) ∧
    (∀ s, b.BehindJump s → ∀ p ∈ s.ownPoints, ∃ n ∈ g.dead, g.nodes[n]? = some p) ∧
    (∀ n v, g.nodes[n]? = some (.global v) → n ∉ g.dead) ∧
    ∀ visits o, Runs b.stmts visits o → ∀ p ∈ visits, ∀ n, g.nodes[n]? = some p → n ∉ g.dead := by
  obtain ⟨globals, low, hdepicts, hnodup, hkeys, hlow, hcut⟩ := h.depicts hids
  have howner {p : Point} := hdepicts.exists_owner (p := p) hnodup
  have hiff {n : NodeId} {p : Point} {s : Stmt} := hdepicts.mem_dead_iff (n := n) (p := p) (s := s)
    hnodup hcut hlow
  refine ⟨fun n => ⟨fun hdead => ?_, ?_⟩, fun p => howner, fun s hs p hp => ?_,
    fun n v => hdepicts.not_dead_of_global, fun visits o hrun p hp n hn => ?_⟩
  · obtain ⟨⟨p, hp, hmark⟩, -⟩ := mem_dead.mp hdead
    have hglobal : ∀ v, p ≠ .global v := by
      rintro v rfl
      exact hdepicts.not_dead_of_global hp hdead
    obtain ⟨s, hs, hown, hown'⟩ := howner (List.mem_of_getElem? hp) hmark hglobal
    exact ⟨p, s, hp, hown', (hiff hp hs hown).mp hdead⟩
  · rintro ⟨p, s, hp, hown, hbehind⟩
    have hkind : p.isMark = false ∧ ∀ v, p ≠ .global v := by
      cases p with
      | mark kind counter => cases hown
      | global v => cases hown
      | _ => exact ⟨rfl, nofun⟩
    obtain ⟨t, ht, hshown, hown'⟩ := howner (List.mem_of_getElem? hp) hkind.1 hkind.2
    rw [hown] at hown'
    cases hown'
    exact (hiff hp ht hshown).mpr hbehind
  · obtain ⟨n, hn, -⟩ := hcut s (mem_deadStmtsOf_iff.mpr hs) p hp
    have hmem : s ∈ stmtsOf b.stmts := (stmts_perm.2.1 b.stmts).mem_iff.mpr
      (List.mem_append_right _ (mem_deadStmtsOf_iff.mpr hs))
    have hnode := hdepicts.getElem?_of_find? hkeys
      (List.mem_append_right _ (List.mem_flatMap.mpr ⟨s, hmem, hp⟩)) hn
    exact ⟨n, (hiff hnode hmem hp).mpr hs, hnode⟩
  · obtain ⟨s, hs, hown⟩ := List.mem_flatMap.mp (hrun.visits_live hp)
    obtain ⟨m, hm, hlive⟩ := hdepicts.live s hs p hown
    rw [hdepicts.eq_of_find? hn hm] at hlive
    exact fun hdead => (mem_dead.mp hdead).2 hlive

/-- A body that returns at once; a loop behind that yields for ever. -/
def spinning : Module :=
  let loop := .while 2 (.literal 3 (.bool true)) ⟨4, [.simple 5 .yield]⟩ none
  ⟨"spinning", [], [], ⟨0, [.jump 1 (.return none), loop]⟩, []⟩

/-- The condition and the body of the loop only lead to each other, and both are dead. -/
theorem dead_iff_behindJump_spinning : spinning.ids.Nodup ∧
    spinning.Charts (.ofModule spinning) spinning.body ∧
    ∀ p ∈ [.expr (.literal 3 (.bool true)), .stmt (.simple 5 .yield)],
      ∃ n ∈ (ofModule spinning).dead, (ofModule spinning).nodes[n]? = some p := by
  have hids : spinning.ids.Nodup := by decide
  have hcharts : spinning.Charts (.ofModule spinning) spinning.body := .module
  have hall := (dead_iff_behindJump hids hcharts).2.2.1
  refine ⟨hids, hcharts, fun p hp => ?_⟩
  have hbehind (s : Stmt) (hs : s ∈ stmtsOf spinning.body.stmts.tail) :
      spinning.body.BehindJump s := ⟨_, List.mem_cons_self, [], _, _, rfl, rfl, hs⟩
  rcases List.mem_pair.mp hp with rfl | rfl
  · exact hall _ (hbehind _ List.mem_cons_self) _ List.mem_cons_self
  · exact hall _ (hbehind _ (List.mem_cons_of_mem _ List.mem_cons_self)) _ List.mem_cons_self

end Module

end ControlFlow

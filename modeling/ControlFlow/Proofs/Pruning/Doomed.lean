import ControlFlow.Proofs.Graph.Finished
import ControlFlow.Proofs.Reaching.Solved
import ControlFlow.Pruning

/-! # What a round finds to go

A round condemns the statements of unused nodes and the owners of dead ones, save for declarations
that are shielded. All of them are statements of the body, and no condition, sequence, global or
loop variable is ever condemned by itself.
-/

namespace ControlFlow

/-! ## The analysis of a round -/

namespace Analysis

variable {g : Graph} {effects : Array Effect}

/-- The analysis of a graph with given effects whose definitions were followed. -/
def solved (g : Graph) (effects : Array Effect) : Analysis :=
  ⟨g, effects, some (Reaching.solve g.flows effects)⟩

theorem solve_ofGraph (hinside : g.FlowsInside) (heffects : g.effects = .ok effects) :
    (ofGraph g).solve = (solved g effects, none) := by
  have hclassify : (ofGraph g).classify = .ok ⟨g, effects, none⟩ := by
    rw [Analysis.classify, ofGraph, heffects]
    rfl
  have hfollow := follow_ok (a := ⟨g, effects, none⟩) hinside
    (Graph.classifies_effects heffects).size_eq.ge
  have hempty : (ofGraph g).effects.isEmpty = true := rfl
  unfold Analysis.solve
  rw [hempty, if_pos rfl, hclassify]
  simp only [hfollow]
  rfl

/-- A graph whose flows lead between its nodes can be analysed if it can be classified. -/
theorem ofSolved_ok (hinside : g.FlowsInside) (heffects : g.effects = .ok effects) :
    ofSolved g = .ok (solved g effects) := by
  unfold ofSolved
  rw [solve_ofGraph hinside heffects]

theorem ofSolved_error {why : AnalysisFault} (heffects : g.effects = .error why) :
    ofSolved g = .error why := by
  have hclassify : (ofGraph g).classify = .error why := by
    rw [Analysis.classify, ofGraph, heffects]
    rfl
  have hempty : (ofGraph g).effects.isEmpty = true := rfl
  unfold ofSolved Analysis.solve
  rw [hempty, if_pos rfl, hclassify]

theorem unused_solved (hnodes : g.nodes ≠ []) (heffects : g.effects = .ok effects) :
    (solved g effects).unused = .ok (g.select (solved g effects).isUnused) := by
  have hsize := (Graph.classifies_effects heffects).size_eq
  have hlen := List.length_pos_iff.mpr hnodes
  have hempty : effects.isEmpty = false := by
    rw [Array.isEmpty, hsize]
    exact decide_eq_false (Nat.pos_iff_ne_zero.mp hlen)
  unfold unused
  simp [solved, hempty, hsize]

/-- An unused node need not stay by itself. -/
theorem keep_of_isUnused (heffects : g.effects = .ok effects) {n : NodeId} {p : Point}
    (hn : g.nodes[n]? = some p) (hunused : (solved g effects).isUnused n = true) :
    (g.effect p).keep = false := by
  obtain ⟨hkeep, -⟩ := Bool.and_eq_true_iff.mp hunused
  obtain ⟨e, he, hnot⟩ := Option.any_eq_true _ _ |>.mp hkeep
  rw [((Graph.classifies_effects heffects).widened n p e hn he).keep] at hnot
  exact Bool.not_eq_true' _ |>.mp hnot

end Analysis

namespace Graph

variable {g : Graph} {n : NodeId}

theorem mem_sorted : n ∈ g.sorted ↔ n < g.nodes.length := by
  unfold sorted
  rw [List.mem_map]
  constructor
  · rintro ⟨⟨p, m⟩, hm, rfl⟩
    exact List.snd_lt_of_mem_zipIdx (List.mem_mergeSort.mp hm)
  · intro hn
    refine ⟨(g.nodes[n], n), List.mem_mergeSort.mpr ?_, rfl⟩
    exact List.mk_mem_zipIdx_iff_getElem?.mpr (List.getElem?_eq_getElem hn)

theorem mem_select {test : NodeId → Bool} : n ∈ g.select test ↔
    (∃ p, g.nodes[n]? = some p ∧ p.isMark = false) ∧ test n = true := by
  unfold select
  rw [List.mem_filter, mem_sorted, Bool.and_eq_true, Option.any_eq_true]
  constructor
  · rintro ⟨-, ⟨p, hp, hmark⟩, htest⟩
    exact ⟨⟨p, hp, by simpa using hmark⟩, htest⟩
  · rintro ⟨⟨p, hp, hmark⟩, htest⟩
    exact ⟨(List.getElem?_eq_some_iff.mp hp).1, ⟨p, hp, by simp [hmark]⟩, htest⟩

theorem mem_dead : n ∈ g.dead ↔ (∃ p, g.nodes[n]? = some p ∧ p.isMark = false) ∧ ¬ g.Live n := by
  unfold dead
  rw [mem_select]
  simp [Live, Search.mem_reached]

end Graph

namespace Pruning

variable {g : Graph} {effects : Array Effect} {body : Block} {globals : List Global} {s : Stmt}
  {ids : List TreeId}

/-- The variables that a body still names. -/
def named (body : Block) : List DeclId := body.exprs.filterMap Expr.named?

/-- A statement is that of an unused node, or the owner of a dead one. -/
def Condemns (g : Graph) (effects : Array Effect) (s : Stmt) : Prop :=
  (∃ n ∈ g.select (Analysis.solved g effects).isUnused, g.nodes[n]? = some (.stmt s)) ∨
    ∃ n ∈ g.dead, ∃ p, g.nodes[n]? = some p ∧ g.owner? p = some s

theorem stmtAt_eq_some {n : NodeId} : stmtAt g n = some s ↔ g.nodes[n]? = some (.stmt s) := by
  unfold stmtAt
  split
  next t ht => simp [ht]
  next h =>
    refine ⟨nofun, fun hs => ?_⟩
    exact absurd hs (h s)

theorem owner_bind_eq_some {n : NodeId} :
    (g.nodes[n]?.bind g.owner?) = some s ↔ ∃ p, g.nodes[n]? = some p ∧ g.owner? p = some s :=
  Option.bind_eq_some_iff

/-- A round of pruning in terms of the unused and the dead nodes. -/
theorem doomed_eq (hdepicts : g.Depicts body globals) (heffects : g.effects = .ok effects) :
    doomed g body = .ok (Ascending.ofList
      ((((g.select (Analysis.solved g effects).isUnused).filterMap (stmtAt g) ++
        g.dead.filterMap fun n => g.nodes[n]?.bind g.owner?).filter
          fun s => !isShielded (named body) s).map Stmt.id)) := by
  unfold doomed
  rw [Analysis.ofSolved_ok hdepicts.inside heffects]
  simp only [bind, Except.bind, Analysis.unused_solved hdepicts.nodes_ne_nil heffects]
  rfl

/-- A round finds the numbers of condemned statements, unless these are shielded. -/
theorem doomed_ok (hdepicts : g.Depicts body globals) (heffects : g.effects = .ok effects) :
    ∃ ids, doomed g body = .ok ids ∧
      ∀ id, id ∈ ids ↔
        ∃ s, s.id = id ∧ isShielded (named body) s = false ∧ Condemns g effects s := by
  refine ⟨_, doomed_eq hdepicts heffects, fun id => ?_⟩
  simp only [Ascending.mem_ofList, List.mem_map, List.mem_filter, List.mem_append,
    List.mem_filterMap, stmtAt_eq_some, owner_bind_eq_some, Bool.not_eq_true']
  constructor
  · rintro ⟨s, ⟨hs, hshield⟩, rfl⟩
    exact ⟨s, rfl, hshield, hs⟩
  · rintro ⟨s, rfl, hshield, hs⟩
    exact ⟨s, ⟨hs, hshield⟩, rfl⟩

theorem doomed_error {why : AnalysisFault} (heffects : g.effects = .error why) :
    doomed g body = .error why := by
  unfold doomed
  rw [Analysis.ofSolved_error heffects]
  rfl

theorem effects_of_doomed (h : doomed g body = .ok ids) : ∃ effects, g.effects = .ok effects := by
  cases heffects : g.effects with
  | error why =>
      rw [doomed_error heffects] at h
      cases h
  | ok effects => exact ⟨effects, rfl⟩

theorem mem_doomed_iff (hdepicts : g.Depicts body globals) (heffects : g.effects = .ok effects)
    (hdoomed : doomed g body = .ok ids) {id : TreeId} : id ∈ ids ↔
      ∃ s, s.id = id ∧ isShielded (named body) s = false ∧ Condemns g effects s := by
  obtain ⟨found, hfound, hmem⟩ := doomed_ok hdepicts heffects
  cases hdoomed.symm.trans hfound
  exact hmem id

/-- A round fails for one reason only: a variable that is referred into has no node. -/
theorem isMissingSite_of_doomed (hdepicts : g.Depicts body globals) {why : AnalysisFault}
    (h : doomed g body = .error why) : why.IsMissingSite := by
  cases heffects : g.effects with
  | error why' =>
      rw [doomed_error heffects] at h
      cases h
      exact Graph.effects_error heffects
  | ok effects =>
      obtain ⟨ids, hids, -⟩ := doomed_ok hdepicts heffects
      rw [hids] at h
      cases h

end Pruning

/-! ## Owners -/

theorem eq_of_mem_controls {s t : Stmt} {id : TreeId} (h : (id, s) ∈ t.controls) : s = t := by
  unfold Stmt.controls at h
  split at h <;> simp only [List.mem_cons, List.not_mem_nil, or_false] at h
  next =>
    cases h
    rfl
  next =>
    cases h
    rfl
  next =>
    rcases h with h | h
    · cases h
      rfl
    · cases h
      rfl

namespace Graph

variable {g : Graph} {b : Block} {globals : List Global} {s : Stmt} {p : Point}

/-- A node that is neither a mark nor a global is shown by a statement of the body. -/
theorem Depicts.exists_own (h : g.Depicts b globals) (hp : p ∈ g.nodes) (hmark : p.isMark = false)
    (hglobal : ∀ v, p ≠ .global v) : ∃ t ∈ b.allStmts, p ∈ t.ownPoints := by
  rcases h.node_origin _ hp with hmark' | hglobal' | hpoint
  · rw [hmark] at hmark'
    cases hmark'
  · obtain ⟨v, -, hv⟩ := List.mem_map.mp hglobal'
    exact absurd hv.symm (hglobal v)
  · exact List.mem_flatMap.mp hpoint

theorem Depicts.stmt_mem (h : g.Depicts b globals) (hp : Point.stmt s ∈ g.nodes) :
    s ∈ b.allStmts ∧ Point.stmt s ∈ s.ownPoints := by
  obtain ⟨t, ht, hown⟩ := h.exists_own hp rfl nofun
  have heq := eq_of_stmt_mem_ownPoints hown
  subst heq
  exact ⟨ht, hown⟩

theorem Depicts.control_mem (h : g.Depicts b globals) {id : TreeId} (hp : p ∈ g.nodes)
    (hid : p.controlId? = some id) : ∃ s ∈ b.allStmts, (id, s) ∈ s.controls := by
  have hkind : p.isMark = false ∧ ∀ v, p ≠ .global v := by
    cases p with
    | expr e => exact ⟨rfl, nofun⟩
    | loopVar var => exact ⟨rfl, nofun⟩
    | _ => cases hid
  obtain ⟨t, ht, hown⟩ := h.exists_own hp hkind.1 hkind.2
  rcases ownPoints_cases hown with rfl | ⟨id', hid', hcontrol⟩
  · cases hid
  · rw [hid] at hid'
    cases hid'
    exact ⟨t, ht, hcontrol⟩

theorem Depicts.global_mem (h : g.Depicts b globals) {v : Global} (hv : Point.global v ∈ g.nodes) :
    v ∈ globals := by
  rcases h.node_origin _ hv with hmark | hglobal | hpoint
  · cases hmark
  · obtain ⟨w, hw, hwv⟩ := List.mem_map.mp hglobal
    cases hwv
    exact hw
  · obtain ⟨t, -, hown⟩ := List.mem_flatMap.mp hpoint
    rcases ownPoints_cases hown with heq | ⟨id, hid, -⟩
    · cases heq
    · cases hid

theorem Depicts.controlOwner_mem (h : g.Depicts b globals) {id : TreeId}
    (hs : g.controlOwner? id = some s) : s ∈ b.allStmts ∧ (id, s) ∈ s.controls := by
  obtain ⟨⟨id', s'⟩, ho, rfl⟩ := Option.map_eq_some_iff.mp hs
  have hid : id' = id := by simpa using List.find?_some ho
  obtain ⟨t, ht, hown⟩ := List.mem_flatMap.mp (h.owner_origin _ (List.mem_of_find?_eq_some ho))
  cases hid
  cases eq_of_mem_controls hown
  exact ⟨ht, hown⟩

/-- The owner of a node is a statement of the body. -/
theorem Depicts.owner_mem (h : g.Depicts b globals) (hp : p ∈ g.nodes)
    (hs : g.owner? p = some s) : s ∈ b.allStmts := by
  cases p with
  | stmt t =>
      cases hs
      exact (h.stmt_mem hp).1
  | expr e => exact (h.controlOwner_mem hs).1
  | loopVar var => exact (h.controlOwner_mem hs).1
  | mark kind counter => cases hs
  | global v => cases hs

end Graph

namespace Pruning

variable {g : Graph} {effects : Array Effect} {body : Block} {globals : List Global} {s : Stmt}
  {ids : List TreeId}

/-- Only statements of the body are condemned. -/
theorem Condemns.mem (hdepicts : g.Depicts body globals) (h : Condemns g effects s) :
    s ∈ body.allStmts := by
  rcases h with ⟨n, -, hn⟩ | ⟨n, -, p, hp, howner⟩
  · exact (hdepicts.stmt_mem (List.mem_of_getElem? hn)).1
  · exact hdepicts.owner_mem (List.mem_of_getElem? hp) howner

/-- A round finds numbers of statements of the body only. -/
theorem exists_stmt_of_mem_doomed (hdepicts : g.Depicts body globals)
    (hids : doomed g body = .ok ids) {id : TreeId} (hid : id ∈ ids) :
    ∃ s ∈ body.allStmts, s.id = id := by
  obtain ⟨effects, heffects⟩ := effects_of_doomed hids
  obtain ⟨s, rfl, -, hcondemned⟩ := (mem_doomed_iff hdepicts heffects hids).mp hid
  exact ⟨s, hcondemned.mem hdepicts, rfl⟩

/-- Where the numbers of statements are distinct, a round finds a statement exactly if it condemns
it and the statement is not shielded. -/
theorem doomed_iff (hdepicts : g.Depicts body globals) (heffects : g.effects = .ok effects)
    (hids : (body.allStmts.map Stmt.id).Nodup) (hdoomed : doomed g body = .ok ids)
    (hs : s ∈ body.allStmts) :
    s.id ∈ ids ↔ isShielded (named body) s = false ∧ Condemns g effects s := by
  refine (mem_doomed_iff hdepicts heffects hdoomed).trans ⟨?_, fun h => ⟨s, rfl, h⟩⟩
  rintro ⟨t, hts, hshield, hcondemned⟩
  cases List.inj_on_of_nodup_map hids (hcondemned.mem hdepicts) hs hts
  exact ⟨hshield, hcondemned⟩

end Pruning

end ControlFlow

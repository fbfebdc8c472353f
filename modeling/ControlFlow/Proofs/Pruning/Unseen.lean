import ControlFlow.Proofs.Analysis.Recorded
import ControlFlow.Proofs.Flow.Paths
import ControlFlow.Proofs.Pruning.Doomed
import ControlFlow.Proofs.Pruning.Played

/-! # Stores that nobody sees

Along the flows of a graph, the memory of a run and that of a run without some unused statements
differ only where an unused node made the last store. Such a store is never read, and it is gone
where shared variables are exposed. So both runs see the same.
-/

namespace ControlFlow

open Reaching Search

namespace Analysis

variable {g : Graph} {effects : Array Effect} {n u : NodeId} {d : DeclId}

/-- No node looks at what an unused node defines where that reaches it. -/
theorem looksAt_of_unused (hinside : g.FlowsInside) (hsize : effects.size = g.nodes.length)
    (hn : (solved g effects).isUnused n = true) (hreached : Reached g effects (d, n) u) :
    (solved g effects).looksAt d ((solved g effects).isVisible d) u = false := by
  obtain ⟨-, hspans⟩ := Bool.and_eq_true_iff.mp hn
  have hspan := List.all_eq_true.mp hspans (spanOf g effects (d, n))
    (mem_solve.mpr ⟨(d, n), hreached.1, rfl⟩)
  have hseen : (solved g effects).isSeen (spanOf g effects (d, n)) = false := by
    simpa [spanOf] using hspan
  -- The path to the node ends with a flow into it, so that it is a node of the graph.
  have hu : u < effects.size := by
    rw [hsize]
    cases hreached.2 with
    | edge hedge => exact (hinside _ hedge).2
    | step _ _ hedge => exact (hinside _ hedge).2
  have hreaches : (spanOf g effects (d, n)).reaches u = true := by
    apply (reaches_spanOf _ hu).mpr hreached.2
    rw [hsize]
    exact hinside
  have hnot := List.any_eq_false.mp hseen u (List.mem_range.mpr hu)
  rw [hreaches, Bool.true_and] at hnot
  exact Bool.eq_false_iff.mpr hnot

theorem isVisible_of_shared (hd : d ∈ g.module.shared) :
    (solved g effects).isVisible d = true := by
  obtain ⟨-, hvisible⟩ := List.mem_filter.mp hd
  unfold isVisible
  rw [show (solved g effects).graph = g from rfl, Graph.decl?_eq_lastDecl?]
  exact hvisible

end Analysis

namespace Pruning

variable {g : Graph} {effects : Array Effect} {u n : NodeId} {p : Point} {mem mem' : Memory}
  {d : DeclId}

/-- Two memories at a node differ only where an unused node made a store that is still there. -/
def Tracks (g : Graph) (effects : Array Effect) (u : NodeId) (mem mem' : Memory) : Prop :=
  ∀ d, mem d = mem' d ∨
    ∃ n, (Analysis.solved g effects).isUnused n = true ∧ Outlives g effects (d, n) u

/-- Two memories before a node differ only where a store of an unused node reaches the node. -/
def Meets (g : Graph) (effects : Array Effect) (u : NodeId) (mem mem' : Memory) : Prop :=
  ∀ d, mem d = mem' d ∨
    ∃ n, (Analysis.solved g effects).isUnused n = true ∧ Reached g effects (d, n) u

theorem tracks_refl (u : NodeId) (mem : Memory) : Tracks g effects u mem mem := fun _ => .inl rfl

/-- Joins define nothing. -/
theorem passes_join (hclass : g.Classifies effects) (hjoin : g.isJoin n = true)
    (defn : Definition) : passes effects defn n = true := by
  unfold Graph.isJoin at hjoin
  split at hjoin
  next counter hn =>
    have hnone : definesAt effects defn.1 n = false := by
      apply Bool.eq_false_iff.mpr
      intro hdefines
      obtain ⟨e, he, hd⟩ := definesAt_iff.mp hdefines
      rw [(hclass.widened n _ e hn he).defines] at hd
      cases hd
    simp [passes, hnone]
  next => cases hjoin

/-- What is there after a node reaches every node that it leads to. -/
theorem Outlives.leads {defn : Definition} (hclass : g.Classifies effects)
    (h : Outlives g effects defn u) (hleads : g.Leads u n) : Reached g effects defn n := by
  induction hleads with
  | edge hedge => exact h.flow hedge
  | step _ hjoin hedge ih =>
      have hthrough : Outlives g effects defn _ := .inr ⟨ih, passes_join hclass hjoin defn⟩
      exact hthrough.flow hedge

theorem Tracks.leads (hclass : g.Classifies effects) (h : Tracks g effects u mem mem')
    (hleads : g.Leads u n) : Meets g effects n mem mem' := by
  intro d
  rcases h d with heq | ⟨origin, hunused, houtlives⟩
  · exact .inl heq
  · exact .inr ⟨origin, hunused, Outlives.leads hclass houtlives hleads⟩

/-! ## One node -/

/-- A node with the point that it stands for, whose effect says what happens there. -/
structure Stands (g : Graph) (effects : Array Effect) (n : NodeId) (p : Point) : Prop where
  node : g.nodes[n]? = some p
  operands : ∀ e ∈ p.operands, e.StoresNothing

theorem Stands.records (hclass : g.Classifies effects) (h : Stands g effects n p) :
    ∃ e, effects[n]? = some e ∧ e.Records (p.events g.module) := by
  have hn : n < effects.size := by
    rw [hclass.size_eq]
    exact (List.getElem?_eq_some_iff.mp h.node).1
  refine ⟨effects[n], Array.getElem?_eq_getElem hn, ?_⟩
  exact (Graph.effect_records h.operands).widened
    (hclass.widened n p _ h.node (Array.getElem?_eq_getElem hn))

theorem Stands.definesAt_iff (hclass : g.Classifies effects) (h : Stands g effects n p) :
    definesAt effects d n = true ↔ .store d ∈ p.events g.module := by
  obtain ⟨e, he, hrecords⟩ := h.records hclass
  rw [hrecords.defines, definesAt, he]
  simp

/-- A variable that is not stored at a node keeps its store there. -/
theorem Meets.keep (hclass : g.Classifies effects) (h : Meets g effects n mem mem')
    (hstands : Stands g effects n p) (hd : .store d ∉ p.events g.module) :
    mem d = mem' d ∨
      ∃ m, (Analysis.solved g effects).isUnused m = true ∧ Outlives g effects (d, m) n := by
  rcases h d with heq | ⟨m, hunused, hreached⟩
  · exact .inl heq
  · have hpass : passes effects (d, m) n = true := by
      have hnone := Bool.eq_false_iff.mpr fun hdefines =>
        hd ((hstands.definesAt_iff hclass).mp hdefines)
      simp [passes, hnone]
    exact .inr ⟨m, hunused, .inr ⟨hreached, hpass⟩⟩

/-- After a node that both runs visit, their memories still differ in unused stores only. -/
theorem Meets.visit (hclass : g.Classifies effects) (h : Meets g effects n mem mem')
    (hstands : Stands g effects n p) :
    Tracks g effects n (mem.afterAll p (p.events g.module))
      (mem'.afterAll p (p.events g.module)) := by
  intro d
  -- What is stored here was stored here last in both runs.
  by_cases hd : .store d ∈ p.events g.module
  · exact .inl (Memory.afterAll_congr (.inr hd))
  · rw [Memory.afterAll_of_not_mem hd, Memory.afterAll_of_not_mem hd]
    exact h.keep hclass hstands hd

/-- So they do after an unused node that one run leaves out. -/
theorem Meets.skip (hclass : g.Classifies effects) (h : Meets g effects n mem mem')
    (hstands : Stands g effects n p) (hn : (Analysis.solved g effects).isUnused n = true) :
    Tracks g effects n (mem.afterAll p (p.events g.module)) mem' := by
  intro d
  -- Only one of the runs stores here, and the node is unused.
  by_cases hd : .store d ∈ p.events g.module
  · exact .inr ⟨n, hn, .inl ⟨rfl, (hstands.definesAt_iff hclass).mpr hd⟩⟩
  · rw [Memory.afterAll_of_not_mem hd]
    exact h.keep hclass hstands hd

/-- Both runs see the same at a node that both visit. -/
theorem Meets.sightings_eq (hinside : g.FlowsInside) (hclass : g.Classifies effects)
    (h : Meets g effects n mem mem') (hstands : Stands g effects n p) :
    g.module.sightings p (p.events g.module) mem =
      g.module.sightings p (p.events g.module) mem' := by
  obtain ⟨e, he, hrecords⟩ := hstands.records hclass
  -- Wherever the memories differ, the node would look at a store of an unused node.
  have hagree {d : DeclId} (hlooks : (Analysis.solved g effects).looksAt d
      ((Analysis.solved g effects).isVisible d) n = true) : mem d = mem' d := by
    rcases h d with heq | ⟨m, hunused, hreached⟩
    · exact heq
    · rw [Analysis.looksAt_of_unused hinside hclass.size_eq hunused hreached] at hlooks
      cases hlooks
  have heffects : (Analysis.solved g effects).effects[n]? = some e := he
  apply Module.sightings_congr
  · intro d hd
    apply hagree
    have huses := hrecords.uses d hd
    simp [Analysis.looksAt, heffects, huses]
  · intro hexpose d hd
    apply hagree
    have hescapes := hrecords.escapes hexpose
    simp [Analysis.looksAt, heffects, hescapes, Analysis.isVisible_of_shared hd]

/-- Before the end of a graph, both memories agree on all shared variables. -/
theorem Meets.shared_eq (hinside : g.FlowsInside) (hclass : g.Classifies effects)
    (h : Meets g effects n mem mem') (hend : g.nodes[n]?.any Point.isEnd = true)
    (hd : d ∈ g.module.shared) : mem d = mem' d := by
  rcases h d with heq | ⟨m, hunused, hreached⟩
  · exact heq
  · have hnot := Analysis.looksAt_of_unused hinside hclass.size_eq hunused hreached
    have hnodes : (Analysis.solved g effects).graph.nodes[n]?.any Point.isEnd = true := hend
    simp [Analysis.looksAt, Analysis.isVisible_of_shared hd, hnodes] at hnot

/-! ## Whole runs -/

/-- Along what is followed, a run sees the same at all points that stay if the others, which stand
for unused nodes, are left out. -/
theorem tracks_follows {doomed : Stmt → Bool} {visits : List Point} {last : NodeId}
    (hinside : g.FlowsInside) (hclass : g.Classifies effects) (hfollows : g.Follows u visits last)
    (hstands : ∀ p ∈ visits, ∀ n, g.find? p.key = some n → Stands g effects n p ∧
      (p.stays doomed = false → (Analysis.solved g effects).isUnused n = true))
    (h : Tracks g effects u mem mem') :
    g.module.sees (visits.filter (Point.stays doomed)) mem' =
        (g.module.sees visits mem).filter (fun s => s.point.stays doomed) ∧
      Tracks g effects last (g.module.recalls visits mem)
        (g.module.recalls (visits.filter (Point.stays doomed)) mem') := by
  induction hfollows generalizing mem mem' with
  | done u => exact ⟨rfl, h⟩
  | @visit u n last p rest hfind hleads _ ih =>
      obtain ⟨hp, hunused⟩ := hstands p List.mem_cons_self n hfind
      have hmeets := h.leads hclass hleads
      have hrest q (hq : q ∈ rest) := hstands q (List.mem_cons_of_mem _ hq)
      -- A point that goes is visited by the whole run only, and what is seen there goes as well.
      by_cases hstays : p.stays doomed = true
      · obtain ⟨hsees, htracks⟩ := ih hrest (hmeets.visit hclass hp)
        have hall : (g.module.sightings p (p.events g.module) mem).filter
            (fun s => s.point.stays doomed) = g.module.sightings p (p.events g.module) mem := by
          apply List.filter_eq_self.mpr
          intro s hs
          rw [Module.point_of_mem_sightings hs]
          exact hstays
        rw [List.filter_cons_of_pos hstays]
        refine ⟨?_, htracks⟩
        simp only [Module.sees, List.filter_append]
        rw [hall, hsees, hmeets.sightings_eq hinside hclass hp]
      · obtain ⟨hsees, htracks⟩ := ih hrest
          (hmeets.skip hclass hp (hunused (Bool.not_eq_true _ |>.mp hstays)))
        have hnone : (g.module.sightings p (p.events g.module) mem).filter
            (fun s => s.point.stays doomed) = [] := by
          apply List.filter_eq_nil_iff.mpr
          intro s hs
          rw [Module.point_of_mem_sightings hs]
          exact hstays
        rw [List.filter_cons_of_neg hstays]
        refine ⟨?_, htracks⟩
        simp only [Module.sees, List.filter_append, hnone, hsees, List.nil_append]

end Pruning

end ControlFlow

import ControlFlow.Proofs.Graph.Wiring
import ControlFlow.Proofs.Reaching.Sweep

/-! # Reaching definitions are exact

The sweeps end with exactly the definitions that flow paths bring: a definition holds before a
node if a path leads there from the node that makes it, without passing another node that makes
the same variable. These sets are the least solution of the equations of the analysis, and they
are what the search along paths answers.
-/

namespace ControlFlow.Reaching

open Search (Path)

/-- A definition is made and a path brings it to a node. -/
def Reached (g : Graph) (effects : Array Effect) (defn : Definition) (n : NodeId) : Prop :=
  definesAt effects defn.1 defn.2 = true ∧ Path g.flows (passes effects defn) defn.2 n

/-- A definition is there after a node: it is made there, or it is brought there and survives. -/
def Outlives (g : Graph) (effects : Array Effect) (defn : Definition) (n : NodeId) : Prop :=
  (defn.2 = n ∧ definesAt effects defn.1 n = true) ∨
    (Reached g effects defn n ∧ passes effects defn n = true)

/-- Sets that solve the equations of the analysis at every node of a graph. -/
structure Solution (g : Graph) (effects : Array Effect) (s : Sets) : Prop where
  before_eq : ∀ n < g.nodes.length, s.before n = incoming g s n
  after_eq : ∀ n < g.nodes.length, s.after n = outgoing effects n (s.before n)

variable {g : Graph} {effects : Array Effect}

/-! ## What the sweeps collect is brought by paths -/

/-- The sets hold only what paths bring. -/
structure Sound (g : Graph) (effects : Array Effect) (s : Sets) : Prop where
  before : ∀ n, ∀ defn ∈ s.before n, Reached g effects defn n
  after : ∀ n, ∀ defn ∈ s.after n, Outlives g effects defn n

theorem sound_empty : Sound g effects .empty :=
  ⟨fun _ defn h => absurd h (Finset.notMem_empty defn),
    fun _ defn h => absurd h (Finset.notMem_empty defn)⟩

/-- A flow takes what outlives its source to its target. -/
theorem Outlives.flow {defn : Definition} {p n : NodeId} (h : Outlives g effects defn p)
    (hflow : (p, n) ∈ g.flows) : Reached g effects defn n := by
  rcases h with ⟨rfl, hmade⟩ | ⟨⟨hmade, hpath⟩, hpass⟩
  · exact ⟨hmade, .edge hflow⟩
  · exact ⟨hmade, .step hpath hpass hflow⟩

theorem sound_visit (w : Sweep) (n : NodeId) (h : Sound g effects w.sets) :
    Sound g effects (visit g effects w n).sets := by
  -- What is taken in comes over one more flow from a predecessor.
  have hbefore : ∀ defn ∈ w.sets.before n ∪ incoming g w.sets n, Reached g effects defn n := by
    intro defn hdefn
    rcases Finset.mem_union.mp hdefn with hold | hnew
    · exact h.before n defn hold
    · obtain ⟨p, hflow, hp⟩ := mem_incoming.mp hnew
      exact (h.after p defn hp).flow hflow
  constructor
  · intro m defn hdefn
    by_cases hm : m = n
    · subst hm
      simp only [visit, Function.update_self] at hdefn
      exact hbefore defn hdefn
    · simp only [visit, Function.update_of_ne hm] at hdefn
      exact h.before m defn hdefn
  · intro m defn hdefn
    by_cases hm : m = n
    · subst hm
      simp only [visit, Function.update_self] at hdefn
      rcases Finset.mem_union.mp hdefn with hold | hnew
      · exact h.after m defn hold
      · rcases mem_outgoing.mp hnew with hmade | ⟨hmem, hkept⟩
        · exact .inl hmade
        · have hreached := hbefore defn hmem
          exact .inr ⟨hreached, (kills_eq_false_iff hreached.1).mp hkept⟩
    · simp only [visit, Function.update_of_ne hm] at hdefn
      exact h.after m defn hdefn

/-! ## What paths bring is collected -/

/-- Where all nodes are closed, everything that a path brings is there. -/
theorem mem_before_of_path {s : Sets} (hinside : g.FlowsInside)
    (hclosed : ∀ n < g.nodes.length, ClosedAt g effects s n) {defn : Definition} {n : NodeId}
    (hmade : definesAt effects defn.1 defn.2 = true)
    (hpath : Path g.flows (passes effects defn) defn.2 n) : defn ∈ s.before n := by
  -- Flow by flow, the source puts the definition out and the target takes it in.
  induction hpath with
  | @edge m hflow =>
      have hafter : defn ∈ s.after defn.2 :=
        (hclosed _ (hinside _ hflow).1).2 (mem_outgoing.mpr (.inl ⟨rfl, hmade⟩))
      exact (hclosed _ (hinside _ hflow).2).1 (mem_incoming.mpr ⟨_, hflow, hafter⟩)
  | @step l m _ hpass hflow ih =>
      have hkept := (kills_eq_false_iff hmade).mpr hpass
      have hafter : defn ∈ s.after l :=
        (hclosed _ (hinside _ hflow).1).2 (mem_outgoing.mpr (.inr ⟨ih, hkept⟩))
      exact (hclosed _ (hinside _ hflow).2).1 (mem_incoming.mpr ⟨_, hflow, hafter⟩)

/-- The sweeps end with exactly what paths bring before a node. -/
theorem Settles.mem_before {s : Sets} (hrun : Settles g effects .empty s)
    (hinside : g.FlowsInside) {defn : Definition} {n : NodeId} :
    defn ∈ s.before n ↔ Reached g effects defn n := by
  have hsound : Sound g effects s := hrun.invariant (fun w n _ => sound_visit w n) sound_empty
  exact ⟨hsound.before n defn,
    fun h => mem_before_of_path hinside hrun.closed h.1 h.2⟩

/-- The sweeps end with exactly what is there after a node. -/
theorem Settles.mem_after {s : Sets} (hrun : Settles g effects .empty s)
    (hinside : g.FlowsInside) {defn : Definition} {n : NodeId} (hn : n < g.nodes.length) :
    defn ∈ s.after n ↔ Outlives g effects defn n := by
  have hsound : Sound g effects s := hrun.invariant (fun w n _ => sound_visit w n) sound_empty
  refine ⟨hsound.after n defn, fun h => (hrun.closed n hn).2 (mem_outgoing.mpr ?_)⟩
  rcases h with hmade | ⟨hreached, hpass⟩
  · exact .inl hmade
  · exact .inr ⟨(hrun.mem_before hinside).mpr hreached,
      (kills_eq_false_iff hreached.1).mpr hpass⟩

/-! ## The least solution -/

/-- Nothing is held without a reason that the equations know. -/
structure Supported (g : Graph) (effects : Array Effect) (s : Sets) : Prop where
  before : ∀ n, s.before n ⊆ incoming g s n
  after : ∀ n, s.after n ⊆ outgoing effects n (s.before n)

theorem supported_empty : Supported g effects .empty :=
  ⟨fun _ => Finset.empty_subset _, fun _ => Finset.empty_subset _⟩

theorem supported_visit (w : Sweep) (n : NodeId) (h : Supported g effects w.sets) :
    Supported g effects (visit g effects w n).sets := by
  -- What is held at another node keeps its reason, since that only grows.
  have hgrows : w.sets.Within (visit g effects w n).sets := within_visit w n
  constructor
  · intro m
    refine Finset.Subset.trans ?_ (incoming_mono hgrows m)
    by_cases hm : m = n
    · subst hm
      simp only [visit, Function.update_self]
      exact Finset.union_subset (h.before m) subset_rfl
    · simp only [visit, Function.update_of_ne hm]
      exact h.before m
  · intro m
    by_cases hm : m = n
    · subst hm
      simp only [visit, Function.update_self]
      exact Finset.union_subset
        ((h.after m).trans (outgoing_mono Finset.subset_union_left)) subset_rfl
    · simp only [visit, Function.update_of_ne hm]
      exact h.after m

theorem Settles.solution {s : Sets} (hrun : Settles g effects .empty s) :
    Solution g effects s := by
  have hsupported : Supported g effects s :=
    hrun.invariant (fun w n _ => supported_visit w n) supported_empty
  exact ⟨fun n hn => (hsupported.before n).antisymm (hrun.closed n hn).1,
    fun n hn => (hsupported.after n).antisymm (hrun.closed n hn).2⟩

/-- Every solution holds at least what the sweeps collect at the nodes of the graph. -/
theorem Settles.least {s t : Sets} (hrun : Settles g effects .empty s) (hinside : g.FlowsInside)
    (ht : Solution g effects t) :
    ∀ n < g.nodes.length, s.before n ⊆ t.before n ∧ s.after n ⊆ t.after n := by
  have hclosed : ∀ n < g.nodes.length, ClosedAt g effects t n := fun n hn =>
    ⟨(ht.before_eq n hn).symm.subset, (ht.after_eq n hn).symm.subset⟩
  have hbefore : ∀ n, s.before n ⊆ t.before n := fun n defn hdefn => by
    obtain ⟨hmade, hpath⟩ := (hrun.mem_before hinside).mp hdefn
    exact mem_before_of_path hinside hclosed hmade hpath
  intro n hn
  refine ⟨hbefore n, ?_⟩
  rw [hrun.solution.after_eq n hn, ht.after_eq n hn]
  exact outgoing_mono (hbefore n)

end ControlFlow.Reaching

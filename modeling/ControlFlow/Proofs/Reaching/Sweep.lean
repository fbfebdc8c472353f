import ControlFlow.Analysis.Reaching
import Mathlib.Algebra.BigOperators.Group.Finset.Basic
import Mathlib.Algebra.Order.BigOperators.Group.Finset
import Mathlib.Data.Finset.Union

/-! # Reaching definitions in sweeps

The definitions before and after a node can be found by sweeping over the nodes again and again:
a node takes in what its predecessors have put out so far, and puts out what it makes together
with what it takes in and does not kill. The sets are grown in place, so that a node sees what
earlier nodes of the same sweep have gained; sweeps go on until one of them changes nothing.

Every run of sweeps ends, since the sets only grow and hold nothing but definitions of the graph.
What the sweeps leave is closed under the equations of the analysis, and an invariant of single
visits is an invariant of the whole run.
-/

namespace ControlFlow.Reaching

/-- The definitions before and after every node. -/
structure Sets where
  before : NodeId → Finset Definition
  after : NodeId → Finset Definition

namespace Sets

def empty : Sets := ⟨fun _ => ∅, fun _ => ∅⟩

/-- Everywhere at most as much as in other sets. -/
def Within (s t : Sets) : Prop := ∀ n, s.before n ⊆ t.before n ∧ s.after n ⊆ t.after n

theorem Within.refl (s : Sets) : s.Within s := fun _ => ⟨subset_rfl, subset_rfl⟩

theorem Within.trans {s t u : Sets} (hst : s.Within t) (htu : t.Within u) : s.Within u :=
  fun n => ⟨(hst n).1.trans (htu n).1, (hst n).2.trans (htu n).2⟩

end Sets

/-- The definitions that a node makes. -/
def made (effects : Array Effect) (n : NodeId) : Finset Definition :=
  ((effects[n]?.elim [] Effect.defines).map fun d => (d, n)).toFinset

/-- Whether a node overwrites a definition of another node. -/
def kills (effects : Array Effect) (n : NodeId) (defn : Definition) : Bool :=
  definesAt effects defn.1 n && (killed effects n defn.1).contains defn.2

/-- What the predecessors of a node have put out. -/
def incoming (g : Graph) (s : Sets) (n : NodeId) : Finset Definition :=
  (g.predecessors n).toFinset.biUnion s.after

/-- What a node puts out when some definitions hold before it. -/
def outgoing (effects : Array Effect) (n : NodeId) (before : Finset Definition) :
    Finset Definition :=
  made effects n ∪ before.filter fun defn => kills effects n defn = false

/-- A sweep as far as it has come: the sets, and whether any of them has grown in it. -/
structure Sweep where
  sets : Sets
  grown : Bool

/-- Sweep over one node. -/
def visit (g : Graph) (effects : Array Effect) (w : Sweep) (n : NodeId) : Sweep :=
  let before := w.sets.before n ∪ incoming g w.sets n
  let after := w.sets.after n ∪ outgoing effects n before
  { sets := ⟨Function.update w.sets.before n before, Function.update w.sets.after n after⟩
    grown := w.grown || before ≠ w.sets.before n || after ≠ w.sets.after n }

def visits (g : Graph) (effects : Array Effect) (w : Sweep) (ns : List NodeId) : Sweep :=
  ns.foldl (visit g effects) w

/-- Sweep once over all nodes. -/
def sweep (g : Graph) (effects : Array Effect) (s : Sets) : Sweep :=
  visits g effects ⟨s, false⟩ (List.range g.nodes.length)

/-- Sweeps go on until one of them changes nothing. -/
inductive Settles (g : Graph) (effects : Array Effect) : Sets → Sets → Prop where
  | done {s : Sets} : (sweep g effects s).grown = false →
      Settles g effects s (sweep g effects s).sets
  | again {s t : Sets} : (sweep g effects s).grown = true →
      Settles g effects (sweep g effects s).sets t → Settles g effects s t

variable {g : Graph} {effects : Array Effect}

/-! ## Membership -/

theorem definesAt_iff {d : DeclId} {n : NodeId} :
    definesAt effects d n = true ↔ ∃ e, effects[n]? = some e ∧ d ∈ e.defines := by
  simp [definesAt, Option.any_eq_true]

theorem lt_size_of_definesAt {d : DeclId} {n : NodeId} (h : definesAt effects d n = true) :
    n < effects.size := by
  obtain ⟨e, he, -⟩ := definesAt_iff.mp h
  exact (Array.getElem?_eq_some_iff.mp he).1

theorem mem_made {defn : Definition} {n : NodeId} :
    defn ∈ made effects n ↔ defn.2 = n ∧ definesAt effects defn.1 n = true := by
  rcases defn with ⟨d, m⟩
  cases he : effects[n]? with
  | none => simp [made, definesAt, he]
  | some e => simp [made, definesAt, he, eq_comm, and_comm]

theorem mem_definers {d : DeclId} {n : NodeId} :
    n ∈ definers effects d ↔ definesAt effects d n = true := by
  simp only [definers, List.mem_filter, List.mem_range, and_iff_right_iff_imp]
  exact lt_size_of_definesAt

theorem mem_definitions {defn : Definition} :
    defn ∈ definitions effects ↔ definesAt effects defn.1 defn.2 = true := by
  rcases defn with ⟨d, n⟩
  simp only [definitions, List.mem_flatMap, List.mem_map, Prod.mk.injEq, Ascending.mem_ofList]
  constructor
  · rintro ⟨d', -, n', hn', rfl, rfl⟩
    exact mem_definers.mp hn'
  · intro h
    obtain ⟨e, he, hd⟩ := definesAt_iff.mp h
    have hmem : e ∈ effects.toList := by
      rw [Array.mem_toList_iff]
      exact Array.mem_of_getElem? he
    exact ⟨d, ⟨e, hmem, hd⟩, n, mem_definers.mpr h, rfl, rfl⟩

/-- A node kills exactly what does not pass it. -/
theorem kills_eq_false_iff {defn : Definition} {n : NodeId}
    (hmade : definesAt effects defn.1 defn.2 = true) :
    kills effects n defn = false ↔ passes effects defn n = true := by
  rcases defn with ⟨d, m⟩
  have hmem : m ∈ definers effects d := mem_definers.mpr hmade
  by_cases hd : definesAt effects d n = true
  · by_cases hn : n = m
    · simp [kills, killed, passes, hn]
    · simp [kills, killed, passes, hd, hn, hmem, Ne.symm hn]
  · simp [kills, passes, hd]

theorem mem_incoming {s : Sets} {n : NodeId} {defn : Definition} :
    defn ∈ incoming g s n ↔ ∃ p, (p, n) ∈ g.flows ∧ defn ∈ s.after p := by
  simp only [incoming, Finset.mem_biUnion, List.mem_toFinset, Graph.predecessors, List.mem_map,
    List.mem_filter, decide_eq_true_eq]
  constructor
  · rintro ⟨p, ⟨⟨p', n'⟩, ⟨hflow, rfl⟩, rfl⟩, hdefn⟩
    exact ⟨p', hflow, hdefn⟩
  · rintro ⟨p, hflow, hdefn⟩
    exact ⟨p, ⟨(p, n), ⟨hflow, rfl⟩, rfl⟩, hdefn⟩

theorem mem_outgoing {n : NodeId} {before : Finset Definition} {defn : Definition} :
    defn ∈ outgoing effects n before ↔
      (defn.2 = n ∧ definesAt effects defn.1 n = true) ∨
        (defn ∈ before ∧ kills effects n defn = false) := by
  simp [outgoing, mem_made]

theorem incoming_mono {s t : Sets} (h : s.Within t) (n : NodeId) :
    incoming g s n ⊆ incoming g t n :=
  Finset.biUnion_mono fun p _ => (h p).2

theorem outgoing_mono {n : NodeId} {before before' : Finset Definition} (h : before ⊆ before') :
    outgoing effects n before ⊆ outgoing effects n before' :=
  Finset.union_subset_union_right (Finset.filter_subset_filter _ h)

/-! ## One visit -/

/-- A node has taken in all that its predecessors put out, and put out all that it has to. -/
def ClosedAt (g : Graph) (effects : Array Effect) (s : Sets) (n : NodeId) : Prop :=
  incoming g s n ⊆ s.before n ∧ outgoing effects n (s.before n) ⊆ s.after n

theorem within_visit (w : Sweep) (n : NodeId) : w.sets.Within (visit g effects w n).sets := by
  intro m
  by_cases hm : m = n
  · subst hm
    simp only [visit, Function.update_self]
    exact ⟨Finset.subset_union_left, Finset.subset_union_left⟩
  · simp only [visit, Function.update_of_ne hm]
    exact ⟨subset_rfl, subset_rfl⟩

/-- A visit that finds nothing new leaves everything as it was. -/
theorem visit_eq_of_not_grown {w : Sweep} {n : NodeId}
    (h : (visit g effects w n).grown = false) :
    visit g effects w n = w ∧ ClosedAt g effects w.sets n := by
  rcases w with ⟨⟨before, after⟩, grown⟩
  simp only [visit, Bool.or_eq_false_iff, decide_eq_false_iff_not, not_not] at h
  obtain ⟨⟨hgrown, hbefore⟩, hafter⟩ := h
  rw [hbefore] at hafter
  refine ⟨?_, Finset.union_eq_left.mp hbefore, Finset.union_eq_left.mp hafter⟩
  subst hgrown
  simp only [visit, hbefore, hafter, Function.update_eq_self]
  simp

theorem visits_eq_of_not_grown {w : Sweep} {ns : List NodeId}
    (h : (visits g effects w ns).grown = false) :
    visits g effects w ns = w ∧ ∀ n ∈ ns, ClosedAt g effects w.sets n := by
  induction ns generalizing w with
  | nil => exact ⟨rfl, by simp⟩
  | cons n rest ih =>
      obtain ⟨hrest, hclosed⟩ := ih h
      -- The other visits changed nothing, so that their mark is that of the first visit.
      have hnot : (visit g effects w n).grown = false := by
        rw [← hrest]
        exact h
      obtain ⟨hvisit, hn⟩ := visit_eq_of_not_grown hnot
      rw [hvisit] at hrest hclosed
      refine ⟨?_, ?_⟩
      · change visits g effects (visit g effects w n) rest = w
        rw [hvisit, hrest]
      · intro m hm
        rcases List.mem_cons.mp hm with rfl | hm
        · exact hn
        · exact hclosed m hm

/-! ## Whole runs -/

/-- What every visit of a node of the graph keeps, a list of visits keeps. -/
theorem visits_invariant {P : Sets → Prop}
    (hstep : ∀ w n, n < g.nodes.length → P w.sets → P (visit g effects w n).sets)
    {ns : List NodeId} (hns : ∀ n ∈ ns, n < g.nodes.length) {w : Sweep} (h : P w.sets) :
    P (visits g effects w ns).sets := by
  induction ns generalizing w with
  | nil => exact h
  | cons n rest ih =>
      exact ih (fun m hm => hns m (List.mem_cons_of_mem _ hm))
        (hstep w n (hns n List.mem_cons_self) h)

/-- What every visit keeps holds in the end. -/
theorem Settles.invariant {P : Sets → Prop}
    (hstep : ∀ w n, n < g.nodes.length → P w.sets → P (visit g effects w n).sets)
    {s t : Sets} (hrun : Settles g effects s t) (h : P s) : P t := by
  have hsweep : ∀ s, P s → P (sweep g effects s).sets := fun s hs =>
    visits_invariant hstep (fun n hn => List.mem_range.mp hn) (w := ⟨s, false⟩) hs
  induction hrun with
  | done _ => exact hsweep _ h
  | again _ _ ih => exact ih (hsweep _ h)

/-- In the end every node is closed. -/
theorem Settles.closed {s t : Sets} (hrun : Settles g effects s t) :
    ∀ n < g.nodes.length, ClosedAt g effects t n := by
  induction hrun with
  | done hdone =>
      intro n hn
      obtain ⟨heq, hclosed⟩ := visits_eq_of_not_grown hdone
      change ClosedAt g effects (visits g effects _ _).sets n
      rw [heq]
      exact hclosed n (List.mem_range.mpr hn)
  | again _ _ ih => exact ih

/-- Sweeps settle in one way only. -/
theorem Settles.unique {s t u : Sets} (ht : Settles g effects s t) (hu : Settles g effects s u) :
    t = u := by
  induction ht with
  | done hdone =>
      cases hu with
      | done _ => rfl
      | again hagain _ => simp [hdone] at hagain
  | again hagain _ ih =>
      cases hu with
      | done hdone => simp [hagain] at hdone
      | again _ hu => exact ih hu

/-! ## Termination -/

/-- How much the sets of all nodes hold. -/
def total (g : Graph) (s : Sets) : Nat :=
  ∑ n ∈ Finset.range g.nodes.length, ((s.before n).card + (s.after n).card)

theorem total_mono {s t : Sets} (h : s.Within t) : total g s ≤ total g t :=
  Finset.sum_le_sum fun n _ =>
    Nat.add_le_add (Finset.card_le_card (h n).1) (Finset.card_le_card (h n).2)

/-- A visit that finds something new makes the total larger. -/
theorem total_lt_visit {w : Sweep} {n : NodeId} (hn : n < g.nodes.length)
    (hw : w.grown = false) (h : (visit g effects w n).grown = true) :
    total g w.sets < total g (visit g effects w n).sets := by
  refine Finset.sum_lt_sum (fun m _ => ?_) ⟨n, Finset.mem_range.mpr hn, ?_⟩
  · exact Nat.add_le_add (Finset.card_le_card (within_visit w n m).1)
      (Finset.card_le_card (within_visit w n m).2)
  · have hwithin : w.sets.Within (visit g effects w n).sets := within_visit w n
    have hne : (visit g effects w n).sets.before n ≠ w.sets.before n ∨
        (visit g effects w n).sets.after n ≠ w.sets.after n := by
      simpa [visit, hw] using h
    rcases hne with hne | hne
    · exact Nat.add_lt_add_of_lt_of_le
        (Finset.card_lt_card ((hwithin n).1.ssubset_of_ne (Ne.symm hne)))
        (Finset.card_le_card (hwithin n).2)
    · exact Nat.add_lt_add_of_le_of_lt (Finset.card_le_card (hwithin n).1)
        (Finset.card_lt_card ((hwithin n).2.ssubset_of_ne (Ne.symm hne)))

theorem within_visits (w : Sweep) (ns : List NodeId) :
    w.sets.Within (visits g effects w ns).sets := by
  induction ns generalizing w with
  | nil => exact Sets.Within.refl _
  | cons n rest ih => exact (within_visit w n).trans (ih _)

theorem total_lt_visits {w : Sweep} {ns : List NodeId} (hns : ∀ n ∈ ns, n < g.nodes.length)
    (hw : w.grown = false) (h : (visits g effects w ns).grown = true) :
    total g w.sets < total g (visits g effects w ns).sets := by
  induction ns generalizing w with
  | nil => simp [visits, hw] at h
  | cons n rest ih =>
      -- Once a visit has found something, the others take nothing away.
      cases hgrown : (visit g effects w n).grown with
      | true =>
          exact (total_lt_visit (hns n List.mem_cons_self) hw hgrown).trans_le
            (total_mono (within_visits _ rest))
      | false =>
          exact (total_mono (within_visit w n)).trans_lt
            (ih (fun m hm => hns m (List.mem_cons_of_mem _ hm)) hgrown h)

/-- The sets hold nothing but definitions of the graph. -/
def OnlyMade (effects : Array Effect) (s : Sets) : Prop :=
  ∀ n, s.before n ⊆ (definitions effects).toFinset ∧ s.after n ⊆ (definitions effects).toFinset

theorem onlyMade_empty : OnlyMade effects .empty := fun _ => by simp [Sets.empty]

theorem onlyMade_visit (w : Sweep) (n : NodeId) (h : OnlyMade effects w.sets) :
    OnlyMade effects (visit g effects w n).sets := by
  have hbefore : w.sets.before n ∪ incoming g w.sets n ⊆ (definitions effects).toFinset :=
    Finset.union_subset (h n).1 (Finset.biUnion_subset.mpr fun p _ => (h p).2)
  have hafter : w.sets.after n ∪ outgoing effects n (w.sets.before n ∪ incoming g w.sets n) ⊆
      (definitions effects).toFinset := by
    refine Finset.union_subset (h n).2 fun defn hdefn => ?_
    rcases mem_outgoing.mp hdefn with ⟨rfl, hmade⟩ | ⟨hmem, -⟩
    · exact List.mem_toFinset.mpr (mem_definitions.mpr hmade)
    · exact hbefore hmem
  intro m
  by_cases hm : m = n
  · subst hm
    simp only [visit, Function.update_self]
    exact ⟨hbefore, hafter⟩
  · simp only [visit, Function.update_of_ne hm]
    exact h m

theorem total_le_of_onlyMade {s : Sets} (h : OnlyMade effects s) :
    total g s ≤ g.nodes.length * (2 * (definitions effects).toFinset.card) := by
  refine (Finset.sum_le_card_nsmul _ _ (2 * (definitions effects).toFinset.card) ?_).trans
    (by simp)
  intro n _
  have hbefore := Finset.card_le_card (h n).1
  have hafter := Finset.card_le_card (h n).2
  omega

/-- Sweeps settle from every start that holds nothing but definitions of the graph. -/
theorem exists_settles {s : Sets} (h : OnlyMade effects s) : ∃ t, Settles g effects s t := by
  -- The induction is on the room that is left, which is less after every sweep that goes on.
  generalize hroom : g.nodes.length * (2 * (definitions effects).toFinset.card) - total g s = room
  induction room using Nat.strong_induction_on generalizing s with
  | _ room ih =>
      cases hgrown : (sweep g effects s).grown with
      | false => exact ⟨_, .done hgrown⟩
      | true =>
          have hnodes : ∀ n ∈ List.range g.nodes.length, n < g.nodes.length :=
            fun n hn => List.mem_range.mp hn
          have honly : OnlyMade effects (sweep g effects s).sets :=
            visits_invariant (fun w n _ => onlyMade_visit w n) hnodes (w := ⟨s, false⟩) h
          have hlt : total g s < total g (sweep g effects s).sets :=
            total_lt_visits (w := ⟨s, false⟩) hnodes rfl hgrown
          have hle := total_le_of_onlyMade (g := g) honly
          obtain ⟨t, ht⟩ := ih _ (by omega) honly rfl
          exact ⟨t, .again hgrown ht⟩

end ControlFlow.Reaching

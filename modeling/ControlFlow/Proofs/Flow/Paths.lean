import ControlFlow.Graph.Search
import ControlFlow.Proofs.Graph.Shown

/-! # Paths through joins

A run that visits points one after the other follows flows from node to node, through joins only.
Where statements are lowered, it comes in at points of an exit, or at a join that is one.
-/

namespace ControlFlow

open Search (Path)

namespace Graph

def isJoin (g : Graph) (n : NodeId) : Bool :=
  match g.nodes[n]? with
  | some (.mark .join _) => true
  | _ => false

/-- A flow path leads from one node to another, through joins only. -/
def Leads (g : Graph) (u v : NodeId) : Prop := Path g.flows g.isJoin u v

/-- A node is among some points or leads to a join that is. -/
def Arrives (g : Graph) (u : NodeId) (points : List NodeId) : Prop :=
  u ∈ points ∨ ∃ n ∈ points, g.isJoin n = true ∧ g.Leads u n

/-- Visiting points one after the other, a node leads to the last of them. -/
inductive Follows (g : Graph) : NodeId → List Point → NodeId → Prop where
  | done (u : NodeId) : Follows g u [] u
  | visit {u n last : NodeId} {p : Point} {rest : List Point} :
      g.find? p.key = some n → g.Leads u n → Follows g n rest last → Follows g u (p :: rest) last

/-- A graph has no node for some points yet, which all have keys of their own. -/
structure Fresh (g : Graph) (ps : List Point) : Prop where
  counted : g.Counted
  nodup : (ps.map Point.key).Nodup
  trees : ∀ p ∈ ps, ∃ id, p.key = .tree id
  unseen : ∀ p ∈ ps, g.find? p.key = none

variable {g g' : Graph} {u v n last : NodeId} {ps qs : List Point} {points more : List NodeId}

/-! ## Arriving and following -/

theorem Arrives.mono (h : g.Arrives u points) (hsub : points ⊆ more) : g.Arrives u more := by
  rcases h with hu | ⟨n, hn, hjoin, hleads⟩
  · exact .inl (hsub hu)
  · exact .inr ⟨n, hsub hn, hjoin, hleads⟩

theorem arrives_self (g : Graph) (n : NodeId) : g.Arrives n (Exit.drawn n).points :=
  .inl (List.mem_singleton_self n)

/-- Flows from all points where a node arrives are flows on from the node. -/
theorem Arrives.leads (h : g.Arrives u points) (hflows : ∀ n ∈ points, (n, v) ∈ g.flows) :
    g.Leads u v := by
  rcases h with hu | ⟨n, hn, hjoin, hleads⟩
  · exact .edge (hflows u hu)
  · exact .step hleads hjoin (hflows n hn)

theorem Follows.append {visits rest : List Point} (h : g.Follows u visits n)
    (h' : g.Follows n rest last) : g.Follows u (visits ++ rest) last := by
  induction h with
  | done u => exact h'
  | visit hfind hleads _ ih => exact .visit hfind hleads (ih h')

theorem Follows.of_prefix {visits rest : List Point} (h : g.Follows u visits last)
    (hpre : rest <+: visits) : ∃ n, g.Follows u rest n := by
  induction h generalizing rest with
  | done u =>
      rw [List.prefix_nil.mp hpre]
      exact ⟨u, .done u⟩
  | visit hfind hleads _ ih =>
      rcases rest with _ | ⟨q, rest⟩
      · exact ⟨_, .done _⟩
      · obtain ⟨rfl, hrest⟩ := List.cons_prefix_cons.mp hpre
        obtain ⟨n, hn⟩ := ih hrest
        exact ⟨n, .visit hfind hleads hn⟩

/-- The last node is where one starts or stands for a visited point. -/
theorem Follows.last_cases {visits : List Point} (h : g.Follows u visits last) :
    last = u ∨ ∃ p ∈ visits, g.find? p.key = some last := by
  induction h with
  | done u => exact .inl rfl
  | @visit u n last p rest hfind _ _ ih =>
      rcases ih with rfl | ⟨q, hq, hlast⟩
      · exact .inr ⟨p, List.mem_cons_self, hfind⟩
      · exact .inr ⟨q, List.mem_cons_of_mem _ hq, hlast⟩

/-! ## Points that are new to a graph -/

theorem Fresh.of_append_left (h : g.Fresh (ps ++ qs)) : g.Fresh ps := by
  refine ⟨h.counted, ?_, fun p hp => h.trees p (List.mem_append_left _ hp),
    fun p hp => h.unseen p (List.mem_append_left _ hp)⟩
  have hnodup := h.nodup
  rw [List.map_append] at hnodup
  exact hnodup.of_append_left

/-- Steps that place some points leave the points after them new. -/
theorem Fresh.after {O : TreeId × Stmt → Prop} (h : g.Fresh (ps ++ qs))
    (hsteps : Steps (· ∈ ps) O g g') : g'.Fresh qs := by
  have hnodup := h.nodup
  rw [List.map_append] at hnodup
  obtain ⟨-, hqs, hdisjoint⟩ := List.nodup_append.mp hnodup
  have htrees : ∀ p ∈ ps, ∀ counter, p.key ≠ .mark counter := by
    intro p hp counter hkey
    obtain ⟨id, hid⟩ := h.trees p (List.mem_append_left _ hp)
    rw [hid] at hkey
    cases hkey
  refine ⟨hsteps.counted htrees h.counted, hqs,
    fun q hq => h.trees q (List.mem_append_right _ hq), fun q hq => ?_⟩
  refine find?_eq_none.mpr fun p hp hkey => ?_
  -- A node with the key of a later point would be old, stand for an earlier one, or be a join.
  rcases hsteps.node_origin hp with hold | hnew | ⟨counter, rfl, -⟩
  · exact find?_eq_none.mp (h.unseen q (List.mem_append_right _ hq)) p hold hkey
  · exact hdisjoint p.key (List.mem_map_of_mem hnew) q.key (List.mem_map_of_mem hq) hkey
  · obtain ⟨id, hid⟩ := h.trees q (List.mem_append_right _ hq)
    rw [hid] at hkey
    cases hkey

theorem Fresh.counted_after {O : TreeId × Stmt → Prop} (h : g.Fresh ps)
    (hsteps : Steps (· ∈ ps) O g g') : g'.Counted := by
  have happend : g.Fresh (ps ++ []) := by
    rw [List.append_nil]
    exact h
  exact (happend.after hsteps).counted

/-- Points that were new get nodes that are new. -/
theorem Fresh.le_of_find? {p : Point} (h : g.Fresh ps) (hp : p ∈ ps) (hext : g.Extends g')
    (hn : g'.find? p.key = some n) : g.nodes.length ≤ n := by
  refine Nat.le_of_not_lt fun hold => ?_
  obtain ⟨q, hq, hkey⟩ := find?_some hn
  rw [hext.getElem? (List.getElem?_eq_getElem hold)] at hq
  cases hq
  exact find?_eq_none.mp (h.unseen p hp) _ (List.getElem_mem hold) hkey

/-- Steps that place no points leave all points new. -/
theorem Fresh.steps {O : TreeId × Stmt → Prop} (h : g.Fresh ps)
    (hsteps : Steps (· ∈ ([] : List Point)) O g g') : g'.Fresh ps :=
  Fresh.after (show g.Fresh ([] ++ ps) from h) hsteps

theorem Fresh.enterControl {d : Draft} {e : Expr} (h : d.toGraph.Fresh (.expr e :: ps))
    (parent : Exit) (s : Stmt) : (d.enterControl parent e s).2.toGraph.Fresh ps := by
  have hsteps := d.grows_enterControl (A := (· ∈ [.expr e])) (O := fun _ => True) parent (s := s)
    (List.mem_singleton_self _) trivial
  exact Fresh.after (show d.toGraph.Fresh ([.expr e] ++ ps) from h) hsteps.steps

theorem Fresh.enterVar {d : Draft} {var : LoopVar} (h : d.toGraph.Fresh (.loopVar var :: ps))
    (head : NodeId) (s : Stmt) : (d.enterVar head var s).2.toGraph.Fresh ps := by
  have hsteps := d.grows_enterVar (A := (· ∈ [.loopVar var])) (O := fun _ => True) head (s := s)
    (List.mem_singleton_self _) trivial
  exact Fresh.after (show d.toGraph.Fresh ([.loopVar var] ++ ps) from h) hsteps.steps

theorem Fresh.lowerSeq {d : Draft} {ss : List Stmt} (h : d.toGraph.Fresh (pointsOf ss ++ ps))
    (loop : Option NodeId) (parent : Exit) :
    (ControlFlow.lowerSeq loop ss parent d).2.toGraph.Fresh ps :=
  h.after (grows_lowerSeq ss loop parent d).steps

theorem Fresh.aroundLoop {d : Draft} {body : List Stmt} (h : d.toGraph.Fresh (pointsOf body ++ ps))
    (head n : NodeId) : (ControlFlow.aroundLoop body head n d).toGraph.Fresh ps := by
  have hinside : (insideLoop body head n d).2.toGraph.Fresh ps :=
    Fresh.lowerSeq (d := d.openLoop) h (some head) (.drawn n)
  have hback := (insideLoop body head n d).2.grows_returnTo (A := (· ∈ []))
    (O := fun _ => True) (insideLoop body head n d).1 head
  exact hinside.steps hback.steps

theorem Fresh.counted_lowerSeq {d : Draft} {ss : List Stmt} (h : d.toGraph.Fresh (pointsOf ss))
    (loop : Option NodeId) (parent : Exit) :
    (ControlFlow.lowerSeq loop ss parent d).2.toGraph.Counted :=
  h.counted_after (grows_lowerSeq ss loop parent d).steps

end Graph

end ControlFlow

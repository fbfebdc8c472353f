import ControlFlow.Graph.Lowering
import ControlFlow.Proofs.Graph.Wiring
import ControlFlow.Proofs.Tree.Parts
import Mathlib.Logic.Relation

/-! # How graphs grow

Whatever is lowered into a graph, the graph grows by small steps only: a point is placed, a join is
added, a flow is drawn or implied, or the owner of a control expression is noted. What every step
keeps, lowering keeps: nodes and flows stay where they are, new nodes stand only for joins and for
points of the lowered statements, and no two nodes get one key.
-/

namespace ControlFlow

open Relation (ReflTransGen)

namespace Graph

/-- One step in which a graph grows, placing only allowed points and noting only allowed owners. -/
inductive Step (A : Point → Prop) (O : TreeId × Stmt → Prop) : Graph → Graph → Prop where
  | place (g : Graph) {p : Point} : A p → Step A O g (g.place p).2
  | join (g : Graph) : Step A O g (g.placeMark .join).2
  | draw (g : Graph) (source target : NodeId) : Step A O g (g.draw source target)
  | imply (g : Graph) (source target : NodeId) : Step A O g (g.imply source target)
  | own (g : Graph) {o : TreeId × Stmt} : O o → Step A O g { g with owners := o :: g.owners }

/-- Any number of steps. -/
abbrev Steps (A : Point → Prop) (O : TreeId × Stmt → Prop) : Graph → Graph → Prop :=
  ReflTransGen (Step A O)

variable {A : Point → Prop} {O : TreeId × Stmt → Prop} {g g' g'' : Graph}

/-! ## What steps keep -/

/-- Everything that a graph has is still there in another one. -/
structure Extends (g g' : Graph) : Prop where
  module_eq : g'.module = g.module
  showsGlobals_eq : g'.showsGlobals = g.showsGlobals
  nodes : g.nodes <+: g'.nodes
  edges : g.edges ⊆ g'.edges
  flows : g.flows ⊆ g'.flows
  owners : g.owners ⊆ g'.owners
  marks : g.marks ≤ g'.marks

namespace Extends

theorem refl (g : Graph) : g.Extends g :=
  ⟨rfl, rfl, List.prefix_refl _, fun _ h => h, fun _ h => h, fun _ h => h, Nat.le_refl _⟩

theorem trans (h : g.Extends g') (h' : g'.Extends g'') : g.Extends g'' :=
  ⟨h'.module_eq.trans h.module_eq, h'.showsGlobals_eq.trans h.showsGlobals_eq,
    h.nodes.trans h'.nodes, fun _ hf => h'.edges (h.edges hf), fun _ hf => h'.flows (h.flows hf),
    fun _ ho => h'.owners (h.owners ho), Nat.le_trans h.marks h'.marks⟩

theorem getElem? (h : g.Extends g') {n : NodeId} {p : Point} (hp : g.nodes[n]? = some p) :
    g'.nodes[n]? = some p := by
  obtain ⟨more, hmore⟩ := h.nodes
  rw [← hmore, List.getElem?_append_left (List.getElem?_eq_some_iff.mp hp).1]
  exact hp

theorem find? (h : g.Extends g') {k : Key} {n : NodeId} (hn : g.find? k = some n) :
    g'.find? k = some n :=
  find?_of_prefix h.nodes hn

theorem length_le (h : g.Extends g') : g.nodes.length ≤ g'.nodes.length := h.nodes.length_le

end Extends

theorem extends_place (g : Graph) (p : Point) : g.Extends (g.place p).2 := by
  cases h : g.find? p.key with
  | some n =>
      rw [place_of_some h]
      exact .refl g
  | none =>
      rw [place_of_none h]
      exact ⟨rfl, rfl, List.prefix_append _ _, fun _ h => h, fun _ h => h, fun _ h => h,
        Nat.le_refl _⟩

theorem extends_draw (g : Graph) (source target : NodeId) : g.Extends (g.draw source target) := by
  unfold draw
  split
  next => exact .refl g
  next =>
    refine ⟨rfl, rfl, List.prefix_refl _, List.subset_append_left _ _, fun f hf => ?_,
      fun _ h => h, Nat.le_refl _⟩
    exact mem_flows.mpr ((mem_flows.mp hf).imp_left (List.mem_append_left _))

theorem extends_imply (g : Graph) (source target : NodeId) : g.Extends (g.imply source target) := by
  unfold imply
  split
  next => exact .refl g
  next =>
    refine ⟨rfl, rfl, List.prefix_refl _, fun _ h => h, fun f hf => ?_, fun _ h => h,
      Nat.le_refl _⟩
    exact mem_flows.mpr ((mem_flows.mp hf).imp_right (List.mem_append_left _))

theorem extends_placeMark (g : Graph) (kind : Mark) : g.Extends (g.placeMark kind).2 := by
  have hmarks : g.Extends { g with marks := g.marks + 1 } :=
    ⟨rfl, rfl, List.prefix_refl _, fun _ h => h, fun _ h => h, fun _ h => h, Nat.le_succ _⟩
  exact hmarks.trans (extends_place _ _)

theorem Step.extends (h : Step A O g g') : g.Extends g' := by
  cases h with
  | place hp => exact extends_place _ _
  | join => exact extends_placeMark _ _
  | draw source target => exact extends_draw _ _ _
  | imply source target => exact extends_imply _ _ _
  | own ho =>
      exact ⟨rfl, rfl, List.prefix_refl _, fun _ h => h, fun _ h => h,
        List.subset_cons_self _ _, Nat.le_refl _⟩

theorem Steps.extends (h : Steps A O g g') : g.Extends g' := by
  induction h with
  | refl => exact .refl g
  | tail _ hstep ih => exact ih.trans hstep.extends

/-- A property that every step keeps is kept by any number of steps. -/
theorem Steps.invariant {P : Graph → Prop} (hstep : ∀ g g', Step A O g g' → P g → P g')
    (h : Steps A O g g') (hg : P g) : P g' := by
  induction h with
  | refl => exact hg
  | tail _ hlast ih => exact hstep _ _ hlast ih

theorem mem_nodes_place {p q : Point} (h : q ∈ (g.place p).2.nodes) : q ∈ g.nodes ∨ q = p := by
  cases hfind : g.find? p.key with
  | some n =>
      rw [place_of_some hfind] at h
      exact .inl h
  | none =>
      rw [place_of_none hfind] at h
      exact (List.mem_append.mp h).imp_right List.mem_singleton.mp

theorem owners_place (g : Graph) (p : Point) : (g.place p).2.owners = g.owners := by
  cases h : g.find? p.key with
  | some n => rw [place_of_some h]
  | none => rw [place_of_none h]

/-- New nodes stand for allowed points or are new joins. -/
theorem Steps.node_origin (h : Steps A O g g') {p : Point} (hp : p ∈ g'.nodes) :
    p ∈ g.nodes ∨ A p ∨ ∃ counter, p = .mark .join counter ∧ g.marks ≤ counter := by
  induction h with
  | refl => exact .inl hp
  | @tail b c hsteps hstep ih =>
      -- Marks only grow, so that a join that is added later has a counter of its own.
      have hmarks := (Steps.extends hsteps).marks
      cases hstep with
      | place hA =>
          rcases mem_nodes_place hp with hold | rfl
          · exact ih hold
          · exact .inr (.inl hA)
      | join =>
          rcases mem_nodes_place hp with hold | rfl
          · exact ih hold
          · exact .inr (.inr ⟨_, rfl, hmarks⟩)
      | draw source target => exact ih (by rwa [draw_nodes] at hp)
      | imply source target => exact ih (by rwa [imply_nodes] at hp)
      | own ho => exact ih hp

theorem owners_draw (g : Graph) (source target : NodeId) :
    (g.draw source target).owners = g.owners := by
  unfold draw
  split <;> rfl

theorem owners_imply (g : Graph) (source target : NodeId) :
    (g.imply source target).owners = g.owners := by
  unfold imply
  split <;> rfl

/-- New owners are allowed ones. -/
theorem Steps.owner_origin (h : Steps A O g g') {o : TreeId × Stmt} (ho : o ∈ g'.owners) :
    o ∈ g.owners ∨ O o := by
  induction h with
  | refl => exact .inl ho
  | @tail b c _ hstep ih =>
      cases hstep with
      | place hA => exact ih (by rwa [owners_place] at ho)
      | join => exact ih (by simpa only [placeMark, owners_place] using ho)
      | draw source target => exact ih (by rwa [owners_draw] at ho)
      | imply source target => exact ih (by rwa [owners_imply] at ho)
      | own hO =>
          rcases List.mem_cons.mp ho with rfl | hold
          · exact .inr hO
          · exact ih hold

theorem nodup_place {p : Point} (h : (g.nodes.map Point.key).Nodup) :
    ((g.place p).2.nodes.map Point.key).Nodup := by
  cases hfind : g.find? p.key with
  | some n =>
      rw [place_of_some hfind]
      exact h
  | none =>
      rw [place_of_none hfind]
      simp only [List.map_append, List.map_cons, List.map_nil]
      refine List.nodup_append.mpr ⟨h, List.nodup_singleton _, ?_⟩
      rintro k hk k' hk' rfl
      obtain ⟨q, hq, hkey⟩ := List.mem_map.mp hk
      exact find?_eq_none.mp hfind q hq (hkey.trans (List.mem_singleton.mp hk'))

/-- No step gives two nodes one key. -/
theorem Steps.nodup_keys (h : Steps A O g g') (hg : (g.nodes.map Point.key).Nodup) :
    (g'.nodes.map Point.key).Nodup := by
  refine h.invariant (P := fun g => (g.nodes.map Point.key).Nodup) (fun b c hstep hb => ?_) hg
  cases hstep with
  | place hA => exact nodup_place hb
  | join => exact nodup_place hb
  | draw source target => rwa [draw_nodes]
  | imply source target => rwa [imply_nodes]
  | own hO => exact hb

/-- The counters of all marks are used up. -/
def Counted (g : Graph) : Prop :=
  ∀ p ∈ g.nodes, ∀ counter, p.key = .mark counter → counter < g.marks

theorem Counted.place {p : Point} (h : g.Counted) (hp : ∀ counter, p.key ≠ .mark counter) :
    (g.place p).2.Counted := by
  intro q hq counter hkey
  rcases mem_nodes_place hq with hold | rfl
  · exact Nat.lt_of_lt_of_le (h q hold counter hkey) (extends_place g p).marks
  · exact absurd hkey (hp counter)

theorem Counted.placeMark (h : g.Counted) (kind : Mark) : (g.placeMark kind).2.Counted := by
  intro q hq counter hkey
  have hmarks : g.marks + 1 ≤ (g.placeMark kind).2.marks :=
    (extends_place { g with marks := g.marks + 1 } _).marks
  rcases mem_nodes_place hq with hold | rfl
  · exact Nat.lt_trans (h q hold counter hkey) (Nat.lt_of_succ_le hmarks)
  · cases hkey
    exact Nat.lt_of_succ_le hmarks

/-- Steps that place no marks of their own leave all counters used up. -/
theorem Steps.counted (h : Steps A O g g') (hA : ∀ p, A p → ∀ counter, p.key ≠ .mark counter)
    (hg : g.Counted) : g'.Counted := by
  refine h.invariant (P := Counted) (fun b c hstep hb => ?_) hg
  cases hstep with
  | place hp => exact hb.place (hA _ hp)
  | join => exact hb.placeMark .join
  | draw source target =>
      intro p hp
      rw [draw_nodes] at hp
      exact fun counter hkey =>
        Nat.lt_of_lt_of_le (hb p hp counter hkey) (extends_draw b _ _).marks
  | imply source target =>
      intro p hp
      rw [imply_nodes] at hp
      exact fun counter hkey =>
        Nat.lt_of_lt_of_le (hb p hp counter hkey) (extends_imply b _ _).marks
  | own hO => exact hb

/-- A new mark is a node of its own. -/
theorem Counted.placeMark_eq (h : g.Counted) (kind : Mark) :
    g.placeMark kind = (g.nodes.length,
      { g with marks := g.marks + 1, nodes := g.nodes ++ [.mark kind g.marks] }) := by
  -- The key is free, so that no mark that is there serves instead.
  have hnone : ({ g with marks := g.marks + 1 } : Graph).find? (Point.mark kind g.marks).key =
      none :=
    find?_eq_none.mpr fun p hp hkey => absurd (h p hp g.marks hkey) (Nat.lt_irrefl _)
  exact place_of_none hnone

/-! ## Runs of steps -/

theorem steps_imply (g : Graph) (ns : List NodeId) (target : NodeId) :
    Steps A O g (ns.foldl (fun g n => g.imply n target) g) := by
  induction ns generalizing g with
  | nil => exact .refl
  | cons n rest ih => exact .head (.imply g n target) (ih _)

theorem steps_connect (g : Graph) (e : Exit) (target : NodeId) :
    Steps A O g (g.connect e target) := by
  unfold connect
  split
  next n hn => exact .head (.draw g n target) (steps_imply _ _ _)
  next => exact steps_imply _ _ _

theorem steps_connectAll (g : Graph) (es : List Exit) (target : NodeId) :
    Steps A O g (es.foldl (fun g e => g.connect e target) g) := by
  induction es generalizing g with
  | nil => exact .refl
  | cons e rest ih => exact (steps_connect g e target).trans (ih _)

theorem extends_implyAll (g : Graph) (ns : List NodeId) (target : NodeId) :
    g.Extends (ns.foldl (fun g n => g.imply n target) g) :=
  Steps.extends (steps_imply (A := fun _ => True) (O := fun _ => True) g ns target)

theorem extends_connect (g : Graph) (e : Exit) (target : NodeId) :
    g.Extends (g.connect e target) :=
  Steps.extends (steps_connect (A := fun _ => True) (O := fun _ => True) g e target)

theorem extends_connectAll (g : Graph) (es : List Exit) (target : NodeId) :
    g.Extends (es.foldl (fun g e => g.connect e target) g) :=
  Steps.extends (steps_connectAll (A := fun _ => True) (O := fun _ => True) g es target)

end Graph

/-! ## Lowering takes steps -/

open ControlFlow.Graph

/-- A draft went on growing: its graph took steps, and more jumps may have been collected. -/
structure Draft.Grows (A : Point → Prop) (O : TreeId × Stmt → Prop) (d d' : Draft) : Prop where
  steps : Steps A O d.toGraph d'.toGraph
  breaks : d.breaks ⊆ d'.breaks
  leaves : d.leaves ⊆ d'.leaves

namespace Draft

variable {A : Point → Prop} {O : TreeId × Stmt → Prop} {d d' d'' : Draft}

theorem Grows.refl (d : Draft) : d.Grows A O d := ⟨.refl, fun _ h => h, fun _ h => h⟩

theorem Grows.trans (h : d.Grows A O d') (h' : d'.Grows A O d'') : d.Grows A O d'' :=
  ⟨h.steps.trans h'.steps, fun _ hn => h'.breaks (h.breaks hn),
    fun _ hn => h'.leaves (h.leaves hn)⟩

theorem Grows.extends (h : d.Grows A O d') : d.toGraph.Extends d'.toGraph := Steps.extends h.steps

/-- A draft whose graph alone took steps. -/
theorem Grows.of_steps {g : Graph} (h : Steps A O d.toGraph g) :
    d.Grows A O { d with toGraph := g } :=
  ⟨h, fun _ hn => hn, fun _ hn => hn⟩

/-- What grew inside a loop has grown around it as well. -/
theorem Grows.around (h : d.openLoop.Grows A O d') : d.Grows A O (d'.closeLoop d) :=
  ⟨h.steps, fun _ hn => hn, h.leaves⟩

theorem grows_enter (d : Draft) (parent : Exit) {p : Point} (hp : A p) :
    d.Grows A O (d.enter parent p).2 :=
  .of_steps (.head (.place _ hp) (steps_connect _ _ _))

theorem grows_enterControl (d : Draft) (parent : Exit) {e : Expr} {s : Stmt} (he : A (.expr e))
    (hs : O (e.id, s)) : d.Grows A O (d.enterControl parent e s).2 :=
  (grows_enter d parent he).trans (.of_steps (.single (.own _ hs)))

theorem enterVar_toGraph (d : Draft) (head : NodeId) (var : LoopVar) (s : Stmt) :
    (d.enterVar head var s).2.toGraph =
      { (d.place (.loopVar var)).2.draw head (d.place (.loopVar var)).1 with
        owners := (var.id, s) ::
          ((d.place (.loopVar var)).2.draw head (d.place (.loopVar var)).1).owners } := by
  rw [owners_draw]
  rfl

theorem grows_enterVar (d : Draft) (head : NodeId) {var : LoopVar} {s : Stmt}
    (hvar : A (.loopVar var)) (hs : O (var.id, s)) :
    d.Grows A O (d.enterVar head var s).2 := by
  refine ⟨?_, fun _ hn => hn, fun _ hn => hn⟩
  rw [enterVar_toGraph]
  exact .head (.place _ hvar) (.head (.draw _ _ _) (.single (.own _ hs)))

theorem grows_join (d : Draft) (parents : List Exit) : d.Grows A O (d.join parents).2 :=
  .of_steps (.head (.join _) (steps_connectAll _ _ _))

theorem grows_returnTo (d : Draft) (parent : Exit) (n : NodeId) :
    d.Grows A O (d.returnTo parent n) :=
  .of_steps (steps_connect _ _ _)

theorem grows_jump (loop : Option NodeId) (parent : Exit) (d : Draft) (id : TreeId) (how : Jump)
    (hA : ∀ p ∈ (Stmt.jump id how).ownPoints, A p) :
    d.Grows A O (d.jump loop parent id how).2 := by
  have hmore (ns ms : List NodeId) : ns ⊆ ns ++ ms := List.subset_append_left _ _
  cases how with
  | «return» value =>
      cases value with
      | none => exact ⟨.refl, fun _ hn => hn, hmore _ _⟩
      | some e =>
          have henter := grows_enter (O := O) d parent (hA _ (List.mem_singleton_self _))
          exact henter.trans ⟨.refl, fun _ hn => hn, hmore _ _⟩
  | throw value =>
      cases value with
      | none => exact ⟨.refl, fun _ hn => hn, hmore _ _⟩
      | some e =>
          have henter := grows_enter (O := O) d parent (hA _ (List.mem_singleton_self _))
          exact henter.trans ⟨.refl, fun _ hn => hn, hmore _ _⟩
  | «break» =>
      cases loop with
      | none => exact .refl d
      | some head => exact ⟨.refl, hmore _ _, fun _ hn => hn⟩
  | «continue» =>
      cases loop with
      | none => exact .refl d
      | some head => exact .of_steps (steps_imply _ _ _)

end Draft

/-- The body of a loop with some head, lowered where control comes in from a node. -/
def insideLoop (body : List Stmt) (head n : NodeId) (d : Draft) : Exit × Draft :=
  lowerSeq (some head) body (.drawn n) d.openLoop

/-- A loop whose body goes back to its head, seen from around it. -/
def aroundLoop (body : List Stmt) (head n : NodeId) (d : Draft) : Draft :=
  ((insideLoop body head n d).2.returnTo (insideLoop body head n d).1 head).closeLoop d

theorem grows_aroundLoop {A : Point → Prop} {O : TreeId × Stmt → Prop} {body : List Stmt}
    {head n : NodeId} {d : Draft} (h : d.openLoop.Grows A O (insideLoop body head n d).2) :
    d.Grows A O (aroundLoop body head n d) :=
  .around (h.trans (Draft.grows_returnTo _ _ _))

/-- What statements show and own is allowed. -/
def Allows (A : Point → Prop) (O : TreeId × Stmt → Prop) (ss : List Stmt) : Prop :=
  ∀ s ∈ ss, (∀ p ∈ s.ownPoints, A p) ∧ ∀ o ∈ s.controls, O o

theorem allows_append {A : Point → Prop} {O : TreeId × Stmt → Prop} {ss ts : List Stmt} :
    Allows A O (ss ++ ts) ↔ Allows A O ss ∧ Allows A O ts :=
  List.forall_mem_append

theorem allows_cons {A : Point → Prop} {O : TreeId × Stmt → Prop} {s : Stmt} {ss : List Stmt} :
    Allows A O (s :: ss) ↔
      ((∀ p ∈ s.ownPoints, A p) ∧ ∀ o ∈ s.controls, O o) ∧ Allows A O ss :=
  List.forall_mem_cons

/-- Lowering only lets a draft grow, by what the statements show and own. -/
theorem grows_lower {A : Point → Prop} {O : TreeId × Stmt → Prop} :
    (∀ s, Allows A O (s :: s.inner) → ∀ loop parent d,
      Draft.Grows A O d (Stmt.lower loop s parent d).2) ∧
    (∀ ss, Allows A O (stmtsOf ss) → ∀ loop parent d,
      Draft.Grows A O d (lowerSeq loop ss parent d).2) ∧
    (∀ cs, Allows A O (stmtsOfCatches cs) → ∀ loop raised joined d,
      Draft.Grows A O d (lowerCatches loop cs raised joined d)) := by
  refine tree_induction ?simple ?jump ?block ?while_ ?for_ ?if_ ?try_ ?nil ?cons ?noCatch ?catch_
  case simple =>
    intro id what hallows loop parent d
    exact d.grows_enter parent ((allows_cons.mp hallows).1.1 _ (List.mem_singleton_self _))
  case jump =>
    intro id how hallows loop parent d
    exact d.grows_jump loop parent id how (allows_cons.mp hallows).1.1
  case block =>
    intro id bid body ih hallows loop parent d
    exact ih (allows_cons.mp hallows).2 loop parent d
  case while_ =>
    intro id cond bid body orElse ihbody ihelse hallows loop parent d
    rw [inner_while, allows_cons, allows_append] at hallows
    obtain ⟨hown, hbody, helse⟩ := hallows
    have hhead := d.grows_enterControl parent (hown.1 (.expr cond) (List.mem_singleton_self _))
      (hown.2 (cond.id, .while id cond ⟨bid, body⟩ orElse) (List.mem_singleton_self _))
    have haround (head : NodeId) (d : Draft) : d.Grows A O (aroundLoop body head head d) :=
      grows_aroundLoop (ihbody hbody _ _ d.openLoop)
    -- The `else` part is lowered where the loop is over.
    rcases orElse with _ | ⟨eid, orElse⟩
    · exact hhead.trans (haround _ _)
    · exact ((hhead.trans (haround _ _)).trans (ihelse helse loop _ _)).trans
        (Draft.grows_join _ _)
  case for_ =>
    intro id var seq bid body ih hallows loop parent d
    obtain ⟨hown, hbody⟩ := allows_cons.mp hallows
    have hhead := d.grows_enterControl parent (hown.1 (.expr seq) (List.mem_cons_self))
      (hown.2 (seq.id, .for id var seq ⟨bid, body⟩) (List.mem_cons_self))
    have hvar (head : NodeId) (d : Draft) :
        d.Grows A O (d.enterVar head var (.for id var seq ⟨bid, body⟩)).2 :=
      d.grows_enterVar head (hown.1 _ (List.mem_cons_of_mem _ (List.mem_singleton_self _)))
        (hown.2 _ (List.mem_cons_of_mem _ (List.mem_singleton_self _)))
    have haround (head n : NodeId) (d : Draft) : d.Grows A O (aroundLoop body head n d) :=
      grows_aroundLoop (ih hbody _ _ d.openLoop)
    exact (hhead.trans (hvar _ _)).trans (haround _ _ _)
  case if_ =>
    intro id cond bid body orElse ihbody ihelse hallows loop parent d
    rw [inner_if, allows_cons, allows_append] at hallows
    obtain ⟨hown, hbody, helse⟩ := hallows
    have htest := d.grows_enterControl parent (hown.1 (.expr cond) (List.mem_singleton_self _))
      (hown.2 (cond.id, .if id cond ⟨bid, body⟩ orElse) (List.mem_singleton_self _))
    rcases orElse with _ | ⟨eid, orElse⟩
    · exact htest.trans (ihbody hbody _ _ _)
    · exact ((htest.trans (ihbody hbody _ _ _)).trans (ihelse helse _ _ _)).trans
        (Draft.grows_join _ _)
  case try_ =>
    intro id bid body catches ihbody ihcatches hallows loop parent d
    obtain ⟨hbody, hcatches⟩ := allows_append.mp (allows_cons.mp hallows).2
    exact ((ihbody hbody loop parent d).trans (Draft.grows_join _ _)).trans
      (ihcatches hcatches _ _ _ _)
  case nil =>
    intro _ loop parent d
    exact .refl d
  case cons =>
    intro s rest ihs ihrest hallows loop parent d
    rw [stmtsOf, ← List.cons_append, allows_append] at hallows
    -- What is behind a jump is lowered from nowhere, and then joined with the jump.
    have hlive := ihs hallows.1 loop parent d
    unfold lowerSeq
    dsimp only
    split
    · exact (hlive.trans (ihrest hallows.2 loop .nowhere _)).trans (Draft.grows_join _ _)
    · exact hlive.trans (ihrest hallows.2 loop _ _)
  case noCatch =>
    intro _ loop raised joined d
    exact .refl d
  case catch_ =>
    intro id param bid body rest ihbody ihrest hallows loop raised joined d
    obtain ⟨hbody, hrest⟩ := allows_append.mp hallows
    exact ((ihbody hbody loop raised d).trans (Draft.grows_returnTo _ _ _)).trans
      (ihrest hrest loop raised joined _)

/-- Statements allow what they show and own. -/
theorem allows_of_mem (ss : List Stmt) :
    Allows (· ∈ pointsOf ss) (· ∈ controlsOf ss) (stmtsOf ss) := by
  intro s hs
  exact ⟨fun p hp => List.mem_flatMap.mpr ⟨s, hs, hp⟩, fun o ho => List.mem_flatMap.mpr ⟨s, hs, ho⟩⟩

theorem grows_lowerSeq (ss : List Stmt) (loop : Option NodeId) (parent : Exit) (d : Draft) :
    d.Grows (· ∈ pointsOf ss) (· ∈ controlsOf ss) (lowerSeq loop ss parent d).2 :=
  grows_lower.2.1 ss (allows_of_mem ss) loop parent d

theorem grows_lowerCatches (cs : List Catch) (loop : Option NodeId) (raised : Exit)
    (joined : NodeId) (d : Draft) :
    d.Grows (· ∈ pointsOfCatches cs) (· ∈ controlsOfCatches cs)
      (lowerCatches loop cs raised joined d) := by
  refine grows_lower.2.2 cs (fun s hs => ⟨fun p hp => ?_, fun o ho => ?_⟩) loop raised joined d
  · exact List.mem_flatMap.mpr ⟨s, hs, hp⟩
  · exact List.mem_flatMap.mpr ⟨s, hs, ho⟩

/-- A single statement is lowered as it is in a sequence. -/
theorem lowerSeq_single (s : Stmt) (loop : Option NodeId) (parent : Exit) (d : Draft) :
    lowerSeq loop [s] parent d = s.lower loop parent d := by
  simp [lowerSeq]

end ControlFlow

import ControlFlow.Proofs.Graph.Census
import ControlFlow.Proofs.Graph.Intact

/-! # Where lowering goes on

Lowering a statement goes on from the exit before it. What it adds to the graph starts at the points
of that exit or at its own nodes, and leads to its own nodes or back to the head of the loop around
it, never to other nodes that were there before.
-/

namespace ControlFlow

theorem Exit.mem_points_of_node {e : Exit} {n : NodeId} (h : e.node = some n) : n ∈ e.points :=
  List.mem_append_left _ (Option.mem_toList.mpr h)

namespace Graph

/-! ## Where new flows lead -/

/-- The graph with all of its flows drawn. -/
def explicit (g : Graph) : Graph := { g with edges := g.flows, implicit := [] }

variable {g g' g'' : Graph} {S T : Nat → Prop} {source target n : NodeId} {f : Flow} {e : Exit}

theorem grafts_explicit_connect (g : Graph) (e : Exit) (target : NodeId) :
    Grafts (· ∈ e.points) (· = target) g.explicit (g.connect e target).explicit := by
  refine ⟨Nat.le_of_eq (congrArg List.length (connect_nodes g e target).symm), fun f hf => ?_⟩
  rcases mem_flows_connect.mp hf with hold | ⟨n, hn, rfl⟩
  · exact .inl hold
  · exact .inr ⟨.inl hn, .inl rfl⟩

theorem grafts_explicit_connectAll (g : Graph) (es : List Exit) (target : NodeId) :
    Grafts (fun n => ∃ e ∈ es, n ∈ e.points) (· = target) g.explicit
      (es.foldl (fun g e => g.connect e target) g).explicit := by
  refine ⟨Nat.le_of_eq (congrArg List.length (connectAll_nodes g es target).symm), fun f hf => ?_⟩
  rcases mem_flows_connectAll.mp hf with hold | ⟨e, he, n, hn, rfl⟩
  · exact .inl hold
  · exact .inr ⟨.inl ⟨e, he, hn⟩, .inl rfl⟩

theorem grafts_explicit_implyAll (g : Graph) (ns : List NodeId) (target : NodeId) :
    Grafts (· ∈ ns) (· = target) g.explicit
      (ns.foldl (fun g n => g.imply n target) g).explicit := by
  refine ⟨Nat.le_of_eq (congrArg List.length (implyAll_nodes g ns target).symm), fun f hf => ?_⟩
  rcases mem_flows_implyAll.mp hf with hold | ⟨n, hn, rfl⟩
  · exact .inl hold
  · exact .inr ⟨.inl hn, .inl rfl⟩

theorem grafts_explicit_place (g : Graph) (p : Point) :
    Grafts S T g.explicit (g.place p).2.explicit :=
  .of_edges_eq (extends_place g p).length_le (place_flows g p)

end Graph

open Draft ControlFlow.Graph

/-- Lowering went on from an exit. New flows come from the points of the exit or from new nodes, and
lead to new nodes or back to the head of the loop; new breaks are at such points; and the exit that
was reached is the old one or has new points only. -/
structure Draft.Advances (d : Draft) (loop : Option NodeId) (parent : Exit)
    (reached : Exit × Draft) : Prop where
  grafts : Grafts (· ∈ parent.points) (loop = some ·) d.explicit reached.2.explicit
  breaks : ∀ n ∈ reached.2.breaks, n ∈ d.breaks ∨ n ∈ parent.points ∨
    d.toGraph.Added reached.2.toGraph n
  exit : reached.1 = parent ∨ ∀ n ∈ reached.1.points, d.toGraph.Added reached.2.toGraph n

namespace Draft

variable {d d' : Draft} {loop : Option NodeId} {parent e : Exit} {p : Point} {ps : List Point}
  {head n : NodeId} {reached : Exit × Draft}

theorem grafts_explicit_enter (hfresh : d.toGraph.Fresh (p :: ps)) (parent : Exit) :
    Grafts (· ∈ parent.points) (fun _ => False) d.explicit (d.enter parent p).2.explicit := by
  refine (grafts_explicit_place d.toGraph p).trans (grafts_explicit_connect _ parent _)
    (fun _ hn => .inl hn) ?_
  rintro n rfl
  exact .inr (added_place (hfresh.unseen p List.mem_cons_self))

theorem grafts_explicit_join (hcounted : d.toGraph.Counted) (es : List Exit) :
    Grafts (fun n => ∃ e ∈ es, n ∈ e.points) (fun _ => False) d.explicit
      (d.join es).2.explicit := by
  have hplaced : Grafts (fun n => ∃ e ∈ es, n ∈ e.points) (fun _ => False) d.explicit
      (d.toGraph.placeMark .join).2.explicit :=
    .of_edges_eq (extends_placeMark d.toGraph .join).length_le
      (place_flows { d.toGraph with marks := d.marks + 1 } _)
  refine hplaced.trans (grafts_explicit_connectAll _ es _) (fun _ hn => .inl hn) ?_
  rintro n rfl
  rw [hcounted.placeMark_eq]
  exact .inr ⟨Nat.le_refl _, by simp [explicit]⟩

theorem Advances.refl (d : Draft) (loop : Option NodeId) (parent : Exit) :
    d.Advances loop parent (parent, d) :=
  ⟨.refl _, fun _ hn => .inl hn, .inl rfl⟩

/-- Lowering goes on at the exit that was reached. -/
theorem Advances.trans (h : d.Advances loop parent (e, d')) (h' : d'.Advances loop e reached) :
    d.Advances loop parent reached := by
  have hle : d.nodes.length ≤ d'.nodes.length := h.grafts.length_le
  have hle' : d'.nodes.length ≤ reached.2.nodes.length := h'.grafts.length_le
  have hpoints : ∀ n ∈ e.points, n ∈ parent.points ∨ d.toGraph.Added d'.toGraph n := by
    rcases h.exit with rfl | hadded
    · exact fun n hn => .inl hn
    · exact fun n hn => .inr (hadded n hn)
  refine ⟨h.grafts.trans h'.grafts hpoints fun n hn => .inl hn, fun n hn => ?_, ?_⟩
  · rcases h'.breaks n hn with hbreak | hpoint | hadded
    · exact (h.breaks n hbreak).imp_right (Or.imp_right fun hadded => hadded.mono hle')
    · exact .inr ((hpoints n hpoint).imp_right fun hadded => hadded.mono hle')
    · exact .inr (.inr (hadded.of_le hle))
  · rcases h'.exit with rfl | hadded
    · exact h.exit.imp_right fun hadded n hn => (hadded n hn).mono hle'
    · exact .inr fun n hn => (hadded n hn).of_le hle

theorem advances_enter (hfresh : d.toGraph.Fresh (p :: ps)) (loop : Option NodeId)
    (parent : Exit) :
    d.Advances loop parent (.drawn (d.enter parent p).1, (d.enter parent p).2) := by
  refine ⟨(grafts_explicit_enter hfresh parent).mono (fun _ hn => hn) nofun, fun _ hn => .inl hn,
    .inr fun n hn => ?_⟩
  cases List.mem_singleton.mp hn
  exact added_enter hfresh parent

theorem advances_enterControl {c : Expr} (hfresh : d.toGraph.Fresh (.expr c :: ps))
    (loop : Option NodeId) (parent : Exit) (s : Stmt) :
    d.Advances loop parent (.drawn (d.enterControl parent c s).1, (d.enterControl parent c s).2) :=
  have hentered := advances_enter hfresh loop parent
  ⟨⟨hentered.grafts.length_le, hentered.grafts.edges⟩, hentered.breaks, hentered.exit⟩

theorem advances_enterVar {var : LoopVar} (hfresh : d.toGraph.Fresh (.loopVar var :: ps))
    (loop : Option NodeId) (head : NodeId) (s : Stmt) :
    d.Advances loop (.drawn head) (.drawn (d.enterVar head var s).1, (d.enterVar head var s).2) :=
  -- A drawn exit is connected by the one edge from its node.
  have hentered := advances_enter hfresh loop (.drawn head)
  ⟨⟨hentered.grafts.length_le, hentered.grafts.edges⟩, hentered.breaks, hentered.exit⟩

/-- An exit that was reached earlier can be taken later. -/
theorem Advances.later (h : d.Advances loop parent (e, d')) (h' : d.Advances loop parent reached)
    (hle : d'.nodes.length ≤ reached.2.nodes.length) :
    d.Advances loop parent (e, reached.2) :=
  ⟨h'.grafts, h'.breaks, h.exit.imp_right fun hadded n hn => (hadded n hn).mono hle⟩

theorem Advances.mem_points (h : d.Advances loop parent (e, d')) (hn : n ∈ e.points) :
    n ∈ parent.points ∨ d.toGraph.Added d'.toGraph n := by
  rcases h.exit with rfl | hadded
  · exact .inl hn
  · exact .inr (hadded n hn)

/-- If the node that lowering went on from is still a point, control still leaves there. -/
theorem Advances.node_eq (h : d.Advances loop parent (e, d')) (hn : parent.node = some n)
    (hlt : n < d.nodes.length) (hpoint : n ∈ e.points) : e.node = some n := by
  rcases h.exit with rfl | hadded
  · exact hn
  · exact absurd hlt (Nat.not_lt.mpr (hadded n hpoint).1)

/-- New points can be taken for the exit that was reached. -/
theorem Advances.narrow (h : d.Advances loop parent (e, d')) {e' : Exit}
    (he : ∀ n ∈ e'.points, d.toGraph.Added d'.toGraph n) : d.Advances loop parent (e', d') :=
  ⟨h.grafts, h.breaks, .inr he⟩

theorem Advances.nowhere (h : d.Advances loop parent (e, d')) :
    d.Advances loop parent (.nowhere, d') :=
  h.narrow nofun

/-- Exits that were reached meet at a new join, with some new points beside it. -/
theorem Advances.join {es : List Exit} (h : d.Advances loop parent (e, d'))
    (hes : ∀ e ∈ es, d.Advances loop parent (e, d')) (hcounted : d'.toGraph.Counted)
    {implied : List NodeId} (himplied : ∀ n ∈ implied, d.toGraph.Added d'.toGraph n) :
    d.Advances loop parent (⟨some (d'.join es).1, implied⟩, (d'.join es).2) := by
  have hle : d.nodes.length ≤ d'.nodes.length := h.grafts.length_le
  have hjoin := grafts_explicit_join hcounted es
  refine ⟨h.grafts.trans hjoin ?_ nofun, fun n hn => ?_, .inr fun n hn => ?_⟩
  · rintro n ⟨e', he', hn⟩
    exact (hes e' he').mem_points hn
  · exact (h.breaks n hn).imp_right (Or.imp_right fun hadded => hadded.mono hjoin.length_le)
  · rcases List.mem_append.mp hn with hdrawn | hpoint
    · cases Option.mem_toList.mp hdrawn
      exact (added_join hcounted es).of_le hle
    · exact (himplied n hpoint).mono hjoin.length_le

theorem advances_jump {id : TreeId} {how : Jump}
    (hfresh : d.toGraph.Fresh (Stmt.jump id how).ownPoints) (loop : Option NodeId)
    (parent : Exit) : d.Advances loop parent (d.jump loop parent id how) := by
  have henter (h : d.toGraph.Fresh [.stmt (.jump id how)]) := advances_enter h loop parent
  cases how with
  | «return» value =>
      cases value with
      | none => exact ⟨.refl _, fun _ hn => .inl hn, .inl rfl⟩
      | some v => exact ⟨(henter hfresh).grafts, (henter hfresh).breaks, (henter hfresh).exit⟩
  | throw value =>
      cases value with
      | none => exact ⟨.refl _, fun _ hn => .inl hn, .inl rfl⟩
      | some v => exact ⟨(henter hfresh).grafts, (henter hfresh).breaks, (henter hfresh).exit⟩
  | «break» =>
      cases loop with
      | none => exact .refl d none parent
      | some head =>
          exact ⟨.refl _, fun n hn => (List.mem_append.mp hn).imp_right .inl, .inl rfl⟩
  | «continue» =>
      cases loop with
      | none => exact .refl d none parent
      | some head =>
          refine ⟨(grafts_explicit_implyAll d.toGraph parent.points head).mono (fun _ hn => hn) ?_,
            fun _ hn => .inl hn, .inl rfl⟩
          rintro n rfl
          rfl

/-- A loop is left from its head and from its breaks, which are all new with it. -/
theorem added_aroundLoop {body : List Stmt} (hhead : d.toGraph.Added d'.toGraph head)
    (hn : d.toGraph.Added d'.toGraph n)
    (hbody : d'.openLoop.Advances (some head) (.drawn n) (insideLoop body head n d')) :
    ∀ m ∈ (Exit.mk (some head) (insideLoop body head n d').2.breaks).points,
      d.toGraph.Added (aroundLoop body head n d').toGraph m := by
  have hle : d.nodes.length ≤ d'.nodes.length :=
    Nat.le_trans hhead.1 (Nat.le_of_lt hhead.2)
  have hback : (insideLoop body head n d').2.nodes.length ≤
      (aroundLoop body head n d').nodes.length :=
    (extends_returnTo _ (insideLoop body head n d').1 head).length_le
  have hround := Nat.le_trans hbody.grafts.length_le hback
  intro m hm
  rcases List.mem_append.mp hm with hdrawn | hbreak
  · cases Option.mem_toList.mp hdrawn
    exact hhead.mono hround
  · rcases hbody.breaks m hbreak with hnone | hpoint | hadded
    · cases hnone
    · cases List.mem_singleton.mp hpoint
      exact hn.mono hround
    · exact (hadded.of_le hle).mono hback

/-- A loop goes back to its head, which is new. -/
theorem advances_aroundLoop {body : List Stmt} (h : d.Advances loop parent (.drawn n, d'))
    (hhead : d.toGraph.Added d'.toGraph head) (hn : d.toGraph.Added d'.toGraph n)
    (hbody : d'.openLoop.Advances (some head) (.drawn n) (insideLoop body head n d')) :
    d.Advances loop parent
      (⟨some head, (insideLoop body head n d').2.breaks⟩, aroundLoop body head n d') := by
  have hback := grafts_explicit_connect (insideLoop body head n d').2.toGraph
    (insideLoop body head n d').1 head
  have hround : Grafts (· ∈ (Exit.drawn n).points) (some head = some ·) d'.explicit
      (aroundLoop body head n d').explicit :=
    hbody.grafts.trans hback (fun m hm => hbody.mem_points hm) fun m hm => .inl (hm ▸ rfl)
  refine ⟨h.grafts.trans hround (fun m hm => h.mem_points hm) ?_, fun m hm => ?_,
    .inr (added_aroundLoop hhead hn hbody)⟩
  · rintro m ⟨⟩
    exact .inr hhead
  · exact (h.breaks m hm).imp_right (Or.imp_right fun hadded => hadded.mono hround.length_le)

/-- Catches are entered from before a `try` and from the nodes that were added by its body. -/
theorem mem_points_raised (hle : d.nodes.length ≤ d'.nodes.length)
    (hn : n ∈ (Exit.mk parent.node (parent.implicit ++ d'.nodesSince d)).points) :
    n ∈ parent.points ∨ d.toGraph.Added d'.toGraph n := by
  rw [Exit.points, ← List.append_assoc] at hn
  refine (List.mem_append.mp hn).imp_right fun hsince => ?_
  obtain ⟨hnew, hlt⟩ := List.mem_range'_1.mp (List.mem_filter.mp hsince).1
  rw [Nat.add_sub_cancel' hle] at hlt
  exact ⟨hnew, hlt⟩

end Draft

/-- Lowering advances. -/
theorem advances_lower :
    (∀ s : Stmt, ∀ loop parent d, d.toGraph.Fresh (pointsOf [s]) →
      Draft.Advances d loop parent (s.lower loop parent d)) ∧
    (∀ ss, ∀ loop parent d, d.toGraph.Fresh (pointsOf ss) →
      Draft.Advances d loop parent (lowerSeq loop ss parent d)) ∧
    (∀ cs, ∀ loop raised joined d, d.toGraph.Fresh (pointsOfCatches cs) →
      Grafts (· ∈ raised.points) (fun n => loop = some n ∨ n = joined) (Graph.explicit d.toGraph)
        (lowerCatches loop cs raised joined d).explicit ∧
      ∀ n ∈ (lowerCatches loop cs raised joined d).breaks, n ∈ d.breaks ∨ n ∈ raised.points ∨
        d.toGraph.Added (lowerCatches loop cs raised joined d).toGraph n) := by
  refine tree_induction ?simple ?jump ?block ?while_ ?for_ ?if_ ?try_ ?nil ?cons ?noCatch ?catch_
  case simple => exact fun id what loop parent d hfresh => advances_enter hfresh loop parent
  case jump =>
    intro id how loop parent d hfresh
    exact advances_jump (by simpa [pointsOf_single, Stmt.inner] using hfresh) loop parent
  case block =>
    intro id bid body ih loop parent d hfresh
    exact ih loop parent d (by simpa using hfresh)
  case while_ =>
    intro id cond bid body orElse ihbody ihelse loop parent d hfresh
    rw [pointsOf_while] at hfresh
    have hinside := hfresh.enterControl parent (.while id cond ⟨bid, body⟩ orElse)
    have hhead := advances_enterControl hfresh loop parent (.while id cond ⟨bid, body⟩ orElse)
    have hadded : d.toGraph.Added
        (d.enterControl parent cond (.while id cond ⟨bid, body⟩ orElse)).2.toGraph
        (d.enter parent (.expr cond)).1 :=
      added_enter hfresh parent
    have hbody (head : NodeId) := ihbody (some head) (.drawn head)
      (openLoop (d.enterControl parent cond (.while id cond ⟨bid, body⟩ orElse)).2)
      hinside.of_append_left
    have hloop := advances_aroundLoop hhead hadded hadded (hbody _)
    have hleft := added_aroundLoop hadded hadded (hbody _)
    rcases orElse with _ | ⟨eid, orElse⟩
    · exact hloop
    · have hagain : d.Advances loop parent (.drawn (d.enter parent (.expr cond)).1,
          aroundLoop body (d.enter parent (.expr cond)).1 (d.enter parent (.expr cond)).1
            (d.enterControl parent cond (.while id cond ⟨bid, body⟩ (some ⟨eid, orElse⟩))).2) :=
        hloop.narrow fun n hn => hleft n (List.mem_append_left _ hn)
      have hother := ihelse loop (.drawn (d.enter parent (.expr cond)).1) _
        (hinside.aroundLoop (d.enter parent (.expr cond)).1 (d.enter parent (.expr cond)).1)
      have hboth := hagain.trans hother
      refine hboth.join (List.forall_mem_cons.mpr ⟨hboth, List.forall_mem_singleton.mpr ?_⟩)
        ((hinside.aroundLoop _ _).counted_lowerSeq loop _) fun n hn => ?_
      · exact hagain.later hboth hother.grafts.length_le
      · exact (hleft n (List.mem_append_right _ hn)).mono hother.grafts.length_le
  case for_ =>
    intro id var seq bid body ih loop parent d hfresh
    rw [pointsOf_for] at hfresh
    have hinside := hfresh.enterControl parent (.for id var seq ⟨bid, body⟩)
    have hhead := advances_enterControl hfresh loop parent (.for id var seq ⟨bid, body⟩)
    have hvar := advances_enterVar hinside loop (d.enter parent (.expr seq)).1
      (.for id var seq ⟨bid, body⟩)
    exact advances_aroundLoop (hhead.trans hvar)
      ((added_enter hfresh parent).mono hvar.grafts.length_le)
      ((added_enter hinside (.drawn (d.enter parent (.expr seq)).1)).of_le hhead.grafts.length_le)
      (ih _ _ (openLoop _) (hinside.enterVar _ _))
  case if_ =>
    intro id cond bid body orElse ihbody ihelse loop parent d hfresh
    rw [pointsOf_if] at hfresh
    have hinside := hfresh.enterControl parent (.if id cond ⟨bid, body⟩ orElse)
    have htest := advances_enterControl hfresh loop parent (.if id cond ⟨bid, body⟩ orElse)
    have hbody := ihbody loop (.drawn (d.enter parent (.expr cond)).1) _ hinside.of_append_left
    have hlive := htest.trans hbody
    rcases orElse with _ | ⟨eid, orElse⟩
    · have htested : d.toGraph.Added (lowerSeq loop body (.drawn (d.enter parent (.expr cond)).1)
          (d.enterControl parent cond (.if id cond ⟨bid, body⟩ none)).2).2.toGraph
          (d.enter parent (.expr cond)).1 :=
        (added_enter hfresh parent).mono hbody.grafts.length_le
      refine hlive.narrow fun n hn => ?_
      rw [Exit.points, ← List.append_assoc] at hn
      rcases List.mem_append.mp hn with hinner | htest
      · rcases hbody.mem_points hinner with hold | hnew
        · cases List.mem_singleton.mp hold
          exact htested
        · exact hnew.of_le htest.grafts.length_le
      · cases List.mem_singleton.mp htest
        exact htested
    · have hboth := (htest.later hlive hbody.grafts.length_le).trans
        (ihelse loop _ _ (hinside.lowerSeq loop _))
      refine hboth.join (List.forall_mem_cons.mpr ⟨hboth, List.forall_mem_singleton.mpr ?_⟩)
        ((hinside.lowerSeq loop _).counted_lowerSeq loop _) (List.forall_mem_nil _)
      exact hlive.later hboth (extends_lowerSeq _ _ _ _).length_le
  case try_ =>
    intro id bid body catches ihbody ihcatches loop parent d hfresh
    rw [pointsOf_try] at hfresh
    have hbody := ihbody loop parent d hfresh.of_append_left
    have hcounted := hfresh.of_append_left.counted_lowerSeq loop parent
    have hjoined := hbody.join (List.forall_mem_singleton.mpr hbody) hcounted
      (List.forall_mem_nil _)
    have hadded := (added_join hcounted [(lowerSeq loop body parent d).1]).of_le
      hbody.grafts.length_le
    obtain ⟨hgrafts, hbreaks⟩ := ihcatches loop
      ⟨parent.node, parent.implicit ++ (lowerSeq loop body parent d).2.nodesSince d⟩
      ((lowerSeq loop body parent d).2.join [(lowerSeq loop body parent d).1]).1 _
      ((hfresh.lowerSeq loop parent).steps (grows_join (O := fun _ => True) _
        [(lowerSeq loop body parent d).1]).steps)
    have hraised : ∀ n ∈ (Exit.mk parent.node
        (parent.implicit ++ (lowerSeq loop body parent d).2.nodesSince d)).points,
        n ∈ parent.points ∨ d.toGraph.Added
          ((lowerSeq loop body parent d).2.join [(lowerSeq loop body parent d).1]).2.toGraph n :=
      fun n hn => (mem_points_raised hbody.grafts.length_le hn).imp_right fun h =>
        h.mono (extends_join _ _).length_le
    refine ⟨hjoined.grafts.trans hgrafts hraised ?_, fun n hn => ?_, .inr fun n hn => ?_⟩
    · rintro n (hloop | rfl)
      · exact .inl hloop
      · exact .inr hadded
    · rcases hbreaks n hn with hold | hpoint | hnew
      · exact (hjoined.breaks n hold).imp_right (Or.imp_right fun h => h.mono hgrafts.length_le)
      · exact .inr ((hraised n hpoint).imp_right fun h => h.mono hgrafts.length_le)
      · exact .inr (.inr (hnew.of_le hjoined.grafts.length_le))
    · cases List.mem_singleton.mp hn
      exact hadded.mono hgrafts.length_le
  case nil => exact fun loop parent d _ => .refl d loop parent
  case cons =>
    intro s rest ihs ihrest loop parent d hfresh
    rw [pointsOf_cons] at hfresh
    have hfirst := ihs loop parent d hfresh.of_append_left
    have hrest : (s.lower loop parent d).2.toGraph.Fresh (pointsOf rest) := by
      rw [← lowerSeq_single]
      exact hfresh.lowerSeq loop parent
    unfold lowerSeq
    dsimp only
    split
    · have htail := ihrest loop .nowhere _ hrest
      have hboth := hfirst.nowhere.trans htail
      refine hboth.join (List.forall_mem_cons.mpr ⟨?_, List.forall_mem_singleton.mpr hboth⟩)
        (hrest.counted_lowerSeq loop .nowhere) (List.forall_mem_nil _)
      exact hfirst.later hboth htail.grafts.length_le
    · exact hfirst.trans (ihrest loop _ _ hrest)
  case noCatch => exact fun loop raised joined d _ => ⟨.refl _, fun _ hn => .inl hn⟩
  case catch_ =>
    intro id param bid body rest ihbody ihrest loop raised joined d hfresh
    rw [pointsOfCatches_cons] at hfresh
    have hbody := ihbody loop raised d hfresh.of_append_left
    have hback := grafts_explicit_connect (lowerSeq loop body raised d).2.toGraph
      (lowerSeq loop body raised d).1 joined
    have hround : Grafts (· ∈ raised.points) (fun n => loop = some n ∨ n = joined)
        (Graph.explicit d.toGraph) (Draft.returnTo (lowerSeq loop body raised d).2
          (lowerSeq loop body raised d).1 joined).explicit :=
      (hbody.grafts.mono (fun _ hn => hn) fun _ hn => .inl hn).trans hback
        (fun n hn => hbody.mem_points hn) fun n hn => .inl (.inr hn)
    obtain ⟨hgrafts, hbreaks⟩ := ihrest loop raised joined _ ((hfresh.lowerSeq loop raised).steps
      (grows_returnTo (O := fun _ => True) _ (lowerSeq loop body raised d).1 joined).steps)
    refine ⟨hround.trans hgrafts (fun _ hn => .inl hn) fun _ hn => .inl hn, fun n hn => ?_⟩
    rcases hbreaks n hn with hold | hpoint | hnew
    · exact (hbody.breaks n hold).imp_right (Or.imp_right fun h =>
        h.mono (Nat.le_trans hback.length_le hgrafts.length_le))
    · exact .inr (.inl hpoint)
    · exact .inr (.inr (hnew.of_le hround.length_le))

/-! ## Drafts that are ready to grow -/

/-- Points that are new to a draft can be lowered from an exit that the draft admits. -/
structure Draft.Ready (d : Draft) (loop : Option NodeId) (parent : Exit) (ps : List Point) :
    Prop where
  admits : d.Admits loop parent
  fresh : d.toGraph.Fresh ps

namespace Draft.Ready

variable {d : Draft} {loop : Option NodeId} {parent e : Exit} {p : Point} {ps : List Point}
  {ss : List Stmt} {head n : NodeId}

theorem goOn (h : d.Ready loop parent ps) (he : d.Holds e.points) : d.Ready loop e ps :=
  ⟨h.admits.goOn he, h.fresh⟩

theorem nowhere (h : d.Ready loop parent ps) : d.Ready loop .nowhere ps :=
  h.goOn (List.forall_mem_nil _)

/-- Lowering can go on from the drawn node alone. -/
theorem drawn {implied : List NodeId} (h : d.Ready loop ⟨some n, implied⟩ ps) :
    d.Ready loop (.drawn n) ps :=
  h.goOn (holds_append.mp h.admits.points).1

/-- Nothing leads to the next node yet. -/
theorem not_mem_flows (h : d.Ready loop parent ps) (n : NodeId) :
    (n, d.nodes.length) ∉ d.flows :=
  fun hflow => Nat.lt_irrefl _ (h.admits.flows.inside _ hflow).2

theorem of_append_left {qs : List Point} (h : d.Ready loop parent (ps ++ qs)) :
    d.Ready loop parent ps :=
  ⟨h.admits, h.fresh.of_append_left⟩

theorem enterControl {c : Expr} (h : d.Ready loop parent (.expr c :: ps)) (s : Stmt) :
    (d.enterControl parent c s).2.Ready loop (.drawn (d.enterControl parent c s).1) ps :=
  ⟨admits_enterControl h.admits c s, h.fresh.enterControl parent s⟩

theorem enterVar {var : LoopVar} (h : d.Ready loop (.drawn head) (.loopVar var :: ps)) (s : Stmt) :
    (d.enterVar head var s).2.Ready loop (.drawn (d.enterVar head var s).1) ps :=
  ⟨admits_enterVar h.admits var s, h.fresh.enterVar head s⟩

theorem lowerSeq (h : d.Ready loop parent (pointsOf ss ++ ps)) :
    (ControlFlow.lowerSeq loop ss parent d).2.Ready loop (ControlFlow.lowerSeq loop ss parent d).1
      ps :=
  ⟨admits_lower.2.1 ss loop parent d h.admits, h.fresh.lowerSeq loop parent⟩

theorem lowerAll (h : d.Ready loop parent (pointsOf ss)) :
    (ControlFlow.lowerSeq loop ss parent d).2.Ready loop (ControlFlow.lowerSeq loop ss parent d).1
      [] :=
  lowerSeq (by rwa [List.append_nil])

theorem lower {s : Stmt} (h : d.Ready loop parent (pointsOf [s] ++ ps)) :
    (s.lower loop parent d).2.Ready loop (s.lower loop parent d).1 ps := by
  have hlowered := h.lowerSeq
  rw [lowerSeq_single] at hlowered
  exact hlowered

theorem openLoop (h : d.Ready loop parent ps) (hhead : d.Inner head) :
    d.openLoop.Ready (some head) parent ps :=
  ⟨h.admits.openLoop hhead, h.fresh⟩

theorem aroundLoop {body : List Stmt} (h : d.Ready loop (.drawn n) (pointsOf body ++ ps))
    (hhead : d.Inner head) : (aroundLoop body head n d).Ready loop
      ⟨some head, (insideLoop body head n d).2.breaks⟩ ps :=
  ⟨admits_aroundLoop h.admits hhead
    (admits_lower.2.1 body (some head) _ d.openLoop (h.admits.openLoop hhead)),
    h.fresh.aroundLoop head n⟩

theorem join {es : List Exit} (h : d.Ready loop parent ps) (hes : ∀ e ∈ es, d.Holds e.points) :
    (d.join es).2.Ready loop (.drawn (d.join es).1) ps :=
  ⟨admits_join h.admits hes, h.fresh.steps (grows_join (O := fun _ => True) d es).steps⟩

theorem returnTo (h : d.Ready loop parent ps) (hn : d.Inner n) :
    (d.returnTo parent n).Ready loop parent ps :=
  ⟨admits_returnTo h.admits hn,
    h.fresh.steps (grows_returnTo (O := fun _ => True) d parent n).steps⟩

end Draft.Ready

end ControlFlow

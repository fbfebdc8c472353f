import ControlFlow.Proofs.Flow.Paths

/-! # Where new edges lead

Where statements are lowered, new edges lead to new nodes and come from new nodes or from the exit
at which the statements are entered. Only a loop goes back to its head, and a catch on to the join
of its `try`, which are new with the whole statement.
-/

namespace ControlFlow

/-- The drawn node of an exit. -/
def Exit.Draws (e : Exit) (n : Nat) : Prop := e.node = some n

namespace Graph

/-- A node was added to a graph. -/
def Added (g g' : Graph) (n : Nat) : Prop := g.nodes.length ≤ n ∧ n < g'.nodes.length

/-- A graph grew, and each new edge leads from a source that is given or was added, to a target
that is given or was added. -/
structure Grafts (S T : Nat → Prop) (g g' : Graph) : Prop where
  length_le : g.nodes.length ≤ g'.nodes.length
  edges : ∀ f ∈ g'.edges, f ∈ g.edges ∨ (S f.1 ∨ g.Added g' f.1) ∧ (T f.2 ∨ g.Added g' f.2)

/-- Edges lead to nodes that are there. -/
def TargetsInside (g : Graph) : Prop := ∀ f ∈ g.edges, f.2 < g.nodes.length

variable {g g' g'' : Graph} {R S T U : Nat → Prop} {n : Nat}

/-! ## Grafting -/

theorem Added.of_le (h : g'.Added g'' n) (hle : g.nodes.length ≤ g'.nodes.length) :
    g.Added g'' n :=
  ⟨Nat.le_trans hle h.1, h.2⟩

theorem Added.mono (h : g.Added g' n) (hle : g'.nodes.length ≤ g''.nodes.length) :
    g.Added g'' n :=
  ⟨h.1, Nat.lt_of_lt_of_le h.2 hle⟩

theorem Grafts.refl (g : Graph) : Grafts S T g g := ⟨Nat.le_refl _, fun _ hf => .inl hf⟩

/-- Grafts compose where what the second one is given was given to the first or added by it. -/
theorem Grafts.trans (h : Grafts S T g g') (h' : Grafts R U g' g'')
    (hS : ∀ n, R n → S n ∨ g.Added g' n) (hT : ∀ n, U n → T n ∨ g.Added g' n) :
    Grafts S T g g'' := by
  refine ⟨Nat.le_trans h.length_le h'.length_le, fun f hf => ?_⟩
  have hold {P : Nat → Prop} {m : Nat} (hm : P m ∨ g.Added g' m) : P m ∨ g.Added g'' m :=
    hm.imp_right fun hadded => hadded.mono h'.length_le
  have hnew {P Q : Nat → Prop} {m : Nat} (hQ : ∀ n, Q n → P n ∨ g.Added g' n)
      (hm : Q m ∨ g'.Added g'' m) : P m ∨ g.Added g'' m :=
    hm.elim (fun hgiven => hold (hQ m hgiven)) fun hadded => .inr (hadded.of_le h.length_le)
  rcases h'.edges f hf with hearlier | ⟨hsource, htarget⟩
  · exact (h.edges f hearlier).imp_right fun hends => ⟨hold hends.1, hold hends.2⟩
  · exact .inr ⟨hnew hS hsource, hnew hT htarget⟩

theorem Grafts.mono (h : Grafts S T g g') (hS : ∀ n, S n → R n) (hT : ∀ n, T n → U n) :
    Grafts R U g g' :=
  ⟨h.length_le, fun f hf => (h.edges f hf).imp_right fun hends =>
    ⟨hends.1.imp_left (hS _), hends.2.imp_left (hT _)⟩⟩

/-- A graph whose edges stayed as they were. -/
theorem Grafts.of_edges_eq (hle : g.nodes.length ≤ g'.nodes.length) (hedges : g'.edges = g.edges) :
    Grafts S T g g' :=
  ⟨hle, fun _ hf => .inl (hedges ▸ hf)⟩

theorem grafts_connect (g : Graph) (e : Exit) (target : NodeId) :
    Grafts e.Draws (· = target) g (g.connect e target) := by
  refine ⟨Nat.le_of_eq (by rw [connect_nodes]), fun f hf => ?_⟩
  rcases mem_edges_connect.mp hf with hold | ⟨n, hn, rfl⟩
  · exact .inl hold
  · exact .inr ⟨.inl hn, .inl rfl⟩

theorem grafts_connectAll (g : Graph) (es : List Exit) (target : NodeId) :
    Grafts (fun n => ∃ e ∈ es, e.Draws n) (· = target) g
      (es.foldl (fun g e => g.connect e target) g) := by
  refine ⟨Nat.le_of_eq (by rw [connectAll_nodes]), fun f hf => ?_⟩
  rcases mem_edges_connectAll.mp hf with hold | ⟨e, he, n, hn, rfl⟩
  · exact .inl hold
  · exact .inr ⟨.inl ⟨e, he, hn⟩, .inl rfl⟩

theorem edges_place (g : Graph) (p : Point) : (g.place p).2.edges = g.edges := by
  cases h : g.find? p.key with
  | some n => rw [place_of_some h]
  | none => rw [place_of_none h]

theorem grafts_place (g : Graph) (p : Point) : Grafts S T g (g.place p).2 :=
  .of_edges_eq (extends_place g p).length_le (edges_place g p)

/-- A point that was not seen before is added. -/
theorem added_place {p : Point} (h : g.find? p.key = none) :
    g.Added (g.place p).2 (g.place p).1 := by
  rw [place_of_none h]
  simp [Added]

theorem TargetsInside.grafts (h : g.TargetsInside) (hgrafts : Grafts S T g g')
    (hT : ∀ n, T n → n < g'.nodes.length) : g'.TargetsInside := by
  intro f hf
  rcases hgrafts.edges f hf with hold | ⟨-, htarget | hadded⟩
  · exact Nat.lt_of_lt_of_le (h f hold) hgrafts.length_le
  · exact hT _ htarget
  · exact hadded.2

end Graph

open ControlFlow.Graph

/-! ## Lowering grafts -/

/-- Lowering from an exit grafted, and the new exit is the old one or was added. -/
structure Draft.Lowers (d : Draft) (parent : Exit) (lowered : Exit × Draft) : Prop where
  grafts : Grafts parent.Draws (fun _ => False) d.toGraph lowered.2.toGraph
  exit : ∀ n, lowered.1.Draws n → parent.Draws n ∨ d.toGraph.Added lowered.2.toGraph n

namespace Draft

variable {d : Draft} {parent : Exit} {p : Point} {ps : List Point} {head n : NodeId}

theorem added_enter (hfresh : d.toGraph.Fresh (p :: ps)) (parent : Exit) :
    d.toGraph.Added (d.enter parent p).2.toGraph (d.enter parent p).1 :=
  (added_place (hfresh.unseen p List.mem_cons_self)).mono
    (extends_connect _ parent _).length_le

theorem grafts_enter (hfresh : d.toGraph.Fresh (p :: ps)) (parent : Exit) :
    Grafts parent.Draws (fun _ => False) d.toGraph (d.enter parent p).2.toGraph := by
  refine (grafts_place d.toGraph p).trans (grafts_connect _ parent _) (fun _ hn => .inl hn) ?_
  rintro n rfl
  exact .inr (added_place (hfresh.unseen p List.mem_cons_self))

theorem lowers_enter (hfresh : d.toGraph.Fresh (p :: ps)) (parent : Exit) :
    d.Lowers parent (.drawn (d.enter parent p).1, (d.enter parent p).2) := by
  refine ⟨grafts_enter hfresh parent, fun n hn => ?_⟩
  cases hn
  exact .inr (added_enter hfresh parent)

theorem lowers_enterControl {e : Expr} (hfresh : d.toGraph.Fresh (.expr e :: ps)) (parent : Exit)
    (s : Stmt) :
    d.Lowers parent (.drawn (d.enterControl parent e s).1, (d.enterControl parent e s).2) :=
  ⟨(grafts_enter hfresh parent).trans (R := fun _ => False) (U := fun _ => False)
    (.of_edges_eq (Nat.le_refl _) rfl) nofun nofun, (lowers_enter hfresh parent).exit⟩

theorem lowers_enterVar {var : LoopVar} (hfresh : d.toGraph.Fresh (.loopVar var :: ps))
    (head : NodeId) (s : Stmt) :
    d.Lowers (.drawn head) (.drawn (d.enterVar head var s).1, (d.enterVar head var s).2) := by
  -- A drawn exit is connected by the one edge from its node.
  have hlowers := lowers_enter hfresh (.drawn head)
  exact ⟨hlowers.grafts.trans (R := fun _ => False) (U := fun _ => False)
    (.of_edges_eq (Nat.le_refl _) rfl) nofun nofun, hlowers.exit⟩

theorem added_join (hcounted : d.toGraph.Counted) (es : List Exit) :
    d.toGraph.Added (d.join es).2.toGraph (d.join es).1 := by
  have hplaced : d.toGraph.Added (d.toGraph.placeMark .join).2 (d.toGraph.placeMark .join).1 := by
    rw [hcounted.placeMark_eq]
    simp [Added]
  exact hplaced.mono (extends_connectAll _ es _).length_le

theorem grafts_join (hcounted : d.toGraph.Counted) (es : List Exit) :
    Grafts (fun n => ∃ e ∈ es, e.Draws n) (fun _ => False) d.toGraph (d.join es).2.toGraph := by
  have hplaced : Grafts (fun n => ∃ e ∈ es, e.Draws n) (fun _ => False) d.toGraph
      (d.toGraph.placeMark .join).2 := by
    refine .of_edges_eq (extends_placeMark _ _).length_le ?_
    rw [hcounted.placeMark_eq]
  refine hplaced.trans (grafts_connectAll _ es _) (fun _ hn => .inl hn) ?_
  rintro n rfl
  rw [hcounted.placeMark_eq]
  exact .inr ⟨Nat.le_refl _, by simp⟩

theorem grafts_returnTo (d : Draft) (parent : Exit) (n : NodeId) :
    Grafts parent.Draws (· = n) d.toGraph (d.returnTo parent n).toGraph :=
  grafts_connect _ parent n

theorem lowers_of_toGraph_eq {d' : Draft} (h : d'.toGraph = d.toGraph) :
    d.Lowers parent (parent, d') :=
  ⟨h ▸ .refl _, fun _ hn => .inl hn⟩

theorem lowers_jump {id : TreeId} {how : Jump}
    (hfresh : d.toGraph.Fresh (Stmt.jump id how).ownPoints) (loop : Option NodeId)
    (parent : Exit) : d.Lowers parent (d.jump loop parent id how) := by
  have henter (h : d.toGraph.Fresh [.stmt (.jump id how)]) := lowers_enter h parent
  have himply (head : NodeId) : Grafts parent.Draws (fun _ => False) d.toGraph
      (parent.points.foldl (fun g n => g.imply n head) d.toGraph) :=
    .of_edges_eq (extends_implyAll _ _ _).length_le (implyAll_edges _ _ _)
  cases how with
  | «return» value =>
      cases value with
      | none => exact lowers_of_toGraph_eq rfl
      | some e => exact ⟨(henter hfresh).grafts, (henter hfresh).exit⟩
  | throw value =>
      cases value with
      | none => exact lowers_of_toGraph_eq rfl
      | some e => exact ⟨(henter hfresh).grafts, (henter hfresh).exit⟩
  | «break» => cases loop <;> exact lowers_of_toGraph_eq rfl
  | «continue» =>
      cases loop with
      | none => exact lowers_of_toGraph_eq rfl
      | some head => exact ⟨himply head, fun _ hn => .inl hn⟩

end Draft

namespace Draft.Lowers

variable {d d' : Draft} {parent e e' : Exit} {lowered : Exit × Draft} {head n : NodeId}

/-- Lowering goes on at the exit that was reached. -/
theorem trans (h : d.Lowers parent (e, d')) (h' : d'.Lowers e lowered) :
    d.Lowers parent lowered := by
  refine ⟨h.grafts.trans h'.grafts h.exit nofun, fun n hn => ?_⟩
  rcases h'.exit n hn with hsame | hadded
  · exact (h.exit n hsame).imp_right fun hadded => hadded.mono h'.grafts.length_le
  · exact .inr (hadded.of_le h.grafts.length_le)

/-- An exit that was reached earlier can be taken later. -/
theorem later (h : d.Lowers parent (e, d')) (h' : d.Lowers parent lowered)
    (hle : d'.nodes.length ≤ lowered.2.nodes.length) : d.Lowers parent (e, lowered.2) :=
  ⟨h'.grafts, fun n hn => (h.exit n hn).imp_right fun hadded => hadded.mono hle⟩

theorem nowhere (h : d.Lowers parent (e, d')) : d.Lowers parent (.nowhere, d') :=
  ⟨h.grafts, nofun⟩

/-- Exits that were reached meet at a new join. -/
theorem join {es : List Exit} (h : d.Lowers parent (e, d'))
    (hes : ∀ e ∈ es, d.Lowers parent (e, d')) (hcounted : d'.toGraph.Counted)
    (implied : List NodeId) :
    d.Lowers parent (⟨some (d'.join es).1, implied⟩, (d'.join es).2) := by
  refine ⟨h.grafts.trans (grafts_join hcounted es) ?_ nofun, fun n hn => ?_⟩
  · rintro n ⟨e', he', hn⟩
    exact (hes e' he').exit n hn
  · cases hn
    exact .inr ((added_join hcounted es).of_le h.grafts.length_le)

/-- A loop goes back to its head, which is new, and is left there. -/
theorem loop (h : d.Lowers parent (.drawn n, d'))
    (hadded : d.toGraph.Added d'.toGraph head) {d'' : Draft}
    (haround : Grafts (Exit.drawn n).Draws (· = head) d'.toGraph d''.toGraph)
    (implied : List NodeId) : d.Lowers parent (⟨some head, implied⟩, d'') := by
  refine ⟨h.grafts.trans haround h.exit ?_, fun m hm => ?_⟩
  · rintro m rfl
    exact .inr hadded
  · cases hm
    exact .inr (hadded.mono haround.length_le)

end Draft.Lowers

open Draft

/-- A loop whose body is entered at some node draws edges from there on and back to its head. -/
theorem grafts_aroundLoop {body : List Stmt} {head n : NodeId} {d : Draft}
    (h : d.openLoop.Lowers (.drawn n) (insideLoop body head n d)) :
    Grafts (Exit.drawn n).Draws (· = head) d.toGraph (aroundLoop body head n d).toGraph :=
  (h.grafts.mono (fun _ hm => hm) nofun).trans (grafts_returnTo _ _ head) h.exit
    fun _ hm => .inl hm

/-- Lowering draws edges to new nodes only, and from new nodes and the exit it comes from. -/
theorem lowers_lower :
    (∀ s : Stmt, ∀ loop parent d, d.toGraph.Fresh (pointsOf [s]) →
      Draft.Lowers d parent (s.lower loop parent d)) ∧
    (∀ ss, ∀ loop parent d, d.toGraph.Fresh (pointsOf ss) →
      Draft.Lowers d parent (lowerSeq loop ss parent d)) ∧
    (∀ cs, ∀ loop raised joined d, d.toGraph.Fresh (pointsOfCatches cs) →
      Grafts raised.Draws (· = joined) d.toGraph
        (lowerCatches loop cs raised joined d).toGraph) := by
  refine tree_induction ?simple ?jump ?block ?while_ ?for_ ?if_ ?try_ ?nil ?cons ?noCatch ?catch_
  case simple =>
    intro id what loop parent d hfresh
    exact lowers_enter hfresh parent
  case jump =>
    intro id how loop parent d hfresh
    exact lowers_jump (by simpa [pointsOf_single, Stmt.inner] using hfresh) loop parent
  case block =>
    intro id bid body ih loop parent d hfresh
    exact ih loop parent d (by simpa using hfresh)
  case while_ =>
    intro id cond bid body orElse ihbody ihelse loop parent d hfresh
    rw [pointsOf_while] at hfresh
    have hinside := hfresh.enterControl parent (.while id cond ⟨bid, body⟩ orElse)
    have haround (head n : NodeId) := hinside.aroundLoop head n
    have hloop (implied : List NodeId) :=
      (lowers_enterControl hfresh parent (.while id cond ⟨bid, body⟩ orElse)).loop
        (added_enter hfresh parent)
        (grafts_aroundLoop (ihbody _ _ (openLoop _) hinside.of_append_left)) implied
    rcases orElse with _ | ⟨eid, orElse⟩
    · exact hloop _
    · have hboth := (hloop []).trans (ihelse loop _ _ (haround _ _))
      refine hboth.join (List.forall_mem_cons.mpr ⟨hboth, List.forall_mem_singleton.mpr ?_⟩)
        ((haround _ _).counted_lowerSeq loop _) _
      exact (hloop []).later hboth (extends_lowerSeq _ _ _ _).length_le
  case for_ =>
    intro id var seq bid body ih loop parent d hfresh
    rw [pointsOf_for] at hfresh
    have hinside := hfresh.enterControl parent (.for id var seq ⟨bid, body⟩)
    have hhead := lowers_enterControl hfresh parent (.for id var seq ⟨bid, body⟩)
    have hvar := lowers_enterVar hinside (d.enterControl parent seq (.for id var seq ⟨bid, body⟩)).1
      (.for id var seq ⟨bid, body⟩)
    exact (hhead.trans hvar).loop ((added_enter hfresh parent).mono hvar.grafts.length_le)
      (grafts_aroundLoop (ih _ _ (openLoop _) (hinside.enterVar _ _))) _
  case if_ =>
    intro id cond bid body orElse ihbody ihelse loop parent d hfresh
    rw [pointsOf_if] at hfresh
    have hinside := hfresh.enterControl parent (.if id cond ⟨bid, body⟩ orElse)
    have htest := lowers_enterControl hfresh parent (.if id cond ⟨bid, body⟩ orElse)
    have hlive := htest.trans (ihbody loop _ _ hinside.of_append_left)
    rcases orElse with _ | ⟨eid, orElse⟩
    · exact ⟨hlive.grafts, hlive.exit⟩
    · have hboth := (htest.later hlive (extends_lowerSeq _ _ _ _).length_le).trans
        (ihelse loop _ _ (hinside.lowerSeq loop _))
      refine hboth.join (List.forall_mem_cons.mpr ⟨hboth, List.forall_mem_singleton.mpr ?_⟩)
        ((hinside.lowerSeq loop _).counted_lowerSeq loop _) _
      exact hlive.later hboth (extends_lowerSeq _ _ _ _).length_le
  case try_ =>
    intro id bid body catches ihbody ihcatches loop parent d hfresh
    rw [pointsOf_try] at hfresh
    have hbody := ihbody loop parent d hfresh.of_append_left
    have hcounted := hfresh.of_append_left.counted_lowerSeq loop parent
    have hjoined := hbody.join (List.forall_mem_singleton.mpr hbody) hcounted []
    have hcatches (raised : Exit) (joined : NodeId) := ihcatches loop raised joined _
      ((hfresh.lowerSeq loop parent).steps (grows_join (O := fun _ => True) _
        [(lowerSeq loop body parent d).1]).steps)
    have hadded := (added_join hcounted [(lowerSeq loop body parent d).1]).of_le
      hbody.grafts.length_le
    -- The join is new with the whole statement, though not with its catches.
    refine ⟨hjoined.grafts.trans (hcatches _ _) (fun _ hn => .inl hn) ?_, fun n hn => ?_⟩
    · rintro n rfl
      exact .inr hadded
    · cases hn
      exact .inr (hadded.mono (hcatches _ _).length_le)
  case nil =>
    intro loop parent d _
    exact lowers_of_toGraph_eq rfl
  case cons =>
    intro s rest ihs ihrest loop parent d hfresh
    rw [pointsOf_cons] at hfresh
    have hfirst := ihs loop parent d hfresh.of_append_left
    have hrest : (s.lower loop parent d).2.toGraph.Fresh (pointsOf rest) := by
      rw [← lowerSeq_single]
      exact hfresh.lowerSeq loop parent
    unfold lowerSeq
    dsimp only
    split
    · have htail := ihrest loop .nowhere _ hrest
      have hboth := hfirst.nowhere.trans htail
      refine hboth.join (List.forall_mem_cons.mpr ⟨?_, List.forall_mem_singleton.mpr hboth⟩)
        (hrest.counted_lowerSeq loop .nowhere) []
      exact hfirst.later hboth htail.grafts.length_le
    · exact hfirst.trans (ihrest loop _ _ hrest)
  case noCatch =>
    intro loop raised joined d _
    exact .refl _
  case catch_ =>
    intro id param bid body rest ihbody ihrest loop raised joined d hfresh
    rw [pointsOfCatches_cons] at hfresh
    have hbody := ihbody loop raised d hfresh.of_append_left
    have hback := (hbody.grafts.mono (fun _ hn => hn) fun _ => False.elim).trans
      (grafts_returnTo _ (lowerSeq loop body raised d).1 joined) hbody.exit fun _ hn => .inl hn
    exact hback.trans (ihrest loop raised joined _ ((hfresh.lowerSeq loop raised).steps
      (grows_returnTo (O := fun _ => True) _ _ _).steps)) (fun _ hn => .inl hn) fun _ hn => .inl hn

end ControlFlow

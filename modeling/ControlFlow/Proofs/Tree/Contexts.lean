import ControlFlow.Proofs.Graph.Census

/-! # Places in a tree

A place in a tree is given by what stands around it: a context, which is a list of statements with a
hole for further ones at some depth. Filling the hole with more gives a tree with more.
-/

namespace ControlFlow

/-- A statement with a hole for one of its lists of statements. -/
inductive Frame where
  | block (id bid : TreeId)
  | whileBody (id : TreeId) (cond : Expr) (bid : TreeId) (orElse : Option Block)
  | whileElse (id : TreeId) (cond : Expr) (body : Block) (eid : TreeId)
  | forBody (id : TreeId) (var : LoopVar) (seq : Expr) (bid : TreeId)
  | ifBody (id : TreeId) (cond : Expr) (bid : TreeId) (orElse : Option Block)
  | ifElse (id : TreeId) (cond : Expr) (body : Block) (eid : TreeId)
  | tryBody (id bid : TreeId) (catches : List Catch)
  | handler (id : TreeId) (body : Block) (earlier : List Catch) (cid : TreeId)
      (param : Option DeclId) (bid : TreeId) (later : List Catch)

/-- The statement with its hole filled. -/
def Frame.plug : Frame → List Stmt → Stmt
  | block id bid, ss => .block id ⟨bid, ss⟩
  | whileBody id cond bid orElse, ss => .while id cond ⟨bid, ss⟩ orElse
  | whileElse id cond body eid, ss => .while id cond body (some ⟨eid, ss⟩)
  | forBody id var seq bid, ss => .for id var seq ⟨bid, ss⟩
  | ifBody id cond bid orElse, ss => .if id cond ⟨bid, ss⟩ orElse
  | ifElse id cond body eid, ss => .if id cond body (some ⟨eid, ss⟩)
  | tryBody id bid catches, ss => .try id ⟨bid, ss⟩ catches
  | handler id body earlier cid param bid later, ss =>
      .try id body (earlier ++ ⟨cid, param, ⟨bid, ss⟩⟩ :: later)

/-- A list of statements with a hole for further ones, at any depth. -/
inductive Context where
  | here (before after : List Stmt)
  | inside (before : List Stmt) (frame : Frame) (hole : Context) (after : List Stmt)

namespace Context

/-- The list of statements with its hole filled. -/
def fill : Context → List Stmt → List Stmt
  | here before after, ss => before ++ (ss ++ after)
  | inside before frame hole after, ss => before ++ frame.plug (hole.fill ss) :: after

/-- The hole stands right behind a jump, and nothing stands behind the hole. -/
def trailsJump : Context → Bool
  | here before after => before.getLast?.any Stmt.isJump && after.isEmpty
  | inside _ _ hole _ => hole.trailsJump

end Context

/-- A statement with other statements at some place in it. -/
inductive Stmt.Refilled (old new : List Stmt) : Stmt → Stmt → Prop where
  | same (s : Stmt) : Refilled old new s s
  | filled (frame : Frame) (c : Context) :
      Refilled old new (frame.plug (c.fill old)) (frame.plug (c.fill new))

theorem Frame.id_plug (frame : Frame) (ss ts : List Stmt) :
    (frame.plug ss).id = (frame.plug ts).id := by
  cases frame <;> rfl

@[simp] theorem Frame.isJump_plug (frame : Frame) (ss : List Stmt) :
    (frame.plug ss).isJump = false := by
  cases frame <;> rfl

theorem Stmt.Refilled.id_eq {old new : List Stmt} {s t : Stmt} (h : s.Refilled old new t) :
    t.id = s.id := by
  cases h with
  | same => rfl
  | filled frame c => exact frame.id_plug _ _

/-! ## Numbers -/

theorem idsOf_append (ss ts : List Stmt) : idsOf (ss ++ ts) = idsOf ss ++ idsOf ts := by
  induction ss with
  | nil => rfl
  | cons s rest ih => rw [List.cons_append, idsOf, idsOf, ih, List.append_assoc]

theorem idsOfCatches_append (cs ds : List Catch) :
    idsOfCatches (cs ++ ds) = idsOfCatches cs ++ idsOfCatches ds := by
  induction cs with
  | nil => rfl
  | cons c rest ih =>
      obtain ⟨id, param, bid, body⟩ := c
      rw [List.cons_append, idsOfCatches, idsOfCatches, ih, List.cons_append, List.cons_append,
        List.append_assoc]

theorem Frame.ids_plug_sublist (frame : Frame) {ss ts : List Stmt}
    (h : (idsOf ss).Sublist (idsOf ts)) : (frame.plug ss).ids.Sublist (frame.plug ts).ids := by
  cases frame with
  | block id bid => exact (h.cons_cons bid).cons_cons id
  | whileBody id cond bid orElse =>
      rcases orElse with _ | ⟨eid, other⟩
      · exact ((List.Sublist.refl _).append (h.cons_cons bid)).cons_cons id
      · exact ((List.Sublist.refl _).append ((h.append (.refl _)).cons_cons bid)).cons_cons id
  | whileElse id cond body eid =>
      obtain ⟨bid, body⟩ := body
      have hother := (List.Sublist.refl (idsOf body)).append (h.cons_cons eid)
      exact ((List.Sublist.refl _).append (hother.cons_cons bid)).cons_cons id
  | forBody id var seq bid =>
      exact ((List.Sublist.refl _).append ((h.cons_cons bid).cons_cons var.id)).cons_cons id
  | ifBody id cond bid orElse =>
      rcases orElse with _ | ⟨eid, other⟩
      · exact ((List.Sublist.refl _).append (h.cons_cons bid)).cons_cons id
      · exact ((List.Sublist.refl _).append ((h.append (.refl _)).cons_cons bid)).cons_cons id
  | ifElse id cond body eid =>
      obtain ⟨bid, body⟩ := body
      have hother := (List.Sublist.refl (idsOf body)).append (h.cons_cons eid)
      exact ((List.Sublist.refl _).append (hother.cons_cons bid)).cons_cons id
  | tryBody id bid catches => exact ((h.append (.refl _)).cons_cons bid).cons_cons id
  | handler id body earlier cid param bid later =>
      obtain ⟨tid, body⟩ := body
      have hcatches := ((h.append (.refl (idsOfCatches later))).cons_cons bid).cons_cons cid
      have hall := (List.Sublist.refl (idsOfCatches earlier)).append hcatches
      simp only [plug, Stmt.ids, idsOfCatches_append, idsOfCatches]
      exact (((List.Sublist.refl _).append hall).cons_cons tid).cons_cons id

theorem Context.idsOf_fill_sublist (c : Context) {ss ts : List Stmt}
    (h : (idsOf ss).Sublist (idsOf ts)) : (idsOf (c.fill ss)).Sublist (idsOf (c.fill ts)) := by
  induction c with
  | here before after =>
      simp only [fill, idsOf_append]
      exact (List.Sublist.refl _).append (h.append (.refl _))
  | inside before frame hole after ih =>
      simp only [fill, idsOf_append, idsOf]
      exact (List.Sublist.refl _).append ((frame.ids_plug_sublist ih).append (.refl _))

/-! ## Joins -/

theorem joinsOfCatches_append (cs ds : List Catch) :
    joinsOfCatches (cs ++ ds) = joinsOfCatches cs + joinsOfCatches ds := by
  induction cs with
  | nil => exact (Nat.zero_add _).symm
  | cons c rest ih =>
      obtain ⟨id, param, bid, body⟩ := c
      rw [List.cons_append, joinsOfCatches_cons, joinsOfCatches_cons, ih, Nat.add_assoc]

/-- One more join in a hole is one more in the statement around it. -/
theorem Frame.joins_plug_succ (frame : Frame) {ss ts : List Stmt}
    (h : joinsOf ts = joinsOf ss + 1) : (frame.plug ts).joins = (frame.plug ss).joins + 1 := by
  cases frame with
  | block id bid => simpa only [plug, joins_block] using h
  | whileBody id cond bid orElse =>
      rcases orElse with _ | ⟨eid, other⟩ <;> simp only [plug, joins_while, joins_while_else] <;>
        omega
  | whileElse id cond body eid =>
      obtain ⟨bid, body⟩ := body
      simp only [plug, joins_while_else]
      omega
  | forBody id var seq bid => simpa only [plug, joins_for] using h
  | ifBody id cond bid orElse =>
      rcases orElse with _ | ⟨eid, other⟩ <;> simp only [plug, joins_if, joins_if_else] <;> omega
  | ifElse id cond body eid =>
      obtain ⟨bid, body⟩ := body
      simp only [plug, joins_if_else]
      omega
  | tryBody id bid catches =>
      simp only [plug, joins_try]
      omega
  | handler id body earlier cid param bid later =>
      obtain ⟨tid, body⟩ := body
      simp only [plug, joins_try, joinsOfCatches_append, joinsOfCatches_cons]
      omega

theorem joinsOf_append_succ (before : List Stmt) {ss ts : List Stmt}
    (h : joinsOf ts = joinsOf ss + 1) (hsame : ts.isEmpty = ss.isEmpty) :
    joinsOf (before ++ ts) = joinsOf (before ++ ss) + 1 := by
  induction before with
  | nil => exact h
  | cons s rest ih =>
      have hempty : (rest ++ ts).isEmpty = (rest ++ ss).isEmpty := by
        cases rest with
        | nil => exact hsame
        | cons t rest => rfl
      rw [List.cons_append, List.cons_append, joinsOf_cons, joinsOf_cons, ih, hempty]
      omega

/-- A jump meets again with what is put behind it. -/
theorem joinsOf_append_behind {before : List Stmt} (h : before.getLast?.any Stmt.isJump = true)
    (s : Stmt) : joinsOf (before ++ [s]) = joinsOf before + joinsOf [s] + 1 := by
  induction before with
  | nil => cases h
  | cons t rest ih =>
      rw [List.cons_append, joinsOf_cons, joinsOf_cons t]
      cases rest with
      | nil =>
          have ht : t.isJump = true := h
          have hnone : joinsOf [] = 0 := rfl
          simp [ht, hnone]
      | cons u rest =>
          rw [ih (by rwa [List.getLast?_cons_cons] at h)]
          simp only [List.cons_append, List.isEmpty_cons]
          omega

/-- An empty block that is all that stands behind a jump is one more place to meet again. -/
theorem Context.joinsOf_fill_of_trailsJump {c : Context} (h : c.trailsJump = true)
    (id bid : TreeId) :
    joinsOf (c.fill [.block id ⟨bid, []⟩]) = joinsOf (c.fill []) + 1 := by
  induction c with
  | here before after =>
      obtain ⟨hjump, hafter⟩ := Bool.and_eq_true_iff.mp h
      cases List.isEmpty_iff.mp hafter
      have hnothing : joinsOf [.block id ⟨bid, []⟩] = 0 := rfl
      simp only [fill, List.append_nil]
      rw [joinsOf_append_behind hjump, hnothing, Nat.add_zero]
  | inside before frame hole after ih =>
      refine joinsOf_append_succ before ?_ rfl
      rw [joinsOf_cons, joinsOf_cons, frame.joins_plug_succ (ih h), Frame.isJump_plug,
        Frame.isJump_plug]
      omega

end ControlFlow

import ControlFlow.Proofs.Tree.Without

/-! # Removal is a filter of the whole tree

What is left of a tree are exactly the statements that are not doomed and stand in no doomed
statement, in their order and with everything that is their own; the statements that are counted are
the doomed ones that stand in no other doomed one.
-/

namespace ControlFlow

variable {doomed : Stmt → Bool}

/-! ## Nesting -/

/-- A statement of a tree with the statements that it is nested in, the innermost first. -/
structure Nested where
  stmt : Stmt
  around : List Stmt

namespace Nested

/-- Neither the statement nor any statement around it is doomed. -/
def stays (doomed : Stmt → Bool) (n : Nested) : Bool :=
  !doomed n.stmt && n.around.all fun s => !doomed s

/-- The statement is doomed, and no statement around it is. -/
def isOutermost (doomed : Stmt → Bool) (n : Nested) : Bool :=
  doomed n.stmt && n.around.all fun s => !doomed s

end Nested

mutual

/-- The statements nested in a statement that stands inside some others. -/
def Stmt.nested (around : List Stmt) : Stmt → List Nested
  | .simple _ _ | .jump _ _ => []
  | .block id ⟨bid, body⟩ => nestedOf (.block id ⟨bid, body⟩ :: around) body
  | .while id cond ⟨bid, body⟩ none => nestedOf (.while id cond ⟨bid, body⟩ none :: around) body
  | .while id cond ⟨bid, body⟩ (some ⟨eid, orElse⟩) =>
      let inside := .while id cond ⟨bid, body⟩ (some ⟨eid, orElse⟩) :: around
      nestedOf inside body ++ nestedOf inside orElse
  | .for id var seq ⟨bid, body⟩ => nestedOf (.for id var seq ⟨bid, body⟩ :: around) body
  | .if id cond ⟨bid, body⟩ none => nestedOf (.if id cond ⟨bid, body⟩ none :: around) body
  | .if id cond ⟨bid, body⟩ (some ⟨eid, orElse⟩) =>
      let inside := .if id cond ⟨bid, body⟩ (some ⟨eid, orElse⟩) :: around
      nestedOf inside body ++ nestedOf inside orElse
  | .try id ⟨bid, body⟩ catches =>
      let inside := .try id ⟨bid, body⟩ catches :: around
      nestedOf inside body ++ nestedOfCatches inside catches

/-- The statements of a sequence that stands inside some statements, at any depth. -/
def nestedOf (around : List Stmt) : List Stmt → List Nested
  | [] => []
  | s :: rest => ⟨s, around⟩ :: (s.nested around ++ nestedOf around rest)

def nestedOfCatches (around : List Stmt) : List Catch → List Nested
  | [] => []
  | ⟨_, _, ⟨_, body⟩⟩ :: rest => nestedOf around body ++ nestedOfCatches around rest

end

/-- The statements of a block, at any depth and in source order. -/
def Block.nested (b : Block) : List Nested := nestedOf [] b.stmts

variable {around : List Stmt}

theorem nested_while (id : TreeId) (cond : Expr) (bid : TreeId) (body : List Stmt)
    (orElse : Option Block) : (Stmt.while id cond ⟨bid, body⟩ orElse).nested around =
      nestedOf (.while id cond ⟨bid, body⟩ orElse :: around) body ++
        nestedOf (.while id cond ⟨bid, body⟩ orElse :: around) (elseOf orElse) := by
  rcases orElse with _ | ⟨eid, orElse⟩ <;> simp [Stmt.nested, nestedOf]

theorem nested_if (id : TreeId) (cond : Expr) (bid : TreeId) (body : List Stmt)
    (orElse : Option Block) : (Stmt.if id cond ⟨bid, body⟩ orElse).nested around =
      nestedOf (.if id cond ⟨bid, body⟩ orElse :: around) body ++
        nestedOf (.if id cond ⟨bid, body⟩ orElse :: around) (elseOf orElse) := by
  rcases orElse with _ | ⟨eid, orElse⟩ <;> simp [Stmt.nested, nestedOf]

theorem doomedInside_while (id : TreeId) (cond : Expr) (bid : TreeId) (body : List Stmt)
    (orElse : Option Block) : (Stmt.while id cond ⟨bid, body⟩ orElse).doomedInside doomed =
      doomedCount doomed body + doomedCount doomed (elseOf orElse) := by
  rcases orElse with _ | ⟨eid, orElse⟩ <;> simp [Stmt.doomedInside, doomedCount]

theorem doomedInside_if (id : TreeId) (cond : Expr) (bid : TreeId) (body : List Stmt)
    (orElse : Option Block) : (Stmt.if id cond ⟨bid, body⟩ orElse).doomedInside doomed =
      doomedCount doomed body + doomedCount doomed (elseOf orElse) := by
  rcases orElse with _ | ⟨eid, orElse⟩ <;> simp [Stmt.doomedInside, doomedCount]

/-- Every statement of a tree is nested in it once. -/
theorem map_stmt_nested :
    (∀ s : Stmt, ∀ around, (s.nested around).map Nested.stmt = s.inner) ∧
    (∀ ss, ∀ around, (nestedOf around ss).map Nested.stmt = stmtsOf ss) ∧
    (∀ cs, ∀ around, (nestedOfCatches around cs).map Nested.stmt = stmtsOfCatches cs) := by
  refine tree_induction ?simple ?jump ?block ?while_ ?for_ ?if_ ?try_ ?nil ?cons ?noCatch ?catch_
  case simple => exact fun _ _ _ => rfl
  case jump => exact fun _ _ _ => rfl
  case block => exact fun _ _ _ ih _ => ih _
  case while_ =>
    intro id cond bid body orElse ihbody ihelse around
    rw [nested_while, inner_while, List.map_append, ihbody, ihelse]
  case for_ => exact fun _ _ _ _ _ ih _ => ih _
  case if_ =>
    intro id cond bid body orElse ihbody ihelse around
    rw [nested_if, inner_if, List.map_append, ihbody, ihelse]
  case try_ =>
    intro id bid body catches ihbody ihcatches around
    rw [Stmt.nested, Stmt.inner, List.map_append, ihbody, ihcatches]
  case nil => exact fun _ => rfl
  case cons =>
    intro s rest ihs ihrest around
    rw [nestedOf, stmtsOf, List.map_cons, List.map_append, ihs, ihrest]
  case noCatch => exact fun _ => rfl
  case catch_ =>
    intro id param bid body rest ihbody ihrest around
    rw [nestedOfCatches, stmtsOfCatches, List.map_append, ihbody, ihrest]

/-- What stands inside some statements is nested in all of them. -/
theorem around_subset_of_nested :
    (∀ s : Stmt, ∀ around, ∀ n ∈ s.nested around, around ⊆ n.around ∧ s ∈ n.around) ∧
    (∀ ss, ∀ around, ∀ n ∈ nestedOf around ss, around ⊆ n.around) ∧
    (∀ cs, ∀ around, ∀ n ∈ nestedOfCatches around cs, around ⊆ n.around) := by
  have hinside {s : Stmt} {around : List Stmt} {n : Nested} (h : s :: around ⊆ n.around) :
      around ⊆ n.around ∧ s ∈ n.around := (List.cons_subset.mp h).symm
  refine tree_induction ?simple ?jump ?block ?while_ ?for_ ?if_ ?try_ ?nil ?cons ?noCatch ?catch_
  case simple => exact fun _ _ _ _ hn => absurd hn List.not_mem_nil
  case jump => exact fun _ _ _ _ hn => absurd hn List.not_mem_nil
  case block => exact fun _ _ _ ih _ n hn => hinside (ih _ n hn)
  case while_ =>
    intro id cond bid body orElse ihbody ihelse around n hn
    rw [nested_while] at hn
    exact hinside ((List.mem_append.mp hn).elim (ihbody _ n) (ihelse _ n))
  case for_ => exact fun _ _ _ _ _ ih _ n hn => hinside (ih _ n hn)
  case if_ =>
    intro id cond bid body orElse ihbody ihelse around n hn
    rw [nested_if] at hn
    exact hinside ((List.mem_append.mp hn).elim (ihbody _ n) (ihelse _ n))
  case try_ =>
    intro id bid body catches ihbody ihcatches around n hn
    exact hinside ((List.mem_append.mp hn).elim (ihbody _ n) (ihcatches _ n))
  case nil => exact fun _ _ hn => absurd hn List.not_mem_nil
  case cons =>
    intro s rest ihs ihrest around n hn
    rcases List.mem_cons.mp hn with rfl | hn
    · exact List.Subset.refl _
    · exact (List.mem_append.mp hn).elim (fun h => (ihs around n h).1) (ihrest around n)
  case noCatch => exact fun _ _ hn => absurd hn List.not_mem_nil
  case catch_ =>
    intro id param bid body rest ihbody ihrest around n hn
    exact (List.mem_append.mp hn).elim (ihbody around n) (ihrest around n)

/-- What stands in a doomed statement is neither left nor counted. -/
theorem not_all_around {s : Stmt} (hs : doomed s = true) {n : Nested} (hn : n ∈ s.nested around) :
    (n.around.all fun t => !doomed t) = false := by
  refine List.all_eq_false.mpr ⟨s, (around_subset_of_nested.1 s around n hn).2, ?_⟩
  simp [hs]

/-! ## What is left -/

/-- What is left of a tree, in its order. -/
theorem stmtsOf_without :
    (∀ s : Stmt, ∀ around, (s :: around).all (fun t => !doomed t) = true →
      (s.without doomed).inner =
        ((s.nested around).filter (Nested.stays doomed)).map fun n => n.stmt.without doomed) ∧
    (∀ ss, ∀ around, around.all (fun t => !doomed t) = true →
      stmtsOf (stmtsWithout doomed ss) =
        ((nestedOf around ss).filter (Nested.stays doomed)).map fun n => n.stmt.without doomed) ∧
    (∀ cs, ∀ around, around.all (fun t => !doomed t) = true →
      stmtsOfCatches (catchesWithout doomed cs) =
        ((nestedOfCatches around cs).filter (Nested.stays doomed)).map
          fun n => n.stmt.without doomed) := by
  refine tree_induction ?simple ?jump ?block ?while_ ?for_ ?if_ ?try_ ?nil ?cons ?noCatch ?catch_
  case simple => exact fun _ _ _ _ => rfl
  case jump => exact fun _ _ _ _ => rfl
  case block => exact fun _ _ _ ih _ h => ih _ h
  case while_ =>
    intro id cond bid body orElse ihbody ihelse around h
    rw [without_while, inner_while, nested_while, elseOf_without, List.filter_append,
      List.map_append, ihbody _ h, ihelse _ h]
  case for_ => exact fun _ _ _ _ _ ih _ h => ih _ h
  case if_ =>
    intro id cond bid body orElse ihbody ihelse around h
    rw [without_if, inner_if, nested_if, elseOf_without, List.filter_append, List.map_append,
      ihbody _ h, ihelse _ h]
  case try_ =>
    intro id bid body catches ihbody ihcatches around h
    rw [Stmt.without, Stmt.inner, Stmt.nested, List.filter_append, List.map_append, ihbody _ h,
      ihcatches _ h]
  case nil => exact fun _ _ => rfl
  case cons =>
    intro s rest ihs ihrest around h
    rw [nestedOf, List.filter_cons, List.filter_append]
    cases hs : doomed s with
    | true =>
        have hnone : (s.nested around).filter (Nested.stays doomed) = [] := by
          refine List.filter_eq_nil_iff.mpr fun n hn => ?_
          simp [Nested.stays, not_all_around hs hn]
        simp only [stmtsWithout, hs, hnone, Nested.stays, Bool.not_true, Bool.false_and,
          if_true, if_false, Bool.false_eq_true, List.nil_append]
        exact ihrest around h
    | false =>
        have hinside : (s :: around).all (fun t => !doomed t) = true := by simp [hs, h]
        simp only [stmtsWithout, hs, h, Nested.stays, Bool.not_false, Bool.true_and, if_true,
          if_false, Bool.false_eq_true, stmtsOf, List.map_cons, List.map_append]
        rw [ihs around hinside, ihrest around h]
  case noCatch => exact fun _ _ => rfl
  case catch_ =>
    intro id param bid body rest ihbody ihrest around h
    rw [catchesWithout, stmtsOfCatches, nestedOfCatches, List.filter_append, List.map_append,
      ihbody around h, ihrest around h]

/-- What is counted of a tree. -/
theorem doomedCount_eq :
    (∀ s : Stmt, ∀ around, (s :: around).all (fun t => !doomed t) = true →
      s.doomedInside doomed = (s.nested around).countP (Nested.isOutermost doomed)) ∧
    (∀ ss, ∀ around, around.all (fun t => !doomed t) = true →
      doomedCount doomed ss = (nestedOf around ss).countP (Nested.isOutermost doomed)) ∧
    (∀ cs, ∀ around, around.all (fun t => !doomed t) = true →
      doomedInCatches doomed cs =
        (nestedOfCatches around cs).countP (Nested.isOutermost doomed)) := by
  refine tree_induction ?simple ?jump ?block ?while_ ?for_ ?if_ ?try_ ?nil ?cons ?noCatch ?catch_
  case simple => exact fun _ _ _ _ => rfl
  case jump => exact fun _ _ _ _ => rfl
  case block => exact fun _ _ _ ih _ h => ih _ h
  case while_ =>
    intro id cond bid body orElse ihbody ihelse around h
    rw [doomedInside_while, nested_while, List.countP_append, ihbody _ h, ihelse _ h]
  case for_ => exact fun _ _ _ _ _ ih _ h => ih _ h
  case if_ =>
    intro id cond bid body orElse ihbody ihelse around h
    rw [doomedInside_if, nested_if, List.countP_append, ihbody _ h, ihelse _ h]
  case try_ =>
    intro id bid body catches ihbody ihcatches around h
    rw [Stmt.doomedInside, Stmt.nested, List.countP_append, ihbody _ h, ihcatches _ h]
  case nil => exact fun _ _ => rfl
  case cons =>
    intro s rest ihs ihrest around h
    rw [doomedCount, nestedOf, List.countP_cons, List.countP_append, ihrest around h]
    cases hs : doomed s with
    | true =>
        have hnone : (s.nested around).countP (Nested.isOutermost doomed) = 0 := by
          refine List.countP_eq_zero.mpr fun n hn => ?_
          simp [Nested.isOutermost, not_all_around hs hn]
        simp [hnone, hs, h, Nested.isOutermost, Nat.add_comm]
    | false =>
        have hinside : (s :: around).all (fun t => !doomed t) = true := by simp [hs, h]
        simp [ihs around hinside, hs, Nested.isOutermost]
  case noCatch => exact fun _ _ => rfl
  case catch_ =>
    intro id param bid body rest ihbody ihrest around h
    rw [doomedInCatches, nestedOfCatches, List.countP_append, ihbody around h, ihrest around h]

/-! ## Statements and their blocks -/

/-- The blocks that are parts of a statement, in source order. -/
def Stmt.parts : Stmt → List Block
  | .simple _ _ | .jump _ _ => []
  | .block _ body | .for _ _ _ body => [body]
  | .while _ _ body orElse | .if _ _ body orElse => body :: orElse.toList
  | .try _ body catches => body :: catches.map Catch.body

/-- A block without any statement. -/
def Block.bare (b : Block) : Block := ⟨b.id, []⟩

/-- All of a statement but the statements in its blocks. -/
def Stmt.bare : Stmt → Stmt
  | .simple id what => .simple id what
  | .jump id how => .jump id how
  | .block id body => .block id body.bare
  | .while id cond body orElse => .while id cond body.bare (orElse.map Block.bare)
  | .for id var seq body => .for id var seq body.bare
  | .if id cond body orElse => .if id cond body.bare (orElse.map Block.bare)
  | .try id body catches => .try id body.bare (catches.map fun c => ⟨c.id, c.param, c.body.bare⟩)

theorem stmtsWithout_eq (ss : List Stmt) : stmtsWithout doomed ss =
    (ss.filter fun s => !doomed s).map (Stmt.without doomed) := by
  induction ss with
  | nil => rfl
  | cons s rest ih =>
      rw [stmtsWithout, List.filter_cons, ih]
      cases doomed s <;> rfl

theorem catches_eq {cs ds : List Catch}
    (hbare : cs.map (fun c => Catch.mk c.id c.param c.body.bare) =
      ds.map fun c => ⟨c.id, c.param, c.body.bare⟩)
    (hbodies : cs.map Catch.body = ds.map Catch.body) : cs = ds := by
  induction cs generalizing ds with
  | nil => exact (List.map_eq_nil_iff.mp hbodies.symm).symm
  | cons c cs ih =>
      rcases ds with _ | ⟨d, ds⟩
      · cases hbodies
      · simp only [List.map_cons, List.cons.injEq, Catch.mk.injEq] at hbare hbodies
        obtain ⟨⟨hid, hparam, -⟩, hrest⟩ := hbare
        obtain ⟨hbody, hbodies⟩ := hbodies
        rw [ih hrest hbodies]
        cases c
        cases d
        simp_all

/-- A statement is known by its blocks and by what it is without their statements. -/
theorem eq_of_bare_eq {s t : Stmt} (hbare : s.bare = t.bare) (hparts : s.parts = t.parts) :
    s = t := by
  have helse {orElse orElse' : Option Block} (h : orElse.toList = orElse'.toList) :
      orElse = orElse' := by
    rcases orElse with _ | b <;> rcases orElse' with _ | b' <;> cases h <;> rfl
  cases s <;> cases t <;>
    simp only [Stmt.bare, Stmt.block.injEq, Stmt.while.injEq, Stmt.for.injEq, Stmt.if.injEq,
      Stmt.try.injEq, reduceCtorEq] at hbare <;>
    simp only [Stmt.parts, List.cons.injEq, and_true] at hparts
  case simple.simple => exact hbare
  case jump.jump => exact hbare
  case block.block => rw [hbare.1, hparts]
  case while.while => rw [hbare.1, hbare.2.1, hparts.1, helse hparts.2]
  case for.for => rw [hbare.1, hbare.2.1, hbare.2.2.1, hparts]
  case if.if => rw [hbare.1, hbare.2.1, hparts.1, helse hparts.2]
  case try.try => rw [hbare.1, hparts.1, catches_eq hbare.2.2 hparts.2]

/-- Removal leaves a statement as it is, apart from its blocks. -/
theorem bare_without (s : Stmt) : (s.without doomed).bare = s.bare := by
  cases s with
  | simple id what => rfl
  | jump id how => rfl
  | block id body => cases body; rfl
  | «while» id cond body orElse =>
      cases body
      rw [without_while]
      cases orElse <;> rfl
  | «for» id var seq body => cases body; rfl
  | «if» id cond body orElse =>
      cases body
      rw [without_if]
      cases orElse <;> rfl
  | «try» id body catches =>
      cases body
      rw [Stmt.without, catchesWithout_eq_map, Stmt.bare, List.map_map]
      rfl

/-- Removal goes into each block of a statement. -/
theorem parts_without (s : Stmt) :
    (s.without doomed).parts = s.parts.map (Block.without doomed) := by
  cases s with
  | simple id what => rfl
  | jump id how => rfl
  | block id body => cases body; rfl
  | «while» id cond body orElse =>
      cases body
      rw [without_while]
      cases orElse <;> rfl
  | «for» id var seq body => cases body; rfl
  | «if» id cond body orElse =>
      cases body
      rw [without_if]
      cases orElse <;> rfl
  | «try» id body catches =>
      cases body
      rw [Stmt.without, catchesWithout_eq_map, Stmt.parts, Stmt.parts, List.map_cons, List.map_map,
        List.map_map]
      rfl

/-! ## Blocks -/

/-- What is left of a tree, if its statements' numbers tell which of them are doomed, holds no
doomed statement. -/
theorem not_doomed_of_left {p : TreeId → Bool} {b : Block} {s : Stmt}
    (hs : s ∈ (b.without fun t => p t.id).allStmts) : p s.id = false := by
  rw [Block.allStmts, Block.without, stmtsOf_without.2.1 b.stmts [] rfl] at hs
  obtain ⟨n, hn, rfl⟩ := List.mem_map.mp hs
  obtain ⟨-, hstays⟩ := List.mem_filter.mp hn
  rw [id_without]
  simpa using (Bool.and_eq_true_iff.mp hstays).1

/-- Removal leaves exactly the statements of a block that are not doomed and stand in no doomed
statement, in their order, each with all that is its own and with its blocks treated alike; what is
doomed is asked of the statements as they were. It counts the doomed statements that stand in no
doomed one. Where the numbers of statements tell which of them are doomed, removing again removes
nothing. -/
theorem Block.without_filters (doomed : Stmt → Bool) (b : Block) :
    b.nested.map Nested.stmt = b.allStmts ∧
    (b.without doomed).allStmts =
      (b.nested.filter (Nested.stays doomed)).map (fun n => n.stmt.without doomed) ∧
    (b.without doomed).id = b.id ∧
    (b.without doomed).stmts = (b.stmts.filter fun s => !doomed s).map (Stmt.without doomed) ∧
    (∀ s t : Stmt, t = s.without doomed ↔
      t.bare = s.bare ∧ t.parts = s.parts.map (Block.without doomed)) ∧
    b.doomedCount doomed = b.nested.countP (Nested.isOutermost doomed) ∧
    ∀ p : TreeId → Bool,
      (b.without fun s => p s.id).without (fun s => p s.id) = b.without (fun s => p s.id) ∧
        (b.without fun s => p s.id).doomedCount (fun s => p s.id) = 0 := by
  refine ⟨map_stmt_nested.2.1 b.stmts [], stmtsOf_without.2.1 b.stmts [] rfl, rfl,
    stmtsWithout_eq b.stmts, fun s t => ?_, doomedCount_eq.2.1 b.stmts [] rfl, fun p => ?_⟩
  · constructor
    · rintro rfl
      exact ⟨bare_without s, parts_without s⟩
    · rintro ⟨hbare, hparts⟩
      exact eq_of_bare_eq (hbare.trans (bare_without s).symm) (hparts.trans (parts_without s).symm)
  · constructor
    · rw [Block.without, Block.without, (without_without p p).2.1]
      simp only [Bool.or_self]
    · rw [Block.doomedCount, doomedCount_eq.2.1 _ [] rfl]
      refine List.countP_eq_zero.mpr fun n hn => ?_
      have hleft : n.stmt ∈ (b.without fun t => p t.id).allStmts := by
        rw [Block.allStmts, ← map_stmt_nested.2.1 _ []]
        exact List.mem_map_of_mem hn
      simp [Nested.isOutermost, not_doomed_of_left hleft]

end ControlFlow

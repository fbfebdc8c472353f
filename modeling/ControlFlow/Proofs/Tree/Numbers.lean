import ControlFlow.Proofs.Tree.Parts
import Mathlib.Data.List.Flatten
import Mathlib.Data.List.Nodup
import Mathlib.Data.List.Pairwise

/-! # Distinct numbers

The numbers of statements and of their controls are among the numbers of all nodes, each in its
place. Where those are distinct, statements, controls and points are told apart by their numbers.
-/

namespace ControlFlow

/-- The numbers of a statement and of its controls. -/
def Stmt.ownIds (s : Stmt) : List TreeId := s.id :: s.controls.map Prod.fst

theorem singleton_sublist_ids (e : Expr) : [e.id].Sublist e.ids := by
  rw [Expr.ids, Expr.walk_eq, List.map_cons]
  exact List.singleton_sublist.mpr List.mem_cons_self

/-- The numbers of statements and controls are numbers of the tree, in the same order. -/
theorem ownIds_sublist :
    (∀ s : Stmt, ((s :: s.inner).flatMap Stmt.ownIds).Sublist s.ids) ∧
    (∀ ss, ((stmtsOf ss).flatMap Stmt.ownIds).Sublist (idsOf ss)) ∧
    (∀ cs, ((stmtsOfCatches cs).flatMap Stmt.ownIds).Sublist (idsOfCatches cs)) := by
  refine tree_induction ?simple ?jump ?block ?while_ ?for_ ?if_ ?try_ ?nil ?cons ?noCatch ?catch_
  case simple =>
    intro id what
    exact List.singleton_sublist.mpr List.mem_cons_self
  case jump =>
    intro id how
    exact List.singleton_sublist.mpr List.mem_cons_self
  case block =>
    intro id bid body ih
    exact (ih.cons bid).cons_cons id
  case while_ =>
    intro id cond bid body orElse ihbody ihelse
    rw [List.flatMap_cons, inner_while, List.flatMap_append]
    rcases orElse with _ | ⟨eid, orElse⟩
    · refine ((singleton_sublist_ids cond).append (List.Sublist.cons bid ?_)).cons_cons id
      rw [elseOf_none, stmtsOf, List.flatMap_nil, List.append_nil]
      exact ihbody
    · have hparts := (ihbody.append (ihelse.cons eid)).cons bid
      exact ((singleton_sublist_ids cond).append hparts).cons_cons id
  case for_ =>
    intro id var seq bid body ih
    exact ((singleton_sublist_ids seq).append ((ih.cons bid).cons_cons var.id)).cons_cons id
  case if_ =>
    intro id cond bid body orElse ihbody ihelse
    rw [List.flatMap_cons, inner_if, List.flatMap_append]
    rcases orElse with _ | ⟨eid, orElse⟩
    · refine ((singleton_sublist_ids cond).append (List.Sublist.cons bid ?_)).cons_cons id
      rw [elseOf_none, stmtsOf, List.flatMap_nil, List.append_nil]
      exact ihbody
    · have hparts := (ihbody.append (ihelse.cons eid)).cons bid
      exact ((singleton_sublist_ids cond).append hparts).cons_cons id
  case try_ =>
    intro id bid body catches ihbody ihcatches
    rw [List.flatMap_cons, Stmt.inner, List.flatMap_append]
    exact ((ihbody.append ihcatches).cons bid).cons_cons id
  case nil => exact List.Sublist.slnil
  case cons =>
    intro s rest ihs ihrest
    rw [stmtsOf, ← List.cons_append, List.flatMap_append]
    exact ihs.append ihrest
  case noCatch => exact List.Sublist.slnil
  case catch_ =>
    intro id param bid body rest ihbody ihrest
    rw [stmtsOfCatches, List.flatMap_append]
    exact ((ihbody.append ihrest).cons bid).cons id

theorem stmtsOf_ids_sublist (ss : List Stmt) :
    ((stmtsOf ss).map Stmt.id).Sublist (idsOf ss) := by
  refine List.Sublist.trans ?_ (ownIds_sublist.2.1 ss)
  rw [List.map_eq_flatMap]
  exact List.Sublist.flatMap_right _ fun s _ => List.singleton_sublist.mpr List.mem_cons_self

theorem ownPoints_keys_sublist (s : Stmt) :
    (s.ownPoints.map Point.key).Sublist (s.ownIds.map Key.tree) := by
  cases s with
  | simple id what => exact List.Sublist.refl _
  | jump id how =>
      cases how with
      | «return» value => cases value <;> simp [Stmt.ownPoints, Stmt.ownIds, Point.key, Stmt.id]
      | throw value => cases value <;> simp [Stmt.ownPoints, Stmt.ownIds, Point.key, Stmt.id]
      | _ => exact List.nil_sublist _
  | block id body => exact List.nil_sublist _
  | «while» id cond body orElse => exact (List.Sublist.refl _).cons _
  | «for» id var seq body => exact (List.Sublist.refl _).cons _
  | «if» id cond body orElse => exact (List.Sublist.refl _).cons _
  | «try» id body catches => exact List.nil_sublist _

theorem pointsOf_keys_sublist (ss : List Stmt) :
    ((pointsOf ss).map Point.key).Sublist ((idsOf ss).map Key.tree) := by
  refine List.Sublist.trans ?_ ((ownIds_sublist.2.1 ss).map Key.tree)
  rw [pointsOf, List.map_flatMap, List.map_flatMap]
  exact List.Sublist.flatMap_right _ fun s _ => ownPoints_keys_sublist s

theorem blocks_ids_sublist_of_inner {b : Block}
    (h : ∀ c ∈ blocksOf b.stmts, c.ids.Sublist (idsOf b.stmts)) :
    ∀ c ∈ b.blocks, c.ids.Sublist b.ids :=
  List.forall_mem_cons.mpr ⟨List.Sublist.refl _, fun c hc => (h c hc).cons b.id⟩

/-- The numbers in the blocks of a tree are numbers of the tree, in the same order. -/
theorem blocks_ids_sublist :
    (∀ s : Stmt, ∀ c ∈ s.blocks, c.ids.Sublist s.ids) ∧
    (∀ ss, ∀ c ∈ blocksOf ss, c.ids.Sublist (idsOf ss)) ∧
    (∀ cs, ∀ c ∈ blocksOfCatches cs, c.ids.Sublist (idsOfCatches cs)) := by
  have hboth {as bs : List Block} {ks ms : List TreeId} (has : ∀ c ∈ as, c.ids.Sublist ks)
      (hbs : ∀ c ∈ bs, c.ids.Sublist ms) : ∀ c ∈ as ++ bs, c.ids.Sublist (ks ++ ms) :=
    List.forall_mem_append.mpr ⟨fun c hc => (has c hc).trans (List.sublist_append_left _ _),
      fun c hc => (hbs c hc).trans (List.sublist_append_right _ _)⟩
  refine tree_induction ?simple ?jump ?block ?while_ ?for_ ?if_ ?try_ ?nil ?cons ?noCatch ?catch_
  case simple => exact fun _ _ _ hc => nomatch hc
  case jump => exact fun _ _ _ hc => nomatch hc
  case block =>
    intro id bid body ih c hc
    exact (blocks_ids_sublist_of_inner (b := ⟨bid, body⟩) ih c hc).cons id
  case while_ =>
    intro id cond bid body orElse ihbody ihelse c hc
    have hbody := blocks_ids_sublist_of_inner (b := ⟨bid, body⟩) ihbody
    rcases orElse with _ | ⟨eid, orElse⟩
    · exact ((hbody c hc).trans (List.sublist_append_right cond.ids _)).cons id
    · have helse := blocks_ids_sublist_of_inner (b := ⟨eid, orElse⟩) ihelse
      exact ((hboth hbody helse c hc).trans (List.sublist_append_right cond.ids _)).cons id
  case for_ =>
    intro id var seq bid body ih c hc
    have hbody := blocks_ids_sublist_of_inner (b := ⟨bid, body⟩) ih
    exact (((hbody c hc).cons var.id).trans (List.sublist_append_right seq.ids _)).cons id
  case if_ =>
    intro id cond bid body orElse ihbody ihelse c hc
    have hbody := blocks_ids_sublist_of_inner (b := ⟨bid, body⟩) ihbody
    rcases orElse with _ | ⟨eid, orElse⟩
    · exact ((hbody c hc).trans (List.sublist_append_right cond.ids _)).cons id
    · have helse := blocks_ids_sublist_of_inner (b := ⟨eid, orElse⟩) ihelse
      exact ((hboth hbody helse c hc).trans (List.sublist_append_right cond.ids _)).cons id
  case try_ =>
    intro id bid body catches ihbody ihcatches c hc
    have hbody := blocks_ids_sublist_of_inner (b := ⟨bid, body⟩) ihbody
    exact (hboth hbody ihcatches c hc).cons id
  case nil => exact fun _ hc => nomatch hc
  case cons => exact fun _ _ ihs ihrest => hboth ihs ihrest
  case noCatch => exact fun _ hc => nomatch hc
  case catch_ =>
    intro id param bid body rest ihbody ihrest c hc
    have hbody := blocks_ids_sublist_of_inner (b := ⟨bid, body⟩) ihbody
    exact (hboth hbody ihrest c hc).cons id

/-- Where all numbers are distinct, a number belongs to one statement. -/
theorem eq_of_mem_ownIds {ss : List Stmt} (h : (idsOf ss).Nodup) {s t : Stmt} (hs : s ∈ stmtsOf ss)
    (ht : t ∈ stmtsOf ss) {id : TreeId} (hid : id ∈ s.ownIds) (hid' : id ∈ t.ownIds) : s = t := by
  have hpairwise := (List.nodup_flatMap.mp ((ownIds_sublist.2.1 ss).nodup h)).2
  have hsymm : Std.Symm (Function.onFun List.Disjoint Stmt.ownIds) :=
    ⟨fun _ _ hdisjoint _ h h' => hdisjoint h' h⟩
  by_contra hne
  exact hpairwise.forall hs ht hne hid hid'

/-- Where all numbers are distinct, no two points have one key. -/
theorem nodup_point_keys {ss : List Stmt} (h : (idsOf ss).Nodup) :
    ((pointsOf ss).map Point.key).Nodup := by
  refine (pointsOf_keys_sublist ss).nodup (h.map fun a b hab => ?_)
  cases hab
  rfl

namespace Module

variable {m : Module} {b : Block}

theorem body_mem_blocks {fn : Function} (hfn : fn ∈ m.functions) : fn.body ∈ m.blocks :=
  List.mem_append_right _ (List.mem_flatMap.mpr ⟨fn, hfn, List.mem_cons_self⟩)

/-- The numbers in the blocks of a module are numbers of the module, in the same order. -/
theorem ids_sublist_of_mem_blocks (hb : b ∈ m.blocks) : b.ids.Sublist m.ids := by
  rcases List.mem_append.mp hb with hmain | hfunction
  · exact (blocks_ids_sublist_of_inner (blocks_ids_sublist.2.1 _) b hmain).trans
      (List.sublist_append_right _ _)
  · obtain ⟨fn, hfn, hblock⟩ := List.mem_flatMap.mp hfunction
    have hbody : fn.body.ids.Sublist (m.functions.flatMap fun fn => fn.body.ids) :=
      List.sublist_flatten_of_mem (List.mem_map_of_mem hfn)
    exact ((blocks_ids_sublist_of_inner (blocks_ids_sublist.2.1 _) b hblock).trans hbody).trans
      ((List.sublist_append_right _ _).trans (List.sublist_append_left _ _))

theorem nodup_of_mem_blocks (hids : m.ids.Nodup) (hb : b ∈ m.blocks) : b.ids.Nodup :=
  (ids_sublist_of_mem_blocks hb).nodup hids

end Module

/-- Where all numbers of a module are distinct, so are those of its globals and its body. -/
theorem nodup_shown_ids {m : Module} (hids : m.ids.Nodup) :
    (m.globals.flatMap Global.ids ++ idsOf m.body.stmts).Nodup := by
  refine List.Sublist.nodup ?_ hids
  exact (List.sublist_append_left _ _).append (List.sublist_cons_self _ _)

end ControlFlow

import ControlFlow.Proofs.Flow.Coverage
import ControlFlow.Proofs.Pruning.Convergence
import ControlFlow.Proofs.Pruning.Unseen
import Mathlib

/-! # Pruning preserves what a run sees

In each round, the doomed statements that are not behind a jump are unused and have no parts. What
is left plays on the same choices as the body did, through the same points but for the doomed ones.
It sees the same stores at all of them, and in the end shared variables were stored at the same
points. Round after round, this holds of the whole pruning.
-/

namespace ControlFlow

namespace Pruning

variable {g : Graph} {effects : Array Effect} {body : Block} {globals : List Global} {s : Stmt}
  {ids : List TreeId} {m : Module} {choices : List Bool} {visits : List Point} {o : Ending}
  {k : Nat}

/-! ## Doomed statements that are not behind a jump -/

theorem exists_point_of_mem_controls {id : TreeId} {t : Stmt} (h : (id, t) ∈ s.controls) :
    ∃ p ∈ s.ownPoints, p.key = .tree id := by
  cases s with
  | «while» _ cond _ _ =>
      cases List.mem_singleton.mp h
      exact ⟨.expr cond, List.mem_singleton_self _, rfl⟩
  | «if» _ cond _ _ =>
      cases List.mem_singleton.mp h
      exact ⟨.expr cond, List.mem_singleton_self _, rfl⟩
  | «for» _ var seq _ =>
      rcases List.mem_cons.mp h with heq | h
      · cases heq
        exact ⟨.expr seq, List.mem_cons_self, rfl⟩
      · cases List.mem_singleton.mp h
        exact ⟨.loopVar var, List.mem_cons_of_mem _ (List.mem_singleton_self _), rfl⟩
  | _ => cases h

/-- The owner of a node shows a point with the key of the node. -/
theorem exists_point_of_owner (hdepicts : g.Depicts body globals) {p : Point} (hp : p ∈ g.nodes)
    (hs : g.owner? p = some s) : ∃ q ∈ s.ownPoints, q.key = p.key := by
  cases p with
  | stmt t =>
      cases hs
      exact ⟨.stmt s, (hdepicts.stmt_mem hp).2, rfl⟩
  | expr e => exact exists_point_of_mem_controls (hdepicts.controlOwner_mem hs).2
  | loopVar var => exact exists_point_of_mem_controls (hdepicts.controlOwner_mem hs).2
  | mark kind counter => cases hs
  | global v => cases hs

/-- A dead node has no owner that is not behind a jump. -/
theorem not_dead_of_live (hdepicts : g.Depicts body globals) (hs : s ∈ liveStmtsOf body.stmts)
    {n : NodeId} {p : Point} (hp : g.nodes[n]? = some p) (howner : g.owner? p = some s) :
    n ∉ g.dead := by
  intro hn
  obtain ⟨q, hq, hkey⟩ := exists_point_of_owner hdepicts (List.mem_of_getElem? hp) howner
  obtain ⟨n', hn', hlive⟩ := hdepicts.live s hs q hq
  rw [hkey, Graph.find?_of_getElem? hdepicts.nodup_keys hp] at hn'
  cases hn'
  exact (Graph.mem_dead.mp hn).2 hlive

/-- A doomed statement that is not behind a jump has an unused node. -/
theorem exists_unused_of_doomed (hdepicts : g.Depicts body globals)
    (heffects : g.effects = .ok effects) (hnodup : body.ids.Nodup)
    (hdoomed : doomed g body = .ok ids) (hs : s ∈ liveStmtsOf body.stmts) (hid : s.id ∈ ids) :
    ∃ n, (Analysis.solved g effects).isUnused n = true ∧ g.nodes[n]? = some (.stmt s) := by
  have hstmts := (stmtsOf_ids_sublist body.stmts).nodup (List.nodup_cons.mp hnodup).2
  have hcondemned : Condemns g effects s :=
    ((doomed_iff hdepicts heffects hstmts hdoomed (liveStmts_subset.2.1 _ hs)).mp hid).2
  rcases hcondemned with ⟨n, hn, hp⟩ | ⟨n, hn, p, hp, howner⟩
  · exact ⟨n, (Graph.mem_select.mp hn).2, hp⟩
  · exact absurd hn (not_dead_of_live hdepicts hs hp howner)

theorem isSimple_of_unused (heffects : g.effects = .ok effects) {n : NodeId}
    (hn : g.nodes[n]? = some (.stmt s)) (hunused : (Analysis.solved g effects).isUnused n = true) :
    s.isSimple = true := by
  have hkeep := Analysis.keep_of_isUnused heffects hn hunused
  cases s with
  | simple id what => rfl
  | jump id how => cases how <;> cases hkeep
  | _ => cases hkeep

/-- Of the statements that are not behind a jump, a round takes out only simple ones. -/
theorem spares_of_doomed (hdepicts : g.Depicts body globals) (hnodup : body.ids.Nodup)
    (hdoomed : doomed g body = .ok ids) : Spares (fun s => ids.contains s.id) body.stmts := by
  intro s hs hid
  obtain ⟨effects, heffects⟩ := effects_of_doomed hdoomed
  obtain ⟨n, hn, hp⟩ := exists_unused_of_doomed hdepicts heffects hnodup hdoomed hs
    (List.contains_iff_mem.mp hid)
  exact isSimple_of_unused heffects hp hn

/-! ## One round -/

/-- Whether a point is none of the removed statements. -/
def spared (removed : List TreeId) : Point → Bool := Point.stays fun s => removed.contains s.id

/-- What is left of a body plays as the body did, but for the removed statements. -/
structure Preserves (m : Module) (choices : List Bool) (removed : List TreeId)
    (visits : List Point) (o : Ending) (k : Nat) (left : Block) : Prop where
  plays : Plays choices left.stmts 0 (visits.filter (spared removed)) o k
  sees : m.sees (visits.filter (spared removed)) .empty =
    (m.sees visits .empty).filter fun s => spared removed s.point
  recalls : o.finishes = true → ∀ d ∈ m.shared,
    m.recalls (visits.filter (spared removed)) .empty d = m.recalls visits .empty d

theorem preserves_round (hnodup : body.ids.Nodup) (htop : body.StoresAtTop)
    (hdoomed : doomed (Graph.ofBlock m body) body = .ok ids)
    (hplays : Plays choices body.stmts 0 visits o k) :
    Preserves m choices ids visits o k (takeOut ids body) := by
  have hdepicts := Graph.depicts_ofBlock m body
  have hmodule := Graph.ofBlock_module m body
  obtain ⟨effects, heffects⟩ := effects_of_doomed hdoomed
  have hclass := Graph.classifies_effects heffects
  have hunused {s : Stmt} (hs : s ∈ liveStmtsOf body.stmts) (hid : ids.contains s.id = true) :=
    exists_unused_of_doomed hdepicts heffects hnodup hdoomed hs (List.contains_iff_mem.mp hid)
  -- Every visited point has its node, and that node is unused if the point goes.
  have hstands : ∀ p ∈ visits, ∀ n, (Graph.ofBlock m body).find? p.key = some n →
      Stands (Graph.ofBlock m body) effects n p ∧ (spared ids p = false →
        (Analysis.solved (Graph.ofBlock m body) effects).isUnused n = true) := by
    intro p hp n hn
    have hpoint := hplays.runs.visits_subset hp
    have hnode := Graph.getElem?_of_find?_ofBlock hnodup hpoint hn
    refine ⟨⟨hnode, htop p hpoint⟩, fun hgoes => ?_⟩
    obtain ⟨t, ht, hown⟩ := List.mem_flatMap.mp (hplays.runs.visits_live hp)
    cases p with
    | stmt s =>
        rw [← eq_of_stmt_mem_ownPoints hown] at ht
        obtain ⟨n', hn', hp'⟩ := hunused ht (Bool.not_eq_false' _ |>.mp hgoes)
        have hfind := Graph.find?_of_getElem? hdepicts.nodup_keys hp'
        rw [hn] at hfind
        cases hfind
        exact hn'
    | _ => cases hgoes
  obtain ⟨last, hfollows, hends⟩ := Graph.ofBlock_follows m hnodup hplays.runs
  obtain ⟨hsees, htracks⟩ := tracks_follows hdepicts.inside hclass hfollows hstands
    (tracks_refl Graph.start .empty)
  rw [hmodule] at hsees htracks
  refine ⟨hplays.without (spares_of_doomed hdepicts hnodup hdoomed), hsees, fun ho d hd => ?_⟩
  have hmeets := htracks.leads hclass (hends ho)
  rw [← hmodule] at hd
  exact (hmeets.shared_eq hdepicts.inside hclass hdepicts.finish_isEnd hd).symm

/-! ## All rounds -/

theorem spared_append (before after : List TreeId) (p : Point) :
    spared (before ++ after) p = (spared after p && spared before p) := by
  cases p with
  | stmt s =>
      have hcontains : (before ++ after).contains s.id =
          (before.contains s.id || after.contains s.id) := by
        simp
      simp only [spared, Point.stays, hcontains, Bool.not_or, Bool.and_comm]
  | _ => rfl

theorem filter_spared_append {α : Type} (before after : List TreeId) (f : α → Point)
    (xs : List α) : xs.filter (fun x => spared (before ++ after) (f x)) =
      (xs.filter fun x => spared before (f x)).filter fun x => spared after (f x) := by
  rw [List.filter_filter]
  simp only [spared_append]

theorem preserves_nil (hplays : Plays choices body.stmts 0 visits o k) :
    Preserves m choices [] visits o k body := by
  have hall : spared [] = fun _ => true := by
    ext1 p
    cases p <;> rfl
  constructor
  · rw [hall, List.filter_true]
    exact hplays
  · rw [hall, List.filter_true, List.filter_true]
  · intro _ d _
    rw [hall, List.filter_true]

/-- What one round preserves and then the others, they preserve together. -/
theorem Preserves.append {before after : List TreeId} {left : Block}
    (h : Preserves m choices before visits o k body)
    (h' : Preserves m choices after (visits.filter (spared before)) o k left) :
    Preserves m choices (before ++ after) visits o k left := by
  have hvisits := filter_spared_append before after id visits
  simp only [id] at hvisits
  constructor
  · rw [hvisits]
    exact h'.plays
  · rw [hvisits, filter_spared_append before after Sighting.point, ← h.sees]
    exact h'.sees
  · intro ho d hd
    rw [hvisits, h'.recalls ho d hd]
    exact h.recalls ho d hd

theorem nodup_takeOut (hnodup : body.ids.Nodup) : (takeOut ids body).ids.Nodup :=
  (ids_takeOut_sublist ids body).nodup hnodup

theorem storesAtTop_takeOut (htop : body.StoresAtTop) : (takeOut ids body).StoresAtTop :=
  fun p hp => htop p (pointsOf_without.2.1 body.stmts hp)

/-- What a run sees is preserved by all rounds. -/
theorem Rounds.preserves {left : Block} {report : Report}
    (h : Rounds (Graph.ofBlock m) body (.ok (left, report))) (hnodup : body.ids.Nodup)
    (htop : body.StoresAtTop) (hplays : Plays choices body.stmts 0 visits o k) :
    Preserves m choices report.removed visits o k left := by
  induction h using Rounds.induction_ok generalizing visits with
  | settled _ => exact preserves_nil hplays
  | round hids _ _ ih =>
      -- The other rounds start from what this one left, and from what is visited there.
      have hround := preserves_round hnodup htop hids hplays
      exact hround.append (ih (nodup_takeOut hnodup) (storesAtTop_takeOut htop) hround.plays)

end Pruning

namespace Module

theorem nodup_body_ids {m : Module} {name : String} {f : Function} (hids : m.ids.Nodup)
    (hf : m.function? name = some f) : f.body.ids.Nodup := by
  have hfunctions := hids.of_append_left.of_append_right
  exact (List.nodup_flatMap.mp hfunctions).1 f (List.mem_of_find?_eq_some hf)

theorem nodup_bodyOf?_ids {m : Module} {scope : Option String} {body : Block} (hids : m.ids.Nodup)
    (hbody : m.bodyOf? scope = some body) : body.ids.Nodup := by
  cases scope with
  | none =>
      cases hbody
      exact hids.of_append_right
  | some name =>
      obtain ⟨f, hf, rfl⟩ := Option.map_eq_some_iff.mp hbody
      exact nodup_body_ids hids hf

/-- Pruning a function preserves what it does. Where the numbers in a module are distinct and no
assignment stands below the top of an expression statement of the function, there is exactly one
play of the pruned function on the choices of each play of the function. It consumes the same
choices, ends the same way and visits the same points, but for the removed statements. At these
points it sees the same stores, to variables that are read and, where control passes to other code,
to all shared ones. If the function ends normally, returns or throws, the last stores to all shared
variables are the same. -/
theorem pruneFunction_preserves {m m' : Module} {name : String} {f : Function}
    {report : Pruning.Report} {choices : List Bool} {visits : List Point} {o : Ending} {k : Nat}
    (hids : m.ids.Nodup) (hf : m.function? name = some f) (htop : f.body.StoresAtTop)
    (hprune : m.pruneFunction name = .ok (m', report))
    (hplays : Plays choices f.body.stmts 0 visits o k) :
    ∃ f' left, m'.function? name = some f' ∧ m'.decls = m.decls ∧
      left = visits.filter (Pruning.spared report.removed) ∧
      (∀ visits' o' k', Plays choices f'.body.stmts 0 visits' o' k' ↔
        visits' = left ∧ o' = o ∧ k' = k) ∧
      m.sees left .empty =
        (m.sees visits .empty).filter (fun s => Pruning.spared report.removed s.point) ∧
      (o.finishes = true →
        ∀ d ∈ m.shared, m.recalls left .empty d = m.recalls visits .empty d) := by
  have hbody : m.bodyOf? (some name) = some f.body := Option.map_eq_some_iff.mpr ⟨f, hf, rfl⟩
  have heq := prune_eq hbody
  have hrounds := Pruning.rounds_pruneBody (m.depicts_graphWith (some name)) f.body
  cases hresult : Pruning.pruneBody (m.graphWith (some name)) f.body with
  | error why =>
      rw [hresult] at heq
      cases hprune.symm.trans heq
  | ok done =>
      obtain ⟨pruned, report'⟩ := done
      rw [hresult] at heq hrounds
      cases hprune.symm.trans heq
      have hpruned : (m.withBody pruned (some name)).bodyOf? (some name) = some pruned :=
        bodyOf?_withBody hbody
      obtain ⟨f', hf', rfl⟩ := Option.map_eq_some_iff.mp hpruned
      have hpreserves := Pruning.Rounds.preserves hrounds (nodup_body_ids hids hf) htop hplays
      refine ⟨f', _, hf', rfl, rfl, fun visits' o' k' => ⟨fun h => hpreserves.plays.unique h, ?_⟩,
        hpreserves.sees, hpreserves.recalls⟩
      rintro ⟨rfl, rfl, rfl⟩
      exact hpreserves.plays

/-- A store of a number to the variable `x`. -/
def storing (id : TreeId) (value : Int) : Stmt :=
  .simple id (.expr (.assign (id + 1) (.name (id + 2) "x" (some 0))
    (.literal (id + 3) (.int value))))

/-- A return of the variable `x`. -/
def returning (id : TreeId) : Stmt := .jump id (.return (some (.name (id + 1) "x" (some 0))))

/-- A function that stores `x` twice and returns it. -/
def overwriting : List Stmt := [storing 2 1, storing 6 2, returning 10]

/-- A module with the variable `x` and one function. -/
def withFunction (stmts : List Stmt) : Module :=
  ⟨"m", [⟨0, "x", .localVariable, .int, false⟩], [], ⟨0, []⟩, [⟨"f", [], ⟨1, stmts⟩⟩]⟩

/-- The first store goes, and what is returned is still that of the second one. -/
theorem pruneFunction_preserves_overwriting :
    (withFunction overwriting).ids.Nodup ∧ (Block.mk 1 overwriting).StoresAtTop ∧
    (withFunction overwriting).pruneFunction "f" =
      .ok (withFunction [storing 6 2, returning 10], ⟨[2], 2⟩) ∧
    Plays [] overwriting 0
      [.stmt (storing 2 1), .stmt (storing 6 2), .stmt (returning 10)] .return 0 ∧
    Plays [] [storing 6 2, returning 10] 0 [.stmt (storing 6 2), .stmt (returning 10)] .return 0 ∧
    (withFunction overwriting).sees [.stmt (storing 6 2), .stmt (returning 10)] .empty =
      [.read (.stmt (returning 10)) 0 (some (.stmt (storing 6 2)))] := by
  have hids : (withFunction overwriting).ids.Nodup := by decide
  have htop : (Block.mk 1 overwriting).StoresAtTop := by
    simp [Block.StoresAtTop, overwriting, storing, returning, pointsOf, stmtsOf, Stmt.inner,
      Stmt.ownPoints, Point.operands, Expr.StoresNothing, Expr.walk, Expr.isAssign]
  have hprune : (withFunction overwriting).pruneFunction "f" =
      .ok (withFunction [storing 6 2, returning 10], ⟨[2], 2⟩) := by cbv
  have hplays : Plays [] overwriting 0
      [.stmt (storing 2 1), .stmt (storing 6 2), .stmt (returning 10)] .return 0 :=
    .cons (.simple 0 2 _) (.cons (.simple 0 6 _) (.jump 0 10 _))
  obtain ⟨f', left, hf', -, hleft, hplays', hsees, -⟩ :=
    pruneFunction_preserves hids rfl htop hprune hplays
  cases hf'
  have hvisits : left = [.stmt (storing 6 2), .stmt (returning 10)] := hleft
  subst hvisits
  refine ⟨hids, htop, hprune, hplays, (hplays' _ _ _).mpr ⟨rfl, rfl, rfl⟩, hsees.trans ?_⟩
  cbv

end Module

end ControlFlow

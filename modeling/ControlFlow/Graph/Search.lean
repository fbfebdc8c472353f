/-! # Search in finite relations

The nodes that can be reached along edges are collected one by one. A search takes each node from
a pool of nodes that it has not seen yet, so that no node is taken twice and cycles cost nothing.
Main statements: a search leaves exactly the nodes that no path inside its pool reaches, and so
what it takes are the ends of paths.
-/

namespace ControlFlow.Search

/-! ## Pools -/

/-- A finite set of nodes from which nodes are taken one by one. -/
class Pool (σ : Type) where
  has : σ → Nat → Bool
  take : σ → Nat → σ
  /-- How many nodes are left. -/
  size : σ → Nat
  has_take (pool : σ) (x y : Nat) : has (take pool x) y = (has pool y && x != y)
  size_take (pool : σ) (x : Nat) : has pool x = true → size (take pool x) < size pool

/-- Any nodes, as a list. -/
instance : Pool (List Nat) where
  has pool x := pool.contains x
  take pool x := pool.filter fun y => x != y
  size := List.length
  has_take pool x y := by
    rw [Bool.eq_iff_iff]
    simp [List.mem_filter]
  size_take pool x h := by
    refine List.length_filter_lt_length_iff_exists.mpr ⟨x, ?_, by simp⟩
    simpa using h

/-- The nodes below some number, marked while they are there. -/
instance : Pool (Array Bool) where
  has pool x := pool.getD x false
  take pool x := pool.setIfInBounds x false
  size pool := pool.toList.count true
  has_take pool x y := by
    simp only [Array.getD_eq_getD_getElem?, Array.getElem?_setIfInBounds]
    by_cases h : x = y
    · subst h
      by_cases hx : x < pool.size <;> simp [hx]
    · simp [h]
  size_take pool x h := by
    have hx : x < pool.size := by
      refine Decidable.byContradiction fun hx => ?_
      simp [Array.getD_eq_getD_getElem?, Array.getElem?_eq_none (Nat.le_of_not_lt hx)] at h
    have hmark : pool.toList[x] = true := by
      simpa [Array.getD_eq_getD_getElem?, Array.getElem?_eq_getElem hx] using h
    have hpos : 0 < pool.toList.count true :=
      List.count_pos_iff.mpr (hmark ▸ List.getElem_mem (by simpa using hx))
    rw [Array.toList_setIfInBounds, List.count_set (by simpa using hx), hmark]
    exact Nat.sub_lt hpos Nat.one_pos

/-! ## Searching -/

/-- Reached from a seed by steps that stay inside the pool. -/
inductive Found {σ : Type} [Pool σ] (next : Nat → List Nat) (pool : σ) (seeds : List Nat) :
    Nat → Prop where
  | seed {x : Nat} : Pool.has pool x = true → x ∈ seeds → Found next pool seeds x
  | step {x y : Nat} : Found next pool seeds x → y ∈ next x → Pool.has pool y = true →
      Found next pool seeds y

/-- What is left in a pool after all that can be reached from the pending nodes was taken. -/
@[specialize]
def explore {σ : Type} [Pool σ] (next : Nat → List Nat) (pool : σ) : List Nat → σ
  | [] => pool
  | x :: pending =>
      if Pool.has pool x then explore next (Pool.take pool x) (next x ++ pending)
      else explore next pool pending
termination_by pending => (Pool.size pool, pending.length)
decreasing_by
  · exact Prod.Lex.left _ _ (Pool.size_take pool x ‹_›)
  · exact Prod.Lex.right _ (by simp)

namespace Found

variable {σ : Type} [Pool σ] {next : Nat → List Nat} {pool : σ} {seeds : List Nat} {x y : Nat}

theorem has_pool (h : Found next pool seeds x) : Pool.has pool x = true := by
  cases h with
  | seed hpool _ => exact hpool
  | step _ _ hpool => exact hpool

theorem mono_seeds {seeds' : List Nat} (hsub : ∀ z ∈ seeds, Pool.has pool z = true → z ∈ seeds')
    (h : Found next pool seeds x) : Found next pool seeds' x := by
  induction h with
  | seed hpool hseed => exact .seed hpool (hsub _ hseed hpool)
  | step _ hnext hpool ih => exact .step ih hnext hpool

theorem has_of_take (h : Pool.has (Pool.take pool x) y = true) :
    Pool.has pool y = true ∧ x ≠ y := by
  simpa [Pool.has_take] using h

/-- What is found after a seed was taken is found from the seed. -/
theorem of_take (hmem : Pool.has pool x = true)
    (h : Found next (Pool.take pool x) (next x ++ seeds) y) :
    Found next pool (x :: seeds) y := by
  induction h with
  | seed hpool hseed =>
      have hpool := (has_of_take hpool).1
      rcases List.mem_append.mp hseed with hnext | hseed
      · exact .step (.seed hmem (by simp)) hnext hpool
      · exact .seed hpool (by simp [hseed])
  | step _ hnext hpool ih => exact .step ih hnext (has_of_take hpool).1

/-- What is found from a seed is the seed or is found after it was taken. -/
theorem to_take (h : Found next pool (x :: seeds) y) (hne : y ≠ x) :
    Found next (Pool.take pool x) (next x ++ seeds) y := by
  induction h with
  | @seed z hpool hseed =>
      have hseed : z ∈ seeds := (List.mem_cons.mp hseed).resolve_left hne
      exact .seed (by simp [Pool.has_take, hpool, Ne.symm hne]) (by simp [hseed])
  | @step z w _ hnext hpool ih =>
      have hpool : Pool.has (Pool.take pool x) w = true := by
        simp [Pool.has_take, hpool, Ne.symm hne]
      by_cases hz : z = x
      · subst hz
        exact .seed hpool (by simp [hnext])
      · exact .step (ih hz) hnext hpool

end Found

/-- A search leaves exactly what no path inside its pool reaches. -/
theorem has_explore {σ : Type} [Pool σ] {next : Nat → List Nat} {pool : σ} {pending : List Nat}
    {y : Nat} :
    Pool.has (explore next pool pending) y = true ↔
      Pool.has pool y = true ∧ ¬ Found next pool pending y := by
  fun_induction explore next pool pending with
  | case1 pool =>
      refine ⟨fun h => ⟨h, fun hfound => ?_⟩, And.left⟩
      induction hfound with
      | seed _ hseed => simp at hseed
      | step hx _ _ ih => exact ih hx.has_pool
  | case2 pool x pending hmem ih =>
      rw [ih]
      constructor
      · intro h
        obtain ⟨hpool, hne⟩ := Found.has_of_take h.1
        exact ⟨hpool, fun hfound => h.2 (hfound.to_take (Ne.symm hne))⟩
      · intro h
        have hne : x ≠ y := fun hxy => h.2 (.seed h.1 (by simp [hxy]))
        exact ⟨by simp [Pool.has_take, h.1, hne], fun hfound => h.2 (.of_take hmem hfound)⟩
  | case3 pool x pending hmem ih =>
      rw [ih]
      refine and_congr_right fun _ => not_congr ⟨?_, ?_⟩
      · exact Found.mono_seeds fun z hz _ => by simp [hz]
      · refine Found.mono_seeds fun z hz hpool => ?_
        rcases List.mem_cons.mp hz with rfl | hz
        · exact absurd hpool hmem
        · exact hz

/-! ## Paths -/

/-- The targets of the edges that leave a node. -/
def targets (edges : List (Nat × Nat)) (n : Nat) : List Nat :=
  (edges.filter fun e => e.1 = n).map Prod.snd

/-- Reached by one or more edges whose inner ends all let paths through. -/
inductive Path (edges : List (Nat × Nat)) (passes : Nat → Bool) (origin : Nat) : Nat → Prop where
  | edge {m : Nat} : (origin, m) ∈ edges → Path edges passes origin m
  | step {l m : Nat} : Path edges passes origin l → passes l = true → (l, m) ∈ edges →
      Path edges passes origin m

theorem mem_targets {edges : List (Nat × Nat)} {n m : Nat} :
    m ∈ targets edges n ↔ (n, m) ∈ edges := by
  simp [targets]

/-- Where every edge ends in the pool, a search along edges finds exactly the ends of paths. -/
theorem found_iff_path {σ : Type} [Pool σ] {edges : List (Nat × Nat)} {next : Nat → List Nat}
    {passes : Nat → Bool} {pool : σ} {origin m : Nat}
    (hpool : ∀ e ∈ edges, Pool.has pool e.2 = true)
    (hnext : ∀ l m, m ∈ next l ↔ passes l = true ∧ (l, m) ∈ edges) {seeds : List Nat}
    (hseeds : ∀ m, m ∈ seeds ↔ (origin, m) ∈ edges) :
    Found next pool seeds m ↔ Path edges passes origin m := by
  constructor
  · intro h
    induction h with
    | seed _ hseed => exact .edge ((hseeds _).mp hseed)
    | step _ hn _ ih =>
        obtain ⟨hpass, hedge⟩ := (hnext _ _).mp hn
        exact .step ih hpass hedge
  · intro h
    induction h with
    | edge h => exact .seed (hpool _ h) ((hseeds _).mpr h)
    | step _ hpass h ih => exact .step ih ((hnext _ _).mpr ⟨hpass, h⟩) (hpool _ h)

/-- The nodes that paths from a node reach. -/
def reached (edges : List (Nat × Nat)) (passes : Nat → Bool) (origin : Nat) : List Nat :=
  let ends := edges.map Prod.snd
  let missed := explore (fun n => if passes n then targets edges n else []) ends
    (targets edges origin)
  ends.filter fun n => !Pool.has missed n

/-- `reached` lists exactly the ends of paths. -/
theorem mem_reached {edges : List (Nat × Nat)} {passes : Nat → Bool} {origin m : Nat} :
    m ∈ reached edges passes origin ↔ Path edges passes origin m := by
  have hends : ∀ e ∈ edges, Pool.has (edges.map Prod.snd) e.2 = true :=
    fun e he => List.contains_iff_mem.mpr (List.mem_map.mpr ⟨e, he, rfl⟩)
  have hfound : Found (fun n => if passes n then targets edges n else [])
      (edges.map Prod.snd) (targets edges origin) m ↔ Path edges passes origin m :=
    found_iff_path hends (fun l m => by by_cases h : passes l <;> simp [h, mem_targets])
      (fun m => mem_targets)
  rw [reached, List.mem_filter, ← hfound, Bool.not_eq_true', Bool.eq_false_iff, ne_eq,
    has_explore]
  constructor
  · rintro ⟨hmem, hmissed⟩
    refine Classical.byContradiction fun hnot => ?_
    exact hmissed ⟨List.contains_iff_mem.mpr hmem, hnot⟩
  · intro h
    exact ⟨List.contains_iff_mem.mp h.has_pool, fun hmissed => hmissed.2 h⟩

/-! ## Nodes below a number -/

/-- The targets of the edges that leave each node below a number. -/
def targetTable (size : Nat) (edges : List (Nat × Nat)) : Array (List Nat) :=
  edges.foldr (fun e table => table.modify e.1 (e.2 :: ·)) (Array.replicate size [])

theorem size_targetTable (size : Nat) (edges : List (Nat × Nat)) :
    (targetTable size edges).size = size := by
  induction edges with
  | nil => simp [targetTable]
  | cons e edges ih =>
      have hcons : targetTable size (e :: edges) =
          (targetTable size edges).modify e.1 (e.2 :: ·) := rfl
      simp [hcons, ih]

theorem getElem?_targetTable {size : Nat} {edges : List (Nat × Nat)} {n : Nat} (h : n < size) :
    (targetTable size edges)[n]? = some (targets edges n) := by
  induction edges with
  | nil => simp [targetTable, targets, h]
  | cons e edges ih =>
      have hcons : targetTable size (e :: edges) =
          (targetTable size edges).modify e.1 (e.2 :: ·) := rfl
      rw [hcons, Array.getElem?_modify, ih]
      by_cases he : e.1 = n <;> simp [he, targets]

/-- The marks of the nodes below a number that no path from a node reaches, where a table holds
the targets of the edges. -/
def missed (table : Array (List Nat)) (passes : Nat → Bool) (origin : Nat) : Array Bool :=
  explore (fun n => if passes n then table.getD n [] else []) (Array.replicate table.size true)
    (table.getD origin [])

theorem mem_getD_targetTable {size : Nat} {edges : List (Nat × Nat)}
    (hinside : ∀ e ∈ edges, e.1 < size) {n m : Nat} :
    m ∈ (targetTable size edges).getD n [] ↔ (n, m) ∈ edges := by
  by_cases h : n < size
  · simp [Array.getD_eq_getD_getElem?, getElem?_targetTable h, mem_targets]
  · have hnone : (targetTable size edges)[n]? = none :=
      Array.getElem?_eq_none (by rw [size_targetTable]; exact Nat.le_of_not_lt h)
    simp only [Array.getD_eq_getD_getElem?, hnone, Option.getD_none, List.not_mem_nil, false_iff]
    exact fun hedge => h (hinside _ hedge)

/-- `missed` marks exactly the nodes that are no ends of paths. -/
theorem getD_missed {size : Nat} {edges : List (Nat × Nat)}
    (hinside : ∀ e ∈ edges, e.1 < size ∧ e.2 < size) {passes : Nat → Bool} {origin m : Nat} :
    (missed (targetTable size edges) passes origin).getD m false = true ↔
      m < size ∧ ¬ Path edges passes origin m := by
  have hall : ∀ n, Pool.has (Array.replicate (targetTable size edges).size true) n = true ↔
      n < size := by
    intro n
    by_cases h : n < size <;> simp [Pool.has, Array.getD_eq_getD_getElem?, size_targetTable, h]
  have htable : ∀ l m, m ∈ (targetTable size edges).getD l [] ↔ (l, m) ∈ edges :=
    fun _ _ => mem_getD_targetTable fun e he => (hinside e he).1
  have hfound : Found (fun n => if passes n then (targetTable size edges).getD n [] else [])
      (Array.replicate (targetTable size edges).size true)
      ((targetTable size edges).getD origin []) m ↔ Path edges passes origin m :=
    found_iff_path (fun e he => (hall e.2).mpr (hinside e he).2)
      (fun l m => by by_cases h : passes l <;> simp [h, ← htable]) (htable origin)
  rw [missed, show ∀ pool : Array Bool, pool.getD m false = Pool.has pool m from fun _ => rfl,
    has_explore, hall, hfound]

end ControlFlow.Search

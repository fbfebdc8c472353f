import ControlFlow.Proofs.Fibers.Ledger
import Mathlib.Order.Interval.Finset.Nat
import Mathlib.Order.Interval.Multiset

/-! # Where the fibers are

Every fiber that was allocated is held by somebody, lies in a cache, or is gone for good. Moves
neither lose sight of this nor let a cache outgrow its bound: what is held or cached after a move
was so before, or is new.
-/

namespace ControlFlow.Fibers

variable {α : Type}

/-- Whatever is held or cached later was so earlier, or was allocated in the meantime. -/
structure Descends (p q : World α × Multiset Tag) : Prop where
  allocations : p.1.allocations ≤ q.1.allocations
  stock : numbers q.2 + q.1.cached ≤
    numbers p.2 + p.1.cached + Multiset.Ico p.1.allocations q.1.allocations

namespace Descends

variable {p q r : World α × Multiset Tag}

/-- Where nothing is allocated, what is held or cached can only become less. -/
theorem of_le (hallocations : q.1.allocations = p.1.allocations)
    (hstock : numbers q.2 + q.1.cached ≤ numbers p.2 + p.1.cached) : Descends p q :=
  ⟨le_of_eq hallocations.symm, hstock.trans (Multiset.le_add_right _ _)⟩

theorem refl (p : World α × Multiset Tag) : Descends p p := of_le rfl (le_refl _)

theorem trans (h : Descends p q) (h' : Descends q r) : Descends p r := by
  refine ⟨h.allocations.trans h'.allocations, h'.stock.trans ?_⟩
  calc
    _ ≤ numbers p.2 + p.1.cached + Multiset.Ico p.1.allocations q.1.allocations +
        Multiset.Ico q.1.allocations r.1.allocations := add_le_add_left h.stock _
    _ = _ := by
      rw [add_assoc, Multiset.Ico_add_Ico_eq_Ico h.allocations h'.allocations]

/-- A fiber with the next number joins those that are held or cached. -/
theorem of_next (hallocations : q.1.allocations = p.1.allocations + 1)
    (hstock : numbers q.2 + q.1.cached = p.1.allocations ::ₘ (numbers p.2 + p.1.cached)) :
    Descends p q := by
  refine ⟨hallocations ▸ Nat.le_succ _, le_of_eq ?_⟩
  have hone : Multiset.Ico p.1.allocations (p.1.allocations + 1) = {p.1.allocations} :=
    congrArg Finset.val (Nat.Ico_succ_singleton _)
  rw [hstock, hallocations, hone, add_comm _ {p.1.allocations}, Multiset.singleton_add]

/-- A fiber that is gone does not come back. -/
theorem gone (h : Descends p q) {n : Nat} (hn : n < p.1.allocations)
    (hgone : n ∉ numbers p.2 + p.1.cached) : n ∉ numbers q.2 + q.1.cached := by
  intro hmem
  rcases Multiset.mem_add.mp (Multiset.mem_of_le h.stock hmem) with hold | hnew
  · exact hgone hold
  · exact Nat.not_lt_of_le (Multiset.mem_Ico.mp hnew).1 hn

end Descends

/-! ## What moves do to the stock -/

namespace World

variable {w : World α} {held : Multiset Tag}

theorem descends_count (w : World α) (held : Multiset Tag) (s : Nat)
    (change : Counters → Counters) : Descends (w, held) (w.count s change, held) :=
  .of_le rfl (le_of_eq (congrArg _ (cached_count w s change)))

theorem descends_create (w : World α) (held : Multiset Tag) (s : Nat) :
    Descends (w, held) ((w.create s).2, (w.create s).1.tag ::ₘ held) := by
  have hnumbers (tag : Tag) : numbers (tag ::ₘ held) = tag.1 ::ₘ numbers held :=
    Multiset.map_cons _ _ _
  have hallocate : Descends (w, held)
      ((w.allocate s).2.record (.handedOut (w.allocate s).1.number),
        (w.allocate s).1.tag ::ₘ held) := by
    refine .of_next rfl ?_
    have hcached : ((w.allocate s).2.record (.handedOut (w.allocate s).1.number)).cached =
        w.cached := cached_allocate w s
    rw [hcached, hnumbers, Multiset.cons_add]
    rfl
  cases hs : w.schedulers[s]? with
  | none => simpa [World.create, World.next, hs] using hallocate
  | some x =>
      cases hcache : x.cache with
      | nil => simpa [World.create, World.next, hs, hcache] using hallocate
      | cons f rest =>
          obtain ⟨others, hcached, hmodify⟩ := exists_cached_modify hs
          simp only [World.create, World.next, hs, Option.map_some, Option.getD_some, hcache]
          refine .of_le rfl (le_of_eq ?_)
          have hsame : ((w.modify s fun x => { x with cache := rest }).record
              (.handedOut f.number)).cached =
              cachedBy { x with cache := rest } + others := hmodify _
          rw [hsame, hcached, hnumbers, Multiset.cons_add, ← Multiset.add_cons,
            ← Multiset.cons_add]
          simp [cachedBy, hcache, Fiber.tag]

/-- A fiber that somebody held is gone. -/
theorem descends_freed (w : World α) (held : Multiset Tag) (tag : Tag) (t : Transfer) :
    Descends (w, tag ::ₘ held) ((w.record t).count tag.2 .freed, held) := by
  refine .of_le rfl ?_
  have hcached : ((w.record t).count tag.2 .freed).cached = w.cached :=
    cached_count (w.record t) _ _
  have hnumbers : numbers (tag ::ₘ held) = tag.1 ::ₘ numbers held := Multiset.map_cons _ _ _
  rw [hcached, hnumbers, Multiset.cons_add]
  exact Multiset.le_cons_self _ _

theorem descends_takeBack (w : World α) (held : Multiset Tag) (s : Nat) (f : Fiber α) :
    Descends (w, f.tag ::ₘ held) (w.takeBack s f, held) := by
  have hnumbers : numbers (f.tag ::ₘ held) = f.number ::ₘ numbers held := Multiset.map_cons _ _ _
  have hfreed : Descends (w, f.tag ::ₘ held)
      ((w.record (.givenBack f.number)).count f.home .freed, held) :=
    w.descends_freed held f.tag _
  simp only [World.takeBack]
  split
  next x hx =>
    split
    · refine .of_le rfl (le_of_eq ?_)
      have hcached : ((w.record (.givenBack f.number)).keep s f).cached = f.number ::ₘ w.cached :=
        cached_keep hx f
      rw [hcached, hnumbers, Multiset.cons_add, Multiset.add_cons]
    · exact hfreed
  next => exact hfreed

theorem descends_addFresh (held : Multiset Tag) {s : Nat} {x : Scheduler α}
    (hs : w.schedulers[s]? = some x) (n : Nat) :
    Descends (w, held) (addFresh n s w, held) := by
  induction n generalizing w x with
  | zero => exact .refl _
  | succ n ih =>
      have hallocate : (w.allocate s).2.schedulers[s]? =
          some { x with counters := x.counters.allocated } := by
        simp [World.allocate, World.count, World.modify, hs]
      have hfirst : Descends (w, held) ((w.allocate s).2.keep s (w.allocate s).1, held) := by
        refine .of_next rfl ?_
        rw [cached_keep hallocate, cached_allocate, Multiset.add_cons]
        rfl
      refine hfirst.trans (ih (x := { x with
        counters := x.counters.allocated, cache := (w.allocate s).1 :: x.cache }) ?_)
      simp [World.keep, World.modify, hallocate]

theorem descends_reset (w : World α) (held : Multiset Tag) (s : Nat) :
    Descends (w, held) (w.reset s, held) := by
  have hfreed (fs : List (Fiber α)) (w : World α) :
      Descends (w, held) (fs.foldl (fun w f => w.count f.home .freed) w, held) := by
    induction fs generalizing w with
    | nil => exact .refl _
    | cons f rest ih => exact (descends_count w held _ _).trans (ih _)
  have hcleared (w' : World α) : Descends (w', held)
      (w'.modify s fun x => { x with cache := [], counters := .zero }, held) := by
    refine .of_le rfl (add_le_add_right ?_ _)
    cases hs : w'.schedulers[s]? with
    | none => exact le_of_eq (cached_modify_of_none hs _)
    | some x =>
        obtain ⟨others, hcached, hmodify⟩ := exists_cached_modify hs
        rw [hmodify, hcached]
        exact add_le_add_left (Multiset.zero_le _) others
  exact (hfreed _ w).trans (hcleared _)

end World

theorem Move.descends {p q : World α × Multiset Tag} (h : Move p q) : Descends p q := by
  cases h with
  | note w held entry => exact .of_le rfl (le_refl _)
  | enter w held s => exact w.descends_count held s _
  | create w held s => exact w.descends_create held s
  | giveBack w held s hready => exact w.descends_takeBack held s _
  | drop w held tag => exact w.descends_freed held tag _
  | prime w held s =>
      unfold World.prime
      split
      next x hx => exact World.descends_addFresh held hx _
      next => exact .refl _
  | reset w held s => exact w.descends_reset held s

theorem Moves.descends {w w' : World α} {held held' : Multiset Tag} (h : Moves w held w' held') :
    Descends (w, held) (w', held') :=
  h.keeps (P := fun p => Descends (w, held) p) (fun _ _ hmove hp => hp.trans hmove.descends)
    (.refl _)

/-! ## The bounds of the caches -/

namespace World

/-- No cache holds more fibers than its scheduler keeps. -/
def Bounded (w : World α) : Prop :=
  ∀ (s : Nat) (x : Scheduler α), w.schedulers[s]? = some x → x.cache.length ≤ x.config.cacheSize

variable {w : World α}

theorem getElem?_modify (w : World α) (s : Nat) (change : Scheduler α → Scheduler α) (i : Nat) :
    (w.modify s change).schedulers[i]? =
      w.schedulers[i]?.map fun x => if s = i then change x else x :=
  List.getElem?_modify ..

/-- A change to a scheduler is fine if its cache stays within the bound. -/
theorem Bounded.modify (h : w.Bounded) (s : Nat) {change : Scheduler α → Scheduler α}
    (hchange : ∀ x, w.schedulers[s]? = some x →
      (change x).cache.length ≤ (change x).config.cacheSize) : (w.modify s change).Bounded := by
  intro i y hy
  rw [getElem?_modify] at hy
  obtain ⟨x, hx, rfl⟩ := Option.map_eq_some_iff.mp hy
  by_cases hi : s = i
  · subst hi
    rw [if_pos rfl]
    exact hchange x hx
  · rw [if_neg hi]
    exact h i x hx

theorem Bounded.count (h : w.Bounded) (s : Nat) (change : Counters → Counters) :
    (w.count s change).Bounded :=
  h.modify s fun x hx => h s x hx

theorem Bounded.create (h : w.Bounded) (s : Nat) : (w.create s).2.Bounded := by
  have hallocate : (w.allocate s).2.Bounded :=
    Bounded.count (w := { w with allocations := w.allocations + 1 }) h s _
  simp only [World.create, World.next]
  split
  next f rest hcache =>
    refine h.modify s fun x hx => ?_
    have hbound := h s x hx
    simp only [hx, Option.map_some, Option.getD_some] at hcache
    rw [hcache, List.length_cons] at hbound
    exact Nat.le_of_succ_le hbound
  next => exact hallocate

theorem Bounded.takeBack (h : w.Bounded) (s : Nat) (f : Fiber α) : (w.takeBack s f).Bounded := by
  have hfreed : ((w.record (.givenBack f.number)).count f.home .freed).Bounded :=
    Bounded.count (w := w.record _) h _ _
  simp only [World.takeBack]
  split
  next x hx =>
    split
    next hroom =>
      refine Bounded.modify (w := w.record _) h s fun y hy => ?_
      cases hx.symm.trans hy
      exact hroom
    next => exact hfreed
  next => exact hfreed

/-- So many new fibers for a scheduler, where the first one has a certain number; the last one comes
first. -/
def made (first n s : Nat) : List (Fiber α) :=
  ((List.range' first n).map fun number => Fiber.fresh number s).reverse

theorem made_succ (first n s : Nat) :
    (made first (n + 1) s : List (Fiber α)) = made (first + 1) n s ++ [.fresh first s] := by
  rw [made, List.range'_succ, List.map_cons, List.reverse_cons]
  rfl

theorem length_made (first n s : Nat) : (made first n s : List (Fiber α)).length = n := by
  simp [made]

/-- Fresh fibers go into the cache of one scheduler, before those that were there. -/
theorem addFresh_schedulers {s i : Nat} {x : Scheduler α} (hx : w.schedulers[i]? = some x)
    (n : Nat) : ∃ y, (addFresh n s w).schedulers[i]? = some y ∧ y.config = x.config ∧
      y.cache = if s = i then made w.allocations n s ++ x.cache else x.cache := by
  induction n generalizing w x with
  | zero => exact ⟨x, hx, rfl, by simp [made]⟩
  | succ n ih =>
      have hnext := getElem?_modify (w.allocate s).2 s
        (fun x => { x with cache := (w.allocate s).1 :: x.cache }) i
      have hallocate : (w.allocate s).2.schedulers[i]? =
          some (if s = i then { x with counters := x.counters.allocated } else x) := by
        have hcount := getElem?_modify { w with allocations := w.allocations + 1 } s
          (fun x => { x with counters := x.counters.allocated }) i
        rw [hx] at hcount
        exact hcount
      rw [hallocate, Option.map_some] at hnext
      obtain ⟨y, hy, hconfig, hcache⟩ := ih hnext
      refine ⟨y, hy, ?_, ?_⟩
      · rw [hconfig]
        split <;> rfl
      · rw [hcache]
        split
        · rw [made_succ, List.append_assoc]
          rfl
        · rfl

/-- What filling a cache puts there: new fibers, as many as there is room for. -/
theorem prime_schedulers {s i : Nat} {x : Scheduler α} (hx : w.schedulers[i]? = some x) :
    ∃ y, (w.prime s).schedulers[i]? = some y ∧ y.config = x.config ∧
      y.cache = if s = i then
        made w.allocations (x.config.cacheSize - x.cache.length) s ++ x.cache else x.cache := by
  unfold World.prime
  split
  next z hz =>
    obtain ⟨y, hy, hconfig, hcache⟩ :=
      addFresh_schedulers (s := s) hx (z.config.cacheSize - z.cache.length)
    refine ⟨y, hy, hconfig, hcache.trans ?_⟩
    split
    next hi =>
      subst hi
      cases hz.symm.trans hx
      rfl
    next => rfl
  next hnone =>
    refine ⟨x, hx, rfl, ?_⟩
    rw [if_neg]
    rintro rfl
    cases hnone.symm.trans hx

/-- A cache within its bound is full after it was filled. -/
theorem Bounded.length_primed (h : w.Bounded) {s : Nat} {x : Scheduler α}
    (hx : w.schedulers[s]? = some x) :
    (made w.allocations (x.config.cacheSize - x.cache.length) s ++ x.cache).length =
      x.config.cacheSize := by
  rw [List.length_append, length_made]
  exact Nat.sub_add_cancel (h s x hx)

theorem Bounded.prime (h : w.Bounded) (s : Nat) : (w.prime s).Bounded := by
  intro i y hy
  cases hx : w.schedulers[i]? with
  | none =>
      have hlength := List.getElem?_eq_none_iff.mp hx
      rw [← (quiet_prime w s).length] at hlength
      cases (List.getElem?_eq_none_iff.mpr hlength).symm.trans hy
  | some x =>
      obtain ⟨z, hz, hconfig, hcache⟩ := prime_schedulers (s := s) hx
      cases hz.symm.trans hy
      rw [hcache, hconfig]
      split
      next hi =>
        subst hi
        exact le_of_eq (h.length_primed hx)
      next => exact h i x hx

theorem Bounded.reset (h : w.Bounded) (s : Nat) : (w.reset s).Bounded := by
  have hfreed (fs : List (Fiber α)) (w : World α) (hw : w.Bounded) :
      (fs.foldl (fun w f => w.count f.home .freed) w).Bounded := by
    induction fs generalizing w with
    | nil => exact hw
    | cons f rest ih => exact ih _ (hw.count _ _)
  exact (hfreed _ w h).modify s fun _ _ => Nat.zero_le _

end World

theorem Move.bounded {p q : World α × Multiset Tag} (h : Move p q) (hp : p.1.Bounded) :
    q.1.Bounded := by
  cases h with
  | note w held entry => exact hp
  | enter w held s => exact hp.count s _
  | create w held s => exact hp.create s
  | giveBack w held s hready => exact hp.takeBack s _
  | drop w held tag => exact World.Bounded.count (w := w.record _) hp tag.2 _
  | prime w held s => exact hp.prime s
  | reset w held s => exact hp.reset s

/-! ## Both together -/

/-- The caches are within their bounds and hold fibers that are ready for a job; no fiber is held
twice, cached twice, or held and cached; and all of them were allocated. -/
structure World.Housed (w : World α) (held : Multiset Tag) : Prop where
  tidy : w.Tidy
  bounded : w.Bounded
  nodup : (numbers held + w.cached).Nodup
  lt : ∀ n ∈ numbers held + w.cached, n < w.allocations

namespace World.Housed

variable {w w' : World α} {held held' : Multiset Tag}

theorem of_descends (h : w.Housed held) (hdescends : Descends (w, held) (w', held'))
    (htidy : w'.Tidy) (hbounded : w'.Bounded) : w'.Housed held' := by
  refine ⟨htidy, hbounded, Multiset.nodup_of_le hdescends.stock ?_, fun n hn => ?_⟩
  · refine Multiset.nodup_add.mpr ⟨h.nodup, Multiset.nodup_Ico, ?_⟩
    rw [Multiset.disjoint_left]
    exact fun hn hnew => Nat.not_lt_of_le (Multiset.mem_Ico.mp hnew).1 (h.lt _ hn)
  · rcases Multiset.mem_add.mp (Multiset.mem_of_le hdescends.stock hn) with hold | hnew
    · exact Nat.lt_of_lt_of_le (h.lt n hold) hdescends.allocations
    · exact (Multiset.mem_Ico.mp hnew).2

theorem moves (h : w.Housed held) (hmoves : Moves w held w' held') : w'.Housed held' :=
  h.of_descends hmoves.descends (hmoves.tidy h.tidy)
    (hmoves.keeps (P := fun p => p.1.Bounded) (fun _ _ => Move.bounded) h.bounded)

end World.Housed

end ControlFlow.Fibers

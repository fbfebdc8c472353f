import ControlFlow.Proofs.Fibers.Moves

/-! # The ledger of fibers

The ledger records each fiber that is handed out, given back or dropped. Every move keeps it
balanced: a fiber is handed out only while it is in, and given back or dropped only while it is out,
the fibers that are out are those that someone holds, and none of them is held twice or cached as
well.
-/

namespace ControlFlow.Fibers

variable {α : Type}

/-- A fiber was handed out, and was neither given back nor dropped since. -/
def Out (number : Nat) : List Transfer → Prop
  | [] => False
  | .handedOut m :: earlier => m = number ∨ Out number earlier
  | .givenBack m :: earlier | .dropped m :: earlier => m ≠ number ∧ Out number earlier

/-- Each fiber is handed out, and given back or dropped, by turns. -/
def Orderly : List Transfer → Prop
  | [] => True
  | .handedOut m :: earlier => ¬ Out m earlier ∧ Orderly earlier
  | .givenBack m :: earlier | .dropped m :: earlier => Out m earlier ∧ Orderly earlier

def numbers (held : Multiset Tag) : Multiset Nat := held.map Prod.fst

namespace World

def cachedBy (s : Scheduler α) : Multiset Nat := (s.cache.map Fiber.number : List Nat)

/-- The numbers of all cached fibers. -/
def cached (w : World α) : Multiset Nat := (w.schedulers.map cachedBy).sum

/-- The ledger agrees with the fibers that are held and cached. -/
structure Balanced (w : World α) (held : Multiset Tag) : Prop where
  nodup : (numbers held + w.cached).Nodup
  lt : ∀ n ∈ numbers held + w.cached, n < w.allocations
  orderly : Orderly w.ledger
  out : ∀ n, Out n w.ledger ↔ n ∈ numbers held

variable {w : World α} {held : Multiset Tag}

/-! ## Cached fibers -/

/-- A change to a scheduler changes what it has cached, and nothing else. -/
theorem exists_cached_modify {s : Nat} {x : Scheduler α} (h : w.schedulers[s]? = some x) :
    ∃ others, w.cached = cachedBy x + others ∧
      ∀ change, (w.modify s change).cached = cachedBy (change x) + others := by
  obtain ⟨others, hsum, hset⟩ := exists_sum_map_set cachedBy h
  refine ⟨others, hsum, fun change => ?_⟩
  rw [cached, schedulers_modify, h]
  exact hset (change x)

theorem cached_modify_of_none {s : Nat} (h : w.schedulers[s]? = none)
    (change : Scheduler α → Scheduler α) : (w.modify s change).cached = w.cached := by
  rw [cached, schedulers_modify, h]
  rfl

theorem cached_count (w : World α) (s : Nat) (change : Counters → Counters) :
    (w.count s change).cached = w.cached := by
  cases hs : w.schedulers[s]? with
  | none => exact cached_modify_of_none hs _
  | some x =>
      obtain ⟨others, hcached, hmodify⟩ := exists_cached_modify hs
      rw [count, hmodify, hcached]
      rfl

theorem cached_allocate (w : World α) (s : Nat) : (w.allocate s).2.cached = w.cached :=
  cached_count _ s _

theorem cached_keep {s : Nat} {x : Scheduler α} (h : w.schedulers[s]? = some x) (f : Fiber α) :
    (w.keep s f).cached = f.number ::ₘ w.cached := by
  obtain ⟨others, hcached, hmodify⟩ := exists_cached_modify h
  rw [keep, hmodify, hcached, ← Multiset.cons_add]
  rfl

/-! ## Moves keep the ledger balanced -/

section

variable {w' : World α} {tag : Tag}

/-- Where nothing changes hands, the cache may only lose fibers. -/
theorem Balanced.of_cached_le (h : w.Balanced held) (hledger : w'.ledger = w.ledger)
    (hallocations : w'.allocations = w.allocations) (hcached : w'.cached ≤ w.cached) :
    w'.Balanced held := by
  have hle := add_le_add_right hcached (numbers held)
  refine ⟨Multiset.nodup_of_le hle h.nodup, fun n hn => ?_, ?_, ?_⟩
  · rw [hallocations]
    exact h.lt n (Multiset.mem_of_le hle hn)
  · rw [hledger]
    exact h.orderly
  · rw [hledger]
    exact h.out

theorem Balanced.handOut (h : w.Balanced held)
    (hledger : w'.ledger = .handedOut tag.1 :: w.ledger)
    (hnodup : (tag.1 ::ₘ (numbers held + w'.cached)).Nodup)
    (hlt : ∀ n ∈ tag.1 ::ₘ (numbers held + w'.cached), n < w'.allocations) :
    w'.Balanced (tag ::ₘ held) := by
  have hnumbers : numbers (tag ::ₘ held) = tag.1 ::ₘ numbers held := Multiset.map_cons _ _ _
  have hfresh : tag.1 ∉ numbers held := fun hmem =>
    (Multiset.nodup_cons.mp hnodup).1 (Multiset.mem_add.mpr (.inl hmem))
  refine ⟨?_, ?_, ?_, fun n => ?_⟩
  · rwa [hnumbers, Multiset.cons_add]
  · rwa [hnumbers, Multiset.cons_add]
  · rw [hledger]
    exact ⟨fun hout => hfresh ((h.out _).mp hout), h.orderly⟩
  · rw [hledger, hnumbers, Multiset.mem_cons, Out, h.out, eq_comm]

/-- A fiber that is out leaves those who hold it, and goes into the cache at most. -/
theorem Balanced.letGo (h : w.Balanced (tag ::ₘ held))
    (hledger : w'.ledger = .givenBack tag.1 :: w.ledger ∨ w'.ledger = .dropped tag.1 :: w.ledger)
    (hallocations : w'.allocations = w.allocations) (hcached : w'.cached ≤ tag.1 ::ₘ w.cached) :
    w'.Balanced held := by
  obtain ⟨hnodup, hlt, horderly, hout⟩ := h
  have hnumbers : numbers (tag ::ₘ held) = tag.1 ::ₘ numbers held := Multiset.map_cons _ _ _
  have hle : numbers held + w'.cached ≤ numbers (tag ::ₘ held) + w.cached := by
    rw [hnumbers, Multiset.cons_add, ← Multiset.add_cons]
    exact add_le_add_right hcached _
  have hfresh : tag.1 ∉ numbers held := by
    rw [hnumbers, Multiset.cons_add] at hnodup
    exact fun hmem => (Multiset.nodup_cons.mp hnodup).1 (Multiset.mem_add.mpr (.inl hmem))
  have hturn : Out tag.1 w.ledger ∧ Orderly w.ledger :=
    ⟨(hout _).mpr (by simp [hnumbers]), horderly⟩
  have hothers (n : Nat) : tag.1 ≠ n ∧ Out n w.ledger ↔ n ∈ numbers held := by
    rw [hout, hnumbers, Multiset.mem_cons]
    constructor
    · rintro ⟨hne, rfl | hmem⟩
      · exact absurd rfl hne
      · exact hmem
    · exact fun hmem => ⟨fun heq => hfresh (heq ▸ hmem), .inr hmem⟩
  refine ⟨Multiset.nodup_of_le hle hnodup, fun n hn => ?_, ?_, fun n => ?_⟩
  · rw [hallocations]
    exact hlt n (Multiset.mem_of_le hle hn)
  · rcases hledger with hledger | hledger <;> rw [hledger] <;> exact hturn
  · rcases hledger with hledger | hledger <;> rw [hledger] <;> exact hothers n

end

theorem Balanced.count (h : w.Balanced held) (s : Nat) (change : Counters → Counters) :
    (w.count s change).Balanced held :=
  h.of_cached_le rfl rfl (le_of_eq (cached_count w s change))

/-- A new fiber has a number of its own. -/
theorem Balanced.nodup_allocations (h : w.Balanced held) :
    (w.allocations ::ₘ (numbers held + w.cached)).Nodup ∧
      ∀ n ∈ w.allocations ::ₘ (numbers held + w.cached), n < w.allocations + 1 := by
  refine ⟨Multiset.nodup_cons.mpr ⟨fun hmem => Nat.lt_irrefl _ (h.lt _ hmem), h.nodup⟩, ?_⟩
  intro n hn
  rcases Multiset.mem_cons.mp hn with rfl | hold
  · exact Nat.lt_succ_self _
  · exact Nat.lt_succ_of_lt (h.lt n hold)

theorem Balanced.create (h : w.Balanced held) (s : Nat) :
    (w.create s).2.Balanced ((w.create s).1.tag ::ₘ held) := by
  have hallocate : ((w.allocate s).2.record (.handedOut (w.allocate s).1.number)).Balanced
      ((w.allocate s).1.tag ::ₘ held) := by
    have hcached : ((w.allocate s).2.record (.handedOut (w.allocate s).1.number)).cached =
        w.cached := cached_allocate w s
    refine h.handOut rfl ?_ ?_
    · rw [hcached]
      exact h.nodup_allocations.1
    · rw [hcached]
      exact h.nodup_allocations.2
  cases hs : w.schedulers[s]? with
  | none => simpa [World.create, World.next, hs] using hallocate
  | some x =>
      cases hcache : x.cache with
      | nil => simpa [World.create, World.next, hs, hcache] using hallocate
      | cons f rest =>
          obtain ⟨others, hcached, hmodify⟩ := exists_cached_modify hs
          -- The fiber leaves the cache, so that its number is held by nobody else.
          have htotal : w.cached = f.number ::ₘ
              ((w.modify s fun x => { x with cache := rest }).cached) := by
            rw [hmodify, hcached, ← Multiset.cons_add]
            simp [cachedBy, hcache]
          have hall := h.nodup
          have hlt := h.lt
          rw [htotal, Multiset.add_cons] at hall hlt
          simp only [World.create, World.next, hs, Option.map_some, Option.getD_some, hcache]
          exact h.handOut rfl hall hlt

theorem Balanced.takeBack {f : Fiber α} (h : w.Balanced (f.tag ::ₘ held)) (s : Nat) :
    (w.takeBack s f).Balanced held := by
  have hfreed : ((w.record (.givenBack f.number)).count f.home .freed).Balanced held :=
    h.letGo (.inl rfl) rfl ((le_of_eq (cached_count _ _ _)).trans (Multiset.le_cons_self _ _))
  simp only [World.takeBack]
  split
  next x hx =>
    split
    · exact h.letGo (.inl rfl) rfl (le_of_eq (cached_keep hx f))
    · exact hfreed
  next => exact hfreed

theorem Balanced.lose {tag : Tag} (h : w.Balanced (tag ::ₘ held)) : (w.lose tag).Balanced held :=
  h.letGo (.inr rfl) rfl ((le_of_eq (cached_count _ _ _)).trans (Multiset.le_cons_self _ _))

theorem Balanced.addFresh (h : w.Balanced held) {s : Nat} {x : Scheduler α}
    (hs : w.schedulers[s]? = some x) (n : Nat) : (World.addFresh n s w).Balanced held := by
  induction n generalizing w x with
  | zero => exact h
  | succ n ih =>
      have hallocate : (w.allocate s).2.schedulers[s]? =
          some { x with counters := x.counters.allocated } := by
        simp [World.allocate, World.count, World.modify, hs]
      have hcached : ((w.allocate s).2.keep s (w.allocate s).1).cached =
          w.allocations ::ₘ w.cached := by
        rw [cached_keep hallocate, cached_allocate]
        rfl
      refine ih ⟨?_, ?_, h.orderly, h.out⟩ (x := { x with
        counters := x.counters.allocated, cache := (w.allocate s).1 :: x.cache }) ?_
      · rw [hcached, Multiset.add_cons]
        exact h.nodup_allocations.1
      · rw [hcached, Multiset.add_cons]
        exact h.nodup_allocations.2
      · simp [World.keep, World.modify, hallocate]

theorem Balanced.prime (h : w.Balanced held) (s : Nat) : (w.prime s).Balanced held := by
  unfold World.prime
  split
  next x hx => exact h.addFresh hx _
  next => exact h

theorem Balanced.reset (h : w.Balanced held) (s : Nat) : (w.reset s).Balanced held := by
  have hfreed (fs : List (Fiber α)) (w : World α) (hw : w.Balanced held) :
      (fs.foldl (fun w f => w.count f.home .freed) w).Balanced held := by
    induction fs generalizing w with
    | nil => exact hw
    | cons f rest ih => exact ih _ (hw.count _ _)
  simp only [World.reset]
  refine (hfreed _ w h).of_cached_le rfl rfl ?_
  generalize List.foldl _ w _ = w'
  cases hs : w'.schedulers[s]? with
  | none => exact le_of_eq (cached_modify_of_none hs _)
  | some x =>
      obtain ⟨others, hcached, hmodify⟩ := exists_cached_modify hs
      rw [hmodify, hcached]
      exact add_le_add_left (Multiset.zero_le _) others

end World

theorem Move.balanced {p q : World α × Multiset Tag} (h : Move p q) (hp : p.1.Balanced p.2) :
    q.1.Balanced q.2 := by
  cases h with
  | note w held entry => exact ⟨hp.nodup, hp.lt, hp.orderly, hp.out⟩
  | enter w held s => exact hp.count s _
  | create w held s => exact hp.create s
  | giveBack w held s hready => exact hp.takeBack s
  | drop w held tag => exact hp.lose
  | prime w held s => exact hp.prime s
  | reset w held s => exact hp.reset s

theorem Moves.balanced {w w' : World α} {held held' : Multiset Tag} (h : Moves w held w' held')
    (hw : w.Balanced held) : w'.Balanced held' :=
  h.keeps (P := fun p => p.1.Balanced p.2) (fun _ _ => Move.balanced) hw

end ControlFlow.Fibers

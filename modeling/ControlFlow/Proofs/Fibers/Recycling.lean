import ControlFlow.Proofs.Fibers.Cache
import ControlFlow.Proofs.Fibers.Obedient
import ControlFlow.Proofs.Fibers.Statistics

/-! # Recycling fibers

A caller is thrifty who neither fills nor resets the cache, and brings along no job that does. As
long as a scheduler has handed out no more fibers at once than its cache has room for, and none of
them was dropped, every fiber that is given back is kept: a fiber is allocated only when more of
them are out than ever before.
-/

namespace ControlFlow.Fibers

variable {α : Type}

/-! ## How many fibers are out -/

/-- How many more fibers were handed out than given back or dropped. -/
def outstanding : List Transfer → Nat
  | [] => 0
  | .handedOut _ :: earlier => outstanding earlier + 1
  | .givenBack _ :: earlier | .dropped _ :: earlier => outstanding earlier - 1

/-- The greatest number of fibers that were out at once. -/
def peak : List Transfer → Nat
  | [] => 0
  | t :: earlier => max (outstanding (t :: earlier)) (peak earlier)

/-- No more fibers were ever out at once, in the past or now. -/
theorem peak_le_iff {ledger : List Transfer} {c : Nat} :
    peak ledger ≤ c ↔ ∀ earlier, earlier <:+ ledger → outstanding earlier ≤ c := by
  induction ledger with
  | nil => simp [peak, outstanding]
  | cons t rest ih =>
      simp only [peak, max_le_iff, ih, List.suffix_cons_iff]
      grind

theorem outstanding_le_peak (ledger : List Transfer) : outstanding ledger ≤ peak ledger :=
  peak_le_iff.mp (Nat.le_refl _) ledger (List.suffix_refl ledger)

theorem peak_mono {earlier ledger : List Transfer} (h : earlier <:+ ledger) :
    peak earlier ≤ peak ledger :=
  peak_le_iff.mpr fun _ hsuffix => peak_le_iff.mp (Nat.le_refl _) _ (hsuffix.trans h)

theorem Orderly.suffix {earlier ledger : List Transfer} (h : earlier <:+ ledger)
    (hledger : Orderly ledger) : Orderly earlier := by
  induction ledger with
  | nil =>
      rw [List.suffix_nil.mp h]
      trivial
  | cons t rest ih =>
      rcases List.suffix_cons_iff.mp h with rfl | hrest
      · exact hledger
      · cases t with
        | handedOut m | givenBack m | dropped m => exact ih hrest hledger.2

/-- In an orderly ledger, as many fibers are out as were handed out and not given back. -/
theorem Orderly.exists_out {ledger : List Transfer} (h : Orderly ledger) :
    ∃ out : Multiset Nat, out.Nodup ∧ out.card = outstanding ledger ∧
      ∀ n, Out n ledger ↔ n ∈ out := by
  induction ledger with
  | nil => exact ⟨0, by simp, rfl, by simp [Out]⟩
  | cons t rest ih =>
      cases t with
      | handedOut m =>
          obtain ⟨out, hnodup, hcard, hout⟩ := ih h.2
          have hfresh : m ∉ out := fun hm => h.1 ((hout m).mpr hm)
          refine ⟨m ::ₘ out, Multiset.nodup_cons.mpr ⟨hfresh, hnodup⟩, ?_, fun n => ?_⟩
          · rw [Multiset.card_cons, hcard, outstanding]
          · rw [Out, hout, Multiset.mem_cons, eq_comm]
      | givenBack m | dropped m =>
          obtain ⟨out, hnodup, hcard, hout⟩ := ih h.2
          refine ⟨out.erase m, hnodup.erase m, ?_, fun n => ?_⟩
          · rw [Multiset.card_erase_of_mem ((hout m).mp h.1), hcard, outstanding,
              Nat.pred_eq_sub_one]
          · rw [Out, hout, hnodup.mem_erase_iff, ne_comm]

theorem Orderly.outstanding_pos {m : Nat} {earlier : List Transfer}
    (h : Orderly (.givenBack m :: earlier)) : 0 < outstanding earlier := by
  obtain ⟨out, -, hcard, hout⟩ := h.2.exists_out
  rw [← hcard]
  exact Multiset.card_pos_iff_exists_mem.mpr ⟨m, (hout m).mp h.1⟩

/-- Every fiber that is not out any more was given back. -/
def Undropped (ledger : List Transfer) : Prop := ∀ n, .dropped n ∉ ledger

theorem Undropped.suffix {earlier ledger : List Transfer} (hledger : Undropped ledger)
    (h : earlier <:+ ledger) : Undropped earlier :=
  fun n hn => hledger n (h.subset hn)

theorem Undropped.cons {ledger : List Transfer} (hledger : Undropped ledger) {t : Transfer}
    (ht : ∀ n, t ≠ .dropped n) : Undropped (t :: ledger) := fun n hn =>
  (List.mem_cons.mp hn).elim (fun heq => ht n heq.symm) (hledger n)

/-- Steps that neither fill a cache nor reset a scheduler. -/
def thrifty : Rule α
  | .prime _ | .reset _ => false
  | _ => true

/-- Thrifty steps of a job that takes no fiber for itself. -/
def plain : Rule α
  | .create _ | .prime _ | .reset _ => false
  | _ => true

namespace World

variable {w v : World α} {held : Multiset Tag} {c : Nat}

theorem Balanced.outstanding_eq (h : w.Balanced held) : outstanding w.ledger = held.card := by
  obtain ⟨out, hnodup, hcard, hout⟩ := h.orderly.exists_out
  have hsame : out = numbers held := by
    refine (Multiset.Nodup.ext hnodup (Multiset.nodup_add.mp h.nodup).1).mpr fun n => ?_
    rw [← hout, h.out]
  rw [← hcard, hsame, numbers, Multiset.card_map]

/-! ## Turns of thrifty jobs -/

/-- The only scheduler, whose cache has so much room, has allocated as many fibers as were out at
once, counts all of them, and has cached those that are not out. -/
def Snug (c : Nat) (w : World α) : Prop :=
  ∃ x, w.schedulers = [x] ∧ x.config.cacheSize = c ∧
    outstanding w.ledger + x.cache.length = w.allocations ∧ peak w.ledger = w.allocations ∧
    x.counters.total = w.allocations ∧ x.counters.current = w.allocations ∧
    x.counters.max = w.allocations

theorem Snug.enter (h : w.Snug c) (s : Nat) : (w.count s .entered).Snug c := by
  obtain ⟨x, hx, hsize, hcache, hpeak, hcounters⟩ := h
  rw [count_eq hx]
  refine ⟨_, rfl, hsize, hcache, hpeak, ?_⟩
  dsimp only
  split
  · exact hcounters
  · exact hcounters

/-- A fiber is allocated only when all fibers are out. -/
theorem Snug.create (h : w.Snug c) : (w.create 0).2.Snug c := by
  obtain ⟨x, hx, hsize, hcached, hpeak, htotal, hcurrent, hmax⟩ := h
  have hs : w.schedulers[0]? = some x := by simp [hx]
  cases hcache : x.cache with
  | nil =>
      have hcount := count_eq (w := { w with allocations := w.allocations + 1 }) hx 0 .allocated
      simp only [World.create, next, hs, Option.map_some, Option.getD_some, hcache, allocate,
        hcount, if_true]
      rw [hcache, List.length_nil] at hcached
      refine ⟨_, rfl, hsize, ?_, ?_, ?_, ?_, ?_⟩
      · simp only [record, outstanding, List.length_nil]
        omega
      · simp only [record, peak, outstanding]
        omega
      · simp only [Counters.allocated, htotal, record]
      · simp only [Counters.allocated, hcurrent, record]
      · simp only [Counters.allocated, hcurrent, hmax, record]
        exact Nat.max_eq_right (Nat.le_succ _)
  | cons f rest =>
      rw [create_of_cache hs hcache, hx]
      rw [hcache, List.length_cons] at hcached
      refine ⟨_, rfl, hsize, ?_, ?_, htotal, hcurrent, hmax⟩
      · simp only [record, outstanding]
        omega
      · simp only [record, peak, outstanding, hpeak]
        omega

/-- A fiber that is given back is kept: those that are out and those that are cached are no more
than the cache has room for. -/
theorem Snug.takeBack (h : w.Snug c) {f : Fiber α} (horderly : Orderly (w.takeBack 0 f).ledger)
    (hroom : peak (w.takeBack 0 f).ledger ≤ c) : (w.takeBack 0 f).Snug c := by
  obtain ⟨x, hx, hsize, hcached, hpeak, htotal, hcurrent, hmax⟩ := h
  rw [ledger_takeBack] at horderly hroom
  have hpos := horderly.outstanding_pos
  have hle := (peak_mono (List.suffix_cons _ w.ledger)).trans hroom
  have hlt : x.cache.length < x.config.cacheSize := by omega
  have hkept : w.takeBack 0 f =
      { w with schedulers := [{ x with cache := f :: x.cache }] }.record (.givenBack f.number) := by
    have hs : (w.record (.givenBack f.number)).schedulers[0]? = some x := by simp [record, hx]
    simp only [World.takeBack, hs, if_pos hlt, keep]
    rw [modify_eq (w := w.record (.givenBack f.number)) hx]
    rfl
  rw [hkept]
  refine ⟨_, rfl, hsize, ?_, ?_, htotal, hcurrent, hmax⟩
  · simp only [record, outstanding, List.length_cons]
    omega
  · have hout := outstanding_le_peak w.ledger
    simp only [record, peak, outstanding]
    omega

end World

open World

variable {w v : World α} {c : Nat}

theorem ledger_create (w : World α) (s : Nat) :
    (w.create s).2.ledger = .handedOut (w.create s).1.number :: w.ledger := by
  simp only [World.create, World.next]
  split <;> rfl

/-- The ledger only grows. -/
theorem Turn.suffix (h : Turn thrifty w v) : w.ledger <:+ v.ledger := by
  cases h with
  | note => exact List.suffix_refl _
  | enter => exact List.suffix_refl _
  | create hs =>
      rw [ledger_create]
      exact List.suffix_cons _ _
  | giveBack hs hready =>
      rw [ledger_takeBack]
      exact List.suffix_cons _ _
  | drop tag => exact List.suffix_cons _ _
  | prime hrule => cases hrule
  | reset hrule => cases hrule

/-- A plain job drops no fibers, since it has none. -/
theorem Turn.undropped (h : Turn plain w v) (hw : Undropped w.ledger) : Undropped v.ledger := by
  cases h with
  | note | enter => exact hw
  | create hs =>
      rw [ledger_create]
      exact hw.cons nofun
  | giveBack hs hready =>
      rw [ledger_takeBack]
      exact hw.cons nofun
  | drop tag hholds =>
      obtain ⟨s, hcreate⟩ := hholds
      cases hcreate
  | prime hrule => cases hrule
  | reset hrule => cases hrule

theorem Turns.undropped (h : Turns plain w v) (hw : Undropped w.ledger) : Undropped v.ledger := by
  induction h with
  | refl => exact hw
  | tail _ hlast ih => exact hlast.undropped ih

theorem Turn.snug (h : Turn thrifty w v) (hw : w.Snug c) (horderly : Orderly v.ledger)
    (hundropped : Undropped v.ledger) (hroom : peak v.ledger ≤ c) : v.Snug c := by
  have hzero {s : Nat} (hs : s < w.schedulers.length) : s = 0 := by
    obtain ⟨x, hx, -⟩ := hw
    simpa [hx] using hs
  cases h with
  | note => exact hw
  | enter s => exact hw.enter s
  | create hs =>
      cases hzero hs
      exact hw.create
  | giveBack hs hready =>
      cases hzero hs
      exact hw.takeBack horderly hroom
  | drop tag => exact absurd List.mem_cons_self (hundropped tag.1)
  | prime hrule => cases hrule
  | reset hrule => cases hrule

/-- Where all turns are those of thrifty jobs, it is enough that the cache has room in the end. -/
theorem Turns.snug (h : Turns thrifty w v) (hw : w.Snug c) (horderly : Orderly v.ledger)
    (hundropped : Undropped v.ledger) (hroom : peak v.ledger ≤ c) : v.Snug c := by
  induction h with
  | refl => exact hw
  | tail _ hlast ih =>
      have hbefore := ih (horderly.suffix hlast.suffix) (hundropped.suffix hlast.suffix)
        ((peak_mono hlast.suffix).trans hroom)
      exact hlast.snug hbefore horderly hundropped hroom

/-! ## Thrifty callers -/

/-- The command neither fills nor resets a cache, nor does a job that it brings along. -/
def Command.Thrifty (c : Command α) : Prop := c.obeys thrifty = true

/-- The command drops no fiber, and a job that it brings along has none to drop. -/
def Command.Plain (c : Command α) : Prop := c.obeys plain = true ∧ ∀ i, c ≠ .drop i

namespace World

variable {held : Multiset Tag}

/-- The fibers that someone holds are out, the only scheduler counts as many fibers, in total, at
present and at most, as were ever out at once, and no fiber was freed: each one that was allocated
is held or cached. -/
structure Recycles (w : World α) (held : Multiset Tag) : Prop where
  out : outstanding w.ledger = held.card
  statistics : ∃ statistics, w.statistics? 0 = some statistics ∧
    statistics.total = peak w.ledger ∧ statistics.current = peak w.ledger ∧
    statistics.max = peak w.ledger
  alive : ∀ n < w.allocations, n ∈ numbers held + w.cached

theorem Snug.recycles (h : w.Snug c) (hbalanced : w.Balanced held) : w.Recycles held := by
  obtain ⟨x, hx, -, hcached, hpeak, htotal, hcurrent, hmax⟩ := h
  refine ⟨hbalanced.outstanding_eq, ⟨x.statistics, by simp [statistics?, hx], ?_, ?_, ?_⟩, ?_⟩
  · rw [hpeak, ← htotal, Scheduler.statistics]
  · rw [hpeak, ← hcurrent, Scheduler.statistics]
  · rw [hpeak, ← hmax, Scheduler.statistics]
  · -- There are as many fibers as numbers, and no two of them have the same one.
    have hcard : (numbers held + w.cached).card = w.allocations := by
      rw [← hcached, hbalanced.outstanding_eq]
      simp [numbers, cached, cachedBy, hx]
    have hall : (numbers held + w.cached).toFinset = Finset.range w.allocations := by
      refine Finset.eq_of_subset_of_card_le (fun n hn => ?_) ?_
      · exact Finset.mem_range.mpr (hbalanced.lt n (Multiset.mem_toFinset.mp hn))
      · rw [Multiset.toFinset_card_of_nodup hbalanced.nodup, hcard, Finset.card_range]
    intro n hn
    rw [← Multiset.mem_toFinset, hall]
    exact Finset.mem_range.mpr hn

theorem snug_fresh (config : Config) : (fresh [config] : World α).Snug config.cacheSize :=
  ⟨.fresh config, rfl, rfl, rfl, rfl, rfl, rfl, rfl⟩

end World

namespace Session

variable {s : Session α}

/-- A caller who keeps to a rule has the world changed by turns that it allows. -/
theorem turns_after {rule : Rule α} {k : Nat} (hsound : s.Sound) (hs : s.Obeys rule k)
    {cs : List (Command α)}
    (hcs : ∀ c ∈ cs, c.obeys rule = true ∧ (rule.Holds ∨ ∀ i, c ≠ .drop i)) :
    Turns rule s.world (s.after cs).world ∧ (s.after cs).Obeys rule k := by
  induction cs generalizing s with
  | nil => exact ⟨.refl _, hs⟩
  | cons c rest ih =>
      obtain ⟨hobeys, hdrop⟩ := hcs c List.mem_cons_self
      have hheeds := heeds_perform hsound hs hobeys hdrop
      obtain ⟨hturns, hafter⟩ := ih (sound_perform hsound c).1 (hheeds.obeys (hs.stands hsound))
        fun d hd => hcs d (List.mem_cons_of_mem c hd)
      exact ⟨hheeds.turns.trans hturns, hafter⟩

/-- In the course of a command that keeps to a rule as well. -/
theorem Begins.turns {rule : Rule α} {k : Nat} {c : Command α} {p q : Point α} (h : s.Begins c p)
    (hunder : Underway p q) (hsound : s.Sound) (hs : s.Obeys rule k) (hc : c.obeys rule = true)
    (hdrop : rule.Holds ∨ ∀ i, c ≠ .drop i) : Turns rule s.world q.world := by
  have hfirst := h.obeys hs hc hdrop
  have hstands := hfirst.turns.stands (hs.stands hsound)
  exact hfirst.turns.trans (hunder.obeys (h.reached hsound).fits hfirst.activity hstands).turns

/-- Whatever a thrifty caller commands a session with one scheduler and whatever the jobs do,
between any two commands and wherever a job is in the course of a command: if no fiber was dropped
and no more of them were ever out at once than the cache has room for, then no fiber was freed, and
the scheduler has allocated just as many as were out at once. None is dropped as long as the caller
drops none, and brings along no job that takes a fiber for itself. -/
theorem recycles_after {config : Config} {s₀ : Session α} (hstart : start [config] = .ok s₀)
    {cs : List (Command α)} (hcs : ∀ c ∈ cs, c.Thrifty) :
    (Undropped (s₀.after cs).world.ledger → peak (s₀.after cs).world.ledger ≤ config.cacheSize →
      (s₀.after cs).world.Recycles (s₀.after cs).held) ∧
    (∀ c p q, c.Thrifty → (s₀.after cs).Begins c p → Underway p q → Undropped q.world.ledger →
      peak q.world.ledger ≤ config.cacheSize → q.world.Recycles q.held) ∧
    ((∀ c ∈ cs, c.Plain) → Undropped (s₀.after cs).world.ledger ∧
      ∀ c p q, c.Plain → (s₀.after cs).Begins c p → Underway p q → Undropped q.world.ledger) := by
  rw [start_eq hstart]
  obtain ⟨hmoves, hsound⟩ := leads_after (sound_fresh [config]) cs
  have hbalanced := hmoves.balanced (by simpa [held] using balanced_fresh [config])
  have hholds : (thrifty : Rule α).Holds := ⟨0, rfl⟩
  obtain ⟨hturns, hobeys⟩ := turns_after (sound_fresh [config]) (obeys_fresh thrifty [config])
    fun c hc => ⟨hcs c hc, .inl hholds⟩
  refine ⟨fun hundropped hroom => ?_, fun c p q hc hbegins hunder hundropped hroom => ?_,
    fun hplain => ?_⟩
  · exact (hturns.snug (snug_fresh config) hbalanced.orderly hundropped hroom).recycles hbalanced
  · have hreached := hunder.reached (hbegins.reached hsound) hsound.tidy
    have hthere := hreached.moves.balanced hbalanced
    have hall := hturns.trans (hbegins.turns hunder hsound hobeys hc (.inl hholds))
    exact (hall.snug (snug_fresh config) hthere.orderly hundropped hroom).recycles hthere
  · obtain ⟨hturns, hobeys⟩ := turns_after (sound_fresh [config]) (obeys_fresh plain [config])
      fun c hc => ⟨(hplain c hc).1, .inr (hplain c hc).2⟩
    have hundropped := hturns.undropped fun n => List.not_mem_nil
    exact ⟨hundropped, fun c p q hc hbegins hunder =>
      (hbegins.turns hunder hsound hobeys hc.1 (.inr hc.2)).undropped hundropped⟩

/-- Start a task with a nested one while the cache has room for two fibers, abort both, and hold two
fibers again. -/
def cycling : List (Command Nat) :=
  [.newTask 0 [.spawn 0 [.yield], .run 0, .yieldElse [.log 1]], .runTask 0, .abortTask 0,
    .create 0, .destroy 0 0, .create 0, .newTask 0 [.yieldAny], .runTask 1]

/-- Two fibers were enough for all of that, and are enough while the second task is aborted. -/
theorem recycles_after_cycling : ∃ s₀ : Session Nat, start [⟨16384, 2⟩] = .ok s₀ ∧
    (∀ c ∈ cycling, c.Thrifty ∧ c.Plain) ∧ peak (s₀.after cycling).world.ledger = 2 ∧
    (s₀.after cycling).world.Recycles (s₀.after cycling).held ∧
    ∃ p q, (s₀.after cycling).Begins (.abortTask 1) p ∧ Underway p q ∧ q.world.Recycles q.held := by
  have hstart : start [⟨16384, 2⟩] = .ok (⟨.fresh [⟨16384, 2⟩], [], []⟩ : Session Nat) := rfl
  have hcycling : ∀ c ∈ cycling, c.Thrifty ∧ c.Plain := by
    intro c hc
    simp only [cycling, List.mem_cons, List.not_mem_nil, or_false] at hc
    rcases hc with rfl | rfl | rfl | rfl | rfl | rfl | rfl | rfl <;> exact ⟨rfl, rfl, nofun⟩
  obtain ⟨hafter, hpoints, hplain⟩ := recycles_after hstart fun c hc => (hcycling c hc).1
  obtain ⟨hundropped, hthere⟩ := hplain fun c hc => (hcycling c hc).2
  have hbegins : Begins (after ⟨.fresh [⟨16384, 2⟩], [], []⟩ cycling) (.abortTask 1) _ :=
    .abortTask (i := 1) (n := 0) rfl rfl rfl rfl
  have hunwind (j : Suspended Nat) (w : World Nat) (others : Multiset Tag) :
      Underway ⟨0, .stop j w, others⟩ ⟨0, j.unwinding w, others⟩ := .tail .refl .unwind
  refine ⟨_, hstart, hcycling, by decide, hafter hundropped (by decide), _, _, hbegins,
    hunwind _ _ _, ?_⟩
  exact hpoints (.abortTask 1) _ _ rfl hbegins (hunwind _ _ _)
    (hthere (.abortTask 1) _ _ ⟨rfl, nofun⟩ hbegins (hunwind _ _ _)) (by decide)

end Session

end ControlFlow.Fibers

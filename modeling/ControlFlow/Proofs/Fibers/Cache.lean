import ControlFlow.Proofs.Fibers.LifeCycle
import ControlFlow.Proofs.Fibers.Stock
import ControlFlow.Proofs.Fibers.Underway

/-! # The caches of a session

Between any two commands, and wherever a job is while a command is carried out, each fiber is in one
place, the caches are within their bounds, and the schedulers hand out the fibers cached last.
-/

namespace ControlFlow.Fibers

variable {α : Type}

namespace World

/-- How a scheduler hands out fibers and fills its cache. -/
structure Serves (w : World α) (s : Nat) (x : Scheduler α) : Prop where
  /-- A cached fiber is handed out if there is one, and the others stay where they are. -/
  reuses : ∀ f rest, x.cache = f :: rest →
    w.create s = (f, { w with schedulers := w.schedulers.set s { x with cache := rest } }.record
      (.handedOut f.number))
  /-- Otherwise a fiber is allocated. -/
  allocates : x.cache = [] → (w.create s).1 = .fresh w.allocations s ∧
    (w.create s).2.allocations = w.allocations + 1
  /-- A fiber that was given back when there was room for it is handed out first, with nothing left
  of its last job, and the others stay where they are. -/
  latest : ∀ (e : Engine α) (f : Fiber α) y, (f.stopped e w).2.schedulers[s]? = some y →
    y.cache.length < y.config.cacheSize → (f.destroy e s w).create s =
      ((f.stopped e w).1.clear,
        ((f.stopped e w).2.record (.givenBack f.number)).record (.handedOut f.number))
  /-- Where there is no room for a fiber, the one that is handed out first stays the same. -/
  full : ∀ (e : Engine α) (f : Fiber α) y, f.Resting →
    (f.stopped e w).2.schedulers[s]? = some y → y.config.cacheSize ≤ y.cache.length →
    ∀ g rest, y.cache = g :: rest → ((f.destroy e s w).create s).1 = g
  /-- A job may be started on the fiber that is handed out. -/
  accepts : ∀ e job v, ∃ after, (w.create s).1.run e job v = .ok after
  /-- There is no more in the cache than it has room for. -/
  room : x.cache.length ≤ x.config.cacheSize
  /-- A cache that is filled is full: new fibers come before those that were there. -/
  fills : ∃ y, (w.prime s).schedulers[s]? = some y ∧ y.config = x.config ∧
    y.cache = made w.allocations (x.config.cacheSize - x.cache.length) s ++ x.cache ∧
    y.cache.length = x.config.cacheSize
  /-- After that the fiber that was made last is handed out first. -/
  newest : ∀ n, x.config.cacheSize - x.cache.length = n + 1 →
    ((w.prime s).create s).1 = .fresh (w.allocations + n) s

/-- The fibers are in order: each of them is in one place, and the schedulers serve them. -/
structure InOrder (w : World α) (held : Multiset Tag) : Prop where
  housed : w.Housed held
  serves : ∀ s x, w.schedulers[s]? = some x → w.Serves s x

variable {w : World α} {held : Multiset Tag} {s : Nat} {x : Scheduler α}

theorem create_of_cache (hs : w.schedulers[s]? = some x) {f : Fiber α} {rest : List (Fiber α)}
    (hcache : x.cache = f :: rest) :
    w.create s = (f, { w with schedulers := w.schedulers.set s { x with cache := rest } }.record
      (.handedOut f.number)) := by
  have hmodify := schedulers_modify w s fun x => { x with cache := rest }
  simp only [hs] at hmodify
  simp only [create, next, hs, Option.map_some, Option.getD_some, hcache]
  rw [← hmodify]
  rfl

theorem create_of_nil (hs : w.schedulers[s]? = some x) (hcache : x.cache = []) :
    (w.create s).1 = .fresh w.allocations s ∧ (w.create s).2.allocations = w.allocations + 1 := by
  simp only [create, next, hs, Option.map_some, Option.getD_some, hcache]
  exact ⟨rfl, rfl⟩

/-- A fiber that does not go into the cache is freed, and the cache stays as it is. -/
theorem create_destroy_of_full {e : Engine α} {f g : Fiber α} {y : Scheduler α}
    {rest : List (Fiber α)} (hf : f.Resting) (hs : (f.stopped e w).2.schedulers[s]? = some y)
    (hfull : y.config.cacheSize ≤ y.cache.length) (hcache : y.cache = g :: rest) :
    ((f.destroy e s w).create s).1 = g := by
  rw [Fiber.destroy_eq hf]
  generalize (f.stopped e w).1.clear = k
  generalize (f.stopped e w).2 = v at hs
  have htaken : v.takeBack s k = (v.record (.givenBack k.number)).count k.home .freed := by
    have hs' : (v.record (.givenBack k.number)).schedulers[s]? = some y := hs
    simp only [takeBack, hs', if_neg (Nat.not_lt.mpr hfull)]
  have hcounted : ∃ z, ((v.record (.givenBack k.number)).count k.home .freed).schedulers[s]? =
      some z ∧ z.cache = g :: rest := by
    refine ⟨_, (getElem?_modify _ _ _ s).trans (congrArg (Option.map _) hs), ?_⟩
    split <;> exact hcache
  obtain ⟨z, hz, hcached⟩ := hcounted
  rw [htaken, create_of_cache hz hcached]

/-- The fiber that was made last when a cache was filled is the next one that is handed out. -/
theorem create_prime (hs : w.schedulers[s]? = some x) {n : Nat}
    (hroom : x.config.cacheSize - x.cache.length = n + 1) :
    ((w.prime s).create s).1 = .fresh (w.allocations + n) s := by
  obtain ⟨y, hy, -, hcache⟩ := prime_schedulers (s := s) hs
  have hmade : (made w.allocations (n + 1) s : List (Fiber α)) =
      .fresh (w.allocations + n) s :: made w.allocations n s := by
    simp [made, List.range'_concat]
  rw [if_pos rfl, hroom, hmade, List.cons_append] at hcache
  rw [create_of_cache hy hcache]

theorem Housed.inOrder (h : w.Housed held) : w.InOrder held := by
  refine ⟨h, fun s x hs => ⟨fun f rest => create_of_cache hs, create_of_nil hs,
    fun e f y => Fiber.create_destroy,
    fun e f y hf hy hfull g rest => create_destroy_of_full hf hy hfull, fun e job v => ?_,
    h.bounded s x hs, ?_, fun n => create_prime hs⟩⟩
  · exact ⟨_, Fiber.run_of_isFree (h.tidy.create s).1.isFree⟩
  · obtain ⟨y, hy, hconfig, hcache⟩ := prime_schedulers (s := s) hs
    rw [if_pos rfl] at hcache
    exact ⟨y, hy, hconfig, hcache, hcache ▸ h.bounded.length_primed hs⟩

end World

namespace Session

variable {s : Session α}

/-! ## Calls of a caller -/

/-- What goes on first when a command is carried out. -/
inductive Begins (s : Session α) : Command α → Point α → Prop where
  | run {i f job} : s.fibers[i]? = some (some f) → f.isFree = true →
      Begins s (.run i job)
        ⟨depthOfSteps job, f.starting job s.world, f.tag ::ₘ (s.setFiber i none s.world).held⟩
  | resume {i f j n} : s.fibers[i]? = some (some f) → f.job = some j → f.levels = n + 1 →
      Begins s (.resume i)
        ⟨n, j.resuming s.world, f.tag ::ₘ (s.setFiber i none s.world).held⟩
  | abort {i f j n} : s.fibers[i]? = some (some f) → f.job = some j → f.levels = n + 1 →
      Begins s (.abort i) ⟨n, .stop j s.world, f.tag ::ₘ (s.setFiber i none s.world).held⟩
  /-- A job that is suspended on a fiber that goes back is told to stop. -/
  | destroy {i target f j n} : s.fibers[i]? = some (some f) → f.job = some j → f.levels = n + 1 →
      target < s.world.schedulers.length →
      Begins s (.destroy i target)
        ⟨n, .stop j s.world, f.tag ::ₘ (s.setFiber i none s.world).held⟩
  /-- What a job holds is dropped when its fiber is, which is counted as gone first. -/
  | drop {i f j n} : s.fibers[i]? = some (some f) → f.job = some j → f.levels = n + 1 →
      Begins s (.drop i) ⟨n, j.own.dropping (s.world.lose f.tag),
        (s.setFiber i none s.world).held⟩
  | runTask {i t job n} : s.tasks[i]? = some (some t) → t.body = some job → t.levels = n + 1 →
      Begins s (.runTask i)
        ⟨n, (s.world.create t.scheduler).1.starting job (s.world.create t.scheduler).2,
          (s.world.create t.scheduler).1.tag ::ₘ s.held⟩
  | resumeTask {i t f j n} : s.tasks[i]? = some (some t) → t.fiber = some f → f.job = some j →
      t.levels = n + 1 →
      Begins s (.resumeTask i)
        ⟨n, j.resuming s.world, f.tag ::ₘ (s.setTask i none s.world).held⟩
  | abortTask {i t f j n} : s.tasks[i]? = some (some t) → t.fiber = some f → f.job = some j →
      t.levels = n + 1 →
      Begins s (.abortTask i) ⟨n, .stop j s.world, f.tag ::ₘ (s.setTask i none s.world).held⟩
  | dropTask {i t f j n} : s.tasks[i]? = some (some t) → t.fiber = some f → f.job = some j →
      t.levels = n + 1 →
      Begins s (.dropTask i) ⟨n, .stop j s.world, f.tag ::ₘ (s.setTask i none s.world).held⟩

theorem held_setFiber {i : Nat} {f : Fiber α} (hf : s.fibers[i]? = some (some f)) (w : World α) :
    s.held = f.held + (s.setFiber i none w).held := by
  obtain ⟨others, hsum, hset⟩ := exists_sum_map_set heldByFiber hf
  have hnone : heldByFiber (none : Option (Fiber α)) = 0 := rfl
  simp only [held, setFiber, hsum, hset, hnone, zero_add, add_assoc]
  rfl

theorem held_setTask {i : Nat} {t : Task α} (ht : s.tasks[i]? = some (some t)) (w : World α) :
    s.held = t.held + (s.setTask i none w).held := by
  obtain ⟨others, hsum, hset⟩ := exists_sum_map_set heldByTask ht
  have hnone : heldByTask (none : Option (Task α)) = 0 := rfl
  simp only [held, setTask, hsum, hset, hnone, zero_add, add_left_comm]
  rfl

/-- Moves lead to what a command begins with. -/
theorem Begins.reached {c : Command α} {p : Point α} (h : s.Begins c p) (hs : s.Sound) :
    Reached s.world s.held p := by
  have hfiber {i : Nat} {f : Fiber α} {j : Suspended α} {n : Nat}
      (hf : s.fibers[i]? = some (some f)) (hjob : f.job = some j) (hlevels : f.levels = n + 1) :
      j.Fits (n + 1) :=
    hlevels ▸ (hs.fibers f (List.mem_of_getElem? hf)).2 j hjob
  have htask {i : Nat} {t : Task α} (ht : s.tasks[i]? = some (some t)) {n : Nat}
      (hlevels : t.levels = n + 1) : t.Fits (n + 1) :=
    hlevels ▸ (hs.tasks t (List.mem_of_getElem? ht)).fits
  cases h with
  | @run i f job hf hfree =>
      have hrest := (hs.fibers f (List.mem_of_getElem? hf)).1
      have hnone := hrest.job_eq_none (hrest.isFree_iff.mp hfree)
      rw [held_setFiber hf s.world, Fiber.held_of_none hnone, Multiset.singleton_add]
      exact .starting (Nat.le_refl _)
  | resume hf hjob hlevels =>
      rw [held_setFiber hf s.world]
      exact .of_job hjob (.resuming (hfiber hf hjob hlevels))
  | abort hf hjob hlevels | destroy hf hjob hlevels =>
      rw [held_setFiber hf s.world]
      exact .of_job hjob (.stop (hfiber hf hjob hlevels))
  | drop hf hjob hlevels =>
      have hown := (Suspended.fits_succ.mp (hfiber hf hjob hlevels)).2.2
      rw [held_setFiber hf s.world, Fiber.held_of_some hjob, Multiset.cons_add]
      exact .after (.single (.drop _ _ _)) (.dropping hown)
  | runTask ht hjob hlevels =>
      exact .after (.single (.create _ _ _)) (.starting ((htask ht hlevels).body hjob).2)
  | resumeTask ht hf hjob hlevels =>
      obtain ⟨hheld, hj⟩ := (htask ht hlevels).fiber hf hjob
      rw [held_setTask ht s.world, hheld]
      exact .of_job hjob (.resuming hj)
  | abortTask ht hf hjob hlevels | dropTask ht hf hjob hlevels =>
      obtain ⟨hheld, hj⟩ := (htask ht hlevels).fiber hf hjob
      rw [held_setTask ht s.world, hheld]
      exact .of_job hjob (.stop hj)

/-! ## Commands -/

/-- Every command leaves each fiber in one place, and brings back none that is gone. -/
theorem housed_perform (hs : s.Sound) (hhoused : s.world.Housed s.held) (c : Command α) :
    Descends (s.world, s.held) ((s.perform c).2.world, (s.perform c).2.held) ∧
      (s.perform c).2.world.Housed (s.perform c).2.held :=
  have hmoves := (leads_perform hs c).moves
  ⟨hmoves.descends, hhoused.moves hmoves⟩

theorem housed_fresh (configs : List Config) : (World.fresh configs : World α).Housed 0 := by
  have hbalanced : (World.fresh configs : World α).Balanced 0 := balanced_fresh configs
  refine ⟨(sound_fresh configs).tidy, fun i x hx => ?_, hbalanced.nodup, hbalanced.lt⟩
  rw [cache_fresh (List.mem_of_getElem? hx)]
  exact Nat.zero_le _

theorem housed_after (hs : s.Sound) (hhoused : s.world.Housed s.held) (cs : List (Command α)) :
    (s.after cs).Sound ∧ (s.after cs).world.Housed (s.after cs).held := by
  induction cs generalizing s with
  | nil => exact ⟨hs, hhoused⟩
  | cons c rest ih => exact ih (sound_perform hs c).1 (housed_perform hs hhoused c).2

/-- Whatever is commanded from the start on and whatever the jobs do, the fibers are in order
between any two commands, and wherever a job is in the course of a command. A fiber that is gone
stays so. -/
theorem inOrder_after {configs : List Config} {s₀ : Session α} (hstart : start configs = .ok s₀)
    (cs : List (Command α)) :
    (s₀.after cs).world.InOrder (s₀.after cs).held ∧
    ∀ c, (∀ n < (s₀.after cs).world.allocations,
        n ∉ numbers (s₀.after cs).held + (s₀.after cs).world.cached →
        n ∉ numbers (s₀.after (cs ++ [c])).held + (s₀.after (cs ++ [c])).world.cached) ∧
      ∀ p q, (s₀.after cs).Begins c p → Underway p q → q.world.InOrder q.held := by
  obtain ⟨checked, rfl⟩ := start_ok hstart
  obtain ⟨hsound, hhoused⟩ := housed_after (sound_fresh checked)
    (by simpa [held] using housed_fresh checked) cs
  refine ⟨hhoused.inOrder, fun c => ⟨fun n hn hgone => ?_, fun p q hbegins hunder => ?_⟩⟩
  · rw [after, List.foldl_append]
    exact (housed_perform hsound hhoused c).1.gone hn hgone
  · have hreached := hunder.reached (hbegins.reached hsound) hsound.tidy
    exact (hhoused.moves hreached.moves).inOrder

/-- Suspend a job that fills the cache of its scheduler when it is told to stop. -/
def filling : List (Command Nat) := [.create 0, .run 0 [.yieldElse [.prime 0]]]

/-- While the fiber of that job goes back to a scheduler that keeps one, the job is where the cache
is full, so that its fiber is gone afterwards. -/
theorem inOrder_after_filling : ∃ s₀ : Session Nat, start [⟨16384, 1⟩] = .ok s₀ ∧
    (s₀.after filling).world.InOrder (s₀.after filling).held ∧
    (∃ p q, (s₀.after filling).Begins (.destroy 0 0) p ∧ Underway p q ∧
      q.world.InOrder q.held ∧ numbers q.held = {0} ∧ q.world.cached = {1}) ∧
    (s₀.after (filling ++ [.destroy 0 0])).world.InOrder 0 ∧
    (s₀.after (filling ++ [.destroy 0 0])).world.cached = {1} := by
  have hstart : start [⟨16384, 1⟩] = .ok (⟨.fresh [⟨16384, 1⟩], [], []⟩ : Session Nat) := rfl
  obtain ⟨hfilling, hcommand⟩ := inOrder_after hstart filling
  have hbegins : Begins (after ⟨.fresh [⟨16384, 1⟩], [], []⟩ filling) (.destroy 0 0) _ :=
    .destroy (i := 0) (n := 0) rfl rfl rfl (by decide)
  have hfilled (w : World Nat) (others : Multiset Tag) (hw : 0 < w.schedulers.length) :
      Underway ⟨0, .stop ⟨.yieldElse [.prime 0], [], #[], [], []⟩ w, others⟩
        ⟨0, .steps .aborting [] .empty (w.prime 0), others⟩ :=
    .tail (.tail (.tail .refl .unwind) .steps) (.next (by simp [doStep, hw]; rfl))
  refine ⟨_, hstart, hfilling, ⟨_, _, hbegins, hfilled _ _ (by decide), ?_, ?_, ?_⟩, ?_, ?_⟩
  · exact (hcommand _).2 _ _ hbegins (hfilled _ _ (by decide))
  · decide
  · decide
  · exact (inOrder_after hstart (filling ++ [.destroy 0 0])).1
  · decide

end Session

end ControlFlow.Fibers

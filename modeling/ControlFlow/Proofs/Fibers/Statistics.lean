import ControlFlow.Proofs.Fibers.Accounts
import ControlFlow.Proofs.Fibers.Cache
import ControlFlow.Proofs.Fibers.Calm

/-! # What the statistics tell

In a session with one scheduler the statistics never count more fibers than are alive. They count
all of them as long as the counters are set to zero only while nobody holds a fiber.
-/

namespace ControlFlow.Fibers

variable {α : Type}

namespace World

/-- The statistics of the only scheduler tell how many fibers it has cached, and no more than there
are of those that are alive. If none of them was missed, they tell how many are alive. -/
def Tells (w : World α) (held : Multiset Tag) (complete : Prop) : Prop :=
  ∃ x statistics, w.schedulers = [x] ∧ w.statistics? 0 = some statistics ∧
    statistics.cached = x.cache.length ∧ statistics.current ≤ statistics.max ∧
    statistics.current ≤ held.card + x.cache.length ∧
    (complete → statistics.current = held.card + x.cache.length ∧
      statistics.cached ≤ statistics.current)

/-- What an account says is what the statistics tell. -/
theorem tells_of_sound {w : World α} {held : Multiset Tag} {complete : Prop}
    (hw : w.schedulers.length = 1) (hsound : (w.account held).Sound)
    (hexact : complete → (w.account held).Exact) : w.Tells held complete := by
  obtain ⟨x, hx⟩ := List.length_eq_one_iff.mp hw
  have halive : (held + tags x.cache).card = held.card + x.cache.length := by
    simp [tags]
  have hle := hsound.le_card
  have hmax := hsound.le_max
  rw [account_eq hx] at hle hmax hexact
  refine ⟨x, x.statistics, hx, by simp [statistics?, hx], rfl, hmax, halive ▸ hle,
    fun hcomplete => ?_⟩
  have hcurrent : x.counters.current = held.card + x.cache.length :=
    halive ▸ (hexact hcomplete).current
  exact ⟨hcurrent, (Nat.le_add_left _ _).trans_eq hcurrent.symm⟩

end World

/-- The job that a command brings along resets no scheduler. -/
def Command.isCalm : Command α → Bool
  | .run _ job | .newTask _ job => areCalm job
  | _ => true

namespace Session

open Account (Entries)

variable {s : Session α}

/-- The account of a session with one scheduler. -/
def account (s : Session α) : Account := s.world.account s.held

/-- Every command goes into the account. -/
theorem entries_perform (hs : s.Sound) (hone : s.world.schedulers.length = 1) (c : Command α) :
    Entries s.account (s.perform c).2.account :=
  (leads_perform hs c).moves.entries hone

/-- What happens until some point in the course of a command goes into the account. -/
theorem Begins.entries {c : Command α} {p q : Point α} (h : s.Begins c p) (hunder : Underway p q)
    (hs : s.Sound) (hone : s.world.schedulers.length = 1) :
    Entries s.account (q.world.account q.held) ∧ q.world.schedulers.length = 1 := by
  have hmoves := (hunder.reached (h.reached hs) hs.tidy).moves
  exact ⟨hmoves.entries hone, hmoves.length.trans hone⟩

/-! ## Runs of commands -/

theorem after_concat (s : Session α) (cs : List (Command α)) (c : Command α) :
    s.after (cs ++ [c]) = ((s.after cs).perform c).2 := by
  rw [after, List.foldl_append]
  rfl

/-- A session with one scheduler, of which the account is right. -/
structure Accounted (s : Session α) : Prop where
  sound : s.Sound
  single : s.world.schedulers.length = 1
  kept : s.account.Sound

theorem Accounted.perform (h : s.Accounted) (c : Command α) : (s.perform c).2.Accounted := by
  obtain ⟨hsound, hlength⟩ := sound_perform h.sound c
  exact ⟨hsound, hlength.trans h.single,
    ((entries_perform h.sound h.single c).keep h.kept).1⟩

theorem Accounted.after (h : s.Accounted) (cs : List (Command α)) : (s.after cs).Accounted := by
  induction cs generalizing s with
  | nil => exact h
  | cons c rest ih => exact ih (h.perform c)

theorem account_fresh (config : Config) :
    (⟨.fresh [config], [], []⟩ : Session α).account = ⟨.zero, 0, 0⟩ := by
  simp [account, World.account, World.fresh, Scheduler.fresh, held, tags]

theorem accounted_fresh (config : Config) : (⟨.fresh [config], [], []⟩ : Session α).Accounted := by
  refine ⟨sound_fresh _, rfl, ?_⟩
  rw [account_fresh]
  exact ⟨Nat.le_refl 0, Nat.le_refl 0, Nat.le_refl 0, Nat.le_refl 0⟩

/-- The counters have missed no fiber that is alive: from the start on, or from a reset on while
nobody held a fiber, they were not set to zero. -/
inductive Counted (s₀ : Session α) : List (Command α) → Prop where
  | start : Counted s₀ []
  /-- Whatever happened before, nothing is alive after the reset. -/
  | reset {cs : List (Command α)} : (s₀.after cs).held = 0 → Counted s₀ (cs ++ [.reset 0])
  /-- The total has grown by as many fibers as were allocated. -/
  | next {cs : List (Command α)} (c : Command α) : Counted s₀ cs →
      (s₀.after (cs ++ [c])).world.uncounted = (s₀.after cs).world.uncounted →
      Counted s₀ (cs ++ [c])

/-- The account is exact as long as no fiber is missed. -/
theorem Accounted.exact_of_entries (h : s.Accounted) {w : World α} {held : Multiset Tag}
    (hentries : Entries s.account (w.account held)) (hsame : w.uncounted = s.world.uncounted)
    (hexact : s.account.Exact) : (w.account held).Exact := by
  refine (hentries.keep h.kept).2.2 ?_ hexact
  rw [account, World.uncounted_account, World.uncounted_account, hsame]

theorem Accounted.exact_after (h : s.Accounted) (hexact : s.account.Exact)
    {cs : List (Command α)} (hcs : s.Counted cs) : (s.after cs).account.Exact := by
  induction hcs with
  | start => exact hexact
  | @reset cs hheld =>
      obtain ⟨x, hx⟩ := List.length_eq_one_iff.mp (h.after cs).single
      have hperform : s.after (cs ++ [.reset 0]) =
          { s.after cs with world := (s.after cs).world.reset 0 } := by
        simp [after_concat, Session.perform, withScheduler, hx]
      have hzero : (s.after (cs ++ [.reset 0])).account =
          ⟨.zero, 0, (s.after cs).world.allocations⟩ := by
        rw [hperform, ← hheld]
        exact World.account_reset hx _
      rw [hzero]
      exact ⟨rfl, by simp⟩
  | @next cs c _ hsame ih =>
      have hbefore := h.after cs
      rw [after_concat] at hsame ⊢
      exact hbefore.exact_of_entries (entries_perform hbefore.sound hbefore.single c) hsame ih

/-- A configuration that is good is used as it is. -/
theorem start_eq {config : Config} (h : start [config] = .ok s) :
    s = ⟨.fresh [config], [], []⟩ := by
  unfold start at h
  cases hcheck : config.check with
  | error fault => simp [hcheck, bind, Except.bind] at h
  | ok checked =>
      have hsame : checked = config := by
        simp only [Config.check] at hcheck
        split_ifs at hcheck
        exact (Except.ok.inj hcheck).symm
      simp only [List.mapM_cons, List.mapM_nil, hcheck, hsame, bind, Except.bind, pure, Except.pure,
        Except.ok.injEq] at h
      exact h.symm

theorem start_single {config : Config} (h : start [config] = .ok s) :
    ∃ checked, s = ⟨.fresh [checked], [], []⟩ :=
  ⟨config, start_eq h⟩

/-! ## Careful callers -/

/-- Of the calm commands, only a reset breaks the rule. -/
theorem obeys_of_isCalm {c : Command α} (hc : c.isCalm = true) (hreset : ∀ i, c ≠ .reset i) :
    c.obeys calm = true := by
  cases c with
  | run _ job | newTask _ job => exact (areCalm_eq_allObey job).symm.trans hc
  | reset i => exact absurd rfl (hreset i)
  | _ => rfl

/-- Of the calm commands, only a reset may leave fibers uncounted. -/
theorem uncounted_perform (hsound : s.Sound) (hs : s.Obeys calm 1) {c : Command α}
    (hc : c.isCalm = true) (hreset : ∀ i, c ≠ .reset i) :
    (s.perform c).2.world.uncounted = s.world.uncounted ∧ (s.perform c).2.Obeys calm 1 := by
  have hstands := hs.stands hsound
  have hheeds := heeds_perform hsound hs (obeys_of_isCalm hc hreset) (.inl ⟨0, rfl⟩)
  exact ⟨hheeds.turns.uncounted hstands, hheeds.obeys hstands⟩

/-- A reset forgets fibers, but no job becomes less calm. -/
theorem Obeys.perform_reset (hsound : s.Sound) (hs : s.Obeys calm 1) (i : Nat) :
    (s.perform (.reset i)).2.Obeys calm 1 := by
  have hlength := (sound_perform hsound (.reset i)).2.trans hs.length
  revert hlength
  simp only [Session.perform, withScheduler]
  split
  · exact fun hlength => ⟨hlength, hs.fibers, hs.tasks⟩
  · exact fun _ => hs

/-- A scheduler is reset only while nobody holds a fiber, and never by a job. -/
def Careful : Session α → List (Command α) → Prop
  | _, [] => True
  | s, c :: rest =>
      c.isCalm = true ∧ (∀ i, c = .reset i → s.held = 0) ∧ Careful (s.perform c).2 rest

theorem Accounted.counted_append {s₀ : Session α} (h : s₀.Accounted) {before : List (Command α)}
    (hbefore : s₀.Counted before) (hcalm : (s₀.after before).Obeys calm 1)
    {cs : List (Command α)} (hcs : (s₀.after before).Careful cs) :
    s₀.Counted (before ++ cs) ∧ (s₀.after (before ++ cs)).Obeys calm 1 := by
  induction cs generalizing before with
  | nil => simpa using ⟨hbefore, hcalm⟩
  | cons c rest ih =>
      obtain ⟨hc, hreset, hrest⟩ := hcs
      have hsound := (h.after before).sound
      have hnext : s₀.Counted (before ++ [c]) ∧ (s₀.after (before ++ [c])).Obeys calm 1 := by
        by_cases hisReset : ∃ i, c = .reset i
        · obtain ⟨i, rfl⟩ := hisReset
          refine ⟨?_, after_concat s₀ before _ ▸ hcalm.perform_reset hsound i⟩
          cases i with
          | zero => exact .reset (hreset 0 rfl)
          | succ i =>
              -- There is no other scheduler to reset.
              refine .next _ hbefore ?_
              have hnone : (s₀.after before).world.schedulers[i + 1]? = none := by
                simp [hcalm.length]
              rw [after_concat]
              simp [Session.perform, withScheduler, hnone]
        · obtain ⟨hsame, hstill⟩ :=
            uncounted_perform hsound hcalm hc fun i hi => hisReset ⟨i, hi⟩
          rw [← after_concat] at hstill hsame
          exact ⟨.next c hbefore hsame, hstill⟩
      rw [← after_concat] at hrest
      simpa using ih hnext.1 hnext.2 hrest

/-- Wherever a job is in the course of a calm command, no fiber was left uncounted. -/
theorem Begins.uncounted {c : Command α} {p q : Point α} (h : s.Begins c p)
    (hunder : Underway p q) (hsound : s.Sound) (hs : s.Obeys calm 1) (hc : c.isCalm = true) :
    q.world.uncounted = s.world.uncounted := by
  have hreset (i : Nat) : c ≠ .reset i := by
    rintro rfl
    cases h
  have hstands := hs.stands hsound
  have hfirst := h.obeys hs (obeys_of_isCalm hc hreset) (.inl ⟨0, rfl⟩)
  have hlater := hunder.obeys (h.reached hsound).fits hfirst.activity (hfirst.turns.stands hstands)
  exact (hfirst.turns.trans hlater.turns).uncounted hstands

/-- Whatever is commanded in a session with one scheduler and whatever the jobs do, between any two
commands and wherever a job is in the course of a command, the statistics tell the size of the
cache, no greater number of fibers than are held or cached, and no greater one than the maximum.
Unless the counters were set to zero while fibers were held, they tell how many are alive. That is
so if the caller resets the scheduler only while no fiber is held, and no job resets it. -/
theorem tells_after {config : Config} {s₀ : Session α} (hstart : start [config] = .ok s₀)
    (cs : List (Command α)) :
    (s₀.after cs).world.Tells (s₀.after cs).held (s₀.Counted cs) ∧
    (∀ c p q, (s₀.after cs).Begins c p → Underway p q → q.world.Tells q.held
      (s₀.Counted cs ∧ q.world.uncounted = (s₀.after cs).world.uncounted)) ∧
    (s₀.Careful cs → s₀.Counted cs ∧ ∀ c p q, c.isCalm = true → (s₀.after cs).Begins c p →
      Underway p q → q.world.uncounted = (s₀.after cs).world.uncounted) := by
  obtain ⟨checked, rfl⟩ := start_single hstart
  have hnow := (accounted_fresh (α := α) checked).after cs
  have hfresh : (⟨.fresh [checked], [], []⟩ : Session α).account.Exact := by
    rw [account_fresh]
    exact ⟨rfl, by simp⟩
  have hexact : Counted ⟨.fresh [checked], [], []⟩ cs → _ :=
    (accounted_fresh (α := α) checked).exact_after hfresh
  refine ⟨World.tells_of_sound hnow.single hnow.kept hexact, fun c p q hbegins hunder => ?_,
    fun hcareful => ?_⟩
  · obtain ⟨hentries, hone⟩ := hbegins.entries hunder hnow.sound hnow.single
    refine World.tells_of_sound hone (hentries.keep hnow.kept).1 fun ⟨hcounted, hsame⟩ => ?_
    exact hnow.exact_of_entries hentries hsame (hexact hcounted)
  · obtain ⟨hcounted, hcalm⟩ := (accounted_fresh (α := α) checked).counted_append .start
      (obeys_fresh calm [checked]) hcareful
    exact ⟨hcounted, fun c p q hc hbegins hunder =>
      hbegins.uncounted hunder hnow.sound hcalm hc⟩

/-- Hold a fiber and a task, let go of both, reset the scheduler, and start over with a task while
the cache is full. -/
def rounds : List (Command Nat) :=
  [.create 0, .newTask 0 [.spawn 0 [.yield], .run 0, .yield], .runTask 0, .destroy 0 0, .dropTask 0,
    .reset 0, .newTask 0 [.yieldElse [.log 1]], .prime 0, .runTask 1, .create 0]

/-- Two fibers are held after that and none is cached. When the task is aborted, they are counted
while its job is stopped as well. -/
theorem tells_after_rounds : ∃ s₀ : Session Nat, start [⟨16384, 1⟩] = .ok s₀ ∧
    (s₀.after rounds).world.Tells (s₀.after rounds).held (s₀.Counted rounds) ∧
    s₀.Counted rounds ∧
    (s₀.after rounds).world.statistics? 0 = some ⟨2, 2, 0, 2, 1⟩ ∧
    ∃ p q, (s₀.after rounds).Begins (.abortTask 1) p ∧ Underway p q ∧ q.world.Tells q.held
      (s₀.Counted rounds ∧ q.world.uncounted = (s₀.after rounds).world.uncounted) ∧
      q.world.uncounted = (s₀.after rounds).world.uncounted := by
  have hstart : start [⟨16384, 1⟩] = .ok (⟨.fresh [⟨16384, 1⟩], [], []⟩ : Session Nat) := rfl
  obtain ⟨htells, hpoints, hcareful⟩ := tells_after hstart rounds
  have hrounds : Careful ⟨.fresh [⟨16384, 1⟩], [], []⟩ rounds :=
    ⟨rfl, nofun, rfl, nofun, rfl, nofun, rfl, nofun, rfl, nofun, rfl, fun _ _ => by decide,
      rfl, nofun, rfl, nofun, rfl, nofun, rfl, nofun, trivial⟩
  obtain ⟨hcounted, hsame⟩ := hcareful hrounds
  have hbegins : Begins (after ⟨.fresh [⟨16384, 1⟩], [], []⟩ rounds) (.abortTask 1) _ :=
    .abortTask (i := 1) (n := 0) rfl rfl rfl rfl
  have hunwind (j : Suspended Nat) (w : World Nat) (others : Multiset Tag) :
      Underway ⟨0, .stop j w, others⟩ ⟨0, j.unwinding w, others⟩ := .tail .refl .unwind
  exact ⟨_, hstart, htells, hcounted, by decide, _, _, hbegins, hunwind _ _ _,
    hpoints _ _ _ hbegins (hunwind _ _ _), hsame _ _ _ rfl hbegins (hunwind _ _ _)⟩

/-- A reset while a fiber is held makes the counters forget it: it is alive and not counted, and
when it has been given back there are more fibers in the cache than are counted. -/
theorem miscounts_after_reset : ∃ s₀ : Session Nat, start [⟨16384, 1⟩] = .ok s₀ ∧
    (s₀.after [.create 0, .reset 0]).held.card = 1 ∧
    (s₀.after [.create 0, .reset 0]).world.statistics? 0 = some ⟨0, 0, 0, 0, 0⟩ ∧
    (s₀.after [.create 0, .reset 0, .destroy 0 0]).world.statistics? 0 = some ⟨0, 0, 1, 0, 0⟩ ∧
    ¬ (s₀.after [.create 0, .reset 0]).world.Tells (s₀.after [.create 0, .reset 0]).held True ∧
    ¬ (s₀.after [.create 0, .reset 0, .destroy 0 0]).world.Tells
      (s₀.after [.create 0, .reset 0, .destroy 0 0]).held True := by
  have hforgotten {w : World Nat} {held : Multiset Tag} {x : Statistics}
      (hx : w.statistics? 0 = some x) (hless : x.current < held.card + x.cached) :
      ¬ w.Tells held True := by
    rintro ⟨y, z, -, hz, hcached, -, -, hcomplete⟩
    cases hx.symm.trans hz
    have hcurrent := (hcomplete trivial).1
    omega
  exact ⟨⟨.fresh [⟨16384, 1⟩], [], []⟩, rfl, by decide, by decide, by decide,
    hforgotten (x := ⟨0, 0, 0, 0, 0⟩) (by decide) (by decide),
    hforgotten (x := ⟨0, 0, 1, 0, 0⟩) (by decide) (by decide)⟩

end Session

end ControlFlow.Fibers

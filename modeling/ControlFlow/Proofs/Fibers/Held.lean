import ControlFlow.Proofs.Fibers.Resting
import Mathlib.Algebra.BigOperators.Group.List.Basic
import Mathlib.Algebra.Order.Group.Multiset

/-! # Who holds which fibers

A task holds a fiber from the moment it is started until it is over, and the job that is suspended
on the fiber holds the fibers of its own tasks and those that it took from schedulers. A task is
sound if it holds a fiber exactly while its job is suspended there.
-/

namespace ControlFlow.Fibers

variable {α : Type}

/-- The number of a fiber and the scheduler that counts it. -/
abbrev Tag := Nat × Nat

def Fiber.tag (f : Fiber α) : Tag := (f.number, f.home)

/-- Some fibers, whatever is on them. -/
def tags (fs : List (Fiber α)) : Multiset Tag := (fs.map Fiber.tag : List Tag)

theorem tags_cons (f : Fiber α) (fs : List (Fiber α)) : tags (f :: fs) = f.tag ::ₘ tags fs := rfl

theorem tags_eraseIdx {fs : List (Fiber α)} {i : Nat} {f : Fiber α} (h : fs[i]? = some f) :
    tags fs = f.tag ::ₘ tags (fs.eraseIdx i) := by
  obtain ⟨hi, rfl⟩ := List.getElem?_eq_some_iff.mp h
  rw [← tags_cons]
  exact Multiset.coe_eq_coe.mpr ((List.getElem_cons_eraseIdx_perm hi).symm.map Fiber.tag)

/-! ## Fibers that are held -/

mutual

/-- The fiber itself, and those held by the job that is suspended on it. -/
def Fiber.held : Fiber α → Multiset Tag
  | ⟨number, home, _, _, _, _, none⟩ => {(number, home)}
  | ⟨number, home, _, _, _, _, some ⟨_, _, ⟨tasks⟩, fibers, _⟩⟩ =>
      (number, home) ::ₘ (heldByTasks tasks + tags fibers)

def Task.held : Task α → Multiset Tag
  | ⟨_, _, none, _, _⟩ => 0
  | ⟨_, _, some fiber, _, _⟩ => fiber.held

def heldByTasks : List (Task α) → Multiset Tag
  | [] => 0
  | t :: rest => t.held + heldByTasks rest

end

def Local.held (l : Local α) : Multiset Tag := heldByTasks l.tasks.toList + tags l.fibers

def Suspended.held (j : Suspended α) : Multiset Tag := j.own.held

def Stop.held : Stop α → Multiset Tag
  | .suspended j => j.held
  | _ => 0

theorem Local.held_empty : (Local.empty : Local α).held = 0 := by
  simp [Local.held, Local.empty, heldByTasks, tags]

theorem Fiber.held_of_none {f : Fiber α} (h : f.job = none) : f.held = {f.tag} := by
  obtain ⟨number, home, state, entered, result, failure, job⟩ := f
  cases h
  simp [Fiber.held, Fiber.tag]

theorem Fiber.held_of_some {f : Fiber α} {j : Suspended α} (h : f.job = some j) :
    f.held = f.tag ::ₘ j.held := by
  obtain ⟨number, home, state, entered, result, failure, job⟩ := f
  cases h
  obtain ⟨pause, rest, ⟨tasks⟩, fibers, deferred⟩ := j
  simp [Fiber.held, Fiber.tag, Suspended.held, Local.held, Suspended.own]

theorem Fiber.held_congr {f g : Fiber α} (htag : g.tag = f.tag) (hjob : g.job = f.job) :
    g.held = f.held := by
  cases hf : f.job with
  | none => rw [held_of_none hf, held_of_none (hjob.trans hf), htag]
  | some j => rw [held_of_some hf, held_of_some (hjob.trans hf), htag]

theorem Task.held_takeResult (t : Task α) : Task.held { t with result := none } = t.held := by
  obtain ⟨scheduler, body, _ | fiber, result, done⟩ := t <;> simp [Task.held]

theorem heldByTasks_eq (ts : List (Task α)) : heldByTasks ts = (ts.map Task.held).sum := by
  induction ts with
  | nil => simp [heldByTasks]
  | cons t rest ih => simp [heldByTasks, ih]

/-- What one member of a list contributes to a sum, and what the others do. -/
theorem exists_sum_map_set {β : Type} {γ : Type} [AddCommMonoid γ] (f : β → γ) {xs : List β}
    {i : Nat} {x : β} (h : xs[i]? = some x) :
    ∃ others, (xs.map f).sum = f x + others ∧
      ∀ y, ((xs.set i y).map f).sum = f y + others := by
  induction xs generalizing i with
  | nil => simp at h
  | cons head rest ih =>
      cases i with
      | zero =>
          cases h
          exact ⟨(rest.map f).sum, by simp, by simp⟩
      | succ i =>
          obtain ⟨others, hsum, hset⟩ := ih h
          refine ⟨f head + others, ?_, fun y => ?_⟩
          · rw [List.map_cons, List.sum_cons, hsum, add_left_comm]
          · rw [List.set_cons_succ, List.map_cons, List.sum_cons, hset, add_left_comm]

/-- Driving one task of a job changes what that task holds, and nothing else. -/
theorem Local.exists_held_setTask {l : Local α} {i : Nat} {t : Task α}
    (h : l.tasks[i]? = some t) :
    ∃ others, l.held = t.held + others ∧ ∀ t', (l.setTask i t').held = t'.held + others := by
  have hget : l.tasks.toList[i]? = some t := by simpa using h
  obtain ⟨others, hsum, hset⟩ := exists_sum_map_set Task.held hget
  refine ⟨others + tags l.fibers, ?_, fun t' => ?_⟩
  · rw [Local.held, heldByTasks_eq, hsum, add_assoc]
  · rw [Local.held, heldByTasks_eq, Local.setTask, Array.toList_setIfInBounds, hset, add_assoc]

theorem Local.held_addFiber (l : Local α) (f : Fiber α) :
    Local.held { l with fibers := f :: l.fibers } = f.tag ::ₘ l.held := by
  rw [Local.held, Local.held, tags_cons, Multiset.add_cons]

/-- A job that lets go of one of its fibers holds the others. -/
theorem Local.held_eraseFiber {l : Local α} {i : Nat} {f : Fiber α} (h : l.fibers[i]? = some f) :
    l.held = f.tag ::ₘ Local.held { l with fibers := l.fibers.eraseIdx i } := by
  rw [Local.held, Local.held, tags_eraseIdx h, Multiset.add_cons]

/-! ## Levels -/

def Suspended.levels (j : Suspended α) : Nat :=
  max (max j.pause.depth (depthOfSteps j.rest)) (levelsOfTasks j.tasks.toList) + 1

theorem Fiber.levels_of_some {f : Fiber α} {j : Suspended α} (h : f.job = some j) :
    f.levels = j.levels := by
  obtain ⟨number, home, state, entered, result, failure, job⟩ := f
  cases h
  obtain ⟨pause, rest, ⟨tasks⟩, fibers, deferred⟩ := j
  simp [Fiber.levels, Suspended.levels]

theorem levelsOfTasks_le {ts : List (Task α)} {n : Nat} :
    levelsOfTasks ts ≤ n ↔ ∀ t ∈ ts, t.levels ≤ n := by
  induction ts with
  | nil => simp [levelsOfTasks]
  | cons t rest ih => simp [levelsOfTasks, ih]

theorem depthOfSteps_append {a b : List (Step α)} :
    depthOfSteps (a ++ b) = max (depthOfSteps a) (depthOfSteps b) := by
  induction a with
  | nil => simp [depthOfSteps]
  | cons s rest ih => simp [depthOfSteps, ih, max_assoc]

theorem depthOfSteps_times (n : Nat) (job : Job α) :
    depthOfSteps (job.times n) ≤ depthOfSteps job := by
  unfold Job.times
  split <;> simp [depthOfSteps, Step.depth]

/-! ## Suspended fibers -/

/-- A job is suspended on a fiber that keeps nothing. -/
structure Fiber.Suspends (f : Fiber α) (j : Suspended α) : Prop where
  state : f.state = .yielded
  result : f.result = none
  failure : f.failure = none
  job : f.job = some j

theorem Fiber.Suspends.resting {f : Fiber α} {j : Suspended α} (h : f.Suspends j) :
    f.Resting := by
  simp [Fiber.Resting, h.state, h.result, h.failure, h.job]

/-! ## Sound tasks -/

/-- The life cycle of a task. -/
inductive Task.Sound : Task α → Prop where
  /-- The task has its job and no fiber. -/
  | waiting (scheduler : Nat) (body : Job α) : Task.Sound ⟨scheduler, some body, none, none, false⟩
  /-- The task has a fiber on which its job is suspended, and so have the tasks of that job. The
  other fibers of the job are ready for one. -/
  | suspended (scheduler : Nat) {f : Fiber α} {j : Suspended α} : f.state = .yielded →
      f.result = none → f.failure = none → f.job = some j → (∀ t ∈ j.tasks, Task.Sound t) →
      (∀ g ∈ j.fibers, g.Ready) → Task.Sound ⟨scheduler, none, some f, none, false⟩
  /-- The task has neither a job nor a fiber. -/
  | ended (scheduler : Nat) (result : Option (Option α)) :
      Task.Sound ⟨scheduler, none, none, result, true⟩

/-- A sound task whose job, with the jobs nested in it, is at most so many levels deep. -/
def Task.Fits (n : Nat) (t : Task α) : Prop := t.Sound ∧ t.levels ≤ n

structure Local.Fits (n : Nat) (l : Local α) : Prop where
  tasks : ∀ t ∈ l.tasks, t.Fits n
  fibers : ∀ f ∈ l.fibers, f.Ready

structure Suspended.Fits (n : Nat) (j : Suspended α) : Prop where
  levels : j.levels ≤ n
  tasks : ∀ t ∈ j.tasks, t.Sound
  fibers : ∀ f ∈ j.fibers, f.Ready

/-- A fiber at rest, and what is suspended on it. -/
def Fiber.Fits (n : Nat) (f : Fiber α) : Prop := f.Resting ∧ ∀ j, f.job = some j → j.Fits n

variable {n : Nat}

theorem Suspended.fits_succ {j : Suspended α} :
    j.Fits (n + 1) ↔ j.pause.depth ≤ n ∧ depthOfSteps j.rest ≤ n ∧ j.own.Fits n := by
  have hlevels : j.levels ≤ n + 1 ↔ j.pause.depth ≤ n ∧ depthOfSteps j.rest ≤ n ∧
      ∀ t ∈ j.tasks, t.levels ≤ n := by
    simp only [Suspended.levels, Nat.add_le_add_iff_right, max_le_iff, levelsOfTasks_le,
      Array.mem_toList_iff, and_assoc]
  constructor
  · rintro ⟨h, htasks, hfibers⟩
    obtain ⟨hpause, hrest, hnested⟩ := hlevels.mp h
    exact ⟨hpause, hrest, fun t ht => ⟨htasks t ht, hnested t ht⟩, hfibers⟩
  · rintro ⟨hpause, hrest, htasks, hfibers⟩
    exact ⟨hlevels.mpr ⟨hpause, hrest, fun t ht => (htasks t ht).2⟩, fun t ht => (htasks t ht).1,
      hfibers⟩

theorem Suspended.Fits.pos {j : Suspended α} (h : j.Fits n) : 0 < n :=
  Nat.lt_of_lt_of_le (Nat.succ_pos _) h.1

theorem Fiber.Ready.fits {f : Fiber α} (h : f.Ready) : f.Fits n :=
  ⟨h.resting, by simp [h.job]⟩

theorem Fiber.Fits.congr {f g : Fiber α} (h : f.Fits n) (hrest : g.Resting) (hjob : g.job = f.job) :
    g.Fits n :=
  ⟨hrest, fun j hj => h.2 j (hjob.symm.trans hj)⟩

/-- How many levels a fiber takes is told by its job. -/
theorem Fiber.Fits.self {f : Fiber α} (h : f.Fits n) : f.Fits f.levels := by
  refine ⟨h.1, fun j hj => ⟨?_, (h.2 j hj).tasks, (h.2 j hj).fibers⟩⟩
  rw [Fiber.levels_of_some hj]

theorem Task.Sound.fits {t : Task α} (h : t.Sound) : t.Fits t.levels := ⟨h, Nat.le_refl _⟩

theorem Task.fits_waiting {s : Nat} {body : Job α} :
    Task.Fits n ⟨s, some body, none, none, false⟩ ↔ body.levels ≤ n := by
  simp [Task.Fits, Task.levels, Task.Sound.waiting]

theorem Task.fits_suspended {s : Nat} {f : Fiber α} :
    Task.Fits n ⟨s, none, some f, none, false⟩ ↔ f.Fits n ∧ f.state = .yielded := by
  constructor
  · rintro ⟨hsound, hlevels⟩
    cases hsound with
    | @suspended _ _ j hstate hresult hfailure hjob htasks hfibers =>
        refine ⟨⟨?_, fun k hk => ?_⟩, hstate⟩
        · exact (Fiber.Suspends.mk hstate hresult hfailure hjob).resting
        · cases hjob.symm.trans hk
          simp only [Task.levels, Fiber.levels_of_some hjob] at hlevels
          exact ⟨(Nat.le_max_right _ _).trans hlevels, htasks, hfibers⟩
  · rintro ⟨⟨hrest, hjobs⟩, hstate⟩
    obtain ⟨⟨j, hjob⟩, hresult, hfailure⟩ := hrest.yielded hstate
    obtain ⟨hlevels, htasks, hfibers⟩ := hjobs j hjob
    refine ⟨.suspended s hstate hresult hfailure hjob htasks hfibers, ?_⟩
    simpa [Task.levels, Fiber.levels_of_some hjob] using hlevels

theorem Task.Sound.of_fiber {t : Task α} {f : Fiber α} (h : t.Sound) (hf : t.fiber = some f) :
    f.Resting ∧ f.state = .yielded ∧ t.body = none := by
  cases h with
  | waiting => cases hf
  | ended => cases hf
  | suspended s hstate hresult hfailure hjob =>
      cases hf
      exact ⟨(Fiber.Suspends.mk hstate hresult hfailure hjob).resting, hstate, rfl⟩

theorem Task.fits_ended {s : Nat} {result : Option (Option α)} :
    Task.Fits n ⟨s, none, none, result, true⟩ := by
  simp [Task.Fits, Task.levels, Task.Sound.ended]

/-- A task that fits is waiting, suspended on a fiber that fits, or over. -/
theorem Task.Fits.cases {t : Task α} (h : t.Fits n) :
    (∃ s, ∃ body : Job α, t = ⟨s, some body, none, none, false⟩ ∧ body.levels ≤ n) ∨
      (∃ s f, t = ⟨s, none, some f, none, false⟩ ∧ f.Fits n ∧ f.state = .yielded) ∨
      ∃ s result, t = ⟨s, none, none, result, true⟩ := by
  obtain ⟨hsound, hlevels⟩ := h
  cases hsound with
  | waiting s body => exact .inl ⟨s, body, rfl, fits_waiting.mp ⟨.waiting s body, hlevels⟩⟩
  | suspended s hstate hresult hfailure hjob htasks hfibers =>
      exact .inr (.inl ⟨s, _, rfl, fits_suspended.mp
        ⟨.suspended s hstate hresult hfailure hjob htasks hfibers, hlevels⟩⟩)
  | ended s result => exact .inr (.inr ⟨s, result, rfl⟩)

theorem Task.Fits.takeResult {t : Task α} (h : t.Fits n) :
    Task.Fits n { t with result := none } := by
  rcases h.cases with ⟨s, body, rfl, -⟩ | ⟨s, f, rfl, -⟩ | ⟨s, result, rfl⟩
  · exact h
  · exact h
  · exact fits_ended

theorem Local.Fits.setTask {l : Local α} {t : Task α} (h : l.Fits n) (ht : t.Fits n) (i : Nat) :
    (l.setTask i t).Fits n := by
  refine ⟨fun u hu => ?_, h.fibers⟩
  rw [← Array.mem_toList_iff, Local.setTask, Array.toList_setIfInBounds] at hu
  rcases List.mem_or_eq_of_mem_set hu with hold | rfl
  · exact h.tasks u (Array.mem_toList_iff.mp hold)
  · exact ht

theorem Local.fits_empty : (Local.empty : Local α).Fits n :=
  ⟨fun t ht => absurd ht (Array.not_mem_empty t), nofun⟩

theorem Local.Fits.addFiber {l : Local α} {f : Fiber α} (h : l.Fits n) (hf : f.Ready) :
    Local.Fits n { l with fibers := f :: l.fibers } :=
  ⟨h.tasks, List.forall_mem_cons.mpr ⟨hf, h.fibers⟩⟩

theorem Local.Fits.eraseFiber {l : Local α} (h : l.Fits n) (i : Nat) :
    Local.Fits n { l with fibers := l.fibers.eraseIdx i } :=
  ⟨h.tasks, fun f hf => h.fibers f (List.mem_of_mem_eraseIdx hf)⟩

end ControlFlow.Fibers

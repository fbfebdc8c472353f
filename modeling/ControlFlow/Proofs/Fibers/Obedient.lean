import ControlFlow.Proofs.Fibers.Cache

/-! # Jobs that keep to a rule

A rule says which steps may be done. A job keeps to it if all its steps do, and those of the jobs
nested inside. Whatever such a job does, it does it to the world by turns that the rule allows, and
only with schedulers that are there. The proofs follow the execution from fibers over tasks and
steps to jobs, relative to an engine for the jobs nested inside.
-/

namespace ControlFlow.Fibers

variable {α : Type}

/-! ## Rules -/

/-- Which steps may be done. -/
abbrev Rule (α : Type) := Step α → Bool

mutual

/-- The step keeps to a rule, or those that come with it do. -/
def Step.obeys (rule : Rule α) : Step α → Bool
  | .yieldElse cleanup => allObey rule cleanup
  | .repeat _ body => allObey rule body
  | .spawn _ job => allObey rule job
  | s => rule s

def allObey (rule : Rule α) : List (Step α) → Bool
  | [] => true
  | s :: rest => s.obeys rule && allObey rule rest

end

/-- A job may hold fibers of its own, which are dropped when it is left. -/
def Rule.Holds (rule : Rule α) : Prop := ∃ s, rule (.create s) = true

def Pause.obeys (rule : Rule α) : Pause α → Bool
  | .yieldElse cleanup => allObey rule cleanup
  | _ => true

variable {rule : Rule α} {k n : Nat}

theorem allObey_append {a b : List (Step α)} :
    allObey rule (a ++ b) = (allObey rule a && allObey rule b) := by
  induction a with
  | nil => simp [allObey]
  | cons s rest ih => simp [allObey, ih, Bool.and_assoc]

theorem allObey_times {body : List (Step α)} (h : allObey rule body = true) (count : Nat) :
    allObey rule (Job.times count body) = true := by
  unfold Job.times
  split <;> simp [allObey, Step.obeys, h]

/-- A task of one of so many schedulers, whose job keeps to a rule, and so do the tasks of that
job. -/
inductive Task.Obeys (rule : Rule α) (k : Nat) : Task α → Prop where
  | mk {t : Task α} : t.scheduler < k → (∀ job, t.body = some job → allObey rule job = true) →
      (∀ f j, t.fiber = some f → f.job = some j → j.pause.obeys rule = true) →
      (∀ f j, t.fiber = some f → f.job = some j → allObey rule j.rest = true) →
      (∀ f j, t.fiber = some f → f.job = some j → ∀ u ∈ j.tasks, Task.Obeys rule k u) →
      (∀ f j, t.fiber = some f → f.job = some j → ∀ g ∈ j.fibers, rule.Holds) →
      Task.Obeys rule k t

structure Local.Obeys (rule : Rule α) (k : Nat) (l : Local α) : Prop where
  tasks : ∀ t ∈ l.tasks, t.Obeys rule k
  fibers : ∀ f ∈ l.fibers, rule.Holds

structure Suspended.Obeys (rule : Rule α) (k : Nat) (j : Suspended α) : Prop where
  pause : j.pause.obeys rule = true
  rest : allObey rule j.rest = true
  own : j.own.Obeys rule k

/-- Only a job that keeps to the rule is suspended on the fiber. -/
def Fiber.Obeys (rule : Rule α) (k : Nat) (f : Fiber α) : Prop :=
  ∀ j, f.job = some j → j.Obeys rule k

theorem Task.obeys_iff {t : Task α} : t.Obeys rule k ↔ t.scheduler < k ∧
    (∀ job, t.body = some job → allObey rule job = true) ∧
    ∀ f, t.fiber = some f → f.Obeys rule k := by
  constructor
  · rintro ⟨hscheduler, hbody, hpause, hrest, htasks, hfibers⟩
    exact ⟨hscheduler, hbody, fun f hf j hj =>
      ⟨hpause f j hf hj, hrest f j hf hj, htasks f j hf hj, hfibers f j hf hj⟩⟩
  · rintro ⟨hscheduler, hbody, hfiber⟩
    exact ⟨hscheduler, hbody, fun f j hf hj => (hfiber f hf j hj).pause,
      fun f j hf hj => (hfiber f hf j hj).rest, fun f j hf hj => (hfiber f hf j hj).own.tasks,
      fun f j hf hj => (hfiber f hf j hj).own.fibers⟩

/-- A task that has neither a job nor a fiber keeps to every rule. -/
theorem Task.obeys_ended {s : Nat} (hs : s < k) (result : Option (Option α)) :
    Task.Obeys rule k ⟨s, none, none, result, true⟩ :=
  obeys_iff.mpr ⟨hs, nofun, nofun⟩

theorem Task.obeys_suspended {s : Nat} (hs : s < k) {f : Fiber α} (hf : f.Obeys rule k) :
    Task.Obeys rule k ⟨s, none, some f, none, false⟩ :=
  obeys_iff.mpr ⟨hs, nofun, fun _ hg => Option.some.inj hg ▸ hf⟩

theorem Task.Obeys.takeResult {t : Task α} (h : t.Obeys rule k) :
    Task.Obeys rule k { t with result := none } := by
  rw [obeys_iff] at h ⊢
  exact h

theorem Fiber.obeys_of_none {f : Fiber α} (h : f.job = none) : f.Obeys rule k := by
  simp [Fiber.Obeys, h]

theorem Local.obeys_empty : (Local.empty : Local α).Obeys rule k :=
  ⟨fun t ht => absurd ht (Array.not_mem_empty t), nofun⟩

theorem Local.Obeys.eraseFiber {l : Local α} (h : l.Obeys rule k) (i : Nat) :
    Local.Obeys rule k { l with fibers := l.fibers.eraseIdx i } :=
  ⟨h.tasks, fun f hf => h.fibers f (List.mem_of_mem_eraseIdx hf)⟩

theorem Local.Obeys.setTask {l : Local α} {t : Task α} (h : l.Obeys rule k) (ht : t.Obeys rule k)
    (i : Nat) : (l.setTask i t).Obeys rule k := by
  refine ⟨fun u hu => ?_, h.fibers⟩
  rw [← Array.mem_toList_iff, Local.setTask, Array.toList_setIfInBounds] at hu
  rcases List.mem_or_eq_of_mem_set hu with hold | rfl
  · exact h.tasks u (Array.mem_toList_iff.mp hold)
  · exact ht

/-! ## Turns -/

/-- What a job that keeps to a rule may do to the world at once. -/
inductive Turn (rule : Rule α) : World α → World α → Prop where
  | note (w : World α) (entry : Entry α) : Turn rule w (w.note entry)
  | enter (w : World α) (s : Nat) : Turn rule w (w.count s .entered)
  | create {w : World α} {s : Nat} : s < w.schedulers.length → Turn rule w (w.create s).2
  | giveBack {w : World α} {s : Nat} {f : Fiber α} : s < w.schedulers.length → f.Ready →
      Turn rule w (w.takeBack s f)
  | drop (w : World α) (tag : Tag) : rule.Holds → Turn rule w (w.lose tag)
  | prime (w : World α) {s : Nat} : rule (.prime s) = true → Turn rule w (w.prime s)
  | reset (w : World α) {s : Nat} : rule (.reset s) = true → Turn rule w (w.reset s)

def Turns (rule : Rule α) : World α → World α → Prop := Relation.ReflTransGen (Turn rule)

/-- A tidy world with so many schedulers. -/
structure World.Stands (k : Nat) (w : World α) : Prop where
  tidy : w.Tidy
  length : w.schedulers.length = k

theorem Turn.stands {w v : World α} (h : Turn rule w v) (hw : w.Stands k) : v.Stands k := by
  have hquiet {v : World α} (h : World.Quiet w v) : v.Stands k :=
    ⟨h.tidy hw.tidy, h.length.trans hw.length⟩
  cases h with
  | note => exact ⟨hw.tidy, hw.length⟩
  | enter s => exact hquiet (World.quiet_count w s _)
  | @create s hs => exact hquiet (World.quiet_create w s)
  | @giveBack s f hs hready => exact hquiet (World.quiet_takeBack w s hready)
  | drop tag => exact hquiet (World.quiet_lose w tag)
  | @prime s hs => exact hquiet (World.quiet_prime w s)
  | @reset s hs => exact hquiet (World.quiet_reset w s)

namespace Turns

variable {u v w : World α}

theorem refl (w : World α) : Turns rule w w := Relation.ReflTransGen.refl

theorem trans (h : Turns rule w v) (h' : Turns rule v u) : Turns rule w u :=
  Relation.ReflTransGen.trans h h'

theorem single (h : Turn rule w v) : Turns rule w v := Relation.ReflTransGen.single h

theorem stands (h : Turns rule w v) (hw : w.Stands k) : v.Stands k := by
  induction h with
  | refl => exact hw
  | tail _ hlast ih => exact hlast.stands ih

theorem notes (w : World α) (vs : List α) :
    Turns rule w (vs.foldl (fun w v => w.note (.deferred v)) w) := by
  induction vs generalizing w with
  | nil => exact .refl w
  | cons v rest ih => exact (single (.note w (.deferred v))).trans (ih _)

/-- The fibers of a job are dropped, if it may hold any. -/
theorem drops {fs : List (Fiber α)} (hfs : ∀ f ∈ fs, f.Ready ∧ rule.Holds) (e : Engine α)
    (w : World α) : Turns rule w (fs.foldl (fun w f => f.drop e w) w) := by
  induction fs generalizing w with
  | nil => exact .refl w
  | cons f rest ih =>
      obtain ⟨hready, hholds⟩ := hfs f List.mem_cons_self
      rw [List.foldl_cons, Fiber.drop_of_none hready.job]
      exact (single (.drop w f.tag hholds)).trans (ih (fun g hg => hfs g (.tail f hg)) _)

/-- The context of a fiber is counted when a job is started in it for the first time. -/
theorem entering (f : Fiber α) (w : World α) :
    Turns rule w (if f.entered then w else w.count f.home .entered) := by
  split
  · exact .refl w
  · exact .single (.enter w f.home)

end Turns

/-- A job stopped after turns that the rule allows. -/
structure Heeds (rule : Rule α) (k : Nat) (w : World α) (r : Stop α × World α) : Prop where
  turns : Turns rule w r.2
  obeys : ∀ j, r.1 = .suspended j → j.Obeys rule k

/-- Jobs that keep to the rule are carried out by turns that it allows. -/
structure Engine.Obeys (e : Engine α) (rule : Rule α) (k n : Nat) : Prop where
  lawful : e.Lawful n
  start : ∀ (job : Job α) w, job.levels ≤ n → allObey rule job = true → w.Stands k →
    Heeds rule k w (e.start job w)
  resume : ∀ j w, j.Fits n → j.Obeys rule k → w.Stands k → Heeds rule k w (e.resume j w)
  cancel : ∀ j w, j.Fits n → j.Obeys rule k → w.Stands k → Heeds rule k w (e.cancel j w)
  giveUp : ∀ j w, j.Fits n → j.Obeys rule k → w.Stands k → Turns rule w (e.giveUp j w)

variable {e : Engine α} {w : World α}

/-! ## Fibers -/

section Fibers

variable {f : Fiber α}

theorem Fiber.obeys_settle {stop : Stop α} (h : ∀ j, stop = .suspended j → j.Obeys rule k)
    (state : FiberState) : (f.settle state stop).Obeys rule k := by
  cases stop with
  | returned value => exact obeys_of_none rfl
  | failed how => cases how <;> exact obeys_of_none rfl
  | suspended j =>
      intro i hi
      cases hi
      exact h j rfl

/-- If a fiber was driven, it was by turns that the rule allows. -/
def Fiber.Heeded (rule : Rule α) (k : Nat) (w : World α)
    (r : Except Failure (Fiber α × World α)) : Prop :=
  ∀ f' w', r = .ok (f', w') → f'.Obeys rule k ∧ Turns rule w w'

theorem Engine.Obeys.runFiber (he : e.Obeys rule k n) (hfree : f.isFree = true) {job : Job α}
    (hjob : job.levels ≤ n) (hobeys : allObey rule job = true) (hw : w.Stands k) :
    Fiber.Heeded rule k w (f.run e job w) := by
  intro f' w' hrun
  have henter : Turns rule w (if f.entered then w else w.count f.home .entered) := .entering f w
  have hheeds := he.start job _ hjob hobeys (henter.stands hw)
  rw [Fiber.run_of_isFree hfree] at hrun
  cases hrun
  exact ⟨Fiber.obeys_settle hheeds.obeys _, henter.trans hheeds.turns⟩

theorem Engine.Obeys.resumeFiber (he : e.Obeys rule k n) (hf : f.Fits n) (hobeys : f.Obeys rule k)
    (hw : w.Stands k) : Fiber.Heeded rule k w (f.resume e w) := by
  intro f' w' hresume
  unfold Fiber.resume at hresume
  split at hresume
  next j hstate hjob =>
    cases hresume
    have hheeds := he.resume j w (hf.2 j hjob) (hobeys j hjob) hw
    exact ⟨Fiber.obeys_settle hheeds.obeys _, hheeds.turns⟩
  next => cases hresume

theorem Engine.Obeys.stop (he : e.Obeys rule k n) {j : Suspended α} (hj : j.Fits n)
    (hobeys : j.Obeys rule k) (hw : w.Stands k) : Turns rule w (e.stop j w) := by
  have hheeds := he.cancel j w hj hobeys hw
  have hfits := (he.lawful.cancel j w hj hw.tidy).fits
  unfold Engine.stop
  split
  next i hi =>
    exact hheeds.turns.trans
      (he.giveUp i _ (hfits i hi) (hheeds.obeys i hi) (hheeds.turns.stands hw))
  next => exact hheeds.turns

theorem Engine.Obeys.abortFiber (he : e.Obeys rule k n) (hf : f.Fits n) (hobeys : f.Obeys rule k)
    (hw : w.Stands k) : Fiber.Heeded rule k w (f.abort e w) := by
  intro f' w' habort
  by_cases hstate : f.state = .yielded
  · obtain ⟨⟨j, hjob⟩, -⟩ := hf.1.yielded hstate
    obtain ⟨g, hg, -, -, -, hnone, -⟩ := Fiber.abort_of_yielded (e := e) (w := w) hstate hjob
    cases hg.symm.trans habort
    exact ⟨Fiber.obeys_of_none hnone, he.stop (hf.2 j hjob) (hobeys j hjob) hw⟩
  · rw [Fiber.abort_of_not_yielded hstate] at habort
    cases habort

theorem Engine.Obeys.destroy (he : e.Obeys rule k n) (hf : f.Fits n) (hobeys : f.Obeys rule k)
    (hw : w.Stands k) {s : Nat} (hs : s < k) : Turns rule w (f.destroy e s w) := by
  have hstopped : Turns rule w (f.stopped e w).2 := by
    unfold Fiber.stopped
    split
    next stopped habort => exact (he.abortFiber hf hobeys hw stopped.1 stopped.2 habort).2
    next => exact .refl w
  obtain ⟨hrest, hstate⟩ := hf.1.stopped (e := e) (w := w)
  rw [Fiber.destroy_eq hf.1]
  refine hstopped.trans (.single (.giveBack ?_ (hrest.clear hstate)))
  rw [(hstopped.stands hw).length]
  exact hs

theorem Engine.Obeys.dropFiber (he : e.Obeys rule k n) (hf : f.Fits n) (hobeys : f.Obeys rule k)
    (hholds : rule.Holds) (hw : w.Stands k) : Turns rule w (f.drop e w) := by
  have hlost : Turn rule w (w.lose f.tag) := .drop w f.tag hholds
  cases hjob : f.job with
  | none =>
      rw [Fiber.drop_of_none hjob]
      exact .single hlost
  | some j =>
      rw [Fiber.drop_of_some hjob]
      exact (Turns.single hlost).trans
        (he.giveUp j _ (hf.2 j hjob) (hobeys j hjob) (hlost.stands hw))

end Fibers

/-! ## Tasks -/

section Tasks

variable {t : Task α}

/-- A task was driven by turns that the rule allows, and keeps to the rule after it. -/
def Task.Heeded (rule : Rule α) (k : Nat) (w : World α)
    (r : Task.Delivery × Task α × World α) : Prop :=
  r.2.1.Obeys rule k ∧ Turns rule w r.2.2

theorem Engine.Obeys.settle (he : e.Obeys rule k n) {f : Fiber α} (hf : f.Fits n)
    (hobeys : f.Obeys rule k) (hw : w.Stands k) {s : Nat} (hs : s < k)
    (last : Option (Fiber α)) :
    Task.Heeded rule k w (Task.settle e ⟨s, .none, last, .none, false⟩ f w) := by
  unfold Task.settle
  split
  next how _ =>
    have hclean : Fiber.Fits n { f with failure := .none } :=
      hf.congr (Fiber.Step.takeFailure.resting hf.1) rfl
    exact ⟨Task.obeys_ended hs _, he.destroy hclean hobeys hw hs⟩
  next value _ _ =>
    have hclean : Fiber.Fits n { f with result := .none } :=
      hf.congr (Fiber.Step.takeResult.resting hf.1) rfl
    exact ⟨Task.obeys_ended hs _, he.destroy hclean hobeys hw hs⟩
  next => exact ⟨Task.obeys_suspended hs hobeys, .refl w⟩

theorem Engine.Obeys.runTask (he : e.Obeys rule k n) (ht : t.Fits n) (hobeys : t.Obeys rule k)
    (hw : w.Stands k) : Task.Heeded rule k w (t.run e w) := by
  rcases ht.cases with ⟨s, body, rfl, hjob⟩ | ⟨s, f, rfl, -⟩ | ⟨s, result, rfl⟩
  · obtain ⟨hscheduler, hbody, -⟩ := Task.obeys_iff.mp hobeys
    obtain ⟨hready, htidy⟩ := hw.tidy.create s
    have hcreate : Turn rule w (w.create s).2 := .create (hw.length.symm ▸ hscheduler)
    have hcreated := hcreate.stands hw
    obtain ⟨f, w', hrun, -, hfits, -⟩ :=
      he.lawful.runFiber hready.resting hready.isFree hjob htidy
    obtain ⟨hf, hran⟩ :=
      he.runFiber hready.isFree hjob (hbody body rfl) hcreated f w' hrun
    have hsettle := he.settle hfits hf (hran.stands hcreated) hscheduler .none
    simp only [Task.Heeded, Task.run, hrun] at hsettle ⊢
    exact ⟨hsettle.1, (Turns.single hcreate).trans (hran.trans hsettle.2)⟩
  · exact ⟨hobeys, .refl w⟩
  · exact ⟨hobeys, .refl w⟩

theorem Engine.Obeys.resumeTask (he : e.Obeys rule k n) (ht : t.Fits n) (hobeys : t.Obeys rule k)
    (hw : w.Stands k) : Task.Heeded rule k w (t.resume e w) := by
  rcases ht.cases with ⟨s, body, rfl, -⟩ | ⟨s, f, rfl, hf, hstate⟩ | ⟨s, result, rfl⟩
  · exact ⟨hobeys, .refl w⟩
  · obtain ⟨hscheduler, -, hfiber⟩ := Task.obeys_iff.mp hobeys
    obtain ⟨f', w', hresume, -, hfits, -⟩ := he.lawful.resumeFiber hf hstate hw.tidy
    obtain ⟨hf', hresumed⟩ := he.resumeFiber hf (hfiber f rfl) hw f' w' hresume
    have hsettle := he.settle hfits hf' (hresumed.stands hw) hscheduler (some f)
    simp only [Task.Heeded, Task.resume, hresume] at hsettle ⊢
    exact ⟨hsettle.1, hresumed.trans hsettle.2⟩
  · exact ⟨hobeys, .refl w⟩

theorem Engine.Obeys.abortTask (he : e.Obeys rule k n) (ht : t.Fits n) (hobeys : t.Obeys rule k)
    (hw : w.Stands k) : Task.Heeded rule k w (t.abort e w) := by
  obtain ⟨hscheduler, -, hfiber⟩ := Task.obeys_iff.mp hobeys
  rcases ht.cases with ⟨s, body, rfl, -⟩ | ⟨s, f, rfl, hf, hstate⟩ | ⟨s, result, rfl⟩
  · exact ⟨Task.obeys_ended hscheduler _, .refl w⟩
  · obtain ⟨g, v, habort, -, hrest, hstate'⟩ := he.lawful.abortFiber hf hstate hw.tidy
    have hstopped := (he.abortFiber hf (hfiber f rfl) hw g v habort).2
    have hnone := hrest.job_eq_none hstate'
    have hclean : Fiber.Fits n { g with failure := .none } :=
      ⟨Fiber.Step.takeFailure.resting hrest, by simp [hnone]⟩
    have hdestroy := he.destroy hclean (Fiber.obeys_of_none hnone) (hstopped.stands hw) hscheduler
    simp only [Task.Heeded, Task.abort, habort]
    exact ⟨Task.obeys_ended hscheduler _, hstopped.trans hdestroy⟩
  · exact ⟨Task.obeys_ended hscheduler _, .refl w⟩

theorem Engine.Obeys.drop (he : e.Obeys rule k n) (ht : t.Fits n) (hobeys : t.Obeys rule k)
    (hw : w.Stands k) : Turns rule w (t.drop e w) := by
  obtain ⟨hscheduler, -, hfiber⟩ := Task.obeys_iff.mp hobeys
  rcases ht.cases with ⟨s, body, rfl, -⟩ | ⟨s, f, rfl, hf, -⟩ | ⟨s, result, rfl⟩
  · exact .refl w
  · exact he.destroy hf (hfiber f rfl) hw hscheduler
  · exact .refl w

end Tasks

/-! ## Jobs -/

section Jobs

variable {l : Local α}

theorem Engine.Obeys.drops (he : e.Obeys rule k n) {ts : List (Task α)}
    (hts : ∀ t ∈ ts, t.Fits n ∧ t.Obeys rule k) (hw : w.Stands k) :
    Turns rule w (ts.foldl (fun w t => t.drop e w) w) := by
  induction ts generalizing w with
  | nil => exact .refl w
  | cons t rest ih =>
      obtain ⟨hfits, hobeys⟩ := hts t List.mem_cons_self
      have hdrop := he.drop hfits hobeys hw
      exact hdrop.trans (ih (fun u hu => hts u (List.mem_cons_of_mem t hu)) (hdrop.stands hw))

theorem Engine.Obeys.leave (he : e.Obeys rule k n) (hl : l.Fits n) (hobeys : l.Obeys rule k)
    (hw : w.Stands k) : Turns rule w (l.leave e w) := by
  have htasks : ∀ t ∈ l.tasks.toList, t.Fits n ∧ t.Obeys rule k := fun t ht =>
    ⟨hl.tasks t (Array.mem_toList_iff.mp ht), hobeys.tasks t (Array.mem_toList_iff.mp ht)⟩
  have hdrops := he.drops htasks hw
  rw [Array.foldl_toList] at hdrops
  have hfibers := Turns.drops (fun f hf => ⟨hl.fibers f hf, hobeys.fibers f hf⟩) e
    (l.tasks.foldl (fun w t => t.drop e w) w)
  exact hdrops.trans (hfibers.trans (.notes _ l.deferred))

namespace Progress

/-- A job that keeps to the rule got here, and what it has left to do keeps to the rule as well. -/
structure Heeds (rule : Rule α) (k : Nat) (w : World α) (p : Progress α) : Prop where
  turns : Turns rule w p.world
  own : p.own.Obeys rule k
  left : ∀ pause left l w', p = .paused pause left l w' →
    pause.obeys rule = true ∧ allObey rule left = true

theorem Heeds.after {w' : World α} {p : Progress α} (hw : Turns rule w w')
    (h : p.Heeds rule k w') : p.Heeds rule k w :=
  ⟨hw.trans h.turns, h.own, h.left⟩

theorem heeds_through (hl : l.Obeys rule k) : (through l w).Heeds rule k w := ⟨.refl w, hl, nofun⟩

theorem heeds_returned (hl : l.Obeys rule k) (value : α) :
    (returned value l w).Heeds rule k w := ⟨.refl w, hl, nofun⟩

theorem heeds_note (hl : l.Obeys rule k) (entry : Entry α) :
    (through l (w.note entry)).Heeds rule k w :=
  (heeds_through hl).after (.single (.note w entry))

theorem heeds_failed (hl : l.Obeys rule k) (how : Failure) : (failed how l w).Heeds rule k w :=
  ⟨.refl w, hl, nofun⟩

theorem heeds_paused (hl : l.Obeys rule k) {pause : Pause α} (hpause : pause.obeys rule = true) :
    (paused pause [] l w).Heeds rule k w := by
  refine ⟨.refl w, hl, fun _ _ _ _ heq => ?_⟩
  cases heq
  exact ⟨hpause, rfl⟩

/-- A job that is suspended may have more left to do. -/
theorem Heeds.more {pause : Pause α} {left : List (Step α)} {w' : World α}
    (h : (paused pause left l w').Heeds rule k w) {steps : List (Step α)}
    (hsteps : allObey rule steps = true) : (paused pause (left ++ steps) l w').Heeds rule k w := by
  refine ⟨h.turns, h.own, fun _ _ _ _ heq => ?_⟩
  cases heq
  obtain ⟨hpause, hleft⟩ := h.left _ _ _ _ rfl
  exact ⟨hpause, by simp [allObey_append, hleft, hsteps]⟩

end Progress

open Progress

theorem Local.heeds_afterTask (hl : l.Obeys rule k) (i : Nat)
    {r : Task.Delivery × Task α × World α} (h : Task.Heeded rule k w r) :
    (l.afterTask i r).Heeds rule k w := by
  obtain ⟨delivery, t, w'⟩ := r
  obtain ⟨ht, hturns⟩ := h
  have hown := hl.setTask ht i
  cases delivery with
  | none => exact (heeds_through hown).after hturns
  | some how => exact (heeds_failed hown how).after hturns

theorem Local.heeds_withTask (hfits : l.Fits n) (hl : l.Obeys rule k) {i : Nat}
    {act : Task α → Progress α}
    (hact : ∀ t, t.Fits n → t.Obeys rule k → (act t).Heeds rule k w) :
    (l.withTask i w act).Heeds rule k w := by
  unfold Local.withTask
  split
  next t ht =>
    have hmem := Array.mem_of_getElem? ht
    exact hact t (hfits.tasks t hmem) (hl.tasks t hmem)
  next => exact heeds_failed hl _

/-- A job lets go of one of its fibers by a turn that the rule allows. -/
theorem Local.heeds_withFiber (hfits : l.Fits n) (hl : l.Obeys rule k) {i : Nat}
    {after : Fiber α → World α}
    (hafter : ∀ f : Fiber α, f.Ready → rule.Holds → Turn rule w (after f)) :
    (l.withFiber i w fun f l => .through l (after f)).Heeds rule k w := by
  unfold Local.withFiber
  split
  next f hf =>
    have hmem := List.mem_of_getElem? hf
    exact (heeds_through (hl.eraseFiber i)).after
      (.single (hafter f (hfits.fibers f hmem) (hl.fibers f hmem)))
  next => exact heeds_failed hl _

theorem heeds_doTimes {body : List (Step α)} (hbody : allObey rule body = true)
    {once : Local α → World α → Progress α}
    (honce : ∀ l w, l.Fits n → l.Obeys rule k → w.Stands k →
      (once l w).Heeds rule k w ∧ (once l w).own.Fits n)
    (count : Nat) (hfits : l.Fits n) (hl : l.Obeys rule k) (hw : w.Stands k) :
    (doTimes body once count l w).Heeds rule k w := by
  induction count generalizing l w with
  | zero => exact heeds_through hl
  | succ count ih =>
      obtain ⟨hfirst, hown⟩ := honce l w hfits hl hw
      unfold doTimes
      split
      next l' w' hthrough =>
        rw [hthrough] at hfirst hown
        exact (ih hown hfirst.own (hfirst.turns.stands hw)).after hfirst.turns
      next pause left l' w' hpaused =>
        rw [hpaused] at hfirst
        exact hfirst.more (allObey_times hbody count)
      next => exact hfirst

theorem heeds_doSteps (he : e.Obeys rule k n) (state : FiberState) :
    ∀ (steps : List (Step α)) l w, depthOfSteps steps ≤ n → allObey rule steps = true →
      l.Fits n → l.Obeys rule k → w.Stands k → (doSteps e state steps l w).Heeds rule k w := by
  refine steps_induction
    (P := fun s => ∀ l w, s.depth ≤ n → s.obeys rule = true → l.Fits n → l.Obeys rule k →
      w.Stands k → (doStep e state s l w).Heeds rule k w)
    (Q := fun steps => ∀ l w, depthOfSteps steps ≤ n → allObey rule steps = true → l.Fits n →
      l.Obeys rule k → w.Stands k → (doSteps e state steps l w).Heeds rule k w) ?step ?nil ?cons
  case nil => exact fun l w _ _ _ hl _ => heeds_through hl
  case cons =>
    intro s rest ihs ihrest l w hdepth hobeys hfits hl hw
    simp only [depthOfSteps, max_le_iff] at hdepth
    simp only [allObey, Bool.and_eq_true] at hobeys
    have hfirst := ihs l w hdepth.1 hobeys.1 hfits hl hw
    -- A step is done as a list of its own.
    have hown := (keeps_doSteps he.lawful state [s] l w (by simpa [depthOfSteps] using hdepth.1)
      hfits hw.tidy).fits
    unfold doSteps
    split
    next l' w' hthrough =>
      simp only [doSteps, hthrough] at hfirst hown
      exact (ihrest l' w' hdepth.2 hobeys.2 hown hfirst.own (hfirst.turns.stands hw)).after
        hfirst.turns
    next pause left l' w' hpaused =>
      rw [hpaused] at hfirst
      exact hfirst.more hobeys.2
    next => exact hfirst
  case step =>
    intro s ihbody l w hdepth hobeys hfits hl hw
    cases s with
    | log v => exact heeds_note hl _
    | yield => exact heeds_paused hl rfl
    | yieldAny => exact heeds_paused hl rfl
    | yieldElse cleanup => exact heeds_paused hl hobeys
    | state => exact heeds_note hl _
    | «return» v => exact heeds_returned hl v
    | error text => exact heeds_failed hl _
    | cancel => exact heeds_failed hl _
    | panic text => exact heeds_failed hl _
    | «repeat» count body =>
        simp only [doStep]
        refine heeds_doTimes hobeys (fun l w hfits hl hw => ?_) count hfits hl hw
        exact ⟨ihbody count body rfl l w hdepth hobeys hfits hl hw,
          (keeps_doSteps he.lawful state body l w hdepth hfits hw.tidy).fits⟩
    | defer v => exact heeds_through ⟨hl.tasks, hl.fibers⟩
    | statistics s =>
        simp only [doStep]
        split
        · exact heeds_note hl _
        · exact heeds_failed hl _
    | prime s =>
        simp only [doStep]
        split
        · exact (heeds_through hl).after (.single (.prime w hobeys))
        · exact heeds_failed hl _
    | reset s =>
        simp only [doStep]
        split
        · exact (heeds_through hl).after (.single (.reset w hobeys))
        · exact heeds_failed hl _
    | create s =>
        simp only [doStep]
        split
        next hs =>
          have hown : Local.Obeys rule k { l with fibers := (w.create s).1 :: l.fibers } :=
            ⟨hl.tasks, fun _ _ => ⟨s, hobeys⟩⟩
          exact (heeds_through hown).after (.single (.create hs))
        next => exact heeds_failed hl _
    | destroy i s =>
        simp only [doStep]
        split
        next hs =>
          refine Local.heeds_withFiber hfits hl fun f hready _ => ?_
          rw [hready.destroy_eq]
          exact .giveBack hs hready
        next => exact heeds_failed hl _
    | drop i =>
        simp only [doStep]
        refine Local.heeds_withFiber hfits hl fun f hready hholds => ?_
        rw [Fiber.drop_of_none hready.job]
        exact .drop w f.tag hholds
    | spawn s job =>
        simp only [doStep]
        split
        next hs =>
          refine heeds_through ⟨fun t ht => ?_, hl.fibers⟩
          rcases Array.mem_push.mp ht with hold | rfl
          · exact hl.tasks t hold
          · refine Task.obeys_iff.mpr ⟨hw.length ▸ hs, fun body hbody => ?_, by simp [Task.fresh]⟩
            exact Option.some.inj hbody ▸ hobeys
        next => exact heeds_failed hl _
    | run i =>
        simp only [doStep]
        exact Local.heeds_withTask hfits hl fun t ht hobeys =>
          Local.heeds_afterTask hl i (he.runTask ht hobeys hw)
    | resume i =>
        simp only [doStep]
        exact Local.heeds_withTask hfits hl fun t ht hobeys =>
          Local.heeds_afterTask hl i (he.resumeTask ht hobeys hw)
    | abort i =>
        simp only [doStep]
        exact Local.heeds_withTask hfits hl fun t ht hobeys =>
          Local.heeds_afterTask hl i (he.abortTask ht hobeys hw)
    | isDone i =>
        simp only [doStep]
        exact Local.heeds_withTask hfits hl fun t _ _ => heeds_note hl _
    | take i =>
        simp only [doStep]
        exact Local.heeds_withTask hfits hl fun t _ hobeys =>
          heeds_note (hl.setTask hobeys.takeResult i) _

theorem heeds_doJob (he : e.Obeys rule k n) (state : FiberState) {steps : List (Step α)}
    (hsteps : depthOfSteps steps ≤ n) (hobeys : allObey rule steps = true) (hfits : l.Fits n)
    (hl : l.Obeys rule k) (hw : w.Stands k) : Heeds rule k w (doJob e state steps l w) := by
  have hdone := heeds_doSteps he state steps l w hsteps hobeys hfits hl hw
  have hown := (keeps_doSteps he.lawful state steps l w hsteps hfits hw.tidy).fits
  have hleave := hdone.turns.trans (he.leave hown hdone.own (hdone.turns.stands hw))
  unfold doJob
  split
  next l' w' heq =>
    rw [heq] at hleave
    exact ⟨hleave, nofun⟩
  next v l' w' heq =>
    rw [heq] at hleave
    exact ⟨hleave, nofun⟩
  next how l' w' heq =>
    rw [heq] at hleave
    exact ⟨hleave, nofun⟩
  next pause left l' w' heq =>
    obtain ⟨hpause, hleft⟩ := hdone.left _ _ _ _ heq
    rw [heq] at hdone
    refine ⟨hdone.turns, fun j hj => ?_⟩
    cases hj
    exact ⟨hpause, hleft, hdone.own⟩

theorem Heeds.after_note (entry : Entry α) {r : Stop α × World α}
    (h : Heeds rule k (w.note entry) r) : Heeds rule k w r :=
  ⟨(Turns.single (.note w entry)).trans h.turns, h.obeys⟩

/-- An engine for jobs is as obedient as the one for the jobs nested inside. -/
theorem Engine.Obeys.over (he : e.Obeys rule k n) : e.over.Obeys rule k (n + 1) where
  lawful := he.lawful.over
  start job w hjob hobeys hw :=
    heeds_doJob he .running (Nat.le_of_succ_le_succ hjob) hobeys Local.fits_empty
      Local.obeys_empty hw
  resume j w hj hobeys hw := by
    obtain ⟨pause, rest, tasks, fibers, deferred⟩ := j
    obtain ⟨-, hrest, hown⟩ := Suspended.fits_succ.mp hj
    have hturn : Turn rule w (w.note .resumed) := .note w .resumed
    cases pause with
    | yieldAny =>
        exact .after_note .resumed
          (heeds_doJob he .running hrest hobeys.rest hown hobeys.own (hturn.stands hw))
    | yield | yieldElse _ => exact heeds_doJob he .running hrest hobeys.rest hown hobeys.own hw
  cancel j w hj hobeys hw := by
    obtain ⟨pause, rest, tasks, fibers, deferred⟩ := j
    obtain ⟨hpause, hrest, hown⟩ := Suspended.fits_succ.mp hj
    have hturn : Turn rule w (w.note .cancelled) := .note w .cancelled
    cases pause with
    | yield => exact ⟨he.leave hown hobeys.own hw, nofun⟩
    | yieldAny =>
        exact .after_note .cancelled
          (heeds_doJob he .aborting hrest hobeys.rest hown hobeys.own (hturn.stands hw))
    | yieldElse cleanup =>
        refine heeds_doJob he .aborting ?_ ?_ hown hobeys.own hw
        · rw [depthOfSteps_append]
          exact max_le hpause hrest
        · rw [allObey_append, hobeys.rest, Bool.and_true]
          exact hobeys.pause
  giveUp j w hj hobeys hw := he.leave (Suspended.fits_succ.mp hj).2.2 hobeys.own hw

/-- Every engine carries out the jobs of its levels by turns that their rule allows. -/
theorem obeys_engine (rule : Rule α) (k n : Nat) :
    (engine n : Engine α).Obeys rule k n := by
  induction n with
  | zero =>
      have hnone {j : Suspended α} (hj : j.Fits 0) : False := Nat.lt_irrefl 0 hj.pos
      exact ⟨lawful_engine 0, fun job w hjob => absurd hjob (Nat.not_succ_le_zero _),
        fun j w hj => (hnone hj).elim, fun j w hj => (hnone hj).elim,
        fun j w hj => (hnone hj).elim⟩
  | succ n ih => exact ih.over

end Jobs

/-! ## Points on the way -/

/-- What goes on keeps to the rule. -/
def Activity.Obeys (rule : Rule α) (k : Nat) : Activity α → Prop
  | .job _ left l _ | .steps _ left l _ => allObey rule left = true ∧ l.Obeys rule k
  | .stop j _ => j.Obeys rule k
  | .drops ts fs _ => (∀ t ∈ ts, t.Obeys rule k) ∧ ∀ f ∈ fs, rule.Holds

/-- What goes on keeps to the rule, in a world that was reached by turns that it allows. -/
structure Point.Obeys (rule : Rule α) (k : Nat) (w : World α) (p : Point α) : Prop where
  turns : Turns rule w p.world
  activity : p.activity.Obeys rule k

namespace Point.Obeys

variable {others : Multiset Tag} {q : Point α}

theorem after {w' : World α} (hw : Turns rule w w') (h : q.Obeys rule k w') : q.Obeys rule k w :=
  ⟨hw.trans h.turns, h.activity⟩

theorem starting {f : Fiber α} {job : Job α} (hjob : allObey rule job = true) :
    Point.Obeys rule k w ⟨n, f.starting job w, others⟩ :=
  ⟨.entering f w, hjob, Local.obeys_empty⟩

theorem resuming {j : Suspended α} (hj : j.Obeys rule k) :
    Point.Obeys rule k w ⟨n, j.resuming w, others⟩ := by
  obtain ⟨pause, rest, tasks, fibers, deferred⟩ := j
  cases pause with
  | yieldAny => exact ⟨.single (.note w .resumed), hj.rest, hj.own⟩
  | yield | yieldElse _ => exact ⟨.refl w, hj.rest, hj.own⟩

theorem dropping {l : Local α} (hl : l.Obeys rule k) :
    Point.Obeys rule k w ⟨n, l.dropping w, others⟩ :=
  ⟨.refl w, fun t ht => hl.tasks t (Array.mem_toList_iff.mp ht), hl.fibers⟩

theorem unwinding {j : Suspended α} (hj : j.Obeys rule k) :
    Point.Obeys rule k w ⟨n, j.unwinding w, others⟩ := by
  obtain ⟨pause, rest, tasks, fibers, deferred⟩ := j
  obtain ⟨hpause, hrest, hown⟩ := hj
  cases pause with
  | yield => exact dropping hown
  | yieldAny => exact ⟨.single (.note w .cancelled), hrest, hown⟩
  | yieldElse cleanup =>
      refine ⟨.refl w, ?_, hown⟩
      rw [allObey_append, hrest, Bool.and_true]
      exact hpause

end Point.Obeys

theorem Part.obeys {p q : Point α} (h : Part p q) (hfits : p.Fits)
    (hp : p.activity.Obeys rule k) (hw : p.world.Stands k) : q.Obeys rule k p.world := by
  cases h with
  | steps => exact ⟨.refl _, hp⟩
  | @leave n state steps l w =>
      have hdone :=
        heeds_doSteps (obeys_engine rule k n) state steps l w hfits.1 hp.1 hfits.2 hp.2 hw
      exact .after hdone.turns (.dropping hdone.own)
  | @next n state s rest l _ w _ _ hthrough =>
      have hdepth := max_le_iff.mp hfits.1
      have hobeys := Bool.and_eq_true_iff.mp hp.1
      -- A step is done as a list of its own.
      have hdone := heeds_doSteps (obeys_engine rule k n) state [s] l w
        (by simpa [depthOfSteps] using hdepth.1) (by simp [allObey, hobeys.1]) hfits.2 hp.2 hw
      simp only [doSteps, hthrough] at hdone
      exact ⟨hdone.turns, hobeys.2, hdone.own⟩
  | body => exact ⟨.refl _, (Bool.and_eq_true_iff.mp hp.1).1, hp.2⟩
  | @again n state count body rest l _ w _ _ hthrough =>
      have hbody : allObey rule body = true := (Bool.and_eq_true_iff.mp hp.1).1
      have hdone := heeds_doSteps (obeys_engine rule k n) state body l w (max_le_iff.mp hfits.1).1
        hbody hfits.2 hp.2 hw
      rw [hthrough] at hdone
      exact ⟨hdone.turns, by simp [allObey, Step.obeys, hbody], hdone.own⟩
  | @run n _ _ _ _ w _ t job ht hjob =>
      obtain ⟨hscheduler, hbody, -⟩ := Task.obeys_iff.mp (hp.2.tasks _ (Array.mem_of_getElem? ht))
      have hcreate : Turn rule w (w.create t.scheduler).2 := .create (hw.length.symm ▸ hscheduler)
      exact .after (.single hcreate) (.starting (hbody _ hjob))
  | resume ht hf hjob =>
      have hfiber := (Task.obeys_iff.mp (hp.2.tasks _ (Array.mem_of_getElem? ht))).2.2
      exact .resuming (hfiber _ hf _ hjob)
  | abort ht hf hjob =>
      have hfiber := (Task.obeys_iff.mp (hp.2.tasks _ (Array.mem_of_getElem? ht))).2.2
      exact ⟨.refl _, hfiber _ hf _ hjob⟩
  | unwind => exact .unwinding hp
  | @giveUp n j i w w' _ hunwind =>
      have hheeds := (obeys_engine rule k (n + 1)).cancel j w hfits hp hw
      rw [show (engine (n + 1)).cancel j w = j.unwind (engine n) w from rfl, hunwind] at hheeds
      exact .after hheeds.turns (.dropping (hheeds.obeys i rfl).own)
  | drop hf hjob =>
      have hfiber := (Task.obeys_iff.mp (hp.1 _ List.mem_cons_self)).2.2
      exact ⟨.refl _, hfiber _ hf _ hjob⟩
  | @others n t rest fs _ _ =>
      have hdrop := (obeys_engine rule k n).drop (hfits.1 t List.mem_cons_self)
        (hp.1 t List.mem_cons_self) hw
      exact ⟨hdrop, fun u hu => hp.1 u (List.mem_cons_of_mem t hu), hp.2⟩
  | @fibers n f fs w _ =>
      have hdrop : Turn rule w (f.drop (engine n) w) := by
        rw [Fiber.drop_of_none (hfits.2 f List.mem_cons_self).job]
        exact .drop w f.tag (hp.2 f List.mem_cons_self)
      exact ⟨.single hdrop, hp.1, fun g hg => hp.2 g (List.mem_cons_of_mem f hg)⟩

/-- Whatever goes on in the course of an activity that keeps to the rule, the world was brought
there by turns that the rule allows. -/
theorem Underway.obeys {p q : Point α} (h : Underway p q) (hfits : p.Fits)
    (hp : p.activity.Obeys rule k) (hw : p.world.Stands k) : q.Obeys rule k p.world := by
  induction h with
  | refl => exact ⟨.refl _, hp⟩
  | tail hbefore hlast ih =>
      have hreached := Underway.reached hbefore ⟨hfits, .refl _ _⟩ hw.tidy
      exact .after ih.turns (hlast.obeys hreached.fits ih.activity (ih.turns.stands hw))

/-! ## Commands -/

/-- The command, or the job that it brings along, keeps to a rule. -/
def Command.obeys (rule : Rule α) : Command α → Bool
  | .run _ job | .newTask _ job => allObey rule job
  | .prime i => rule (.prime i)
  | .reset i => rule (.reset i)
  | _ => true

namespace Session

variable {s : Session α}

/-- All that is suspended or waiting in a session with so many schedulers keeps to a rule. -/
structure Obeys (rule : Rule α) (k : Nat) (s : Session α) : Prop where
  length : s.world.schedulers.length = k
  fibers : ∀ f, some f ∈ s.fibers → f.Obeys rule k
  tasks : ∀ t, some t ∈ s.tasks → t.Obeys rule k

/-- A command took turns that the rule allows, and the session keeps to it after it. -/
structure Heeds (rule : Rule α) (k : Nat) (s : Session α) (r : Reply α × Session α) : Prop where
  turns : Turns rule s.world r.2.world
  fibers : ∀ f, some f ∈ r.2.fibers → f.Obeys rule k
  tasks : ∀ t, some t ∈ r.2.tasks → t.Obeys rule k

theorem obeys_fresh (rule : Rule α) (configs : List Config) :
    (⟨.fresh configs, [], []⟩ : Session α).Obeys rule configs.length :=
  ⟨List.length_map _, nofun, nofun⟩

theorem heeds_same (hs : s.Obeys rule k) (reply : Reply α) : s.Heeds rule k (reply, s) :=
  ⟨.refl _, hs.fibers, hs.tasks⟩

theorem heeds_setFiber (hs : s.Obeys rule k) (i : Nat) {g : Option (Fiber α)} {w : World α}
    (hg : ∀ f, g = some f → f.Obeys rule k) (hw : Turns rule s.world w) (reply : Reply α) :
    s.Heeds rule k (reply, s.setFiber i g w) := by
  refine ⟨hw, fun f hf => ?_, hs.tasks⟩
  rcases List.mem_or_eq_of_mem_set hf with hold | hnew
  · exact hs.fibers f hold
  · exact hg f hnew.symm

theorem heeds_setTask (hs : s.Obeys rule k) (i : Nat) {u : Option (Task α)} {w : World α}
    (hu : ∀ t, u = some t → t.Obeys rule k) (hw : Turns rule s.world w) (reply : Reply α) :
    s.Heeds rule k (reply, s.setTask i u w) := by
  refine ⟨hw, hs.fibers, fun t ht => ?_⟩
  rcases List.mem_or_eq_of_mem_set ht with hold | hnew
  · exact hs.tasks t hold
  · exact hu t hnew.symm

theorem heeds_withFiber (hsound : s.Sound) (hs : s.Obeys rule k) {i : Nat}
    {act : Fiber α → Reply α × Session α}
    (hact : ∀ f, f.Fits f.levels → f.Obeys rule k → s.Heeds rule k (act f)) :
    s.Heeds rule k (s.withFiber i act) := by
  unfold withFiber
  split
  next f hf =>
    have hmem := List.mem_of_getElem? hf
    exact hact f (hsound.fibers f hmem) (hs.fibers f hmem)
  next => exact heeds_same hs _

theorem heeds_withTask (hsound : s.Sound) (hs : s.Obeys rule k) {i : Nat}
    {act : Task α → Reply α × Session α}
    (hact : ∀ t, t.Fits t.levels → t.Obeys rule k → s.Heeds rule k (act t)) :
    s.Heeds rule k (s.withTask i act) := by
  unfold withTask
  split
  next t ht =>
    have hmem := List.mem_of_getElem? ht
    exact hact t (hsound.tasks t hmem).fits (hs.tasks t hmem)
  next => exact heeds_same hs _

theorem heeds_withScheduler (hs : s.Obeys rule k) {i : Nat}
    {act : Scheduler α → Reply α × Session α} (hact : ∀ x, i < k → s.Heeds rule k (act x)) :
    s.Heeds rule k (s.withScheduler i act) := by
  unfold withScheduler
  split
  next x hx => exact hact x (hs.length ▸ (List.getElem?_eq_some_iff.mp hx).1)
  next => exact heeds_same hs _

theorem heeds_afterFiber (hs : s.Obeys rule k) (i : Nat) {r : Except Failure (Fiber α × World α)}
    (hr : Fiber.Heeded rule k s.world r) : s.Heeds rule k (s.afterFiber i r) := by
  unfold afterFiber
  split
  next f w =>
    obtain ⟨hf, hw⟩ := hr f w rfl
    exact heeds_setFiber hs i (fun g hg => Option.some.inj hg ▸ hf) hw _
  next => exact heeds_same hs _

theorem heeds_afterTask (hs : s.Obeys rule k) (i : Nat) {r : Task.Delivery × Task α × World α}
    (hr : Task.Heeded rule k s.world r) : s.Heeds rule k (s.afterTask i r) := by
  obtain ⟨delivery, t, w⟩ := r
  have hset (reply : Reply α) := heeds_setTask hs i (u := some t)
    (fun u hu => Option.some.inj hu ▸ hr.1) hr.2 reply
  cases delivery with
  | none => exact hset _
  | some how => exact hset _

theorem Obeys.stands (hs : s.Obeys rule k) (hsound : s.Sound) : s.world.Stands k :=
  ⟨hsound.tidy, hs.length⟩

theorem Heeds.obeys {r : Reply α × Session α} (h : s.Heeds rule k r) (hw : s.world.Stands k) :
    r.2.Obeys rule k :=
  ⟨(h.turns.stands hw).length, h.fibers, h.tasks⟩

/-- Every command that keeps to the rule takes turns that it allows. The caller may drop a fiber
where jobs may as well. -/
theorem heeds_perform (hsound : s.Sound) (hs : s.Obeys rule k) {c : Command α}
    (hc : c.obeys rule = true) (hdrop : rule.Holds ∨ ∀ i, c ≠ .drop i) :
    s.Heeds rule k (s.perform c) := by
  have hw := hs.stands hsound
  have hsame : Turns rule s.world s.world := .refl s.world
  cases c with
  | create i =>
      refine heeds_withScheduler hs fun _ hi => ?_
      have hready := (hsound.tidy.create i).1
      refine ⟨.single (.create (hs.length.symm ▸ hi)), fun f hf => ?_, hs.tasks⟩
      rcases List.mem_append.mp hf with hold | hnew
      · exact hs.fibers f hold
      · cases List.mem_singleton.mp hnew
        exact Fiber.obeys_of_none hready.job
  | run i job =>
      refine heeds_withFiber hsound hs fun f _ _ => heeds_afterFiber hs i ?_
      cases hfree : f.isFree with
      | false =>
          rw [Fiber.run_of_not_isFree hfree]
          exact nofun
      | true =>
          exact (obeys_engine rule k job.levels).runFiber hfree (Nat.le_refl _) hc hw
  | resume i =>
      exact heeds_withFiber hsound hs fun f hfits hf =>
        heeds_afterFiber hs i ((obeys_engine rule k f.levels).resumeFiber hfits hf hw)
  | abort i =>
      exact heeds_withFiber hsound hs fun f hfits hf =>
        heeds_afterFiber hs i ((obeys_engine rule k f.levels).abortFiber hfits hf hw)
  | destroy i target =>
      exact heeds_withFiber hsound hs fun f hfits hf => heeds_withScheduler hs fun _ htarget =>
        heeds_setFiber hs i (by simp)
          ((obeys_engine rule k f.levels).destroy hfits hf hw htarget) _
  | drop i =>
      have hholds : rule.Holds := hdrop.resolve_right fun hne => hne i rfl
      exact heeds_withFiber hsound hs fun f hfits hf =>
        heeds_setFiber hs i (by simp)
          ((obeys_engine rule k f.levels).dropFiber hfits hf hholds hw) _
  | takeResult i | takeFailure i =>
      refine heeds_withFiber hsound hs fun f _ hf => heeds_setFiber hs i (fun g hg => ?_) hsame _
      cases hg
      exact hf
  | label i => exact heeds_withFiber hsound hs fun f _ _ => heeds_same hs _
  | newTask i job =>
      refine heeds_withScheduler hs fun _ hi => ⟨hsame, hs.fibers, fun t ht => ?_⟩
      rcases List.mem_append.mp ht with hold | hnew
      · exact hs.tasks t hold
      · cases List.mem_singleton.mp hnew
        exact Task.obeys_iff.mpr ⟨hi, fun body hbody => Option.some.inj hbody ▸ hc, nofun⟩
  | runTask i =>
      exact heeds_withTask hsound hs fun t hfits ht =>
        heeds_afterTask hs i ((obeys_engine rule k t.levels).runTask hfits ht hw)
  | resumeTask i =>
      exact heeds_withTask hsound hs fun t hfits ht =>
        heeds_afterTask hs i ((obeys_engine rule k t.levels).resumeTask hfits ht hw)
  | abortTask i =>
      exact heeds_withTask hsound hs fun t hfits ht =>
        heeds_afterTask hs i ((obeys_engine rule k t.levels).abortTask hfits ht hw)
  | isTaskDone i | taskResult i =>
      exact heeds_withTask hsound hs fun t _ _ => heeds_same hs _
  | takeTaskResult i =>
      refine heeds_withTask hsound hs fun t _ ht => heeds_setTask hs i (fun u hu => ?_) hsame _
      cases hu
      exact ht.takeResult
  | dropTask i =>
      exact heeds_withTask hsound hs fun t hfits ht =>
        heeds_setTask hs i (by simp) ((obeys_engine rule k t.levels).drop hfits ht hw) _
  | prime i =>
      exact heeds_withScheduler hs fun _ _ => ⟨.single (.prime _ hc), hs.fibers, hs.tasks⟩
  | reset i =>
      exact heeds_withScheduler hs fun _ _ => ⟨.single (.reset _ hc), hs.fibers, hs.tasks⟩
  | config i => exact heeds_withScheduler hs fun _ _ => heeds_same hs _

/-- What a command begins with keeps to the rule, if the command does. -/
theorem Begins.obeys {c : Command α} {p : Point α} (h : s.Begins c p) (hs : s.Obeys rule k)
    (hc : c.obeys rule = true) (hdrop : rule.Holds ∨ ∀ i, c ≠ .drop i) :
    p.Obeys rule k s.world := by
  have hfiber {i : Nat} {f : Fiber α} {j : Suspended α} (hf : s.fibers[i]? = some (some f))
      (hjob : f.job = some j) : j.Obeys rule k :=
    hs.fibers f (List.mem_of_getElem? hf) j hjob
  have htask {i : Nat} {t : Task α} (ht : s.tasks[i]? = some (some t)) :=
    Task.obeys_iff.mp (hs.tasks t (List.mem_of_getElem? ht))
  cases h with
  | run hf hfree => exact .starting hc
  | resume hf hjob _ => exact .resuming (hfiber hf hjob)
  | abort hf hjob _ | destroy hf hjob _ => exact ⟨.refl _, hfiber hf hjob⟩
  | @drop i f _ _ hf hjob _ =>
      have hholds : rule.Holds := hdrop.resolve_right fun hne => hne i rfl
      exact .after (.single (.drop s.world f.tag hholds)) (.dropping (hfiber hf hjob).own)
  | runTask ht hjob _ =>
      obtain ⟨hscheduler, hbody, -⟩ := htask ht
      exact .after (.single (.create (hs.length.symm ▸ hscheduler))) (.starting (hbody _ hjob))
  | resumeTask ht hf hjob _ => exact .resuming ((htask ht).2.2 _ hf _ hjob)
  | abortTask ht hf hjob _ | dropTask ht hf hjob _ => exact ⟨.refl _, (htask ht).2.2 _ hf _ hjob⟩

end Session

end ControlFlow.Fibers

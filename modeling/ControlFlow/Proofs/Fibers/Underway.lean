import ControlFlow.Proofs.Fibers.Lawful

/-! # What is under way

A call that carries out a job goes through many worlds before it is back: jobs drive the jobs of
their tasks, and leaving one job tells others to stop. Wherever that leads, the world in between was
reached by moves that account for the fibers of those who wait for the inner jobs as well.
-/

namespace ControlFlow.Fibers

variable {α : Type}

/-- Something that goes on in a world. -/
inductive Activity (α : Type) where
  /-- A job does what is left of it, and is left then. -/
  | job (state : FiberState) (steps : List (Step α)) (own : Local α) (w : World α)
  /-- A job does some of its steps. -/
  | steps (state : FiberState) (steps : List (Step α)) (own : Local α) (w : World α)
  /-- A suspended job is told to stop, and given up if it suspends itself again. -/
  | stop (j : Suspended α) (w : World α)
  /-- Tasks are dropped, one after the other, and then some fibers. -/
  | drops (tasks : List (Task α)) (fibers : List (Fiber α)) (w : World α)

namespace Activity

def world : Activity α → World α
  | job _ _ _ w | steps _ _ _ w | stop _ w | drops _ _ w => w

/-- The fibers that are held by what the activity is about. -/
def held : Activity α → Multiset Tag
  | job _ _ l _ | steps _ _ l _ => l.held
  | stop j _ => j.held
  | drops ts fs _ => heldByTasks ts + tags fs

/-- At most so many jobs are nested in what the activity is about, and its tasks are sound. -/
def Fits (n : Nat) : Activity α → Prop
  | job _ left l _ | steps _ left l _ => depthOfSteps left ≤ n ∧ l.Fits n
  | stop j _ => j.Fits (n + 1)
  | drops ts fs _ => (∀ t ∈ ts, t.Fits n) ∧ ∀ f ∈ fs, f.Ready

end Activity

/-- What a job holds is dropped. -/
def Local.dropping (l : Local α) (w : World α) : Activity α := .drops l.tasks.toList l.fibers w

/-- A job is started on a fiber. -/
def Fiber.starting (f : Fiber α) (job : Job α) (w : World α) : Activity α :=
  .job .running job .empty (if f.entered then w else w.count f.home .entered)

namespace Suspended

/-- A job goes on after its suspension. -/
def resuming (j : Suspended α) (w : World α) : Activity α :=
  match j.pause with
  | .yield | .yieldElse _ => .job .running j.rest j.own w
  | .yieldAny => .job .running j.rest j.own (w.note .resumed)

/-- A job goes on after being told to stop. -/
def unwinding (j : Suspended α) (w : World α) : Activity α :=
  match j.pause with
  | .yield => j.own.dropping w
  | .yieldAny => .job .aborting j.rest j.own (w.note .cancelled)
  | .yieldElse cleanup => .job .aborting (cleanup ++ j.rest) j.own w

end Suspended

/-- A point on the way through a call. -/
structure Point (α : Type) where
  /-- The levels of the engine for the jobs nested in what goes on. -/
  level : Nat
  activity : Activity α
  /-- The fibers held by those who wait until the activity is over. -/
  waiting : Multiset Tag

namespace Point

def world (p : Point α) : World α := p.activity.world

/-- All the fibers that are held. -/
def held (p : Point α) : Multiset Tag := p.activity.held + p.waiting

def Fits (p : Point α) : Prop := p.activity.Fits p.level

end Point

/-- One activity goes on in the course of another one. -/
inductive Part : Point α → Point α → Prop where
  | steps {n state steps l w others} :
      Part ⟨n, .job state steps l w, others⟩ ⟨n, .steps state steps l w, others⟩
  /-- A job that does not suspend itself drops what it holds. -/
  | leave {n state steps l w others} :
      (∀ pause left l' w', doSteps (engine n) state steps l w ≠ .paused pause left l' w') →
      Part ⟨n, .job state steps l w, others⟩
        ⟨n, (doSteps (engine n) state steps l w).own.dropping
          (doSteps (engine n) state steps l w).world, others⟩
  | next {n state s rest l l' w w' others} :
      doStep (engine n) state s l w = .through l' w' →
      Part ⟨n, .steps state (s :: rest) l w, others⟩ ⟨n, .steps state rest l' w', others⟩
  | body {n state count body rest l w others} :
      Part ⟨n, .steps state (.repeat (count + 1) body :: rest) l w, others⟩
        ⟨n, .steps state body l w, others⟩
  /-- A repetition goes on after the first time. -/
  | again {n state count body rest l l' w w' others} :
      doSteps (engine n) state body l w = .through l' w' →
      Part ⟨n, .steps state (.repeat (count + 1) body :: rest) l w, others⟩
        ⟨n, .steps state [.repeat count body] l' w', others⟩
  /-- A task is started on a fiber that it creates. -/
  | run {n state i rest l w others t job} : l.tasks[i]? = some t → t.body = some job →
      Part ⟨n + 1, .steps state (.run i :: rest) l w, others⟩
        ⟨n, (w.create t.scheduler).1.starting job (w.create t.scheduler).2,
          (w.create t.scheduler).1.tag ::ₘ (l.held + others)⟩
  /-- The job of a task goes on while its own fiber and the other tasks wait. -/
  | resume {n state i rest l w others t f j} :
      l.tasks[i]? = some t → t.fiber = some f → f.job = some j →
      Part ⟨n + 1, .steps state (.resume i :: rest) l w, others⟩
        ⟨n, j.resuming w, f.tag ::ₘ ((l.setTask i { t with fiber := none }).held + others)⟩
  | abort {n state i rest l w others t f j} :
      l.tasks[i]? = some t → t.fiber = some f → f.job = some j →
      Part ⟨n + 1, .steps state (.abort i :: rest) l w, others⟩
        ⟨n, .stop j w, f.tag ::ₘ ((l.setTask i { t with fiber := none }).held + others)⟩
  | unwind {n j w others} : Part ⟨n, .stop j w, others⟩ ⟨n, j.unwinding w, others⟩
  /-- A job that suspends itself although it was told to stop drops what it holds. -/
  | giveUp {n j k w w' others} : j.unwind (engine n) w = (.suspended k, w') →
      Part ⟨n, .stop j w, others⟩ ⟨n, k.own.dropping w', others⟩
  /-- The fiber of a task that is dropped goes back, so that its job is told to stop. -/
  | drop {n t rest fs w others f j} : t.fiber = some f → f.job = some j →
      Part ⟨n + 1, .drops (t :: rest) fs w, others⟩
        ⟨n, .stop j w, f.tag ::ₘ (heldByTasks rest + tags fs + others)⟩
  | others {n t rest fs w others} :
      Part ⟨n, .drops (t :: rest) fs w, others⟩ ⟨n, .drops rest fs (t.drop (engine n) w), others⟩
  | fibers {n f fs w others} :
      Part ⟨n, .drops [] (f :: fs) w, others⟩ ⟨n, .drops [] fs (f.drop (engine n) w), others⟩

/-- What goes on in the course of an activity, however deep inside. -/
def Underway (p q : Point α) : Prop := Relation.ReflTransGen Part p q

/-! ## Moves on the way -/

/-- A point was reached by moves, and what goes on there is sound. -/
structure Reached (w : World α) (held : Multiset Tag) (q : Point α) : Prop where
  fits : q.Fits
  moves : Moves w held q.world q.held

namespace Reached

variable {n : Nat} {w w' : World α} {held held' others : Multiset Tag} {q : Point α}
  {state : FiberState} {l : Local α}

theorem after (hmoves : Moves w held w' held') (h : Reached w' held' q) : Reached w held q :=
  ⟨h.fits, hmoves.trans h.moves⟩

theorem here {A : Activity α} (h : A.Fits n) : Reached A.world (A.held + others) ⟨n, A, others⟩ :=
  ⟨h, .refl _ _⟩

theorem job {steps : List (Step α)} (hsteps : depthOfSteps steps ≤ n) (hl : l.Fits n) :
    Reached w (l.held + others) ⟨n, .job state steps l w, others⟩ :=
  here (A := .job state steps l w) ⟨hsteps, hl⟩

theorem steps {steps : List (Step α)} (hsteps : depthOfSteps steps ≤ n) (hl : l.Fits n) :
    Reached w (l.held + others) ⟨n, .steps state steps l w, others⟩ :=
  here (A := .steps state steps l w) ⟨hsteps, hl⟩

theorem stop {j : Suspended α} (hj : j.Fits (n + 1)) :
    Reached w (j.held + others) ⟨n, .stop j w, others⟩ :=
  here (A := .stop j w) hj

theorem drops {ts : List (Task α)} {fs : List (Fiber α)} (hts : ∀ t ∈ ts, t.Fits n)
    (hfs : ∀ f ∈ fs, f.Ready) :
    Reached w (heldByTasks ts + tags fs + others) ⟨n, .drops ts fs w, others⟩ :=
  here (A := .drops ts fs w) ⟨hts, hfs⟩

theorem dropping (hl : l.Fits n) : Reached w (l.held + others) ⟨n, l.dropping w, others⟩ :=
  drops (fun t ht => hl.tasks t (Array.mem_toList_iff.mp ht)) hl.fibers

theorem starting {f : Fiber α} {job : Job α} (hjob : depthOfSteps job ≤ n) :
    Reached w others ⟨n, f.starting job w, others⟩ := by
  have henter : Moves w others (if f.entered then w else w.count f.home .entered) others := by
    split
    · exact .refl w others
    · exact .single (.enter w others f.home)
  refine .after henter ?_
  have hstarted : Reached (if f.entered then w else w.count f.home .entered)
      ((Local.empty : Local α).held + others) ⟨n, f.starting job w, others⟩ :=
    .job hjob Local.fits_empty
  rwa [Local.held_empty, zero_add] at hstarted

theorem resuming {j : Suspended α} (hj : j.Fits (n + 1)) :
    Reached w (j.held + others) ⟨n, j.resuming w, others⟩ := by
  obtain ⟨pause, rest, tasks, fibers, deferred⟩ := j
  obtain ⟨-, hrest, hown⟩ := Suspended.fits_succ.mp hj
  cases pause with
  | yieldAny => exact .after (.single (.note w _ .resumed)) (.job hrest hown)
  | yield | yieldElse _ => exact .job hrest hown

theorem unwinding {j : Suspended α} (hj : j.Fits (n + 1)) :
    Reached w (j.held + others) ⟨n, j.unwinding w, others⟩ := by
  obtain ⟨pause, rest, tasks, fibers, deferred⟩ := j
  obtain ⟨hpause, hrest, hown⟩ := Suspended.fits_succ.mp hj
  cases pause with
  | yield => exact .dropping hown
  | yieldAny => exact .after (.single (.note w _ .cancelled)) (.job hrest hown)
  | yieldElse cleanup =>
      refine .job ?_ hown
      rw [depthOfSteps_append]
      exact max_le hpause hrest

/-- What goes on with the job of a fiber goes on while the fiber itself waits. -/
theorem of_job {f : Fiber α} {j : Suspended α} (hjob : f.job = some j)
    (h : Reached w (j.held + (f.tag ::ₘ others)) q) : Reached w (f.held + others) q := by
  rwa [Fiber.held_of_some hjob, Multiset.cons_add, ← Multiset.add_cons]

end Reached

section

variable {n : Nat} {w : World α} {t : Task α} {l : Local α} {i : Nat}

/-- A task that has a fiber holds what the fiber holds, and its job is suspended there. -/
theorem Task.Fits.fiber (ht : t.Fits n) {f : Fiber α} {j : Suspended α} (hf : t.fiber = some f)
    (hjob : f.job = some j) : t.held = f.held ∧ j.Fits n := by
  rcases ht.cases with ⟨s, body, rfl, -⟩ | ⟨s, g, rfl, hg, -⟩ | ⟨s, result, rfl⟩
  · cases hf
  · cases hf
    exact ⟨by simp [Task.held], hg.2 j hjob⟩
  · cases hf

/-- A task that has its job still holds nothing. -/
theorem Task.Fits.body (ht : t.Fits (n + 1)) {job : Job α} (hjob : t.body = some job) :
    t.held = 0 ∧ depthOfSteps job ≤ n := by
  rcases ht.cases with ⟨s, body, rfl, hlevels⟩ | ⟨s, f, rfl, -⟩ | ⟨s, result, rfl⟩
  · cases hjob
    exact ⟨by simp [Task.held], Nat.le_of_succ_le_succ hlevels⟩
  · cases hjob
  · cases hjob

theorem Task.held_of_none {t : Task α} (h : t.fiber = none) : t.held = 0 := by
  obtain ⟨scheduler, body, fiber, result, done⟩ := t
  cases h
  simp [Task.held]

/-- Of the fibers that a job holds, those of one task, and those of the others. -/
theorem Local.held_eq (ht : l.tasks[i]? = some t) :
    l.held = t.held + (l.setTask i { t with fiber := none }).held := by
  obtain ⟨others, hheld, hset⟩ := Local.exists_held_setTask ht
  have hnone : Task.held { t with fiber := none } = 0 := Task.held_of_none rfl
  rw [hheld, hset, hnone, zero_add]

end

theorem Part.reached {p q : Point α} (h : Part p q) (hp : p.Fits) (hw : p.world.Tidy) :
    Reached p.world p.held q := by
  cases h with
  | steps => exact .steps hp.1 hp.2
  | @leave n state steps l w =>
      have hkeeps := keeps_doSteps (lawful_engine n) state steps l w hp.1 hp.2 hw
      exact .after (hkeeps.moves.frame _) (.dropping hkeeps.fits)
  | @next n state s rest l _ w _ _ hthrough =>
      have hdepth := max_le_iff.mp hp.1
      -- A step is done as a list of its own.
      have hkeeps := keeps_doSteps (lawful_engine n) state [s] l w
        (by simpa [depthOfSteps] using hdepth.1) hp.2 hw
      simp only [doSteps, hthrough] at hkeeps
      exact .after (hkeeps.moves.frame _) (.steps hdepth.2 hkeeps.fits)
  | body => exact .steps (max_le_iff.mp hp.1).1 hp.2
  | @again n state _ body _ l _ w _ _ hthrough =>
      have hbody : depthOfSteps body ≤ n := (max_le_iff.mp hp.1).1
      have hkeeps := keeps_doSteps (lawful_engine n) state body l w hbody hp.2 hw
      rw [hthrough] at hkeeps
      refine .after (hkeeps.moves.frame _) (.steps ?_ hkeeps.fits)
      simpa [depthOfSteps, Step.depth] using hbody
  | run ht hjob =>
      have hfits := hp.2.tasks _ (Array.mem_of_getElem? ht)
      exact .after (.single (.create _ _ _)) (.starting (hfits.body hjob).2)
  | resume ht hf hjob =>
      obtain ⟨hheld, hj⟩ := (hp.2.tasks _ (Array.mem_of_getElem? ht)).fiber hf hjob
      simp only [Point.held, Activity.held, Local.held_eq ht, hheld, add_assoc]
      exact .of_job hjob (.resuming hj)
  | abort ht hf hjob =>
      obtain ⟨hheld, hj⟩ := (hp.2.tasks _ (Array.mem_of_getElem? ht)).fiber hf hjob
      simp only [Point.held, Activity.held, Local.held_eq ht, hheld, add_assoc]
      exact .of_job hjob (.stop hj)
  | unwind => exact .unwinding hp
  | @giveUp n j k w w' _ hunwind =>
      have hleaves := (lawful_engine (n + 1)).cancel j w hp hw
      rw [show (engine (n + 1)).cancel j w = j.unwind (engine n) w from rfl, hunwind] at hleaves
      have hk := Suspended.fits_succ.mp (hleaves.fits k rfl)
      exact .after (hleaves.moves.frame _) (.dropping hk.2.2)
  | drop hf hjob =>
      obtain ⟨hheld, hj⟩ := (hp.1 _ List.mem_cons_self).fiber hf hjob
      simp only [Point.held, Activity.held, heldByTasks, hheld, add_assoc]
      exact .of_job hjob (.stop hj)
  | @others n t rest fs _ others =>
      have hdrop := (lawful_engine n).drop (hp.1 t List.mem_cons_self) hw
      have hframe := hdrop.frame (heldByTasks rest + tags fs + others)
      rw [zero_add, ← add_assoc, ← add_assoc] at hframe
      exact .after hframe (.drops (fun u hu => hp.1 u (List.mem_cons_of_mem t hu)) hp.2)
  | @fibers n f fs w others =>
      obtain ⟨hf, hfs⟩ := List.forall_mem_cons.mp hp.2
      have hdrop : Moves w (tags (f :: fs)) (f.drop (engine n) w) (tags fs) := by
        rw [tags_cons, Fiber.drop_of_none hf.job]
        exact .single (.drop w _ f.tag)
      have hframe := (hdrop.frame others)
      rw [← zero_add (tags (f :: fs)), ← zero_add (tags fs)] at hframe
      exact .after hframe (.drops (fun t ht => absurd ht List.not_mem_nil) hfs)

/-- Whatever goes on in the course of an activity, the world was brought there by moves. -/
theorem Underway.reached {w : World α} {held : Multiset Tag} {p q : Point α} (h : Underway p q)
    (hp : Reached w held p) (hw : w.Tidy) : Reached w held q := by
  induction h with
  | refl => exact hp
  | tail _ hlast ih => exact .after ih.moves (hlast.reached ih.fits (ih.moves.tidy hw))

end ControlFlow.Fibers

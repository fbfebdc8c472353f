import ControlFlow.Proofs.Fibers.Replay
import ControlFlow.Proofs.Fibers.Stages

/-! # What is written down about jobs

What the scribe writes down agrees with the states that the engine leaves: at every place the deeds
lead from the stage of the job that was there before to the stage of the job that is there
afterwards, and replaying all deeds leads from the world before to the world afterwards. The proofs
follow the execution from fibers over tasks and steps to jobs, relative to a scribe for the jobs
nested inside.
-/

namespace ControlFlow.Fibers

variable {α : Type}

/-! ## Stages of what is suspended -/

def Suspended.waits (j : Suspended α) : Stage α :=
  .waiting j.pause (allUnrolled j.rest) j.deferred

/-- The stage of the job of a task, or of a job nested in it. -/
def Task.stage : Path → Task α → Stage α
  | [], t =>
      match t.fiber.bind Fiber.job with
      | some j => j.waits
      | none => if t.body.isSome then .vacant else .done
  | i :: q, t =>
      match t.fiber.bind Fiber.job with
      | some j =>
          match j.tasks[i]? with
          | some u => u.stage q
          | none => .vacant
      | none => .vacant

/-- The stages of a job and of those nested in it, where only the tasks of the job are known. -/
def Local.stages (own : Stage α) (l : Local α) : Path → Stage α
  | [] => own
  | i :: q =>
      match l.tasks[i]? with
      | some t => t.stage q
      | none => .vacant

def Suspended.stages (j : Suspended α) : Path → Stage α := j.own.stages j.waits

/-- The stage of a job in which no others are nested. -/
def Stage.alone (own : Stage α) : Path → Stage α
  | [] => own
  | _ :: _ => .vacant

/-- The stages after a job stopped. If it was told to, it does no more steps when it suspends itself
again. -/
def Stop.stages (o : Owner) (told : Bool) : Stop α → Path → Stage α
  | .suspended j => j.own.stages (if told then .busy true [] j.deferred else j.waits)
  | _ => .alone (.closed o)

/-- The stages after some steps of a job, where more steps come after them. -/
def Progress.stages (told : Bool) (more : List (Step α)) : Progress α → Path → Stage α
  | .through l _ => l.stages (.busy told more l.deferred)
  | .returned _ l _ | .failed _ l _ => l.stages (.busy told [] l.deferred)
  | .paused pause left l _ =>
      l.stages (if told then .busy true [] l.deferred
        else .waiting pause (allUnrolled left ++ more) l.deferred)

def Fiber.stages (o : Owner) (f : Fiber α) : Path → Stage α :=
  match f.job with
  | some j => j.stages
  | none => .alone (.closed o)

section Stages

variable {t : Task α} {l : Local α}

theorem Task.stage_of_job {f : Fiber α} {j : Suspended α} (hf : t.fiber = some f)
    (hjob : f.job = some j) : (t.stage · ) = j.stages := by
  funext p
  cases p <;> simp [Task.stage, Suspended.stages, Local.stages, Suspended.own, hf, hjob]

theorem Task.stage_of_none (h : t.fiber = none) :
    (t.stage · ) = Stage.alone (if t.body.isSome then .vacant else .done) := by
  funext p
  cases p <;> simp [Task.stage, Stage.alone, h]

theorem Fiber.stages_settle (o : Owner) (f : Fiber α) (state : FiberState) (stop : Stop α) :
    (f.settle state stop).stages o = stop.stages o false := by
  cases stop with
  | returned value => rfl
  | failed how => cases how <;> rfl
  | suspended j => rfl

theorem Local.stages_empty (own : Stage α) :
    (Local.empty : Local α).stages own = Stage.alone own := by
  funext p
  cases p <;> simp [Local.stages, Local.empty, Stage.alone]

/-- A task that was just made has not been started. -/
theorem Local.stages_push (own : Stage α) (l : Local α) (s : Nat) (job : Job α) :
    Local.stages own { l with tasks := l.tasks.push (.fresh s job) } = l.stages own := by
  funext p
  cases p with
  | nil => rfl
  | cons i q =>
      simp only [Local.stages, Array.getElem?_push]
      split
      next h =>
        split at h
        · cases h
          cases q <;> simp [Task.stage, Task.fresh, *]
        · rw [h]
      next h =>
        split at h
        · cases h
        · rw [h]

theorem Local.stages_setTask_of_eq (own : Stage α) {i : Nat} (ht : l.tasks[i]? = some t)
    {u : Task α} (hu : ∀ q, u.stage q = t.stage q) : (l.setTask i u).stages own = l.stages own := by
  funext p
  cases p with
  | nil => rfl
  | cons k q =>
      by_cases hk : i = k
      · subst hk
        simp [Local.stages, getElem?_setTask ht, ht, hu]
      · simp [Local.stages, Local.setTask, hk]

end Stages

/-! ## Records -/

/-- Whose job it is at the end of a path. -/
def Owner.at (o : Owner) : Path → Owner
  | [] => o
  | _ :: _ => .nested

/-- A course of events that leads from one world and some stages to other ones. -/
structure Records (o : Owner) (c : Course α) (w : World α) (σ : Path → Stage α) (v : World α)
    (τ : Path → Stage α) : Prop where
  follows : ∀ p, Follows (o.at p) (σ p) (deedsAt p c) (τ p)
  replays : Replays c w v

namespace Records

variable {o : Owner} {c c' : Course α} {u v w : World α} {σ τ υ : Path → Stage α}

theorem refl (w : World α) (σ : Path → Stage α) : Records o [] w σ w σ :=
  ⟨fun p => .nil (σ p), rfl⟩

theorem trans (h : Records o c w σ v τ) (h' : Records o c' v τ u υ) :
    Records o (c ++ c') w σ u υ := by
  refine ⟨fun p => ?_, h.replays.append h'.replays⟩
  rw [deedsAt_append]
  exact (h.follows p).append (h'.follows p)

/-- Something happens to a job while nothing happens to those nested in it. -/
theorem own {l : Local α} {ρ ρ' : Stage α} {d : Deed α} (hd : Leads o ρ d ρ')
    (hv : d.Brings w v) : Records o [([], d)] w (l.stages ρ) v (l.stages ρ') := by
  refine ⟨fun p => ?_, .single hv⟩
  cases p with
  | nil => simpa [Owner.at, Local.stages] using Follows.single hd
  | cons i q =>
      rw [deedsAt_cons_of_ne (List.cons_ne_nil i q).symm, deedsAt_nil]
      exact .nil _

/-- The same without any jobs nested inside. -/
theorem alone {ρ ρ' : Stage α} {d : Deed α} (hd : Leads o ρ d ρ') (hv : d.Brings w v) :
    Records o [([], d)] w (.alone ρ) v (.alone ρ') := by
  have hempty := own (l := .empty) hd hv
  rwa [Local.stages_empty, Local.stages_empty] at hempty

/-- What happens to a task of a job happens to nothing else in the job. -/
theorem under {l : Local α} {i : Nat} {t t' : Task α} (ht : l.tasks[i]? = some t) (ρ : Stage α)
    (h : Records .nested c w (t.stage · ) v (t'.stage · )) :
    Records o (Course.under i c) w (l.stages ρ) v ((l.setTask i t').stages ρ) := by
  refine ⟨fun p => ?_, h.replays.map _⟩
  cases p with
  | nil =>
      rw [Course.deedsAt_under_nil]
      exact .nil _
  | cons k q =>
      rw [Course.deedsAt_under_cons]
      by_cases hk : k = i
      · subst hk
        have hfollows := h.follows q
        have howner : Owner.nested.at q = .nested := by cases q <;> rfl
        rw [howner] at hfollows
        simpa [Owner.at, Local.stages, Local.getElem?_setTask ht, ht] using hfollows
      · have hstages : (l.setTask i t').stages ρ (k :: q) = l.stages ρ (k :: q) := by
          simp [Local.stages, Local.setTask, Ne.symm hk]
        rw [if_neg hk, hstages]
        exact .nil _

end Records

/-- What the scribe writes down agrees with what the engine does with jobs of so many levels. -/
structure Scribe.Faithful (r : Scribe α) (e : Engine α) (n : Nat) : Prop where
  lawful : e.Lawful n
  start : ∀ o (job : Job α) w v, (Deed.starts job).Brings w v → job.levels ≤ n → v.Tidy →
    Records o (r.start job v) w (.alone .vacant) (e.start job v).2
      ((e.start job v).1.stages o false)
  resume : ∀ o j w, j.Fits n → w.Tidy →
    Records o (r.resume j w) w j.stages (e.resume j w).2 ((e.resume j w).1.stages o false)
  cancel : ∀ o j w, j.Fits n → w.Tidy →
    Records o (r.cancel j w) w j.stages (e.cancel j w).2 ((e.cancel j w).1.stages o true)
  giveUp : ∀ o j w, j.Fits n → w.Tidy →
    Records o (r.giveUp j w) w (j.own.stages (.busy true [] j.deferred)) (e.giveUp j w)
      (.alone (.closed o))

variable {o : Owner} {r : Scribe α} {e : Engine α} {n : Nat} {w : World α}

/-! ## Fibers -/

section Fibers

variable {f : Fiber α}

theorem Fiber.tidy_entry (f : Fiber α) (hw : w.Tidy) : (f.entry w).Tidy := by
  unfold Fiber.entry
  split
  · exact hw
  · exact hw.count _ _

/-- A job may be started in a fresh context. -/
theorem Fiber.brings_entry (f : Fiber α) (job : Job α) (w : World α) :
    (Deed.starts job).Brings w (f.entry w) := by
  unfold Fiber.entry
  split
  · exact .inl rfl
  · exact .inr ⟨f.home, rfl⟩

/-- Fibers on which nothing is suspended are lost when they are dropped. -/
theorem Fiber.drops_eq {fs : List (Fiber α)} (hfs : ∀ f ∈ fs, f.Ready) (e : Engine α)
    (w : World α) :
    fs.foldl (fun w f => f.drop e w) w = (fs.map Fiber.tag).foldl World.lose w := by
  induction fs generalizing w with
  | nil => rfl
  | cons f rest ih =>
      rw [List.foldl_cons, Fiber.drop_of_none (hfs f List.mem_cons_self).job]
      exact ih (fun g hg => hfs g (.tail f hg)) _

namespace Scribe.Faithful

theorem runFiber (hr : r.Faithful e n) (hfree : f.isFree = true) {job : Job α}
    (hjob : job.levels ≤ n) (hw : w.Tidy) {f' : Fiber α} {w' : World α}
    (hrun : f.run e job w = .ok (f', w')) :
    Records o (r.runFiber f job w) w (.alone .vacant) w' (f'.stages o) := by
  rw [Fiber.run_of_isFree hfree] at hrun
  cases hrun
  rw [Fiber.stages_settle, Scribe.runFiber, if_pos hfree]
  exact hr.start o job w _ (f.brings_entry job w) hjob (f.tidy_entry hw)

theorem resumeFiber (hr : r.Faithful e n) (hf : f.Fits n) {j : Suspended α} (hjob : f.job = some j)
    (hw : w.Tidy) {f' : Fiber α} {w' : World α} (hresume : f.resume e w = .ok (f', w')) :
    Records o (r.resumeFiber f w) w j.stages w' (f'.stages o) := by
  have hstate := hf.1.yielded_of_job hjob
  rw [Fiber.resume_of_yielded hstate hjob] at hresume
  cases hresume
  rw [Fiber.stages_settle]
  simp only [Scribe.resumeFiber, hstate, hjob]
  exact hr.resume o j w (hf.2 j hjob) hw

/-- A job that is told to stop leaves its place. -/
theorem stop (hr : r.Faithful e n) {j : Suspended α} (hj : j.Fits n) (hw : w.Tidy) :
    Records o (r.stop e j w) w j.stages (e.stop j w) (.alone (.closed o)) := by
  have hcancel := hr.cancel o j w hj hw
  have hleaves := hr.lawful.cancel j w hj hw
  simp only [Scribe.stop, Engine.stop]
  cases hstop : (e.cancel j w).1 with
  | suspended k =>
      rw [hstop] at hcancel
      exact hcancel.trans
        (hr.giveUp o k _ (hleaves.fits k hstop) (hleaves.moves.tidy hw))
  | returned value | failed how =>
      rw [hstop] at hcancel
      simpa [Stop.stages] using hcancel

/-- Where nothing is suspended on a fiber, the fiber just goes back. -/
theorem destroy_of_not_yielded (hf : f.Resting) (hstate : f.state ≠ .yielded) (s : Nat) :
    r.destroy e s f w = [([], .goesBack s)] ∧
      Records o (r.destroy e s f w) w (.alone (.closed o)) (f.destroy e s w)
        (.alone (.closed o)) := by
  obtain ⟨hready, hdestroy⟩ := Fiber.destroy_of_not_yielded (e := e) (w := w) hf hstate s
  have hnone := hf.job_eq_none hstate
  have hcourse : r.destroy e s f w = [([], .goesBack s)] := by
    have hstopped : f.stopped e w = (f, w) := by
      rw [Fiber.stopped, Fiber.abort_of_not_yielded hstate]
    have habort : r.abortFiber e f w = [] := by simp [Scribe.abortFiber, hnone]
    have hfree (v : World α) : r.free f.clear v = [] := by simp [Scribe.free, Fiber.clear, hnone]
    simp only [Scribe.destroy, hstopped, habort, hfree]
    split
    · split <;> rfl
    · rfl
  refine ⟨hcourse, ?_⟩
  rw [hcourse, hdestroy]
  exact .alone (.goesBack s rfl) ⟨f.clear, hready, rfl⟩

/-- A job is told to stop when its fiber goes back. -/
theorem destroy (hr : r.Faithful e n) (hf : f.Fits n) {j : Suspended α} (hjob : f.job = some j)
    (hw : w.Tidy) (s : Nat) :
    r.destroy e s f w = r.stop e j w ++ [([], .goesBack s)] ∧
      Records o (r.destroy e s f w) w j.stages (f.destroy e s w) (.alone (.closed o)) := by
  have hstate := hf.1.yielded_of_job hjob
  obtain ⟨g, hready, -, hdestroy⟩ := Fiber.destroy_of_job (e := e) (w := w) hf.1 hjob s
  obtain ⟨hrest, hne⟩ := hf.1.stopped (e := e) (w := w)
  have hnone : (f.stopped e w).1.clear.job = none := hrest.job_eq_none hne
  have hcourse : r.destroy e s f w = r.stop e j w ++ [([], .goesBack s)] := by
    simp only [Scribe.destroy, Scribe.abortFiber, Scribe.free, hstate, hjob, hnone]
    split
    · split <;> rfl
    · rfl
  refine ⟨hcourse, ?_⟩
  rw [hcourse, hdestroy]
  exact (hr.stop (hf.2 j hjob) hw).trans (.alone (.goesBack s rfl) ⟨g, hready, rfl⟩)

end Scribe.Faithful

end Fibers

/-! ## Tasks -/

section Tasks

variable {t : Task α}

/-- The world after a task that is run has got a fiber for its job, if it has its job still. -/
def Task.supplied (t : Task α) (w : World α) : World α :=
  if t.body.isSome then (w.create t.scheduler).2 else w

theorem Task.brings_supplied (t : Task α) (e : Engine α) (w : World α) {i : Nat}
    (h : (t.run e w).1 = none) : (Step.run i).Brings w (t.supplied w) := by
  cases hbody : t.body with
  | none => simp [Task.run, hbody] at h
  | some body => exact ⟨t.scheduler, by simp [Task.supplied, hbody]⟩

theorem Task.brings_supplied_of_fails (t : Task α) (w : World α) {i : Nat} :
    (Deed.endsAt (.run i)).Brings w (t.supplied w) := by
  unfold Task.supplied
  split
  · exact .inr ⟨t.scheduler, rfl⟩
  · exact .inl rfl

namespace Scribe.Faithful

/-- After its fiber was driven a task is suspended there, or over. -/
theorem settle {f : Fiber α} (hf : f.Resting)
    (hback : f.state = .yielded ∨ f.result.isSome ∨ f.failure.isSome) (ho : o ≠ .fiber) (s : Nat)
    (last : Option (Fiber α)) :
    Records o (r.settle e ⟨s, .none, last, .none, false⟩ f w) w (f.stages o)
      (Task.settle e ⟨s, .none, last, .none, false⟩ f w).2.2
      ((Task.settle e ⟨s, .none, last, .none, false⟩ f w).2.1.stage · ) := by
  -- What has ended is not suspended, so that its fiber goes back as it is.
  have hended {g : Fiber α} (hg : g.Resting) (hstate : g.state = f.state) (hne : f.state ≠ .yielded)
      (result : Option (Option α)) : Records o (r.destroy e s g w) w (f.stages o) (g.destroy e s w)
        (Task.stage · ⟨s, none, none, result, true⟩) := by
    rw [Task.stage_of_none rfl, Fiber.stages, hf.job_eq_none hne]
    have hdestroy :=
      (destroy_of_not_yielded (r := r) (e := e) (w := w) (o := o) hg (hstate ▸ hne) s).2
    simpa [Stage.closed_of_ne ho] using hdestroy
  cases hfailure : f.failure with
  | some how =>
      have hne : f.state ≠ .yielded := fun hstate => by
        cases hfailure.symm.trans (hf.yielded hstate).2.2
      simp only [Scribe.settle, Task.settle, hfailure, Scribe.release, Task.release]
      exact hended (Fiber.Step.takeFailure.resting hf) rfl hne _
  | none =>
      cases hresult : f.result with
      | some value =>
          have hne : f.state ≠ .yielded := fun hstate => by
            cases hresult.symm.trans (hf.yielded hstate).2.1
          have hclean := Fiber.Step.takeResult.resting hf
          rw [hfailure] at hclean
          simp only [Scribe.settle, Task.settle, hfailure, hresult, Scribe.release, Task.release]
          exact hended hclean rfl hne _
      | none =>
          simp only [hfailure, hresult, Option.isSome_none, Bool.false_eq_true, or_false] at hback
          obtain ⟨⟨j, hjob⟩, -⟩ := hf.yielded hback
          simp only [Scribe.settle, Task.settle, hfailure, hresult]
          rw [Task.stage_of_job rfl hjob, Fiber.stages, hjob]
          exact .refl w _

/-- A task that is run does not get its fiber by a deed of its own job. -/
theorem runTask (hr : r.Faithful e n) (ht : t.Fits n) (ho : o ≠ .fiber) (hw : w.Tidy) :
    Records o (r.runTask e t w) (t.supplied w) (t.stage · ) (t.run e w).2.2
      ((t.run e w).2.1.stage · ) := by
  rcases ht.cases with ⟨s, body, rfl, hjob⟩ | ⟨s, f, rfl, -⟩ | ⟨s, result, rfl⟩
  · obtain ⟨hready, htidy⟩ := hw.create s
    obtain ⟨f, w', hrun, -, hfits, hback⟩ :=
      hr.lawful.runFiber hready.resting hready.isFree hjob htidy
    have hran := hr.runFiber (o := o) hready.isFree hjob htidy hrun
    have hsettle := settle (r := r) (e := e) (w := w') hfits.1 hback ho s .none
    rw [Task.stage_of_none rfl]
    simp only [Scribe.runTask, Task.run, hrun]
    exact hran.trans hsettle
  · exact .refl w _
  · exact .refl w _

theorem resumeTask (hr : r.Faithful e n) (ht : t.Fits n) (ho : o ≠ .fiber) (hw : w.Tidy) :
    Records o (r.resumeTask e t w) w (t.stage · ) (t.resume e w).2.2
      ((t.resume e w).2.1.stage · ) := by
  rcases ht.cases with ⟨s, body, rfl, -⟩ | ⟨s, f, rfl, hf, hstate⟩ | ⟨s, result, rfl⟩
  · exact .refl w _
  · obtain ⟨⟨j, hjob⟩, -⟩ := hf.1.yielded hstate
    obtain ⟨f', w', hresume, -, hfits, hback⟩ := hr.lawful.resumeFiber hf hstate hw
    have hresumed := hr.resumeFiber (o := o) hf hjob hw hresume
    have hsettle := settle (r := r) (e := e) (w := w') hfits.1 hback ho s (some f)
    rw [Task.stage_of_job rfl hjob]
    simp only [Scribe.resumeTask, Task.resume, hresume]
    exact hresumed.trans hsettle
  · exact .refl w _

/-- A task that is aborted is over. If its job was suspended, it was told to stop. -/
theorem abortTask (hr : r.Faithful e n) (ht : t.Fits n) (ho : o ≠ .fiber) (hw : w.Tidy) :
    (∀ f j, t.fiber = some f → f.job = some j →
      r.abortTask e t w = r.stop e j w ++ [([], .goesBack t.scheduler)]) ∧
      Records o (r.abortTask e t w) w (t.stage · ) (t.abort e w).2.2
        ((t.abort e w).2.1.stage · ) := by
  rcases ht.cases with ⟨s, body, rfl, -⟩ | ⟨s, f, rfl, hf, hstate⟩ | ⟨s, result, rfl⟩
  · refine ⟨(fun f j hf => by cases hf), ?_⟩
    rw [Task.stage_of_none rfl, Task.stage_of_none rfl]
    exact .alone (.isEnded ho (.inl rfl)) rfl
  · obtain ⟨⟨j, hjob⟩, -⟩ := hf.1.yielded hstate
    obtain ⟨g, habort, -, -, hfinished, hnone, -⟩ :=
      Fiber.abort_of_yielded (e := e) (w := w) hstate hjob
    have hclean : Fiber.Resting { g with failure := .none } :=
      Fiber.Step.takeFailure.resting (hf.1.abort habort).1
    have hne : g.state ≠ .yielded := by simp [hfinished]
    obtain ⟨hback, hdestroy⟩ := destroy_of_not_yielded (r := r) (e := e) (w := e.stop j w) (o := o)
      hclean hne s
    have hcourse : r.abortTask e ⟨s, .none, some f, .none, false⟩ w =
        r.stop e j w ++ [([], .goesBack s)] := by
      simp only [Scribe.abortTask, Scribe.abortFiber, hstate, hjob, habort, hback]
    refine ⟨fun f' j' hf' hj' => ?_, ?_⟩
    · cases hf'
      cases hjob.symm.trans hj'
      exact hcourse
    · have hstop := (hr.stop (o := o) (hf.2 j hjob) hw).trans hdestroy
      rw [hback, Stage.closed_of_ne ho] at hstop
      rw [hcourse, Task.stage_of_job rfl hjob, Task.stage_of_none (by simp [Task.abort, habort])]
      simp only [Task.abort, habort]
      exact hstop
  · refine ⟨(fun f j hf => by cases hf), ?_⟩
    rw [Task.stage_of_none rfl, Task.stage_of_none rfl]
    exact .alone (.isEnded ho (.inr rfl)) rfl

/-- If the job of a task that is dropped is suspended, it is told to stop. -/
theorem release (hr : r.Faithful e n) (ht : t.Fits n) (ho : o ≠ .fiber) (hw : w.Tidy) :
    (∀ f j, t.fiber = some f → f.job = some j →
      r.release e t w = r.stop e j w ++ [([], .goesBack t.scheduler)]) ∧
      ∃ σ, (σ = .vacant ∨ σ = .done) ∧
        Records o (r.release e t w) w (t.stage · ) (t.drop e w) (.alone σ) := by
  rcases ht.cases with ⟨s, body, rfl, -⟩ | ⟨s, f, rfl, hf, hstate⟩ | ⟨s, result, rfl⟩
  · refine ⟨(fun f j hf => by cases hf), .vacant, .inl rfl, ?_⟩
    rw [Task.stage_of_none rfl]
    exact .refl w _
  · obtain ⟨⟨j, hjob⟩, -⟩ := hf.1.yielded hstate
    obtain ⟨hcourse, hdestroy⟩ := hr.destroy (o := o) hf hjob hw s
    refine ⟨fun f' j' hf' hj' => ?_, .done, .inr rfl, ?_⟩
    · cases hf'
      cases hjob.symm.trans hj'
      exact hcourse
    · rw [Stage.closed_of_ne ho] at hdestroy
      rw [Task.stage_of_job rfl hjob]
      exact hdestroy
  · refine ⟨(fun f j hf => by cases hf), .done, .inr rfl, ?_⟩
    rw [Task.stage_of_none rfl]
    exact .refl w _

end Scribe.Faithful

end Tasks

/-! ## Jobs -/

section Jobs

variable {l : Local α}

/-- The stages of a job and of those of its tasks that come from some number on. -/
def stagesFrom (ρ : Stage α) (first : Nat) (ts : List (Task α)) : Path → Stage α
  | [] => ρ
  | i :: q => if i < first then .vacant else (ts[i - first]?.map (Task.stage q)).getD .vacant

theorem stagesFrom_zero (ρ : Stage α) (l : Local α) :
    stagesFrom ρ 0 l.tasks.toList = l.stages ρ := by
  funext p
  cases p with
  | nil => rfl
  | cons i q => cases h : l.tasks[i]? <;> simp [stagesFrom, Local.stages, h]

theorem stagesFrom_nil (ρ : Stage α) (first : Nat) : stagesFrom ρ first [] = Stage.alone ρ := by
  funext p
  cases p <;> simp [stagesFrom, Stage.alone]

/-- What happens to the first of some tasks until it is dropped. -/
theorem Records.drop {c : Course α} {v : World α} {t : Task α} {σ : Stage α} (ρ : Stage α)
    (first : Nat) (rest : List (Task α)) (hσ : σ = .vacant ∨ σ = .done)
    (h : Records .nested c w (t.stage · ) v (.alone σ)) :
    Records o (Course.under first (c ++ [([], .isDropped)])) w (stagesFrom ρ first (t :: rest)) v
      (stagesFrom ρ (first + 1) rest) := by
  have hdropped := h.trans (.alone (v := v) (.isDropped rfl hσ) rfl)
  refine ⟨fun p => ?_, hdropped.replays.map _⟩
  cases p with
  | nil =>
      rw [Course.deedsAt_under_nil]
      exact .nil _
  | cons i q =>
      rw [Course.deedsAt_under_cons]
      rcases Nat.lt_trichotomy i first with hlt | rfl | hgt
      · rw [if_neg hlt.ne]
        simp only [stagesFrom, if_pos hlt, if_pos (Nat.lt_succ_of_lt hlt)]
        exact .nil _
      · have hfollows := hdropped.follows q
        have howner : Owner.nested.at q = .nested := by cases q <;> rfl
        have halone : Stage.alone .vacant q = (.vacant : Stage α) := by cases q <;> rfl
        rw [howner, halone] at hfollows
        simpa [stagesFrom, Owner.at] using hfollows
      · have hstage : (t :: rest)[i - first]? = rest[i - (first + 1)]? := by
          rw [show i - first = i - (first + 1) + 1 by omega, List.getElem?_cons_succ]
        rw [if_neg hgt.ne']
        simp only [stagesFrom, if_neg (Nat.not_lt.mpr hgt.le), if_neg (Nat.not_lt.mpr hgt), hstage]
        exact .nil _

namespace Scribe.Faithful

theorem drops (hr : r.Faithful e n) (ρ : Stage α) {ts : List (Task α)} (hts : ∀ t ∈ ts, t.Fits n)
    (first : Nat) (hw : w.Tidy) :
    Records o (r.drops e first ts w) w (stagesFrom ρ first ts)
      (ts.foldl (fun w t => t.drop e w) w) (.alone ρ) := by
  induction ts generalizing first w with
  | nil =>
      rw [stagesFrom_nil]
      exact .refl w _
  | cons t rest ih =>
      have ht := hts t List.mem_cons_self
      obtain ⟨-, σ, hσ, hrelease⟩ := hr.release (o := .nested) ht (by simp) hw
      have htidy := (hr.lawful.drop ht hw).tidy hw
      exact (hrelease.drop ρ first rest hσ).trans
        (ih (fun u hu => hts u (List.mem_cons_of_mem t hu)) (first + 1) htidy)

/-- When a job is left all its tasks are dropped. -/
theorem leave (hr : r.Faithful e n) (told : Bool) (hl : l.Fits n) (hw : w.Tidy) :
    Records o (r.leave e l w) w (l.stages (.busy told [] l.deferred)) (l.leave e w)
      (.alone (.closed o)) := by
  have htasks : ∀ t ∈ l.tasks.toList, t.Fits n :=
    fun t ht => hl.tasks t (Array.mem_toList_iff.mp ht)
  have hdrops := hr.drops (o := o) (.busy told [] l.deferred) htasks 0 hw
  rw [stagesFrom_zero] at hdrops
  refine hdrops.trans (.alone (.isLeft told l.deferred rfl) ⟨l.fibers.map Fiber.tag, ?_⟩)
  rw [Local.leave, Fiber.drops_eq hl.fibers, ← Array.foldl_toList]

end Scribe.Faithful

/-! ### Steps -/

/-- Steps of a job were written down, where others come after them. -/
def Progress.Recorded (o : Owner) (told : Bool) (left more : List (Step α)) (l : Local α)
    (w : World α) (c : Course α) (p : Progress α) : Prop :=
  Records o c w (l.stages (.busy told (left ++ more) l.deferred)) p.world (p.stages told more)

namespace Progress

variable {told : Bool} {more : List (Step α)} {v : World α} {m : Local α} {s : Step α}

/-- A step that is done at once, and changes no task of the job. -/
theorem recorded_through (hm : ∀ ρ, m.stages ρ = l.stages ρ)
    (hdeferred : m.deferred = s.defers ++ l.deferred) (hv : s.Brings w v) :
    (through m v).Recorded o told [s] more l w [([], (through m v).deed s)] := by
  unfold Recorded
  rw [stages, hm, hdeferred]
  exact .own (.does told s more l.deferred) hv

theorem recorded_returned (value : α) :
    (returned value l w).Recorded o told [s] more l w [([], .endsAt s)] :=
  .own (.endsAt told s more l.deferred) (Deed.brings_endsAt s w)

theorem recorded_failed (how : Failure) :
    (failed how l w).Recorded o told [s] more l w [([], .endsAt s)] :=
  .own (.endsAt told s more l.deferred) (Deed.brings_endsAt s w)

theorem recorded_paused (pause : Pause α) :
    (paused pause [] l w).Recorded o told [pause.step] more l w [([], .pausesAt pause)] := by
  cases told with
  | false => exact .own (.pausesAt pause more l.deferred) rfl
  | true => exact .own (.pausesAgain pause more l.deferred) rfl

end Progress

open Progress

/-- A step with which a job drives one of its tasks, after it has got what is needed. -/
theorem Local.recorded_call {i : Nat} {told : Bool} {more : List (Step α)} {s : Step α}
    {call : Task α → Task.Delivery × Task α × World α} {written : Task α → Course α}
    {ready : Task α → World α} (hs : s.defers = [])
    (hdoes : ∀ t, (call t).1 = none → s.Brings w (ready t))
    (hends : ∀ t, (Deed.endsAt s).Brings w (ready t))
    (hcall : ∀ t, l.tasks[i]? = some t →
      Records .nested (written t) (ready t) (t.stage · ) (call t).2.2 ((call t).2.1.stage · )) :
    (l.withTask i w fun t => l.afterTask i (call t)).Recorded o told [s] more l w
      (([], (l.withTask i w fun t => l.afterTask i (call t)).deed s) :: l.course i written) := by
  cases ht : l.tasks[i]? with
  | none =>
      simp only [Local.withTask, Local.course, ht]
      exact recorded_failed _
  | some t =>
      have hunder (ρ : Stage α) := (hcall t ht).under (o := o) ht ρ
      have hdoes := hdoes t
      have hends := hends t
      simp only [Local.withTask, Local.course, ht]
      generalize ready t = u at *
      generalize call t = called at *
      obtain ⟨delivery, u', v⟩ := called
      cases delivery with
      | none =>
          have hfirst : Records o [([], .does s)] w (l.stages (.busy told (s :: more) l.deferred))
              u (l.stages (.busy told more (s.defers ++ l.deferred))) :=
            .own (.does told s more l.deferred) (hdoes rfl)
          rw [hs, List.nil_append] at hfirst
          exact hfirst.trans (hunder _)
      | some how =>
          have hfirst : Records o [([], .endsAt s)] w (l.stages (.busy told (s :: more) l.deferred))
              u (l.stages (.busy told [] l.deferred)) :=
            .own (.endsAt told s more l.deferred) hends
          exact hfirst.trans (hunder _)

/-- A job lets go of one of its fibers. -/
theorem Local.recorded_withFiber {i : Nat} {told : Bool} {more : List (Step α)} {s : Step α}
    {after : Fiber α → World α} (hl : l.Fits n) (hs : s.defers = [])
    (hafter : ∀ f : Fiber α, f.Ready → s.Brings w (after f)) :
    (l.withFiber i w fun f l => .through l (after f)).Recorded o told [s] more l w
      [([], (l.withFiber i w fun f l => .through l (after f)).deed s)] := by
  unfold Local.withFiber
  split
  next f hf =>
    exact recorded_through (fun _ => rfl) (by rw [hs, List.nil_append])
      (hafter f (hl.fibers f (List.mem_of_getElem? hf)))
  next => exact recorded_failed _

/-- What is done several times is written down each time. -/
theorem recorded_times {told : Bool} {body : List (Step α)}
    {once : Local α → World α → Progress α} {written : Local α → World α → Course α}
    (honce : ∀ l w more, l.Fits n → w.Tidy →
      (once l w).Recorded o told (allUnrolled body) more l w (written l w) ∧
        (once l w).own.Fits n ∧ (once l w).world.Tidy)
    (count : Nat) (more : List (Step α)) (hl : l.Fits n) (hw : w.Tidy) :
    (doTimes body once count l w).Recorded o told (List.replicate count (allUnrolled body)).flatten
      more l w (Scribe.times once written count l w) := by
  induction count generalizing l w with
  | zero => exact .refl w _
  | succ count ih =>
      obtain ⟨hfirst, hfits, htidy⟩ :=
        honce l w ((List.replicate count (allUnrolled body)).flatten ++ more) hl hw
      unfold Progress.Recorded at ih hfirst ⊢
      rw [List.replicate_succ, List.flatten_cons, List.append_assoc]
      simp only [doTimes, Scribe.times]
      cases honce : once l w with
      | through l' w' =>
          rw [honce] at hfirst hfits htidy
          exact hfirst.trans (ih hfits htidy)
      | returned value l' w' | failed how l' w' =>
          rw [honce] at hfirst
          simpa [Progress.stages] using hfirst
      | paused pause left l' w' =>
          rw [honce] at hfirst
          simpa [Progress.stages, Progress.world, allUnrolled_append, allUnrolled_times]
            using hfirst

theorem Scribe.Faithful.steps (hr : r.Faithful e n) (state : FiberState) (told : Bool) :
    ∀ (steps : List (Step α)) l w more, depthOfSteps steps ≤ n → l.Fits n → w.Tidy →
      (doSteps e state steps l w).Recorded o told (allUnrolled steps) more l w
        (r.steps e state steps l w) := by
  refine steps_induction
    (P := fun s => ∀ l w more, s.depth ≤ n → l.Fits n → w.Tidy →
      (doStep e state s l w).Recorded o told s.unrolled more l w (r.step e state s l w))
    (Q := fun steps => ∀ l w more, depthOfSteps steps ≤ n → l.Fits n → w.Tidy →
      (doSteps e state steps l w).Recorded o told (allUnrolled steps) more l w
        (r.steps e state steps l w)) ?step ?nil ?cons
  case nil => exact fun l w more _ _ _ => .refl w _
  case cons =>
    intro s rest ihs ihrest l w more hdepth hl hw
    simp only [depthOfSteps, max_le_iff] at hdepth
    have hfirst := ihs l w (allUnrolled rest ++ more) hdepth.1 hl hw
    -- A step is done as a list of its own.
    have hkeeps := keeps_doSteps hr.lawful state [s] l w (by simpa [depthOfSteps] using hdepth.1)
      hl hw
    unfold Progress.Recorded at ihrest hfirst ⊢
    rw [allUnrolled, List.append_assoc]
    simp only [doSteps, Scribe.steps] at hkeeps ⊢
    cases hstep : doStep e state s l w with
    | through l' w' =>
        rw [hstep] at hfirst hkeeps
        exact hfirst.trans (ihrest l' w' more hdepth.2 hkeeps.fits (hkeeps.tidy hw))
    | returned value l' w' | failed how l' w' =>
        rw [hstep] at hfirst
        simpa [Progress.stages] using hfirst
    | paused pause left l' w' =>
        rw [hstep] at hfirst
        simpa [Progress.stages, Progress.world, allUnrolled_append] using hfirst
  case step =>
    intro s ihbody l w more hdepth hl hw
    cases s with
    | log v => exact recorded_through (fun _ => rfl) rfl rfl
    | yield => exact recorded_paused .yield
    | yieldAny => exact recorded_paused .yieldAny
    | yieldElse cleanup => exact recorded_paused (.yieldElse cleanup)
    | state => exact recorded_through (fun _ => rfl) rfl ⟨state, rfl⟩
    | «return» v => exact recorded_returned v
    | error text => exact recorded_failed _
    | cancel => exact recorded_failed _
    | panic text => exact recorded_failed _
    | «repeat» count body =>
        simp only [doStep, Scribe.step, Step.unrolled]
        refine recorded_times (fun l w more hl hw => ?_) count more hl hw
        have hkeeps := keeps_doSteps hr.lawful state body l w hdepth hl hw
        exact ⟨ihbody count body rfl l w more hdepth hl hw, hkeeps.fits, hkeeps.tidy hw⟩
    | defer v => exact recorded_through (fun _ => rfl) rfl rfl
    | statistics k =>
        simp only [doStep, Scribe.step, Step.unrolled]
        split
        next found hfound => exact recorded_through (fun _ => rfl) rfl ⟨found, hfound, rfl⟩
        next => exact recorded_failed _
    | prime k | reset k | create k =>
        simp only [doStep, Scribe.step, Step.unrolled]
        split
        · exact recorded_through (fun _ => rfl) rfl rfl
        · exact recorded_failed _
    | destroy i k =>
        simp only [doStep, Scribe.step, Step.unrolled]
        split
        · exact Local.recorded_withFiber hl rfl fun f hf => ⟨f, hf, hf.destroy_eq k w⟩
        · exact recorded_failed _
    | drop i =>
        simp only [doStep, Scribe.step, Step.unrolled]
        exact Local.recorded_withFiber hl rfl fun f hf => ⟨f.tag, Fiber.drop_of_none hf.job w⟩
    | spawn k job =>
        simp only [doStep, Scribe.step, Step.unrolled]
        split
        · exact recorded_through (fun ρ => l.stages_push ρ k job) rfl rfl
        · exact recorded_failed _
    | run i =>
        simp only [doStep, Scribe.step, Step.unrolled]
        exact Local.recorded_call rfl (fun t => t.brings_supplied e w)
          (fun t => t.brings_supplied_of_fails w) fun t ht =>
            hr.runTask (hl.tasks t (Array.mem_of_getElem? ht)) (by simp) hw
    | resume i =>
        simp only [doStep, Scribe.step, Step.unrolled]
        exact Local.recorded_call rfl (fun _ _ => rfl) (fun _ => rfl) fun t ht =>
          hr.resumeTask (hl.tasks t (Array.mem_of_getElem? ht)) (by simp) hw
    | abort i =>
        simp only [doStep, Scribe.step, Step.unrolled]
        exact Local.recorded_call rfl (fun _ _ => rfl) (fun _ => rfl) fun t ht =>
          (hr.abortTask (hl.tasks t (Array.mem_of_getElem? ht)) (by simp) hw).2
    | isDone i =>
        simp only [doStep, Scribe.step, Step.unrolled, Local.withTask]
        split
        next t _ => exact recorded_through (fun _ => rfl) rfl ⟨t.done, rfl⟩
        next => exact recorded_failed _
    | take i =>
        simp only [doStep, Scribe.step, Step.unrolled, Local.withTask]
        split
        next t ht =>
          refine recorded_through (fun ρ => ?_) rfl ⟨_, rfl⟩
          exact Local.stages_setTask_of_eq ρ ht fun q => by cases q <;> rfl
        next => exact recorded_failed _

/-- A job that was written down until it stopped. -/
theorem Scribe.Faithful.job (hr : r.Faithful e n) (state : FiberState) (told : Bool)
    {left : List (Step α)} (hleft : depthOfSteps left ≤ n) (hl : l.Fits n) (hw : w.Tidy) :
    Records o (r.job e state left l w) w (l.stages (.busy told (allUnrolled left) l.deferred))
      (doJob e state left l w).2 ((doJob e state left l w).1.stages o told) := by
  have hsteps := hr.steps (o := o) state told left l w [] hleft hl hw
  have hkeeps := keeps_doSteps hr.lawful state left l w hleft hl hw
  have hleave := hr.leave (o := o) told hkeeps.fits (hkeeps.tidy hw)
  unfold Progress.Recorded at hsteps
  rw [List.append_nil] at hsteps
  unfold Scribe.job doJob
  cases hdone : doSteps e state left l w with
  | through l' w' | returned value l' w' | failed how l' w' =>
      rw [hdone] at hsteps hleave
      exact hsteps.trans hleave
  | paused pause rest l' w' =>
      rw [hdone] at hsteps
      simp only [Progress.stages, List.append_nil] at hsteps ⊢
      exact hsteps

/-- A scribe is as faithful as the one for the jobs nested inside. -/
theorem Scribe.Faithful.outer (hr : r.Faithful e n) : (r.outer e).Faithful e.over (n + 1) where
  lawful := hr.lawful.over
  start o job w v hv hjob hw := by
    have hran := hr.job (o := o) .running false (Nat.le_of_succ_le_succ hjob) Local.fits_empty hw
    rw [Local.stages_empty] at hran
    exact Records.trans (.alone (.starts job) hv) hran
  resume o j w hj hw := by
    obtain ⟨-, hrest, hown⟩ := Suspended.fits_succ.mp hj
    have hjob (v : World α) (hv : v.Tidy) := hr.job (o := o) .running false hrest hown hv
    have hresumes {v : World α} (hv : (Deed.resumes j.pause).Brings w v) :
        Records o [([], .resumes j.pause)] w j.stages v
          (j.own.stages (.busy false (allUnrolled j.rest) j.deferred)) :=
      .own (.resumes j.pause _ _) hv
    obtain ⟨pause, rest, tasks, fibers, deferred⟩ := j
    cases pause with
    | yield | yieldElse cleanup => exact (hresumes rfl).trans (hjob w hw)
    | yieldAny => exact (hresumes rfl).trans (hjob (w.note .resumed) hw)
  cancel o j w hj hw := by
    obtain ⟨hpause, hrest, hown⟩ := Suspended.fits_succ.mp hj
    have htold {v : World α} (hv : (Deed.isTold j.pause).Brings w v) :
        Records o [([], .isTold j.pause)] w j.stages v
          (j.own.stages (.busy true (j.pause.told (allUnrolled j.rest)) j.deferred)) :=
      .own (.isTold j.pause _ _) hv
    obtain ⟨pause, rest, tasks, fibers, deferred⟩ := j
    cases pause with
    | yield => exact (htold rfl).trans (hr.leave true hown hw)
    | yieldAny =>
        exact (htold (v := w.note .cancelled) rfl).trans (hr.job .aborting true hrest hown hw)
    | yieldElse cleanup =>
        have hdepth : depthOfSteps (cleanup ++ rest) ≤ n := by
          rw [depthOfSteps_append]
          exact max_le hpause hrest
        have hjob := hr.job (o := o) .aborting true hdepth hown hw
        rw [allUnrolled_append] at hjob
        exact (htold rfl).trans hjob
  giveUp o j w hj hw := hr.leave true (Suspended.fits_succ.mp hj).2.2 hw

theorem faithful_scribe (n : Nat) : (scribe n : Scribe α).Faithful (engine n) n := by
  induction n with
  | zero =>
      have hnone {j : Suspended α} (hj : j.Fits 0) : False := Nat.lt_irrefl 0 hj.pos
      exact ⟨lawful_engine 0, fun _ job w v _ hjob => absurd hjob (Nat.not_succ_le_zero _),
        fun _ j w hj => (hnone hj).elim, fun _ j w hj => (hnone hj).elim,
        fun _ j w hj => (hnone hj).elim⟩
  | succ n ih => exact ih.outer

end Jobs

end ControlFlow.Fibers

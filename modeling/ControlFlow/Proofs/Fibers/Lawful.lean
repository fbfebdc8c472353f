import ControlFlow.Proofs.Fibers.Moves

/-! # Running jobs by moves

However jobs are nested, whatever they do comes down to moves that account for every fiber: what a
job holds before and after it is driven, what a task holds, and what is left when they are dropped.
The proofs follow the execution from fibers over tasks and steps to jobs, relative to an engine that
is lawful for the jobs nested inside, and so for engines of every level.
-/

namespace ControlFlow.Fibers

variable {α : Type}

/-- A job that held some fibers stopped, after moves that leave it with the fibers of its
suspension, if it is suspended. -/
structure Leaves (n : Nat) (w : World α) (held : Multiset Tag) (r : Stop α × World α) : Prop where
  moves : Moves w held r.2 r.1.held
  fits : ∀ j, r.1 = .suspended j → j.Fits n

/-- Jobs of at most so many levels are carried out by moves. -/
structure Engine.Lawful (e : Engine α) (n : Nat) : Prop where
  start : ∀ (job : Job α) w, job.levels ≤ n → w.Tidy → Leaves n w 0 (e.start job w)
  resume : ∀ j w, j.Fits n → w.Tidy → Leaves n w j.held (e.resume j w)
  cancel : ∀ j w, j.Fits n → w.Tidy → Leaves n w j.held (e.cancel j w)
  giveUp : ∀ j w, j.Fits n → w.Tidy → Moves w j.held (e.giveUp j w) 0

variable {e : Engine α} {n : Nat} {w : World α}

/-! ## Fibers -/

section Fibers

variable {f : Fiber α}

theorem Fiber.settle_tag (f : Fiber α) (state : FiberState) (stop : Stop α) :
    (f.settle state stop).tag = f.tag := by
  cases stop with
  | failed how => cases how <;> rfl
  | _ => rfl

theorem Fiber.settle_held (f : Fiber α) (state : FiberState) (stop : Stop α) :
    (f.settle state stop).held = f.tag ::ₘ stop.held := by
  rw [← f.settle_tag state stop]
  cases stop with
  | failed how => cases how <;> exact Fiber.held_of_none rfl
  | returned value => exact Fiber.held_of_none rfl
  | suspended j => exact Fiber.held_of_some rfl

/-- A fiber was driven by moves, and is suspended or has something to tell. -/
def Fiber.Driven (n : Nat) (f : Fiber α) (w : World α) (r : Except Failure (Fiber α × World α)) :
    Prop :=
  ∃ f' w', r = .ok (f', w') ∧ Moves w f.held w' f'.held ∧ f'.Fits n ∧
    (f'.state = .yielded ∨ f'.result.isSome ∨ f'.failure.isSome)

theorem Fiber.driven_settle {held : Multiset Tag} {r : Stop α × World α} {g : Fiber α}
    (h : Leaves n w held r) (hheld : f.held = f.tag ::ₘ held) (htag : g.tag = f.tag)
    (hresult : g.result = none) (hfailure : g.failure = none) :
    Fiber.Driven n f w (.ok (g.settle .yielded r.1, r.2)) := by
  obtain ⟨stop, w'⟩ := r
  obtain ⟨hrest, hback⟩ := settle_resting hresult hfailure stop
  refine ⟨_, _, rfl, ?_, ⟨hrest, fun j hj => ?_⟩, hback⟩
  · rw [g.settle_held, htag, hheld]
    exact h.moves.under f.tag
  · cases stop with
    | returned value => cases hj
    | failed how => cases how <;> cases hj
    | suspended k =>
        cases hj
        exact h.fits j rfl

theorem Engine.Lawful.runFiber (he : e.Lawful n) (hf : f.Resting) (hfree : f.isFree = true)
    {job : Job α} (hjob : job.levels ≤ n) (hw : w.Tidy) : f.Driven n w (f.run e job w) := by
  have hnone := hf.job_eq_none (hf.isFree_iff.mp hfree)
  have henter : Moves w 0 (if f.entered then w else w.count f.home .entered) 0 := by
    split
    · exact .refl w 0
    · exact .single (.enter w 0 f.home)
  rw [Fiber.run_of_isFree hfree]
  have hleaves := he.start job _ hjob (henter.tidy hw)
  exact Fiber.driven_settle ⟨henter.trans hleaves.moves, hleaves.fits⟩ (Fiber.held_of_none hnone)
    rfl rfl rfl

theorem Engine.Lawful.resumeFiber (he : e.Lawful n) (hf : f.Fits n) (hstate : f.state = .yielded)
    (hw : w.Tidy) : f.Driven n w (f.resume e w) := by
  obtain ⟨⟨j, hjob⟩, hresult, hfailure⟩ := hf.1.yielded hstate
  rw [Fiber.resume_of_yielded hstate hjob]
  exact Fiber.driven_settle (he.resume j w (hf.2 j hjob) hw) (Fiber.held_of_some hjob) rfl
    hresult hfailure

theorem Engine.Lawful.stop (he : e.Lawful n) {j : Suspended α} (hj : j.Fits n) (hw : w.Tidy) :
    Moves w j.held (e.stop j w) 0 := by
  obtain ⟨hmoves, hfits⟩ := he.cancel j w hj hw
  unfold Engine.stop
  split
  next k hk =>
    rw [hk] at hmoves
    exact hmoves.trans (he.giveUp k _ (hfits k hk) (hmoves.tidy hw))
  next hnone =>
    cases hstop : (e.cancel j w).1 with
    | suspended k => exact absurd hstop (hnone k)
    | _ => simpa [hstop, Stop.held] using hmoves

/-- A job that is told to stop lets go of everything, and leaves its fiber. -/
theorem Engine.Lawful.abortFiber (he : e.Lawful n) (hf : f.Fits n) (hstate : f.state = .yielded)
    (hw : w.Tidy) :
    ∃ f' w', f.abort e w = .ok (f', w') ∧ Moves w f.held w' f'.held ∧ f'.Resting ∧
      f'.state ≠ .yielded := by
  obtain ⟨⟨j, hjob⟩, -⟩ := hf.1.yielded hstate
  obtain ⟨f', habort, hnumber, hhome, hfinished, hnone, -⟩ := Fiber.abort_of_yielded hstate hjob
  refine ⟨f', _, habort, ?_, (hf.1.abort habort).1, by simp [hfinished]⟩
  have htag : f'.tag = f.tag := by simp [Fiber.tag, hnumber, hhome]
  rw [Fiber.held_of_some hjob, Fiber.held_of_none hnone, htag]
  exact (he.stop (hf.2 j hjob) hw).under f.tag

/-- A fiber at rest that is given back goes back, with all that is held by a job suspended on it. -/
theorem Engine.Lawful.destroy (he : e.Lawful n) (hf : f.Fits n) (hw : w.Tidy) (s : Nat) :
    Moves w f.held (f.destroy e s w) 0 := by
  have hstopped : Moves w f.held (f.stopped e w).2 (f.stopped e w).1.held := by
    unfold Fiber.stopped
    by_cases hstate : f.state = .yielded
    · obtain ⟨f', w', habort, hmoves, -⟩ := he.abortFiber hf hstate hw
      rw [habort]
      exact hmoves
    · rw [Fiber.abort_of_not_yielded hstate]
      exact .refl w _
  obtain ⟨hrest, hstate⟩ := hf.1.stopped (e := e) (w := w)
  have hready := hrest.clear hstate
  have hheld : (f.stopped e w).1.held = (f.stopped e w).1.clear.tag ::ₘ 0 :=
    Fiber.held_of_none (hrest.job_eq_none hstate)
  rw [Fiber.destroy_eq hf.1]
  rw [hheld] at hstopped
  exact hstopped.trans (.single (.giveBack _ 0 s hready))

/-- A fiber that is dropped is lost, and lets go of all that is held by a job suspended on it. -/
theorem Engine.Lawful.dropFiber (he : e.Lawful n) (hf : f.Fits n) (hw : w.Tidy) :
    Moves w f.held (f.drop e w) 0 := by
  cases hjob : f.job with
  | none =>
      rw [Fiber.held_of_none hjob, Fiber.drop_of_none hjob]
      exact .single (.drop w 0 f.tag)
  | some j =>
      have hlost : Moves w (f.tag ::ₘ j.held) (w.lose f.tag) j.held := .single (.drop w _ f.tag)
      rw [Fiber.held_of_some hjob, Fiber.drop_of_some hjob]
      exact hlost.trans (he.giveUp j _ (hf.2 j hjob) (hlost.tidy hw))

end Fibers

/-! ## Tasks -/

section Tasks

variable {t : Task α}

/-- A task was driven by moves, and is sound after it. -/
def Task.Driven (n : Nat) (t : Task α) (w : World α) (r : Task.Delivery × Task α × World α) :
    Prop :=
  Moves w t.held r.2.2 r.2.1.held ∧ r.2.1.Fits n

theorem Task.driven_rejected (ht : t.Fits n) (how : Failure) : t.Driven n w (some how, t, w) :=
  ⟨.refl w _, ht⟩

/-- A task is over once it has seen the end of its job, and suspended before. -/
theorem Engine.Lawful.settle (he : e.Lawful n) {f : Fiber α} (hf : f.Fits n)
    (hback : f.state = .yielded ∨ f.result.isSome ∨ f.failure.isSome) (hw : w.Tidy) (s : Nat)
    (last : Option (Fiber α)) :
    Task.Driven n ⟨s, .none, some f, .none, false⟩ w
      (Task.settle e ⟨s, .none, last, .none, false⟩ f w) := by
  have hrelease {g : Fiber α} (hg : g.Resting) (hjob : g.job = f.job) (htag : g.tag = f.tag) :
      Moves w f.held (g.destroy e s w) 0 := by
    rw [← Fiber.held_congr htag hjob]
    exact he.destroy (hf.congr hg hjob) hw s
  unfold Task.settle Task.Driven
  split
  next how hhow =>
    simp only [Task.release, Task.held]
    exact ⟨hrelease (Fiber.Step.takeFailure.resting hf.1) rfl rfl, Task.fits_ended⟩
  next value hfailure hresult =>
    simp only [Task.release, Task.held]
    exact ⟨hrelease (Fiber.Step.takeResult.resting hf.1) rfl rfl, Task.fits_ended⟩
  next hfailure hresult =>
    simp only [hfailure, hresult, Option.isSome_none, Bool.false_eq_true, or_false] at hback
    exact ⟨.refl w _, Task.fits_suspended.mpr ⟨hf, hback⟩⟩

theorem Engine.Lawful.runTask (he : e.Lawful n) (ht : t.Fits n) (hw : w.Tidy) :
    t.Driven n w (t.run e w) := by
  rcases ht.cases with ⟨s, body, rfl, hjob⟩ | ⟨s, f, rfl, -⟩ | ⟨s, result, rfl⟩
  · obtain ⟨hready, htidy⟩ := hw.create s
    obtain ⟨f, w', hrun, hmoves, hfits, hback⟩ :=
      he.runFiber hready.resting hready.isFree hjob htidy
    have hcreate : Moves w 0 (w.create s).2 (w.create s).1.held := by
      rw [Fiber.held_of_none hready.job]
      exact .single (.create w 0 s)
    have hdriven := hcreate.trans hmoves
    have hsettle := he.settle hfits hback (hdriven.tidy hw) s .none
    simp only [Task.Driven, Task.run, hrun, Task.held] at hsettle ⊢
    exact ⟨hdriven.trans hsettle.1, hsettle.2⟩
  · exact Task.driven_rejected ht _
  · exact Task.driven_rejected ht _

theorem Engine.Lawful.resumeTask (he : e.Lawful n) (ht : t.Fits n) (hw : w.Tidy) :
    t.Driven n w (t.resume e w) := by
  rcases ht.cases with ⟨s, body, rfl, -⟩ | ⟨s, f, rfl, hf, hstate⟩ | ⟨s, result, rfl⟩
  · exact Task.driven_rejected ht _
  · obtain ⟨f', w', hresume, hmoves, hfits, hback⟩ := he.resumeFiber hf hstate hw
    have hsettle := he.settle hfits hback (hmoves.tidy hw) s (some f)
    simp only [Task.Driven, Task.resume, hresume, Task.held] at hsettle ⊢
    exact ⟨hmoves.trans hsettle.1, hsettle.2⟩
  · exact Task.driven_rejected ht _

theorem Engine.Lawful.abortTask (he : e.Lawful n) (ht : t.Fits n) (hw : w.Tidy) :
    t.Driven n w (t.abort e w) := by
  rcases ht.cases with ⟨s, body, rfl, -⟩ | ⟨s, f, rfl, hf, hstate⟩ | ⟨s, result, rfl⟩
  · simp only [Task.Driven, Task.abort, Task.held]
    exact ⟨.refl w 0, Task.fits_ended⟩
  · obtain ⟨f', w', habort, hmoves, hrest, hstate'⟩ := he.abortFiber hf hstate hw
    have hnone := hrest.job_eq_none hstate'
    have hclean : Fiber.Fits n { f' with failure := .none } :=
      ⟨Fiber.Step.takeFailure.resting hrest, by simp [hnone]⟩
    have hdestroy := he.destroy hclean (hmoves.tidy hw) s
    rw [Fiber.held_of_none (by exact hnone)] at hdestroy
    rw [Fiber.held_of_none hnone] at hmoves
    simp only [Task.Driven, Task.abort, habort, Task.held]
    exact ⟨hmoves.trans hdestroy, Task.fits_ended⟩
  · simp only [Task.Driven, Task.abort, Task.held]
    exact ⟨.refl w 0, Task.fits_ended⟩

/-- A task that is dropped lets go of everything. -/
theorem Engine.Lawful.drop (he : e.Lawful n) (ht : t.Fits n) (hw : w.Tidy) :
    Moves w t.held (t.drop e w) 0 := by
  rcases ht.cases with ⟨s, body, rfl, -⟩ | ⟨s, f, rfl, hf, -⟩ | ⟨s, result, rfl⟩
  · simpa [Task.drop, Task.release, Task.held] using Moves.refl w 0
  · simpa [Task.drop, Task.release, Task.held] using he.destroy hf hw s
  · simpa [Task.drop, Task.release, Task.held] using Moves.refl w 0

end Tasks

/-! ## Jobs -/

section Jobs

variable {l : Local α}

theorem Moves.notes (w : World α) (held : Multiset Tag) (vs : List α) :
    Moves w held (vs.foldl (fun w v => w.note (.deferred v)) w) held := by
  induction vs generalizing w with
  | nil => exact .refl w held
  | cons v rest ih => exact (Moves.single (.note w held _)).trans (ih _)

/-- Fibers on which nothing is suspended are dropped one after the other. -/
theorem Moves.drops {fs : List (Fiber α)} (hfs : ∀ f ∈ fs, f.Ready) (e : Engine α) (w : World α) :
    Moves w (tags fs) (fs.foldl (fun w f => f.drop e w) w) 0 := by
  induction fs generalizing w with
  | nil => exact .refl w 0
  | cons f rest ih =>
      rw [List.foldl_cons, tags_cons, Fiber.drop_of_none (hfs f List.mem_cons_self).job]
      exact (Moves.single (.drop w _ f.tag)).trans (ih (fun g hg => hfs g (.tail f hg)) _)

/-- A job that is left lets go of all its tasks and fibers. -/
theorem Engine.Lawful.leave (he : e.Lawful n) (hl : l.Fits n) (hw : w.Tidy) :
    Moves w l.held (l.leave e w) 0 := by
  have hdrops (ts : List (Task α)) (hts : ∀ t ∈ ts, t.Fits n) (w : World α) (hw : w.Tidy) :
      Moves w (heldByTasks ts) (ts.foldl (fun w t => t.drop e w) w) 0 := by
    induction ts generalizing w with
    | nil => simpa [heldByTasks] using Moves.refl w 0
    | cons t rest ih =>
        have hdrop := he.drop (hts t List.mem_cons_self) hw
        have hrest := ih (fun u hu => hts u (List.mem_cons_of_mem t hu)) _ (hdrop.tidy hw)
        -- The first task is dropped while the others still hold their fibers.
        rw [heldByTasks]
        exact (by simpa using hdrop.frame (heldByTasks rest) : Moves w _ _ _).trans hrest
  have hall := hdrops l.tasks.toList (fun t ht => hl.tasks t (Array.mem_toList_iff.mp ht)) w hw
  rw [Array.foldl_toList] at hall
  have htasks := hall.frame (tags l.fibers)
  rw [zero_add] at htasks
  exact htasks.trans ((Moves.drops hl.fibers e _).trans (.notes _ 0 l.deferred))

namespace Progress

def own : Progress α → Local α
  | through l _ | returned _ l _ | failed _ l _ | paused _ _ l _ => l

def world : Progress α → World α
  | through _ w | returned _ _ w | failed _ _ w | paused _ _ _ w => w

/-- How many jobs are nested in what is left to do. -/
def depth : Progress α → Nat
  | paused pause left _ _ => max pause.depth (depthOfSteps left)
  | _ => 0

/-- A job that held some fibers got here by moves, with sound tasks. -/
structure Keeps (n : Nat) (w : World α) (held : Multiset Tag) (p : Progress α) : Prop where
  moves : Moves w held p.world p.own.held
  fits : p.own.Fits n
  depth : p.depth ≤ n

theorem Keeps.tidy {held : Multiset Tag} {p : Progress α} (h : p.Keeps n w held) (hw : w.Tidy) :
    p.world.Tidy :=
  h.moves.tidy hw

theorem Keeps.after {w' : World α} {held held' : Multiset Tag} {p : Progress α}
    (hmoves : Moves w held w' held') (h : p.Keeps n w' held') : p.Keeps n w held :=
  ⟨hmoves.trans h.moves, h.fits, h.depth⟩

theorem keeps_through (hl : l.Fits n) : (through l w).Keeps n w l.held :=
  ⟨.refl w _, hl, Nat.zero_le n⟩

theorem keeps_note (hl : l.Fits n) (entry : Entry α) :
    (through l (w.note entry)).Keeps n w l.held :=
  (keeps_through hl).after (.single (.note w _ entry))

theorem keeps_failed (hl : l.Fits n) (how : Failure) : (failed how l w).Keeps n w l.held :=
  ⟨.refl w _, hl, Nat.zero_le n⟩

theorem keeps_paused (hl : l.Fits n) {pause : Pause α} (hpause : pause.depth ≤ n) :
    (paused pause [] l w).Keeps n w l.held :=
  ⟨.refl w _, hl, by simpa [depth, depthOfSteps] using hpause⟩

/-- A job that is suspended may have more left to do. -/
theorem Keeps.more {held : Multiset Tag} {pause : Pause α} {left : List (Step α)} {w' : World α}
    (h : (paused pause left l w').Keeps n w held) {steps : List (Step α)}
    (hsteps : depthOfSteps steps ≤ n) : (paused pause (left ++ steps) l w').Keeps n w held := by
  refine ⟨h.moves, h.fits, ?_⟩
  have hleft := h.depth
  simp only [Progress.depth, depthOfSteps_append, max_le_iff] at hleft ⊢
  exact ⟨hleft.1, hleft.2, hsteps⟩

end Progress

open Progress

theorem Local.keeps_afterTask (hl : l.Fits n) {i : Nat} {t : Task α} (ht : l.tasks[i]? = some t)
    {r : Task.Delivery × Task α × World α} (h : t.Driven n w r) :
    (l.afterTask i r).Keeps n w l.held := by
  obtain ⟨delivery, t', w'⟩ := r
  obtain ⟨hmoves, hfits⟩ := h
  obtain ⟨others, hheld, hset⟩ := Local.exists_held_setTask ht
  have hall : Moves w l.held w' (l.setTask i t').held := by
    rw [hheld, hset]
    exact hmoves.frame others
  have hown := hl.setTask hfits i
  cases delivery with
  | none => exact (keeps_through hown).after hall
  | some how => exact (keeps_failed hown how).after hall

/-- What is done with a task keeps to moves if it does so for the task that is there. -/
theorem Local.keeps_withTask (hl : l.Fits n) {i : Nat} {act : Task α → Progress α}
    (hact : ∀ t, l.tasks[i]? = some t → t.Fits n → (act t).Keeps n w l.held) :
    (l.withTask i w act).Keeps n w l.held := by
  unfold Local.withTask
  split
  next t ht => exact hact t ht (hl.tasks t (Array.mem_of_getElem? ht))
  next => exact keeps_failed hl _

/-- A job lets go of one of its fibers by moves. -/
theorem Local.keeps_withFiber (hl : l.Fits n) {i : Nat} {after : Fiber α → World α}
    (hafter : ∀ (f : Fiber α) held, f.Ready → Moves w (f.tag ::ₘ held) (after f) held) :
    (l.withFiber i w fun f l => .through l (after f)).Keeps n w l.held := by
  unfold Local.withFiber
  split
  next f hf =>
    have hready := hl.fibers f (List.mem_of_getElem? hf)
    refine (keeps_through (hl.eraseFiber i)).after ?_
    rw [Local.held_eraseFiber hf]
    exact hafter f _ hready
  next => exact keeps_failed hl _

theorem keeps_doTimes {body : List (Step α)} (hbody : depthOfSteps body ≤ n)
    {once : Local α → World α → Progress α}
    (honce : ∀ l w, l.Fits n → w.Tidy → (once l w).Keeps n w l.held) (count : Nat)
    (hl : l.Fits n) (hw : w.Tidy) : (doTimes body once count l w).Keeps n w l.held := by
  induction count generalizing l w with
  | zero => exact keeps_through hl
  | succ count ih =>
      have hfirst := honce l w hl hw
      unfold doTimes
      split
      next l' w' hthrough =>
        rw [hthrough] at hfirst
        exact (ih hfirst.fits (hfirst.tidy hw)).after hfirst.moves
      next pause left l' w' hpaused =>
        rw [hpaused] at hfirst
        exact hfirst.more ((depthOfSteps_times count body).trans hbody)
      next => exact hfirst

/-- Induction over steps, where a step that repeats others has the hypothesis for those. -/
theorem steps_induction {P : Step α → Prop} {Q : List (Step α) → Prop}
    (step : ∀ s, (∀ count body, s = .repeat count body → Q body) → P s)
    (nil : Q []) (cons : ∀ s rest, P s → Q rest → Q (s :: rest)) : ∀ steps, Q steps := by
  -- Of the steps that hold others, only a repetition carries them out itself.
  have hstep (s : Step α) : P s :=
    @Step.rec α P Q (fun _ => step _ nofun) (step _ nofun) (step _ nofun)
      (fun _ _ => step _ nofun) (step _ nofun) (fun _ => step _ nofun) (fun _ => step _ nofun)
      (step _ nofun) (fun _ => step _ nofun)
      (fun count body hbody => step _ fun _ _ heq => by cases heq; exact hbody)
      (fun _ => step _ nofun) (fun _ => step _ nofun) (fun _ => step _ nofun)
      (fun _ => step _ nofun) (fun _ => step _ nofun) (fun _ _ => step _ nofun)
      (fun _ => step _ nofun) (fun _ _ _ => step _ nofun) (fun _ => step _ nofun)
      (fun _ => step _ nofun) (fun _ => step _ nofun) (fun _ => step _ nofun)
      (fun _ => step _ nofun) nil (fun s rest hs hrest => cons s rest hs hrest) s
  intro steps
  induction steps with
  | nil => exact nil
  | cons s rest ih => exact cons s rest (hstep s) ih

theorem keeps_doSteps (he : e.Lawful n) (state : FiberState) : ∀ (steps : List (Step α)) l w,
    depthOfSteps steps ≤ n → l.Fits n → w.Tidy →
      (doSteps e state steps l w).Keeps n w l.held := by
  refine steps_induction
    (P := fun s => ∀ l w, s.depth ≤ n → l.Fits n → w.Tidy → (doStep e state s l w).Keeps n w l.held)
    (Q := fun steps => ∀ l w, depthOfSteps steps ≤ n → l.Fits n → w.Tidy →
      (doSteps e state steps l w).Keeps n w l.held) ?step ?nil ?cons
  case nil => exact fun l w _ hl _ => keeps_through hl
  case cons =>
    intro s rest ihs ihrest l w hdepth hl hw
    simp only [depthOfSteps, max_le_iff] at hdepth
    have hfirst := ihs l w hdepth.1 hl hw
    unfold doSteps
    split
    next l' w' hthrough =>
      rw [hthrough] at hfirst
      exact (ihrest l' w' hdepth.2 hfirst.fits (hfirst.tidy hw)).after hfirst.moves
    next pause left l' w' hpaused =>
      rw [hpaused] at hfirst
      exact hfirst.more hdepth.2
    next => exact hfirst
  case step =>
    intro s ihbody l w hdepth hl hw
    cases s with
    | log v => exact keeps_note hl _
    | yield => exact keeps_paused hl (Nat.zero_le n)
    | yieldAny => exact keeps_paused hl (Nat.zero_le n)
    | yieldElse cleanup => exact keeps_paused hl hdepth
    | state => exact keeps_note hl _
    | «return» v => exact ⟨.refl w _, hl, Nat.zero_le n⟩
    | error text => exact keeps_failed hl _
    | cancel => exact keeps_failed hl _
    | panic text => exact keeps_failed hl _
    | «repeat» count body =>
        simp only [doStep]
        exact keeps_doTimes hdepth (fun l w => ihbody count body rfl l w hdepth) count hl hw
    | defer v => exact ⟨.refl w _, ⟨hl.tasks, hl.fibers⟩, Nat.zero_le n⟩
    | statistics s =>
        simp only [doStep]
        split
        · exact keeps_note hl _
        · exact keeps_failed hl _
    | prime s =>
        simp only [doStep]
        split
        · exact (keeps_through hl).after (.single (.prime w _ s))
        · exact keeps_failed hl _
    | reset s =>
        simp only [doStep]
        split
        · exact (keeps_through hl).after (.single (.reset w _ s))
        · exact keeps_failed hl _
    | create s =>
        simp only [doStep]
        split
        · refine (keeps_through (hl.addFiber (hw.create s).1)).after (.single ?_)
          rw [Local.held_addFiber]
          exact .create w _ s
        · exact keeps_failed hl _
    | destroy i s =>
        simp only [doStep]
        split
        · refine Local.keeps_withFiber hl fun f held hready => .single ?_
          rw [hready.destroy_eq]
          exact .giveBack w held s hready
        · exact keeps_failed hl _
    | drop i =>
        simp only [doStep]
        refine Local.keeps_withFiber hl fun f held hready => .single ?_
        rw [Fiber.drop_of_none hready.job]
        exact .drop w held f.tag
    | spawn s job =>
        simp only [doStep]
        split
        · have hheld : Local.held { l with tasks := l.tasks.push (.fresh s job) } = l.held := by
            simp [Local.held, heldByTasks_eq, Task.fresh, Task.held]
          refine ⟨?_, ⟨fun t ht => ?_, hl.fibers⟩, Nat.zero_le n⟩
          · rw [Progress.own, Progress.world, hheld]
            exact .refl w _
          · rcases Array.mem_push.mp ht with hold | rfl
            · exact hl.tasks t hold
            · exact Task.fits_waiting.mpr hdepth
        · exact keeps_failed hl _
    | run i =>
        simp only [doStep]
        exact Local.keeps_withTask hl fun t ht hfits =>
          Local.keeps_afterTask hl ht (he.runTask hfits hw)
    | resume i =>
        simp only [doStep]
        exact Local.keeps_withTask hl fun t ht hfits =>
          Local.keeps_afterTask hl ht (he.resumeTask hfits hw)
    | abort i =>
        simp only [doStep]
        exact Local.keeps_withTask hl fun t ht hfits =>
          Local.keeps_afterTask hl ht (he.abortTask hfits hw)
    | isDone i =>
        simp only [doStep]
        exact Local.keeps_withTask hl fun t ht hfits => keeps_note hl _
    | take i =>
        simp only [doStep]
        refine Local.keeps_withTask hl fun t ht hfits => ?_
        obtain ⟨others, hheld, hset⟩ := Local.exists_held_setTask ht
        have hmoves : Moves w l.held w (l.setTask i { t with result := none }).held := by
          rw [hheld, hset, Task.held_takeResult]
          exact .refl w _
        exact (keeps_note (hl.setTask hfits.takeResult i) _).after hmoves

/-- A job that is done from some step on leaves with moves. -/
theorem leaves_doJob (he : e.Lawful n) (state : FiberState) {steps : List (Step α)}
    (hsteps : depthOfSteps steps ≤ n) (hl : l.Fits n) (hw : w.Tidy) :
    Leaves (n + 1) w l.held (doJob e state steps l w) := by
  have hkeeps := keeps_doSteps he state steps l w hsteps hl hw
  have hleave := hkeeps.moves.trans (he.leave hkeeps.fits (hkeeps.tidy hw))
  unfold doJob
  split
  next l' w' heq =>
    rw [heq] at hleave
    exact ⟨hleave, nofun⟩
  next v l' w' heq =>
    rw [heq] at hleave
    exact ⟨hleave, nofun⟩
  next how l' w' heq =>
    rw [heq] at hleave
    exact ⟨hleave, nofun⟩
  next pause left l' w' heq =>
    rw [heq] at hkeeps
    have hdepth := max_le_iff.mp hkeeps.depth
    refine ⟨hkeeps.moves, fun j hj => ?_⟩
    cases hj
    exact Suspended.fits_succ.mpr ⟨hdepth.1, hdepth.2, hkeeps.fits⟩

theorem Leaves.after_note (entry : Entry α) {held : Multiset Tag} {r : Stop α × World α}
    (h : Leaves n (w.note entry) held r) : Leaves n w held r :=
  ⟨(Moves.single (.note w held entry)).trans h.moves, h.fits⟩

/-- An engine for jobs is as lawful as the one for the jobs nested inside. -/
theorem Engine.Lawful.over (he : e.Lawful n) : e.over.Lawful (n + 1) where
  start job w hjob hw := by
    have hleaves := leaves_doJob he .running (Nat.le_of_succ_le_succ hjob) Local.fits_empty hw
    rwa [Local.held_empty] at hleaves
  resume j w hj hw := by
    obtain ⟨pause, rest, tasks, fibers, deferred⟩ := j
    obtain ⟨-, hrest, hown⟩ := Suspended.fits_succ.mp hj
    cases pause with
    | yield => exact leaves_doJob he .running hrest hown hw
    | yieldAny => exact .after_note .resumed (leaves_doJob he .running hrest hown hw)
    | yieldElse cleanup => exact leaves_doJob he .running hrest hown hw
  cancel j w hj hw := by
    obtain ⟨pause, rest, tasks, fibers, deferred⟩ := j
    obtain ⟨hpause, hrest, hown⟩ := Suspended.fits_succ.mp hj
    cases pause with
    | yield => exact ⟨he.leave hown hw, nofun⟩
    | yieldAny => exact .after_note .cancelled (leaves_doJob he .aborting hrest hown hw)
    | yieldElse cleanup =>
        refine leaves_doJob he .aborting ?_ hown hw
        rw [depthOfSteps_append]
        exact max_le hpause hrest
  giveUp j w hj hw := he.leave (Suspended.fits_succ.mp hj).2.2 hw

/-- Every engine carries out the jobs of its levels by moves. -/
theorem lawful_engine (n : Nat) : (engine n : Engine α).Lawful n := by
  induction n with
  | zero =>
      have hnone {j : Suspended α} (hj : j.Fits 0) : False := Nat.lt_irrefl 0 hj.pos
      exact ⟨fun job w hjob => absurd hjob (Nat.not_succ_le_zero _),
        fun j w hj => (hnone hj).elim, fun j w hj => (hnone hj).elim,
        fun j w hj => (hnone hj).elim⟩
  | succ n ih => exact ih.over

end Jobs

end ControlFlow.Fibers

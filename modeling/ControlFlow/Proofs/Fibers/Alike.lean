import ControlFlow.Proofs.Fibers.Twins

/-! # Twins are carried out alike

Jobs that look at no scheduler are carried out alike in worlds beside each other: they stop for the
same reason, log the same, and leave twins behind. The proofs follow the execution from fibers over
tasks and steps to jobs, relative to an engine that carries out alike the jobs nested inside.
-/

namespace ControlFlow.Fibers

variable {α : Type}

/-- Two jobs stopped for the same reason. -/
inductive Stop.Alike : Stop α → Stop α → Prop where
  | returned (value : Option α) : Stop.Alike (.returned value) (.returned value)
  | failed (how : Failure) : Stop.Alike (.failed how) (.failed how)
  | suspended {j j' : Suspended α} : j.Twin j' → Stop.Alike (.suspended j) (.suspended j')

variable (before before' : List (Entry α))

/-- Two jobs stopped alike, in worlds beside each other. -/
def Stop.Ends (r r' : Stop α × World α) : Prop :=
  r.1.Alike r'.1 ∧ World.Beside before before' r.2 r'.2

/-- Blind jobs are carried out alike in worlds beside each other. -/
structure Engine.Even (e : Engine α) : Prop where
  start : ∀ job w w', areBlind job = true → World.Beside before before' w w' →
    Stop.Ends before before' (e.start job w) (e.start job w')
  resume : ∀ j j' w w', j.Twin j' → World.Beside before before' w w' →
    Stop.Ends before before' (e.resume j w) (e.resume j' w')
  cancel : ∀ j j' w w', j.Twin j' → World.Beside before before' w w' →
    Stop.Ends before before' (e.cancel j w) (e.cancel j' w')
  giveUp : ∀ j j' w w', j.Twin j' → World.Beside before before' w w' →
    World.Beside before before' (e.giveUp j w) (e.giveUp j' w')

variable {before before'} {e : Engine α} {w w' : World α}

/-! ## Fibers -/

section Fibers

variable {f f' : Fiber α}

/-- Control came back to two fibers alike. -/
inductive Fiber.Alike (f f' : Fiber α) : Prop where
  | suspended {j j' : Suspended α} : f.Suspends j → f'.Suspends j' → j.Twin j' → Fiber.Alike f f'
  | ended : f.Resting → f'.Resting → f.state ≠ .yielded → f'.state ≠ .yielded →
      f.result = f'.result → f.failure = f'.failure → (f.result.isSome ∨ f.failure.isSome) →
      Fiber.Alike f f'

theorem Fiber.alike_settle {stop stop' : Stop α} (h : stop.Alike stop') (hresult : f.result = none)
    (hresult' : f'.result = none) (hfailure : f.failure = none) (hfailure' : f'.failure = none) :
    (f.settle .yielded stop).Alike (f'.settle .yielded stop') := by
  have hrest := (settle_resting hresult hfailure stop).1
  have hrest' := (settle_resting hresult' hfailure' stop').1
  cases h with
  | returned value =>
      exact .ended hrest hrest' nofun nofun rfl (hfailure.trans hfailure'.symm) (.inl rfl)
  | failed how =>
      cases how <;>
        exact .ended hrest hrest' nofun nofun (hresult.trans hresult'.symm) rfl (.inr rfl)
  | suspended hj =>
      exact .suspended ⟨rfl, hresult, hfailure, rfl⟩ ⟨rfl, hresult', hfailure', rfl⟩ hj

/-- Two fibers were driven alike. -/
def Fiber.DrivenAlike (before before' : List (Entry α))
    (r r' : Except Failure (Fiber α × World α)) : Prop :=
  ∃ g g' v v', r = .ok (g, v) ∧ r' = .ok (g', v') ∧ g.Alike g' ∧ World.Beside before before' v v'

theorem Engine.Even.runFiber (he : e.Even before before') (hf : f.Ready) (hf' : f'.Ready)
    {job : Job α} (hjob : areBlind job = true) (hw : World.Beside before before' w w') :
    Fiber.DrivenAlike before before' (f.run e job w) (f'.run e job w') := by
  have henter (f : Fiber α) (w : World α) :
      World.Quiet w (if f.entered then w else w.count f.home .entered) := by
    split
    · exact .refl w
    · exact World.quiet_count w f.home _
  obtain ⟨hstop, hworld⟩ := he.start job _ _ hjob (hw.quiet (henter f w) (henter f' w'))
  exact ⟨_, _, _, _, Fiber.run_of_isFree hf.isFree, Fiber.run_of_isFree hf'.isFree,
    Fiber.alike_settle hstop rfl rfl rfl rfl, hworld⟩

theorem Engine.Even.resumeFiber (he : e.Even before before') {j j' : Suspended α}
    (hf : f.Suspends j) (hf' : f'.Suspends j') (hj : j.Twin j')
    (hw : World.Beside before before' w w') :
    Fiber.DrivenAlike before before' (f.resume e w) (f'.resume e w') := by
  obtain ⟨hstop, hworld⟩ := he.resume j j' w w' hj hw
  exact ⟨_, _, _, _, Fiber.resume_of_yielded hf.state hf.job,
    Fiber.resume_of_yielded hf'.state hf'.job,
    Fiber.alike_settle hstop hf.result hf'.result hf.failure hf'.failure, hworld⟩

theorem Engine.Even.stop (he : e.Even before before') {j j' : Suspended α} (hj : j.Twin j')
    (hw : World.Beside before before' w w') :
    (e.cancel j w).1.panic? = (e.cancel j' w').1.panic? ∧
      World.Beside before before' (e.stop j w) (e.stop j' w') := by
  obtain ⟨hstop, hworld⟩ := he.cancel j j' w w' hj hw
  unfold Engine.stop
  generalize e.cancel j w = r at *
  generalize e.cancel j' w' = r' at *
  obtain ⟨stop, v⟩ := r
  obtain ⟨stop', v'⟩ := r'
  cases hstop with
  | returned value => exact ⟨rfl, hworld⟩
  | failed how => exact ⟨rfl, hworld⟩
  | suspended hk => exact ⟨rfl, he.giveUp _ _ v v' hk hworld⟩

theorem World.Beside.destroy {s : Nat} (hf : f.Resting) (hf' : f'.Resting)
    (hw : World.Beside before before' (f.stopped e w).2 (f'.stopped e w').2) :
    World.Beside before before' (f.destroy e s w) (f'.destroy e s w') := by
  rw [Fiber.destroy_eq hf, Fiber.destroy_eq hf']
  exact hw.quiet (World.quiet_takeBack _ s (hf.stopped.1.clear hf.stopped.2))
    (World.quiet_takeBack _ s (hf'.stopped.1.clear hf'.stopped.2))

theorem World.Beside.destroy_ended {s : Nat} (hf : f.Resting) (hf' : f'.Resting)
    (hstate : f.state ≠ .yielded) (hstate' : f'.state ≠ .yielded)
    (hw : World.Beside before before' w w') :
    World.Beside before before' (f.destroy e s w) (f'.destroy e s w') := by
  refine .destroy hf hf' ?_
  simpa only [Fiber.stopped, Fiber.abort_of_not_yielded hstate,
    Fiber.abort_of_not_yielded hstate'] using hw

theorem Engine.Even.destroy (he : e.Even before before') {j j' : Suspended α}
    (hf : f.Suspends j) (hf' : f'.Suspends j') (hj : j.Twin j')
    (hw : World.Beside before before' w w') (s : Nat) :
    World.Beside before before' (f.destroy e s w) (f'.destroy e s w') := by
  obtain ⟨g, hg, -⟩ := Fiber.abort_of_yielded (e := e) (w := w) hf.state hf.job
  obtain ⟨g', hg', -⟩ := Fiber.abort_of_yielded (e := e) (w := w') hf'.state hf'.job
  refine .destroy hf.resting hf'.resting ?_
  simpa only [Fiber.stopped, hg, hg'] using (he.stop hj hw).2

end Fibers

/-! ## Tasks -/

section Tasks

variable {t t' : Task α}

/-- Two tasks were driven alike: the same was delivered, and they are twins. -/
def Task.DrivenAlike (before before' : List (Entry α))
    (r r' : Task.Delivery × Task α × World α) : Prop :=
  r.1 = r'.1 ∧ r.2.1.Twin r'.2.1 ∧ World.Beside before before' r.2.2 r'.2.2

theorem Task.settle_alike {f f' : Fiber α} (h : f.Alike f')
    (hw : World.Beside before before' w w') (s : Nat) (last last' : Option (Fiber α)) :
    Task.DrivenAlike before before' (Task.settle e ⟨s, none, last, none, false⟩ f w)
      (Task.settle e ⟨s, none, last', none, false⟩ f' w') := by
  cases h with
  | suspended hf hf' hj =>
      simp only [Task.settle, hf.failure, hf.result, hf'.failure, hf'.result]
      exact ⟨rfl, hj.task s hf hf', hw⟩
  | ended hf hf' hstate hstate' hresult hfailure hsome =>
      have hended {g g' : Fiber α} (hg : g.Resting) (hg' : g'.Resting) (hsame : g.state = f.state)
          (hsame' : g'.state = f'.state) :
          World.Beside before before' (g.destroy e s w) (g'.destroy e s w') :=
        .destroy_ended hg hg' (hsame ▸ hstate) (hsame' ▸ hstate') hw
      cases hhow : f.failure with
      | some how =>
          simp only [Task.settle, hhow, ← hfailure, Task.release]
          exact ⟨rfl, .ended s none, hended (Fiber.Step.takeFailure.resting hf)
            (Fiber.Step.takeFailure.resting hf') rfl rfl⟩
      | none =>
          obtain ⟨value, hvalue⟩ : ∃ value, f.result = some value :=
            Option.isSome_iff_exists.mp (by simpa [hhow] using hsome)
          rw [hhow] at hfailure
          rw [hvalue] at hresult
          simp only [Task.settle, hhow, hvalue, ← hfailure, ← hresult, Task.release]
          exact ⟨rfl, .ended s (some value), hended
            (hhow ▸ Fiber.Step.takeResult.resting hf)
            (hfailure ▸ Fiber.Step.takeResult.resting hf') rfl rfl⟩

theorem Engine.Even.runTask (he : e.Even before before') (ht : t.Twin t')
    (hw : World.Beside before before' w w') :
    Task.DrivenAlike before before' (t.run e w) (t'.run e w') := by
  cases ht with
  | waiting s hbody =>
      obtain ⟨hready, htidy⟩ := hw.tidy.create s
      obtain ⟨hready', htidy'⟩ := hw.tidy'.create s
      obtain ⟨g, g', v, v', hrun, hrun', halike, hbeside⟩ := he.runFiber hready hready' hbody
        (hw.quiet (World.quiet_create w s) (World.quiet_create w' s))
      simp only [Task.run, hrun, hrun']
      exact Task.settle_alike halike hbeside s _ _
  | suspended s hf hf' hpause hrest hfibers hsize htasks =>
      exact ⟨rfl, .suspended s hf hf' hpause hrest hfibers hsize htasks, hw⟩
  | ended s result => exact ⟨rfl, .ended s result, hw⟩

theorem Engine.Even.resumeTask (he : e.Even before before') (ht : t.Twin t')
    (hw : World.Beside before before' w w') :
    Task.DrivenAlike before before' (t.resume e w) (t'.resume e w') := by
  rcases ht.cases with ⟨rfl, hnone⟩ | ⟨s, f, f', j, j', rfl, rfl, hf, hf', hj⟩
  · simp only [Task.resume, hnone]
    exact ⟨rfl, ht, hw⟩
  · obtain ⟨g, g', v, v', hresume, hresume', halike, hbeside⟩ := he.resumeFiber hf hf' hj hw
    simp only [Task.resume, hresume, hresume']
    exact Task.settle_alike halike hbeside s _ _

theorem Engine.Even.abortTask (he : e.Even before before') (ht : t.Twin t')
    (hw : World.Beside before before' w w') :
    Task.DrivenAlike before before' (t.abort e w) (t'.abort e w') := by
  rcases ht.cases with ⟨rfl, hnone⟩ | ⟨s, f, f', j, j', rfl, rfl, hf, hf', hj⟩
  · simp only [Task.abort, hnone]
    exact ⟨rfl, .ended t.scheduler .none, hw⟩
  · obtain ⟨g, hg, -, -, hstate, -, -, -, hpanic⟩ :=
      Fiber.abort_of_yielded (e := e) (w := w) hf.state hf.job
    obtain ⟨g', hg', -, -, hstate', -, -, -, hpanic'⟩ :=
      Fiber.abort_of_yielded (e := e) (w := w') hf'.state hf'.job
    obtain ⟨hsame, hbeside⟩ := he.stop hj hw
    simp only [Task.abort, hg, hg']
    refine ⟨?_, .ended s .none, .destroy_ended
      (Fiber.Step.takeFailure.resting (hf.resting.abort hg).1)
      (Fiber.Step.takeFailure.resting (hf'.resting.abort hg').1)
      (by simp [hstate]) (by simp [hstate']) hbeside⟩
    rw [hpanic hf.failure, hpanic' hf'.failure, hsame]

theorem Engine.Even.drop (he : e.Even before before') (ht : t.Twin t')
    (hw : World.Beside before before' w w') :
    World.Beside before before' (t.drop e w) (t'.drop e w') := by
  rcases ht.cases with ⟨rfl, hnone⟩ | ⟨s, f, f', j, j', rfl, rfl, hf, hf', hj⟩
  · simpa [Task.drop, Task.release, hnone] using hw
  · exact he.destroy hf hf' hj hw s

end Tasks

/-! ## Jobs -/

section Jobs

variable {l l' : Local α}

/-- Two jobs got equally far. -/
inductive Progress.Alike (before before' : List (Entry α)) : Progress α → Progress α → Prop where
  | through {l l' : Local α} {w w' : World α} : l.Twin l' → World.Beside before before' w w' →
      Progress.Alike before before' (.through l w) (.through l' w')
  | returned (value : α) {l l' : Local α} {w w' : World α} : l.Twin l' →
      World.Beside before before' w w' →
      Progress.Alike before before' (.returned value l w) (.returned value l' w')
  | failed (how : Failure) {l l' : Local α} {w w' : World α} : l.Twin l' →
      World.Beside before before' w w' →
      Progress.Alike before before' (.failed how l w) (.failed how l' w')
  | paused {pause : Pause α} {left : List (Step α)} {l l' : Local α} {w w' : World α} :
      pause.isBlind = true → areBlind left = true → l.Twin l' →
      World.Beside before before' w w' →
      Progress.Alike before before' (.paused pause left l w) (.paused pause left l' w')

/-- Fibers that are ready for a job are dropped alike. -/
theorem World.Beside.drops {fs fs' : List (Fiber α)} (hfs : Fiber.Matched fs fs')
    (hw : World.Beside before before' w w') :
    World.Beside before before' (fs.foldl (fun w f => f.drop e w) w)
      (fs'.foldl (fun w f => f.drop e w) w') := by
  induction fs generalizing fs' w w' with
  | nil => cases List.length_eq_zero_iff.mp hfs.length.symm; exact hw
  | cons f rest ih =>
      cases fs' with
      | nil => cases hfs.length
      | cons f' rest' =>
          rw [List.foldl_cons, List.foldl_cons]
          refine ih hfs.tail ?_
          rw [Fiber.drop_of_none (hfs.ready f List.mem_cons_self).job,
            Fiber.drop_of_none (hfs.ready' f' List.mem_cons_self).job]
          exact hw.quiet (World.quiet_lose w f.tag) (World.quiet_lose w' f'.tag)

theorem Engine.Even.leave (he : e.Even before before') (hl : l.Twin l')
    (hw : World.Beside before before' w w') :
    World.Beside before before' (l.leave e w) (l'.leave e w') := by
  have hdrops (ts ts' : List (Task α)) (hlength : ts.length = ts'.length)
      (hts : ∀ (i : Nat) t t', ts[i]? = some t → ts'[i]? = some t' → t.Twin t') (w w' : World α)
      (hw : World.Beside before before' w w') : World.Beside before before'
        (ts.foldl (fun w t => t.drop e w) w) (ts'.foldl (fun w t => t.drop e w) w') := by
    induction ts generalizing ts' w w' with
    | nil =>
        cases ts' with
        | nil => exact hw
        | cons => cases hlength
    | cons t rest ih =>
        cases ts' with
        | nil => cases hlength
        | cons t' rest' =>
            exact ih rest' (Nat.succ.inj hlength) (fun i => hts (i + 1)) _ _
              (he.drop (hts 0 t t' rfl rfl) hw)
  have hnotes (vs : List α) (w w' : World α) (hw : World.Beside before before' w w') :
      World.Beside before before' (vs.foldl (fun w v => w.note (.deferred v)) w)
        (vs.foldl (fun w v => w.note (.deferred v)) w') := by
    induction vs generalizing w w' with
    | nil => exact hw
    | cons v rest ih => exact ih _ _ (hw.note _)
  have hall := hdrops l.tasks.toList l'.tasks.toList (by simpa using hl.size)
    (fun i t t' ht ht' => hl.tasks i t t' (by simpa using ht) (by simpa using ht')) w w' hw
  rw [Array.foldl_toList, Array.foldl_toList] at hall
  unfold Local.leave
  rw [← hl.deferred]
  exact hnotes l.deferred _ _ (hall.drops hl.fibers)

open Progress

/-- What is done with a task is done alike with its twin. -/
theorem Local.withTask_alike (hl : l.Twin l') (hw : World.Beside before before' w w') {i : Nat}
    {act act' : Task α → Progress α}
    (hact : ∀ t t', t.Twin t' → Alike before before' (act t) (act' t')) :
    Alike before before' (l.withTask i w act) (l'.withTask i w' act') := by
  unfold Local.withTask
  rcases hl.getElem? i with ⟨hnone, hnone'⟩ | ⟨t, t', ht, ht', htwin⟩
  · rw [hnone, hnone']
    exact .failed _ hl hw
  · rw [ht, ht']
    exact hact t t' htwin

/-- Jobs let go of their fibers alike. -/
theorem Local.withFiber_alike (hl : l.Twin l') (hw : World.Beside before before' w w') {i : Nat}
    {after after' : Fiber α → World α}
    (hafter : ∀ f f', f.Ready → f'.Ready →
      World.Beside before before' (after f) (after' f')) :
    Alike before before' (l.withFiber i w fun f l => .through l (after f))
      (l'.withFiber i w' fun f l => .through l (after' f)) := by
  unfold Local.withFiber
  rcases hl.fibers.getElem? i with ⟨hnone, hnone'⟩ | ⟨f, f', hf, hf', hready, hready'⟩
  · rw [hnone, hnone']
    exact .failed _ hl hw
  · rw [hf, hf']
    exact .through ⟨hl.deferred, hl.fibers.eraseIdx i, hl.size, hl.tasks⟩
      (hafter f f' hready hready')

theorem Local.afterTask_alike (hl : l.Twin l') {i : Nat}
    {r r' : Task.Delivery × Task α × World α} (h : Task.DrivenAlike before before' r r') :
    Alike before before' (l.afterTask i r) (l'.afterTask i r') := by
  obtain ⟨delivery, t, w⟩ := r
  obtain ⟨delivery', t', w'⟩ := r'
  obtain ⟨rfl, ht, hw⟩ := h
  cases delivery with
  | none => exact .through (hl.setTask ht i) hw
  | some how => exact .failed how (hl.setTask ht i) hw

theorem doTimes_alike {body : List (Step α)} (hbody : areBlind body = true)
    {once : Local α → World α → Progress α}
    (honce : ∀ l l' w w', l.Twin l' → World.Beside before before' w w' →
      Alike before before' (once l w) (once l' w')) (count : Nat) (hl : l.Twin l')
    (hw : World.Beside before before' w w') :
    Alike before before' (doTimes body once count l w) (doTimes body once count l' w') := by
  induction count generalizing l l' w w' with
  | zero => exact .through hl hw
  | succ count ih =>
      have hfirst := honce l l' w w' hl hw
      unfold doTimes
      generalize once l w = p at *
      generalize once l' w' = p' at *
      cases hfirst with
      | through hl hw => exact ih hl hw
      | returned v hl hw => exact .returned v hl hw
      | failed how hl hw => exact .failed how hl hw
      | paused hpause hleft hl hw =>
          refine .paused hpause ?_ hl hw
          simp [areBlind_append, hleft, areBlind_times hbody]

theorem doSteps_alike (he : e.Even before before') (state : FiberState) :
    ∀ (steps : List (Step α)) l l' w w', areBlind steps = true → l.Twin l' →
      World.Beside before before' w w' →
      Alike before before' (doSteps e state steps l w) (doSteps e state steps l' w') := by
  refine steps_induction
    (P := fun s => ∀ l l' w w', s.isBlind = true → l.Twin l' → World.Beside before before' w w' →
      Alike before before' (doStep e state s l w) (doStep e state s l' w'))
    (Q := fun steps => ∀ l l' w w', areBlind steps = true → l.Twin l' →
      World.Beside before before' w w' →
      Alike before before' (doSteps e state steps l w) (doSteps e state steps l' w'))
    ?step ?nil ?cons
  case nil => exact fun l l' w w' _ hl hw => .through hl hw
  case cons =>
    intro s rest ihs ihrest l l' w w' hblind hl hw
    simp only [areBlind, Bool.and_eq_true] at hblind
    have hfirst := ihs l l' w w' hblind.1 hl hw
    unfold doSteps
    generalize doStep e state s l w = p at *
    generalize doStep e state s l' w' = p' at *
    cases hfirst with
    | through hl hw => exact ihrest _ _ _ _ hblind.2 hl hw
    | returned v hl hw => exact .returned v hl hw
    | failed how hl hw => exact .failed how hl hw
    | paused hpause hleft hl hw =>
        refine .paused hpause ?_ hl hw
        simp [areBlind_append, hleft, hblind.2]
  case step =>
    intro s ihbody l l' w w' hblind hl hw
    -- There are as many schedulers in both worlds, so one is missing in both or in neither.
    have hguard {s : Nat} {p p' : Progress α} (h : Alike before before' p p') :
        Alike before before' (if s < w.schedulers.length then p else .outOfRange l w)
          (if s < w'.schedulers.length then p' else .outOfRange l' w') := by
      rw [← hw.length]
      split
      · exact h
      · exact .failed _ hl hw
    cases s with
    | log v => exact .through hl (hw.note _)
    | yield => exact .paused rfl rfl hl hw
    | yieldAny => exact .paused rfl rfl hl hw
    | yieldElse cleanup => exact .paused hblind rfl hl hw
    | state => exact .through hl (hw.note _)
    | «return» v => exact .returned v hl hw
    | error text => exact .failed _ hl hw
    | cancel => exact .failed _ hl hw
    | panic text => exact .failed _ hl hw
    | «repeat» count body =>
        simp only [doStep]
        exact doTimes_alike hblind (fun l l' w w' => ihbody count body rfl l l' w w' hblind)
          count hl hw
    | defer v => exact .through ⟨congrArg (v :: ·) hl.deferred, hl.fibers, hl.size, hl.tasks⟩ hw
    | statistics s => cases hblind
    | prime s =>
        simp only [doStep]
        exact hguard (.through hl (hw.quiet (World.quiet_prime w s) (World.quiet_prime w' s)))
    | reset s =>
        simp only [doStep]
        exact hguard (.through hl (hw.quiet (World.quiet_reset w s) (World.quiet_reset w' s)))
    | create s =>
        simp only [doStep]
        exact hguard (.through ⟨hl.deferred, hl.fibers.cons (hw.tidy.create s).1
          (hw.tidy'.create s).1, hl.size, hl.tasks⟩
          (hw.quiet (World.quiet_create w s) (World.quiet_create w' s)))
    | destroy i s =>
        simp only [doStep]
        refine hguard (Local.withFiber_alike hl hw fun f f' hf hf' => ?_)
        rw [hf.destroy_eq, hf'.destroy_eq]
        exact hw.quiet (World.quiet_takeBack w s hf) (World.quiet_takeBack w' s hf')
    | drop i =>
        simp only [doStep]
        refine Local.withFiber_alike hl hw fun f f' hf hf' => ?_
        rw [Fiber.drop_of_none hf.job, Fiber.drop_of_none hf'.job]
        exact hw.quiet (World.quiet_lose w f.tag) (World.quiet_lose w' f'.tag)
    | spawn s job =>
        simp only [doStep]
        exact hguard (.through (hl.push (.waiting s hblind)) hw)
    | run i =>
        simp only [doStep]
        exact Local.withTask_alike hl hw fun t t' ht => Local.afterTask_alike hl (he.runTask ht hw)
    | resume i =>
        simp only [doStep]
        exact Local.withTask_alike hl hw fun t t' ht =>
          Local.afterTask_alike hl (he.resumeTask ht hw)
    | abort i =>
        simp only [doStep]
        exact Local.withTask_alike hl hw fun t t' ht =>
          Local.afterTask_alike hl (he.abortTask ht hw)
    | isDone i =>
        simp only [doStep]
        refine Local.withTask_alike hl hw fun t t' ht => ?_
        rw [ht.same.1]
        exact .through hl (hw.note _)
    | take i =>
        simp only [doStep]
        refine Local.withTask_alike hl hw fun t t' ht => ?_
        rw [ht.same.2]
        exact .through (hl.setTask ht.takeResult i) (hw.note _)

theorem doJob_alike (he : e.Even before before') (state : FiberState) {steps : List (Step α)}
    (hsteps : areBlind steps = true) (hl : l.Twin l') (hw : World.Beside before before' w w') :
    Stop.Ends before before' (doJob e state steps l w) (doJob e state steps l' w') := by
  have hdone := doSteps_alike he state steps l l' w w' hsteps hl hw
  unfold doJob
  generalize doSteps e state steps l w = p at *
  generalize doSteps e state steps l' w' = p' at *
  cases hdone with
  | through hl hw => exact ⟨.returned none, he.leave hl hw⟩
  | returned v hl hw => exact ⟨.returned (some v), he.leave hl hw⟩
  | failed how hl hw => exact ⟨.failed how, he.leave hl hw⟩
  | paused hpause hleft hl hw => exact ⟨.suspended ⟨rfl, rfl, hpause, hleft, hl⟩, hw⟩

/-- An engine for jobs is as even as the one for the jobs nested inside. -/
theorem Engine.Even.over (he : e.Even before before') : e.over.Even before before' where
  start job w w' hjob hw := doJob_alike he .running hjob .empty hw
  resume j j' w w' hj hw := by
    obtain ⟨hpause, hrest, hpauseBlind, hrestBlind, hown⟩ := hj
    simp only [Engine.over, Suspended.proceed, ← hpause, ← hrest]
    cases j.pause with
    | yieldAny => exact doJob_alike he .running hrestBlind hown (hw.note _)
    | _ => exact doJob_alike he .running hrestBlind hown hw
  cancel j j' w w' hj hw := by
    obtain ⟨hpause, hrest, hpauseBlind, hrestBlind, hown⟩ := hj
    simp only [Engine.over, Suspended.unwind, ← hpause, ← hrest]
    cases hj : j.pause with
    | yield => exact ⟨.failed .cancelled, he.leave hown hw⟩
    | yieldAny => exact doJob_alike he .aborting hrestBlind hown (hw.note _)
    | yieldElse cleanup =>
        rw [hj] at hpauseBlind
        refine doJob_alike he .aborting ?_ hown hw
        rw [areBlind_append, hrestBlind, Bool.and_true]
        exact hpauseBlind
  giveUp j j' w w' hj hw := he.leave hj.own hw

theorem even_engine (n : Nat) : (engine n).Even before before' := by
  induction n with
  | zero =>
      exact ⟨fun job w w' _ hw => ⟨.returned none, hw⟩, fun j j' w w' _ hw => ⟨.returned none, hw⟩,
        fun j j' w w' _ hw => ⟨.returned none, hw⟩, fun j j' w w' _ hw => hw⟩
  | succ n ih => exact ih.over

end Jobs

end ControlFlow.Fibers

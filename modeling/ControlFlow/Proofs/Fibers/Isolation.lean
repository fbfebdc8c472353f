import ControlFlow.Proofs.Fibers.Alike
import ControlFlow.Proofs.Fibers.LifeCycle

/-! # Tasks among others

A task whose job looks at no scheduler cannot tell whether it is alone: its calls give the same
replies and log the same among any other fibers and tasks, and after anything that happened before,
as they do alone in a new session.
-/

namespace ControlFlow.Fibers

variable {α : Type}

/-- The same command about another task. -/
def Command.onTask (k : Nat) : Command α → Command α
  | .runTask _ => .runTask k
  | .resumeTask _ => .resumeTask k
  | .abortTask _ => .abortTask k
  | .isTaskDone _ => .isTaskDone k
  | .taskResult _ => .taskResult k
  | .takeTaskResult _ => .takeTaskResult k
  | .dropTask _ => .dropTask k
  | c => c

theorem levelsOfTasks_congr {ts ts' : List (Task α)} (hlength : ts.length = ts'.length)
    (h : ∀ (i : Nat) t t', ts[i]? = some t → ts'[i]? = some t' → t.levels = t'.levels) :
    levelsOfTasks ts = levelsOfTasks ts' := by
  induction ts generalizing ts' with
  | nil =>
      cases ts' with
      | nil => rfl
      | cons => cases hlength
  | cons t rest ih =>
      cases ts' with
      | nil => cases hlength
      | cons t' rest' =>
          rw [levelsOfTasks, levelsOfTasks, h 0 t t' rfl rfl,
            ih (Nat.succ.inj hlength) fun i => h (i + 1)]

/-- The jobs of twins are nested equally deep. -/
theorem Task.Twin.levels {t t' : Task α} (h : t.Twin t') : t.levels = t'.levels := by
  induction h with
  | waiting => rfl
  | ended => rfl
  | suspended s hf hf' _ _ _ hsize _ ih =>
      have htasks := levelsOfTasks_congr hsize fun i t t' ht ht' =>
        ih i t t' (Array.getElem?_toList ▸ ht) (Array.getElem?_toList ▸ ht')
      simp only [Task.levels, Fiber.levels_of_some hf.job, Fiber.levels_of_some hf'.job,
        Suspended.levels, htasks]

namespace Session

/-- What the calls of a task tell and log, newest entry first, while other commands come between. -/
def transcript (k : Nat) (s : Session α) : List (Command α) → List (Reply α × List (Entry α))
  | [] => []
  | c :: cs =>
      let r := s.perform c
      let later := r.2.transcript k cs
      if c.task? = some k then
        (r.1, r.2.world.log.take (r.2.world.log.length - s.world.log.length)) :: later
      else later

/-- A task of one session and a task of another are twins, or both are gone. -/
def TwinsAt (k : Nat) (s : Session α) (k' : Nat) (s' : Session α) : Prop :=
  (s.tasks[k]? = some none ∧ s'.tasks[k']? = some none) ∨
    ∃ t t', s.tasks[k]? = some (some t) ∧ s'.tasks[k']? = some (some t') ∧ t.Twin t'

/-- A session in which one task is as if it were alone in another session. -/
structure Mirrors (k : Nat) (s : Session α) (k' : Nat) (s' : Session α) : Prop where
  sound : s.Sound
  sound' : s'.Sound
  length : s.world.schedulers.length = s'.world.schedulers.length
  twins : TwinsAt k s k' s'

/-- A call of the task gave the same reply in both sessions, and the same was logged. -/
structure Answers (k : Nat) (s : Session α) (k' : Nat) (s' : Session α)
    (r r' : Reply α × Session α) : Prop where
  reply : r.1 = r'.1
  worlds : World.Beside s.world.log s'.world.log r.2.world r'.2.world
  twins : TwinsAt k r.2 k' r'.2

variable {k k' : Nat} {s s' : Session α}

theorem Mirrors.beside (h : Mirrors k s k' s') :
    World.Beside s.world.log s'.world.log s.world s'.world :=
  ⟨h.length, h.sound.tidy, h.sound'.tidy, [], rfl, rfl⟩

theorem Mirrors.answers_same (h : Mirrors k s k' s') (reply : Reply α) :
    Answers k s k' s' (reply, s) (reply, s') :=
  ⟨rfl, h.beside, h.twins⟩

/-- What is done with the task is answered alike if it is so for twins. -/
theorem Mirrors.withTask (h : Mirrors k s k' s') {act act' : Task α → Reply α × Session α}
    (hact : ∀ t t', s.tasks[k]? = some (some t) → s'.tasks[k']? = some (some t') → t.Twin t' →
      Answers k s k' s' (act t) (act' t')) :
    Answers k s k' s' (s.withTask k act) (s'.withTask k' act') := by
  rcases h.twins with ⟨hgone, hgone'⟩ | ⟨t, t', ht, ht', htwin⟩
  · simp only [Session.withTask, hgone, hgone']
    exact h.answers_same .gone
  · simp only [Session.withTask, ht, ht']
    exact hact t t' ht ht' htwin

theorem answers_setTask {t t' : Task α} (ht : s.tasks[k]? = some (some t))
    (ht' : s'.tasks[k']? = some (some t')) {w w' : World α}
    (hw : World.Beside s.world.log s'.world.log w w') {u u' : Option (Task α)}
    (hu : (u = none ∧ u' = none) ∨ ∃ v v', u = some v ∧ u' = some v' ∧ v.Twin v')
    (reply : Reply α) :
    Answers k s k' s' (reply, s.setTask k u w) (reply, s'.setTask k' u' w') := by
  refine ⟨rfl, hw, ?_⟩
  have hset := List.getElem?_set_self (a := u) (List.getElem?_eq_some_iff.mp ht).1
  have hset' := List.getElem?_set_self (a := u') (List.getElem?_eq_some_iff.mp ht').1
  rcases hu with ⟨rfl, rfl⟩ | ⟨v, v', rfl, rfl, hv⟩
  · exact .inl ⟨hset, hset'⟩
  · exact .inr ⟨v, v', hset, hset', hv⟩

theorem answers_afterTask {t t' : Task α} (ht : s.tasks[k]? = some (some t))
    (ht' : s'.tasks[k']? = some (some t')) {r r' : Task.Delivery × Task α × World α}
    (h : Task.DrivenAlike s.world.log s'.world.log r r') :
    Answers k s k' s' (s.afterTask k r) (s'.afterTask k' r') := by
  obtain ⟨delivery, u, w⟩ := r
  obtain ⟨delivery', u', w'⟩ := r'
  obtain ⟨rfl, hu, hw⟩ := h
  cases delivery <;> exact answers_setTask ht ht' hw (.inr ⟨u, u', rfl, rfl, hu⟩) _

/-- A command about the task is answered alike. -/
theorem Mirrors.answers (h : Mirrors k s k' s') {c : Command α} (hc : c.task? = some k) :
    Answers k s k' s' (s.perform c) (s'.perform (c.onTask k')) := by
  cases c with
  | runTask i =>
      cases hc
      refine h.withTask fun t t' ht ht' htwin => answers_afterTask ht ht' ?_
      rw [← htwin.levels]
      exact (even_engine t.levels).runTask htwin h.beside
  | resumeTask i =>
      cases hc
      refine h.withTask fun t t' ht ht' htwin => answers_afterTask ht ht' ?_
      rw [← htwin.levels]
      exact (even_engine t.levels).resumeTask htwin h.beside
  | abortTask i =>
      cases hc
      refine h.withTask fun t t' ht ht' htwin => answers_afterTask ht ht' ?_
      rw [← htwin.levels]
      exact (even_engine t.levels).abortTask htwin h.beside
  | isTaskDone i =>
      cases hc
      refine h.withTask fun t t' ht ht' htwin => ?_
      rw [htwin.same.1]
      exact h.answers_same _
  | taskResult i =>
      cases hc
      refine h.withTask fun t t' ht ht' htwin => ?_
      rw [htwin.same.2]
      exact h.answers_same _
  | takeTaskResult i =>
      cases hc
      refine h.withTask fun t t' ht ht' htwin => ?_
      rw [htwin.same.2]
      exact answers_setTask ht ht' h.beside (.inr ⟨_, _, rfl, rfl, htwin.takeResult⟩) _
  | dropTask i =>
      cases hc
      refine h.withTask fun t t' ht ht' htwin => ?_
      rw [← htwin.levels]
      exact answers_setTask ht ht' ((even_engine t.levels).drop htwin h.beside) (.inl ⟨rfl, rfl⟩) _
  | _ => cases hc

theorem Mirrors.own (h : Mirrors k s k' s') {c : Command α} (hc : c.task? = some k) :
    Mirrors k (s.perform c).2 k' (s'.perform (c.onTask k')).2 :=
  have hanswers := h.answers hc
  ⟨(sound_perform h.sound c).1, (sound_perform h.sound' _).1, hanswers.worlds.length,
    hanswers.twins⟩

/-- A command that is not about the task leaves it as it is. -/
theorem Mirrors.other (h : Mirrors k s k' s') {c : Command α} (hc : c.task? ≠ some k) :
    Mirrors k (s.perform c).2 k' s' := by
  obtain ⟨hsound, hlength⟩ := sound_perform h.sound c
  refine ⟨hsound, h.sound', hlength.trans h.length, ?_⟩
  rcases h.twins with ⟨hgone, hgone'⟩ | ⟨t, t', ht, ht', htwin⟩
  · exact .inl ⟨task_perform_of_ne hgone hc, hgone'⟩
  · exact .inr ⟨t, t', task_perform_of_ne ht hc, ht', htwin⟩

/-- The commands about a task, as they are when it is alone. -/
def alone (k : Nat) (cs : List (Command α)) : List (Command α) :=
  (cs.filter fun c => c.task? = some k).map (Command.onTask 0)

theorem onTask_task? {c : Command α} (h : c.task? = some k) : (c.onTask k').task? = some k' := by
  cases c <;> first | rfl | cases h

theorem Mirrors.transcript (h : Mirrors k s 0 s') (cs : List (Command α)) :
    s.transcript k cs = s'.transcript 0 (alone k cs) ∧
      Mirrors k (s.after cs) 0 (s'.after (alone k cs)) := by
  induction cs generalizing s s' with
  | nil => exact ⟨rfl, h⟩
  | cons c rest ih =>
      by_cases hc : c.task? = some k
      · obtain ⟨hreply, hworlds, -⟩ := h.answers hc
        obtain ⟨new, hlog, hlog'⟩ := hworlds.log
        obtain ⟨htranscript, hmirrors⟩ := ih (h.own hc)
        have halone : alone k (c :: rest) = c.onTask 0 :: alone k rest := by
          simp [alone, hc]
        refine ⟨?_, ?_⟩
        · simp [halone, Session.transcript, hc, onTask_task? hc, hreply, hlog, hlog', htranscript]
        · rw [halone]
          exact hmirrors
      -- The session where the task is alone waits while something else is commanded.
      · have halone : alone k (c :: rest) = alone k rest := by simp [alone, hc]
        obtain ⟨htranscript, hmirrors⟩ := ih (h.other hc)
        refine ⟨?_, ?_⟩
        · simp [halone, Session.transcript, hc, htranscript]
        · rw [halone]
          exact hmirrors

theorem after_append (s : Session α) (a b : List (Command α)) :
    s.after (a ++ b) = (s.after a).after b :=
  List.foldl_append ..

theorem sound_after (hs : s.Sound) (cs : List (Command α)) : (s.after cs).Sound ∧
    (s.after cs).world.schedulers.length = s.world.schedulers.length := by
  induction cs generalizing s with
  | nil => exact ⟨hs, rfl⟩
  | cons c rest ih =>
      obtain ⟨hfirst, hlength⟩ := sound_perform hs c
      obtain ⟨hrest, hlength'⟩ := ih hfirst
      exact ⟨hrest, hlength'.trans hlength⟩

/-- Isolation. After any history of a session, a new task whose job looks at no scheduler gets the
same replies to its calls and logs the same as when it is alone in a new session, whatever is
commanded between its calls; and after any of them as much is left of its job. -/
theorem transcript_alone {configs : List Config} {s₀ : Session α} (hstart : start configs = .ok s₀)
    (history : List (Command α)) (hk : (s₀.after history).tasks.length = k) {i : Nat}
    (hi : i < s₀.world.schedulers.length) {job : Job α} (hjob : areBlind job = true)
    (cs : List (Command α)) :
    (s₀.after (history ++ [.newTask i job])).transcript k cs =
        (s₀.after [.newTask i job]).transcript 0 (alone k cs) ∧
      TwinsAt k (s₀.after (history ++ .newTask i job :: cs)) 0
        (s₀.after (.newTask i job :: alone k cs)) := by
  obtain ⟨checked, rfl⟩ := start_ok hstart
  have hfresh : (⟨.fresh checked, [], []⟩ : Session α).Sound := sound_fresh checked
  generalize hs : (⟨.fresh checked, [], []⟩ : Session α) = s₀ at *
  have hbefore := sound_after hfresh history
  have hnew {s : Session α} (hs : s.Sound)
      (hlength : s.world.schedulers.length = s₀.world.schedulers.length) :
      (s.perform (.newTask i job)).2.Sound ∧
        (s.perform (.newTask i job)).2.world.schedulers.length = s₀.world.schedulers.length ∧
        (s.perform (.newTask i job)).2.tasks[s.tasks.length]? = some (some (.fresh i job)) := by
    obtain ⟨hsound, hsame⟩ := sound_perform hs (.newTask i job)
    refine ⟨hsound, hsame.trans hlength, ?_⟩
    simp [perform, withScheduler, List.getElem?_eq_getElem (hlength ▸ hi)]
  obtain ⟨hsound, hlength, htask⟩ := hnew hbefore.1 hbefore.2
  obtain ⟨hsound', hlength', htask'⟩ := hnew hfresh rfl
  have hempty : s₀.tasks.length = 0 := by rw [← hs, List.length_nil]
  rw [hk] at htask
  rw [hempty] at htask'
  have hmirrors : Mirrors k (s₀.after (history ++ [.newTask i job])) 0
      (s₀.after [.newTask i job]) := by
    rw [after_append]
    exact ⟨hsound, hsound', hlength.trans hlength'.symm,
      .inr ⟨_, _, htask, htask', .waiting i hjob⟩⟩
  obtain ⟨htranscript, hlast⟩ := hmirrors.transcript cs
  refine ⟨htranscript, ?_⟩
  have hsame := hlast.twins
  rwa [← after_append, List.append_assoc, ← after_append] at hsame

/-- A task is given up when it is aborted, and its fiber is cached. -/
def givenUp : List (Command Nat) := [.newTask 0 [.yieldAny, .yieldAny], .runTask 0, .abortTask 0]

/-- What a task tells and logs on the fiber of one that was given up, while another one panics, is
what it does alone. -/
theorem transcript_alone_recycled : ∃ s₀ : Session Nat, start [.standard] = .ok s₀ ∧
    (s₀.after givenUp).tasks.length = 1 ∧
    (s₀.after (givenUp ++ [.newTask 0 [.log 1, .yield, .return 2]])).transcript 1
        [.runTask 1, .newTask 0 [.log 3, .panic "off"], .runTask 2, .resumeTask 1, .taskResult 1] =
      [(.done, [.value 1]), (.done, []), (.result (some (some 2)), [])] := by
  have hstart : start [.standard] = .ok (⟨.fresh [.standard], [], []⟩ : Session Nat) := rfl
  have hk : (after ⟨.fresh [.standard], [], []⟩ givenUp).tasks.length = 1 := rfl
  refine ⟨_, hstart, hk, ?_⟩
  rw [(transcript_alone hstart givenUp hk Nat.one_pos rfl _).1]
  rfl

end Session

end ControlFlow.Fibers

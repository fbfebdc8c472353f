import ControlFlow.Proofs.Fibers.Lawful

/-! # Twins

Two tasks are twins if they are the same but for the fibers that they hold, at every depth, and
their jobs look at no scheduler. Twins that are driven alike stay twins, deliver the same and log
the same, whichever fibers they get and whatever else is in their worlds.
-/

namespace ControlFlow.Fibers

variable {α : Type}

/-! ## Jobs that look at no scheduler -/

mutual

/-- The step looks at no scheduler, nor does one that comes with it. -/
def Step.isBlind : Step α → Bool
  | .statistics _ => false
  | .yieldElse cleanup => areBlind cleanup
  | .repeat _ body => areBlind body
  | .spawn _ job => areBlind job
  | _ => true

def areBlind : List (Step α) → Bool
  | [] => true
  | s :: rest => s.isBlind && areBlind rest

end

def Pause.isBlind : Pause α → Bool
  | .yieldElse cleanup => areBlind cleanup
  | _ => true

theorem areBlind_append {a b : List (Step α)} :
    areBlind (a ++ b) = (areBlind a && areBlind b) := by
  induction a with
  | nil => simp [areBlind]
  | cons s rest ih => simp [areBlind, ih, Bool.and_assoc]

theorem areBlind_times {body : List (Step α)} (h : areBlind body = true) (n : Nat) :
    areBlind (Job.times n body) = true := by
  unfold Job.times
  split <;> simp [areBlind, Step.isBlind, h]

/-! ## Twins -/

/-- As many fibers on either side, all of them ready for a job. -/
structure Fiber.Matched (fs fs' : List (Fiber α)) : Prop where
  length : fs.length = fs'.length
  ready : ∀ f ∈ fs, f.Ready
  ready' : ∀ f ∈ fs', f.Ready

/-- Two tasks of blind jobs are the same but for the fibers that they hold, at every depth. -/
inductive Task.Twin : Task α → Task α → Prop where
  | waiting (scheduler : Nat) {body : Job α} : areBlind body = true →
      Task.Twin ⟨scheduler, some body, none, none, false⟩ ⟨scheduler, some body, none, none, false⟩
  | suspended (scheduler : Nat) {f f' : Fiber α} {pause : Pause α} {rest : List (Step α)}
      {tasks tasks' : Array (Task α)} {fibers fibers' : List (Fiber α)} {deferred : List α} :
      f.Suspends ⟨pause, rest, tasks, fibers, deferred⟩ →
      f'.Suspends ⟨pause, rest, tasks', fibers', deferred⟩ →
      pause.isBlind = true → areBlind rest = true → Fiber.Matched fibers fibers' →
      tasks.size = tasks'.size →
      (∀ (i : Nat) t t', tasks[i]? = some t → tasks'[i]? = some t' → Task.Twin t t') →
      Task.Twin ⟨scheduler, none, some f, none, false⟩ ⟨scheduler, none, some f', none, false⟩
  | ended (scheduler : Nat) (result : Option (Option α)) :
      Task.Twin ⟨scheduler, none, none, result, true⟩ ⟨scheduler, none, none, result, true⟩

structure Local.Twin (l l' : Local α) : Prop where
  deferred : l.deferred = l'.deferred
  fibers : Fiber.Matched l.fibers l'.fibers
  size : l.tasks.size = l'.tasks.size
  tasks : ∀ (i : Nat) (t t' : Task α), l.tasks[i]? = some t → l'.tasks[i]? = some t' → t.Twin t'

structure Suspended.Twin (j j' : Suspended α) : Prop where
  pause : j.pause = j'.pause
  rest : j.rest = j'.rest
  pause_blind : j.pause.isBlind = true
  rest_blind : areBlind j.rest = true
  own : j.own.Twin j'.own

theorem Suspended.Twin.task {j j' : Suspended α} (h : j.Twin j') (s : Nat) {f f' : Fiber α}
    (hf : f.Suspends j) (hf' : f'.Suspends j') :
    Task.Twin ⟨s, none, some f, none, false⟩ ⟨s, none, some f', none, false⟩ := by
  obtain ⟨pause, rest, tasks, fibers, deferred⟩ := j
  obtain ⟨pause', rest', tasks', fibers', deferred'⟩ := j'
  obtain ⟨hpause, hrest, hpauseBlind, hrestBlind, hdeferred, hfibers, hsize, htasks⟩ := h
  dsimp only [Suspended.own] at *
  subst hpause hrest hdeferred
  exact .suspended s hf hf' hpauseBlind hrestBlind hfibers hsize htasks

/-- Twins hold fibers at the same times. -/
theorem Task.Twin.cases {t t' : Task α} (h : t.Twin t') :
    (t = t' ∧ t.fiber = none) ∨ ∃ s f f' j j', t = ⟨s, none, some f, none, false⟩ ∧
      t' = ⟨s, none, some f', none, false⟩ ∧ f.Suspends j ∧ f'.Suspends j' ∧ j.Twin j' := by
  cases h with
  | waiting => exact .inl ⟨rfl, rfl⟩
  | ended => exact .inl ⟨rfl, rfl⟩
  | suspended s hf hf' hpause hrest hfibers hsize htasks =>
      exact .inr ⟨s, _, _, _, _, rfl, rfl, hf, hf', rfl, rfl, hpause, hrest, rfl, hfibers, hsize,
        htasks⟩

/-- Twins look the same from outside. -/
theorem Task.Twin.same {t t' : Task α} (h : t.Twin t') :
    t.done = t'.done ∧ t.result = t'.result := by
  cases h <;> exact ⟨rfl, rfl⟩

theorem Task.Twin.takeResult {t t' : Task α} (h : t.Twin t') :
    Task.Twin { t with result := none } { t' with result := none } := by
  cases h with
  | waiting s hbody => exact .waiting s hbody
  | ended s result => exact .ended s none
  | suspended s hf hf' hpause hrest hfibers hsize htasks =>
      exact .suspended s hf hf' hpause hrest hfibers hsize htasks

namespace Fiber.Matched

variable {fs fs' : List (Fiber α)}

theorem nil : Matched ([] : List (Fiber α)) [] := ⟨rfl, nofun, nofun⟩

theorem cons (h : Matched fs fs') {f f' : Fiber α} (hf : f.Ready) (hf' : f'.Ready) :
    Matched (f :: fs) (f' :: fs') :=
  ⟨congrArg (· + 1) h.length, List.forall_mem_cons.mpr ⟨hf, h.ready⟩,
    List.forall_mem_cons.mpr ⟨hf', h.ready'⟩⟩

theorem tail {f f' : Fiber α} (h : Matched (f :: fs) (f' :: fs')) : Matched fs fs' :=
  ⟨Nat.succ.inj h.length, (List.forall_mem_cons.mp h.ready).2, (List.forall_mem_cons.mp h.ready').2⟩

theorem eraseIdx (h : Matched fs fs') (i : Nat) : Matched (fs.eraseIdx i) (fs'.eraseIdx i) :=
  ⟨by rw [List.length_eraseIdx, List.length_eraseIdx, h.length],
    fun f hf => h.ready f (List.mem_of_mem_eraseIdx hf),
    fun f hf => h.ready' f (List.mem_of_mem_eraseIdx hf)⟩

/-- There is a fiber on one side where there is one on the other. -/
theorem getElem? (h : Matched fs fs') (i : Nat) :
    (fs[i]? = none ∧ fs'[i]? = none) ∨
      ∃ f f', fs[i]? = some f ∧ fs'[i]? = some f' ∧ f.Ready ∧ f'.Ready := by
  by_cases hi : i < fs.length
  · have hf := List.getElem?_eq_getElem hi
    have hf' := List.getElem?_eq_getElem (h.length ▸ hi)
    exact .inr ⟨_, _, hf, hf', h.ready _ (List.mem_of_getElem? hf),
      h.ready' _ (List.mem_of_getElem? hf')⟩
  · have hlength := h.length
    exact .inl ⟨List.getElem?_eq_none (by omega), List.getElem?_eq_none (by omega)⟩

end Fiber.Matched

namespace Local.Twin

variable {l l' : Local α}

theorem empty : (.empty : Local α).Twin .empty := ⟨rfl, .nil, rfl, by simp [Local.empty]⟩

/-- A job finds a task where its twin does. -/
theorem getElem? (h : l.Twin l') (i : Nat) :
    (l.tasks[i]? = none ∧ l'.tasks[i]? = none) ∨
      ∃ t t', l.tasks[i]? = some t ∧ l'.tasks[i]? = some t' ∧ t.Twin t' := by
  by_cases hi : i < l.tasks.size
  · have hi' : i < l'.tasks.size := h.size ▸ hi
    have ht := Array.getElem?_eq_getElem hi
    have ht' := Array.getElem?_eq_getElem hi'
    exact .inr ⟨_, _, ht, ht', h.tasks i _ _ ht ht'⟩
  · have hi' : ¬ i < l'.tasks.size := h.size ▸ hi
    exact .inl ⟨Array.getElem?_eq_none (by omega), Array.getElem?_eq_none (by omega)⟩

theorem push (h : l.Twin l') {t t' : Task α} (ht : t.Twin t') :
    Local.Twin { l with tasks := l.tasks.push t } { l' with tasks := l'.tasks.push t' } := by
  refine ⟨h.deferred, h.fibers, by simp [h.size], fun i u u' hu hu' => ?_⟩
  simp only [Array.getElem?_push, h.size] at hu hu'
  split at hu
  next hi =>
    rw [if_pos hi] at hu'
    cases hu
    cases hu'
    exact ht
  next hi =>
    rw [if_neg hi] at hu'
    exact h.tasks i u u' hu hu'

theorem setTask (h : l.Twin l') {t t' : Task α} (ht : t.Twin t') (i : Nat) :
    (l.setTask i t).Twin (l'.setTask i t') := by
  refine ⟨h.deferred, h.fibers, by simp [Local.setTask, h.size], fun k u u' hu hu' => ?_⟩
  simp only [Local.setTask, Array.getElem?_setIfInBounds, h.size] at hu hu'
  split at hu
  next hk =>
    rw [if_pos hk] at hu'
    split at hu
    next hlt =>
      rw [if_pos hlt] at hu'
      cases hu
      cases hu'
      exact ht
    next => cases hu
  next hk =>
    rw [if_neg hk] at hu'
    exact h.tasks k u u' hu hu'

end Local.Twin

/-! ## Worlds beside each other -/

namespace World

/-- Two tidy worlds with as many schedulers, in which the same was logged since some point. -/
structure Beside (before before' : List (Entry α)) (w w' : World α) : Prop where
  length : w.schedulers.length = w'.schedulers.length
  tidy : w.Tidy
  tidy' : w'.Tidy
  log : ∃ new, w.log = new ++ before ∧ w'.log = new ++ before'

variable {before before' : List (Entry α)} {w w' v v' : World α}

theorem Beside.quiet (h : Beside before before' w w') (hv : Quiet w v) (hv' : Quiet w' v') :
    Beside before before' v v' := by
  obtain ⟨new, hlog, hlog'⟩ := h.log
  exact ⟨by rw [hv.length, hv'.length, h.length], hv.tidy h.tidy, hv'.tidy h.tidy',
    new, hv.log.trans hlog, hv'.log.trans hlog'⟩

theorem Beside.note (h : Beside before before' w w') (entry : Entry α) :
    Beside before before' (w.note entry) (w'.note entry) := by
  obtain ⟨new, hlog, hlog'⟩ := h.log
  exact ⟨h.length, h.tidy, h.tidy', entry :: new, congrArg (entry :: ·) hlog,
    congrArg (entry :: ·) hlog'⟩

end World

end ControlFlow.Fibers

import ControlFlow.Proofs.Fibers.Course

/-! # The stages of a job

A job does its steps one by one, and keeps the values that it has deferred until it is left. Where
it suspends itself it goes on with the step after that, or, once it was told to stop, with what it
does in that case; if it suspends itself again, no step is left. A task is over when its job is, and
does not start again.
-/

namespace ControlFlow.Fibers

variable {α : Type}

/-! ## Steps one by one -/

mutual

/-- A step, or those that it repeats, so many times. -/
def Step.unrolled : Step α → List (Step α)
  | .repeat n body => (List.replicate n (allUnrolled body)).flatten
  | s => [s]

def allUnrolled : List (Step α) → List (Step α)
  | [] => []
  | s :: rest => s.unrolled ++ allUnrolled rest

end

theorem allUnrolled_append (a b : List (Step α)) :
    allUnrolled (a ++ b) = allUnrolled a ++ allUnrolled b := by
  induction a with
  | nil => rfl
  | cons s rest ih => simp [allUnrolled, ih]

theorem allUnrolled_times (n : Nat) (body : List (Step α)) :
    allUnrolled (Job.times n body) = (List.replicate n (allUnrolled body)).flatten := by
  unfold Job.times
  split
  next h =>
    rcases h with rfl | hempty
    · rfl
    · cases List.isEmpty_iff.mp hempty
      simp [allUnrolled]
  next => simp [allUnrolled, Step.unrolled]

namespace Pause

/-- The step with which a job suspends itself. -/
def step : Pause α → Step α
  | yield => .yield
  | yieldAny => .yieldAny
  | yieldElse cleanup => .yieldElse cleanup

/-- The steps that a job does when it is told to stop, of which some are those after the pause: it
fails at once unless it has chosen to go on. -/
def told (left : List (Step α)) : Pause α → List (Step α)
  | yield => []
  | yieldAny => left
  | yieldElse cleanup => allUnrolled cleanup ++ left

end Pause

/-- The values that are deferred with a step. -/
def Step.defers : Step α → List α
  | .defer v => [v]
  | _ => []

/-! ## Stages -/

inductive Stage (α : Type) where
  /-- There is no job, or it was not started. -/
  | vacant
  /-- The job does its steps, some of which are left, and was perhaps told to stop. It has deferred
  some values, newest first. -/
  | busy (told : Bool) (left : List (Step α)) (deferred : List α)
  | waiting (pause : Pause α) (left : List (Step α)) (deferred : List α)
  /-- The task is done. -/
  | done

/-- Whose job it is that is at some stage. -/
inductive Owner where
  /-- The job was started by the holder of a fiber. -/
  | fiber
  | task
  /-- The job is that of a task of another job. -/
  | nested
deriving DecidableEq

/-- After its job, a fiber is there for the next one, but a task is over. -/
def Stage.closed : Owner → Stage α
  | .fiber => vacant
  | _ => done

/-- A deed leads from one stage of a job to another one. -/
inductive Leads (o : Owner) : Stage α → Deed α → Stage α → Prop where
  | starts (job : Job α) : Leads o .vacant (.starts job) (.busy false (allUnrolled job) [])
  | does (told : Bool) (s : Step α) (left : List (Step α)) (deferred : List α) :
      Leads o (.busy told (s :: left) deferred) (.does s) (.busy told left (s.defers ++ deferred))
  | endsAt (told : Bool) (s : Step α) (left : List (Step α)) (deferred : List α) :
      Leads o (.busy told (s :: left) deferred) (.endsAt s) (.busy told [] deferred)
  | pausesAt (pause : Pause α) (left : List (Step α)) (deferred : List α) :
      Leads o (.busy false (pause.step :: left) deferred) (.pausesAt pause)
        (.waiting pause left deferred)
  /-- A job that suspends itself although it was told to stop does no other step. -/
  | pausesAgain (pause : Pause α) (left : List (Step α)) (deferred : List α) :
      Leads o (.busy true (pause.step :: left) deferred) (.pausesAt pause) (.busy true [] deferred)
  | resumes (pause : Pause α) (left : List (Step α)) (deferred : List α) :
      Leads o (.waiting pause left deferred) (.resumes pause) (.busy false left deferred)
  | isTold (pause : Pause α) (left : List (Step α)) (deferred : List α) :
      Leads o (.waiting pause left deferred) (.isTold pause)
        (.busy true (pause.told left) deferred)
  /-- Only by freeing its fiber is a job given up where it waits. -/
  | isFreed (pause : Pause α) (left : List (Step α)) (deferred : List α) : o = .fiber →
      Leads o (.waiting pause left deferred) .isFreed (.busy true [] deferred)
  /-- The values that the job has deferred are logged when it is left. -/
  | isLeft (told : Bool) (deferred : List α) {τ : Stage α} : τ = .closed o →
      Leads o (.busy told [] deferred) (.isLeft deferred) τ
  | goesBack (scheduler : Nat) {σ : Stage α} : σ = .closed o → Leads o σ (.goesBack scheduler) σ
  | isEnded {σ : Stage α} : o ≠ .fiber → σ = .vacant ∨ σ = .done → Leads o σ .isEnded .done
  /-- When a job is left its tasks go, and others may come in their place. -/
  | isDropped {σ : Stage α} : o = .nested → σ = .vacant ∨ σ = .done → Leads o σ .isDropped .vacant

/-- Deeds lead from one stage to another one. -/
inductive Follows (o : Owner) : Stage α → List (Deed α) → Stage α → Prop where
  | nil (σ : Stage α) : Follows o σ [] σ
  | cons {σ τ υ : Stage α} {d : Deed α} {ds : List (Deed α)} : Leads o σ d τ →
      Follows o τ ds υ → Follows o σ (d :: ds) υ

variable {o : Owner} {σ τ υ : Stage α} {ds ds' : List (Deed α)}

namespace Follows

theorem single {d : Deed α} (h : Leads o σ d τ) : Follows o σ [d] τ := .cons h (.nil τ)

theorem append (h : Follows o σ ds τ) (h' : Follows o τ ds' υ) : Follows o σ (ds ++ ds') υ := by
  induction h with
  | nil => exact h'
  | cons hd _ ih => exact .cons hd (ih h')

/-- Between the first deeds and the others a job is at some stage. -/
theorem split (h : Follows o σ (ds ++ ds') υ) :
    ∃ τ, Follows o σ ds τ ∧ Follows o τ ds' υ := by
  induction ds generalizing σ with
  | nil => exact ⟨σ, .nil σ, h⟩
  | cons d rest ih =>
      cases h with
      | cons hd hrest =>
          obtain ⟨τ, hfirst, hlast⟩ := ih hrest
          exact ⟨τ, .cons hd hfirst, hlast⟩

end Follows

/-! ## What a job does in its life -/

/-- The step that is done with a deed. -/
def Deed.step? : Deed α → Option (Step α)
  | .does s | .endsAt s => some s
  | .pausesAt pause => some pause.step
  | _ => none

/-- The steps that are done, in their order. -/
def stepsOf (ds : List (Deed α)) : List (Step α) := ds.filterMap Deed.step?

def Deed.defers : Deed α → List α
  | .does s => s.defers
  | _ => []

/-- The values that are deferred, newest first. -/
def deferredBy : List (Deed α) → List α
  | [] => []
  | d :: ds => deferredBy ds ++ d.defers

/-- A job that has deferred some values has so many steps left and does them in their order, until
it has done all of them, or returns or fails with one, or suspends itself; then it is left. -/
inductive Finishes : List (Step α) → List α → List (Deed α) → Prop where
  | done (deferred : List α) : Finishes [] deferred [.isLeft deferred]
  | does {s : Step α} {left : List (Step α)} {deferred : List α} {ds : List (Deed α)} :
      Finishes left (s.defers ++ deferred) ds → Finishes (s :: left) deferred (.does s :: ds)
  | endsAt (s : Step α) (left : List (Step α)) (deferred : List α) :
      Finishes (s :: left) deferred [.endsAt s, .isLeft deferred]
  | pausesAt (pause : Pause α) (left : List (Step α)) (deferred : List α) :
      Finishes (pause.step :: left) deferred [.pausesAt pause, .isLeft deferred]

namespace Stage

/-- The steps that are left to do. -/
def left : Stage α → List (Step α)
  | busy _ left _ | waiting _ left _ => left
  | _ => []

/-- The values that wait until the job is left, newest first. -/
def deferred : Stage α → List α
  | busy _ _ deferred | waiting _ _ deferred => deferred
  | _ => []

/-- No step is done any more before a job is started. -/
def Ended : Stage α → Prop
  | vacant | done | busy _ [] _ => True
  | _ => False

/-- No step is being done. -/
def Quiet : Stage α → Prop
  | busy _ _ _ => False
  | _ => True

theorem ended_closed (o : Owner) : (closed o : Stage α).Ended := by cases o <;> trivial

theorem closed_of_ne (ho : o ≠ .fiber) : (closed o : Stage α) = done := by
  cases o with
  | fiber => exact absurd rfl ho
  | _ => rfl

theorem left_closed (o : Owner) : (closed o : Stage α).left = [] := by cases o <;> rfl

end Stage

/-- A deed with which no job is started. -/
def Deed.StartsNone (d : Deed α) : Prop := ∀ job, d ≠ .starts job

/-- A deed with which no job is started, nor told to stop. -/
def Deed.Plain (d : Deed α) : Prop := d.StartsNone ∧ ∀ pause, d ≠ .isTold pause

theorem stepsOf_cons (d : Deed α) (ds : List (Deed α)) :
    stepsOf (d :: ds) = d.step?.toList ++ stepsOf ds := by
  cases hstep : d.step? <;> simp [stepsOf, hstep]

theorem deferredBy_append (ds ds' : List (Deed α)) :
    deferredBy (ds ++ ds') = deferredBy ds' ++ deferredBy ds := by
  induction ds with
  | nil => simp [deferredBy]
  | cons d rest ih => simp [deferredBy, ih]

theorem Leads.isPrefix {d : Deed α} (h : Leads o σ d τ) (hd : d.Plain) :
    d.step?.toList ++ τ.left <+: σ.left := by
  cases h with
  | starts job => exact absurd rfl (hd.1 job)
  | isTold => exact absurd rfl (hd.2 _)
  | does | pausesAt | resumes | goesBack => exact List.prefix_rfl
  | endsAt told s left => exact ⟨left, rfl⟩
  | pausesAgain pause left => exact ⟨left, rfl⟩
  | isFreed pause left => exact ⟨left, rfl⟩
  | isLeft told deferred hτ =>
      rw [hτ, Stage.left_closed]
      exact List.prefix_rfl
  | isEnded _ hσ | isDropped _ hσ => rcases hσ with rfl | rfl <;> exact List.prefix_rfl

/-- A job that is neither started again nor told to stop does the steps that it has left, in their
order, and has at most the others left afterwards. -/
theorem Follows.isPrefix (h : Follows o σ ds τ) (hds : ∀ d ∈ ds, d.Plain) :
    stepsOf ds ++ τ.left <+: σ.left := by
  induction h with
  | nil => exact List.prefix_rfl
  | cons hd _ ih =>
      have hrest := ih fun d hd => hds d (List.mem_cons_of_mem _ hd)
      have hfirst := hd.isPrefix (hds _ List.mem_cons_self)
      rw [stepsOf_cons, List.append_assoc]
      exact ((List.prefix_append_right_inj _).mpr hrest).trans hfirst

theorem Leads.ended {d : Deed α} (h : Leads o σ d τ) (hσ : σ.Ended) (hd : d.StartsNone) :
    τ.Ended ∧ d.step? = none := by
  cases h with
  | starts job => exact absurd rfl (hd job)
  | isLeft told deferred hτ => exact ⟨hτ ▸ Stage.ended_closed o, rfl⟩
  | goesBack => exact ⟨hσ, rfl⟩
  | isEnded | isDropped => exact ⟨trivial, rfl⟩
  | _ => cases hσ

/-- Once a job has come to its end no step is done, unless another job is started. -/
theorem Follows.ended (h : Follows o σ ds τ) (hσ : σ.Ended) (hds : ∀ d ∈ ds, d.StartsNone) :
    τ.Ended ∧ stepsOf ds = [] := by
  induction h with
  | nil => exact ⟨hσ, rfl⟩
  | cons hd _ ih =>
      obtain ⟨hended, hnone⟩ := hd.ended hσ (hds _ List.mem_cons_self)
      obtain ⟨hlast, hrest⟩ := ih hended fun d hd => hds d (List.mem_cons_of_mem _ hd)
      exact ⟨hlast, by rw [stepsOf_cons, hnone, hrest]; rfl⟩

/-- A task that is over stays so until it is dropped. -/
theorem Follows.done (h : Follows o .done ds τ) (hds : o = .nested → .isDropped ∉ ds) :
    τ = .done := by
  generalize hσ : Stage.done = σ at h
  induction h with
  | nil => rfl
  | @cons σ σ' τ d rest hd hrest ih =>
      subst hσ
      have hothers := ih fun ho hmem => hds ho (List.mem_cons_of_mem _ hmem)
      cases hd with
      | isEnded | goesBack => exact hothers rfl
      | isDropped ho hstage => exact absurd List.mem_cons_self (hds ho)

/-- A job that is suspended after it was neither started again nor told to stop has done all the
steps that it has not left, and keeps the values that it has deferred with them. -/
theorem Follows.eq_of_waiting {pause : Pause α} {left : List (Step α)} {deferred : List α}
    (h : Follows o σ ds (.waiting pause left deferred)) (hds : ∀ d ∈ ds, d.Plain) :
    σ.left = stepsOf ds ++ left ∧ deferred = deferredBy ds ++ σ.deferred := by
  generalize hτ : Stage.waiting pause left deferred = τ at h
  induction h with
  | nil => rw [← hτ]; exact ⟨rfl, rfl⟩
  | @cons σ τ' υ d rest hd hrest ih =>
      subst hτ
      have hplain := hds d List.mem_cons_self
      have hothers : ∀ d ∈ rest, d.Plain := fun d hd => hds d (List.mem_cons_of_mem _ hd)
      obtain ⟨hleft, hdeferred⟩ := ih hothers rfl
      have hopen : ¬ τ'.Ended := fun hended => (hrest.ended hended fun d hd => (hothers d hd).1).1
      rw [deferredBy, List.append_assoc]
      cases hd with
      | starts job => exact absurd rfl (hplain.1 job)
      | isTold => exact absurd rfl (hplain.2 _)
      | does told s left => exact ⟨congrArg (s :: ·) hleft, hdeferred⟩
      | pausesAt pause left => exact ⟨congrArg (pause.step :: ·) hleft, hdeferred⟩
      | resumes pause left => exact ⟨hleft, hdeferred⟩
      | isLeft told deferred hτ => exact absurd (hτ ▸ Stage.ended_closed o) hopen
      | goesBack scheduler hσ => exact absurd (hσ ▸ Stage.ended_closed o) hopen
      | endsAt | pausesAgain | isFreed | isEnded | isDropped => exact absurd trivial hopen

/-- Only by suspending itself does a job come to wait. -/
theorem Follows.last_of_waiting {pause : Pause α} {left : List (Step α)} {deferred : List α}
    {d : Deed α} (h : Follows o σ (ds ++ [d]) (.waiting pause left deferred)) :
    d = .pausesAt pause := by
  obtain ⟨τ, -, hlast⟩ := h.split
  cases hlast with
  | cons hd hnil =>
      cases hnil
      cases hd with
      | pausesAt => rfl
      | isLeft told deferred hτ | goesBack scheduler hτ => cases o <;> cases hτ

theorem Follows.leaves {told : Bool} {deferred : List α}
    (h : Follows o (.busy told [] deferred) ds τ) (hτ : τ.Quiet) :
    ∃ later, ds = .isLeft deferred :: later ∧ Follows o (.closed o) later τ := by
  cases h with
  | nil => exact hτ.elim
  | cons hd hrest =>
      cases hd with
      | isLeft _ _ hclosed => exact ⟨_, rfl, hclosed ▸ hrest⟩
      | goesBack _ hσ => cases o <;> cases hσ
      | isEnded _ hσ | isDropped _ hσ => simp at hσ

/-- A job that was told to stop finishes before anything else happens at its place. -/
theorem Follows.finishes {left : List (Step α)} {deferred : List α}
    (h : Follows o (.busy true left deferred) ds τ) (hτ : τ.Quiet) :
    ∃ last later, ds = last ++ later ∧ Finishes left deferred last ∧
      Follows o (.closed o) later τ := by
  generalize hσ : Stage.busy true left deferred = σ at h
  induction h generalizing left deferred with
  | nil =>
      subst hσ
      exact hτ.elim
  | @cons σ σ' τ d rest hd hrest ih =>
      subst hσ
      cases hd with
      | does told s left =>
          obtain ⟨last, later, rfl, hlast, hlater⟩ := ih hτ rfl
          exact ⟨_, later, rfl, .does hlast, hlater⟩
      | endsAt told s left =>
          obtain ⟨later, rfl, hlater⟩ := hrest.leaves hτ
          exact ⟨_, later, rfl, .endsAt s left deferred, hlater⟩
      | pausesAgain pause left =>
          obtain ⟨later, rfl, hlater⟩ := hrest.leaves hτ
          exact ⟨_, later, rfl, .pausesAt pause left deferred, hlater⟩
      | isLeft _ _ hclosed => exact ⟨_, rest, rfl, .done deferred, hclosed ▸ hrest⟩
      | goesBack _ hσ => cases o <;> cases hσ
      | isEnded _ hσ | isDropped _ hσ => simp at hσ

/-- A job that was told to stop does not wait any more. -/
theorem Follows.told {left : List (Step α)} {deferred : List α}
    (h : Follows o (.busy true left deferred) ds τ) (hds : ∀ d ∈ ds, d.StartsNone) :
    (∃ rest deferred, τ = .busy true rest deferred) ∨ τ.Ended := by
  generalize hσ : Stage.busy true left deferred = σ at h
  induction h generalizing left deferred with
  | nil => exact .inl ⟨left, deferred, hσ.symm⟩
  | @cons σ σ' τ d rest hd hrest ih =>
      subst hσ
      have hothers : ∀ d ∈ rest, d.StartsNone := fun d hd => hds d (List.mem_cons_of_mem _ hd)
      cases hd with
      | does told s left => exact ih hothers rfl
      | endsAt | pausesAgain => exact ih hothers rfl
      | isLeft _ _ hclosed => exact .inr (hrest.ended (hclosed ▸ Stage.ended_closed o) hothers).1
      | goesBack _ hσ => cases o <;> cases hσ
      | isEnded _ hσ | isDropped _ hσ => simp at hσ

/-- Before a job waits, no job is started nor told to stop, or one is started and not told to. -/
theorem Follows.plain_or_started {pause : Pause α} {left : List (Step α)} {deferred : List α}
    (h : Follows o σ ds (.waiting pause left deferred)) : (∀ d ∈ ds, d.Plain) ∨
      ∃ before job since, ds = before ++ .starts job :: since ∧ ∀ d ∈ since, d.Plain := by
  generalize hτ : Stage.waiting pause left deferred = τ at h
  induction h with
  | nil => exact .inl nofun
  | @cons σ σ' τ d rest hd hrest ih =>
      subst hτ
      rcases ih rfl with hplain | ⟨before, job, since, rfl, hsince⟩
      · cases hd with
        | starts job => exact .inr ⟨[], job, rest, rfl, hplain⟩
        | isTold pause' left' =>
            rcases hrest.told fun d hd => (hplain d hd).1 with ⟨_, _, hbusy⟩ | hended
            · cases hbusy
            · exact hended.elim
        | _ => exact .inl (List.forall_mem_cons.mpr ⟨⟨nofun, nofun⟩, hplain⟩)
      · exact .inr ⟨d :: before, job, since, rfl, hsince⟩

/-- A job that waits was started at some time, and was not told to stop since then. -/
theorem Follows.started {pause : Pause α} {left : List (Step α)} {deferred : List α}
    (h : Follows o σ ds (.waiting pause left deferred)) (hσ : σ.Ended) :
    ∃ before job since, ds = before ++ .starts job :: since ∧ ∀ d ∈ since, d.Plain := by
  rcases h.plain_or_started with hplain | hstarted
  · exact ((h.ended hσ fun d hd => (hplain d hd).1).1).elim
  · exact hstarted

/-- No step of the job that was there is done any more: not before another one is started, and at
the place of a task none is started before that task is dropped. -/
structure Final (o : Owner) (later : List (Deed α)) : Prop where
  steps : ∀ first rest, later = first ++ rest → (∀ d ∈ first, d.StartsNone) → stepsOf first = []
  starts : ∀ first job rest, later = first ++ .starts job :: rest →
    o = .fiber ∨ o = .nested ∧ .isDropped ∈ first

theorem Follows.final (h : Follows o (.closed o) ds τ) : Final o ds := by
  constructor
  · rintro first rest rfl hfirst
    obtain ⟨σ, hσ, -⟩ := h.split
    exact (hσ.ended (Stage.ended_closed o) hfirst).2
  · rintro first job rest rfl
    obtain ⟨σ, hσ, hstarts⟩ := h.split
    by_contra hnot
    rw [not_or, not_and] at hnot
    rw [Stage.closed_of_ne hnot.1] at hσ
    cases hσ.done hnot.2
    cases hstarts with
    | cons hd _ => cases hd

/-- Wherever a job is told to stop it waits, since it has done some of its steps in their order and
suspended itself. It does what it does in that case and is left, and that was all. What it has
deferred by then is logged when it is left. -/
theorem Follows.cancelled {before after : List (Deed α)} {pause : Pause α}
    (h : Follows o .vacant (before ++ .isTold pause :: after) τ) (hτ : τ.Quiet) :
    ∃ earlier job since left last later,
      before = earlier ++ .starts job :: (since ++ [.pausesAt pause]) ∧ (∀ d ∈ since, d.Plain) ∧
      allUnrolled job = stepsOf since ++ pause.step :: left ∧
      after = last ++ later ∧ Finishes (pause.told left) (deferredBy since) last ∧
      Final o later := by
  obtain ⟨σ, hbefore, hafter⟩ := h.split
  cases hafter with
  | cons htold hafter =>
      cases htold with
      | isTold _ left deferred =>
          obtain ⟨last, later, rfl, hlast, hlater⟩ := hafter.finishes hτ
          obtain ⟨earlier, job, since, rfl, hsince⟩ := hbefore.started trivial
          obtain ⟨σ, -, hsteps⟩ := hbefore.split
          cases hsteps with
          | cons hstarts hsteps =>
              cases hstarts
              rcases List.eq_nil_or_concat' since with rfl | ⟨since, d, rfl⟩
              · cases hsteps
              · cases hsteps.last_of_waiting
                obtain ⟨hleft, hdeferred⟩ := hsteps.eq_of_waiting hsince
                have hsince' : deferred = deferredBy since := by
                  rw [hdeferred]
                  simp [deferredBy_append, deferredBy, Deed.defers, Stage.deferred]
                refine ⟨earlier, job, since, left, last, later, rfl,
                  fun d hd => hsince d (List.mem_append_left _ hd), ?_, rfl, hsince' ▸ hlast,
                  hlater.final⟩
                simpa [Stage.left, stepsOf, Deed.step?] using hleft

/-- A job that is not told to stop does its steps in their order, each of them once at most. -/
theorem Follows.inOrder {before since later : List (Deed α)} {job : Job α}
    (h : Follows o σ (before ++ .starts job :: (since ++ later)) τ)
    (hsince : ∀ d ∈ since, d.Plain) : stepsOf since <+: allUnrolled job := by
  obtain ⟨σ, -, hstarts⟩ := h.split
  cases hstarts with
  | cons hd hrest =>
      cases hd
      obtain ⟨τ, hsteps, -⟩ := hrest.split
      exact (List.prefix_append _ _).trans (hsteps.isPrefix hsince)

/-- A job is left after it has finished, and not before. -/
theorem Finishes.eq_concat {left : List (Step α)} {deferred : List α}
    (h : Finishes left deferred ds) :
    ∃ steps last, ds = steps ++ [.isLeft last] ∧ ∀ d ∈ steps, d.step?.isSome := by
  induction h with
  | done deferred => exact ⟨[], deferred, rfl, nofun⟩
  | @does s left _ ds _ ih =>
      obtain ⟨steps, last, rfl, hsteps⟩ := ih
      exact ⟨.does s :: steps, last, rfl, List.forall_mem_cons.mpr ⟨rfl, hsteps⟩⟩
  | endsAt s left deferred => exact ⟨[.endsAt s], deferred, rfl, by simp [Deed.step?]⟩
  | pausesAt pause left deferred => exact ⟨[.pausesAt pause], deferred, rfl, by simp [Deed.step?]⟩

/-- Where a job is told to stop and nothing else happens than that it does some steps and is left,
it finishes. -/
theorem Follows.finishes_of_steps {pause : Pause α} {left : List (Step α)}
    {deferred last : List α} {steps : List (Deed α)}
    (h : Follows o (.waiting pause left deferred) (.isTold pause :: (steps ++ [.isLeft last])) τ)
    (hτ : τ.Quiet) (hsteps : ∀ d ∈ steps, d.step?.isSome) :
    Finishes (pause.told left) deferred (steps ++ [.isLeft last]) := by
  cases h with
  | cons htold hrest =>
      cases htold with
      | isTold =>
          obtain ⟨first, later, hequal, hfirst, -⟩ := hrest.finishes hτ
          obtain ⟨front, final, rfl, -⟩ := hfirst.eq_concat
          rcases List.eq_nil_or_concat' later with rfl | ⟨later, d, rfl⟩
          · rw [List.append_nil] at hequal
            rwa [hequal]
          · -- Otherwise the job would be left before its last step.
            rw [← List.append_assoc] at hequal
            have hmem : Deed.isLeft final ∈ steps := by
              rw [(List.append_inj' hequal rfl).1]
              simp
            cases hsteps _ hmem

end ControlFlow.Fibers

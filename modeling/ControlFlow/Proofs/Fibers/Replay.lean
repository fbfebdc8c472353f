import ControlFlow.Proofs.Fibers.Course

/-! # Replaying a course of events

Each deed changes the world in a way of its own, or not at all. A course of events is replayed by
making those changes one after the other: where that leads from one world to another one, nothing
was done in between that has not been written down.
-/

namespace ControlFlow.Fibers

variable {α : Type}

/-- What a step does to the world by itself. A step that drives a task does no more than to get a
fiber for it: what its job does is written down as deeds of that job. -/
def Step.Brings (w v : World α) : Step α → Prop
  | .log value => v = w.note (.value value)
  | .state => ∃ state, v = w.note (.state state)
  | .statistics s => ∃ found, w.statistics? s = some found ∧ v = w.note (.statistics found)
  | .prime s => v = w.prime s
  | .reset s => v = w.reset s
  | .create s => v = (w.create s).2
  | .destroy _ s => ∃ f : Fiber α, f.Ready ∧ v = w.takeBack s f
  | .drop _ => ∃ tag, v = w.lose tag
  | .run _ => ∃ s, v = (w.create s).2
  | .isDone _ => ∃ done, v = w.note (.isDone done)
  | .take _ => ∃ value, v = w.note (.taken value)
  | _ => v = w

/-- What a deed does to the world. -/
def Deed.Brings (w v : World α) : Deed α → Prop
  -- The context of the fiber may be a fresh one.
  | .starts _ => v = w ∨ ∃ home, v = w.count home .entered
  | .does s => s.Brings w v
  -- A step that fails does nothing, unless it has got a fiber for the task that fails.
  | .endsAt (.run _) => v = w ∨ ∃ s, v = (w.create s).2
  | .resumes .yieldAny => v = w.note .resumed
  | .isTold .yieldAny => v = w.note .cancelled
  -- The fibers that the job holds are lost, and its deferred values logged.
  | .isLeft deferred => ∃ lost : List Tag,
      v = deferred.foldl (fun w d => w.note (.deferred d)) (lost.foldl World.lose w)
  | .goesBack s => ∃ f : Fiber α, f.Ready ∧ v = w.takeBack s f
  | _ => v = w

/-- The deeds, one after the other, are all that is done to a world until it is another one. -/
def Replays {β : Type} : List (β × Deed α) → World α → World α → Prop
  | [], w, v => v = w
  | d :: c, w, v => ∃ u, d.2.Brings w u ∧ Replays c u v

section

variable {β γ : Type} {c c' : List (β × Deed α)} {u v w : World α}

theorem Replays.single {a : β} {d : Deed α} (h : d.Brings w v) : Replays [(a, d)] w v :=
  ⟨v, h, rfl⟩

theorem Replays.append (h : Replays c w v) (h' : Replays c' v u) : Replays (c ++ c') w u := by
  induction c generalizing w with
  | nil =>
      cases h
      exact h'
  | cons d rest ih =>
      obtain ⟨x, hd, hrest⟩ := h
      exact ⟨x, hd, ih hrest⟩

/-- Where the deeds happen does not matter. -/
theorem Replays.map (g : β → γ) (h : Replays c w v) :
    Replays (c.map fun d => (g d.1, d.2)) w v := by
  induction c generalizing w with
  | nil => exact h
  | cons d rest ih =>
      obtain ⟨x, hd, hrest⟩ := h
      exact ⟨x, hd, ih hrest⟩

theorem Deed.brings_endsAt (s : Step α) (w : World α) : (Deed.endsAt s).Brings w w := by
  cases s <;> simp [Deed.Brings]

/-! ## What is said in a replay -/

theorem World.said_count (w : World α) (s : Nat) (change : Counters → Counters) :
    (w.count s change).said = w.said := rfl

theorem World.said_notes (w : World α) (vs : List α) :
    (vs.foldl (fun w v => w.note (.deferred v)) w).said = w.said := by
  induction vs generalizing w with
  | nil => rfl
  | cons v rest ih =>
      rw [List.foldl_cons, ih, World.said_note]
      exact List.append_nil _

theorem World.said_loses (w : World α) (lost : List Tag) :
    (lost.foldl World.lose w).said = w.said := by
  induction lost generalizing w with
  | nil => rfl
  | cons tag rest ih => exact ih (w.lose tag)

theorem Step.Brings.said {s : Step α} (h : s.Brings w v) :
    v.said = w.said ++ (Deed.does s).said?.toList := by
  cases s with
  | log value =>
      cases h
      exact World.said_note w _
  | state | isDone | take =>
      obtain ⟨_, rfl⟩ := h
      exact World.said_note w _
  | statistics s =>
      obtain ⟨_, -, rfl⟩ := h
      exact World.said_note w _
  | prime s =>
      cases h
      exact (World.said_congr (World.quiet_prime w s).log).trans (List.append_nil _).symm
  | reset s =>
      cases h
      exact (World.said_congr (World.quiet_reset w s).log).trans (List.append_nil _).symm
  | create s =>
      cases h
      exact (World.said_congr (World.quiet_create w s).log).trans (List.append_nil _).symm
  | run i =>
      obtain ⟨s, rfl⟩ := h
      exact (World.said_congr (World.quiet_create w s).log).trans (List.append_nil _).symm
  | destroy i s =>
      obtain ⟨f, hready, rfl⟩ := h
      exact (World.said_congr (World.quiet_takeBack w s hready).log).trans (List.append_nil _).symm
  | drop i =>
      obtain ⟨tag, rfl⟩ := h
      exact (List.append_nil _).symm
  | _ =>
      cases h
      exact (List.append_nil _).symm

/-- A deed says what it says, and nothing else is said with it. -/
theorem Deed.Brings.said {d : Deed α} (h : d.Brings w v) :
    v.said = w.said ++ d.said?.toList := by
  have hsilent (h : v.said = w.said) : v.said = w.said ++ (none : Option (Entry α)).toList :=
    h.trans (List.append_nil _).symm
  cases d with
  | starts job =>
      refine hsilent ?_
      obtain rfl | ⟨home, rfl⟩ := h
      · rfl
      · exact World.said_count w home _
  | does s => exact Step.Brings.said h
  | endsAt s =>
      refine hsilent ?_
      cases s with
      | run i =>
          obtain rfl | ⟨k, rfl⟩ := h
          · rfl
          · exact World.said_congr (World.quiet_create w k).log
      | _ => exact congrArg World.said h
  | resumes pause =>
      cases pause with
      | yieldAny =>
          cases h
          exact World.said_note w _
      | _ => exact hsilent (congrArg World.said h)
  | isTold pause =>
      cases pause with
      | yieldAny =>
          cases h
          exact World.said_note w _
      | _ => exact hsilent (congrArg World.said h)
  | isLeft deferred =>
      obtain ⟨lost, rfl⟩ := h
      exact hsilent ((World.said_notes _ _).trans (World.said_loses w lost))
  | goesBack s =>
      obtain ⟨f, hready, rfl⟩ := h
      exact hsilent (World.said_congr (World.quiet_takeBack w s hready).log)
  | _ => exact hsilent (congrArg World.said h)

/-- What jobs say in a replay is what the log has in the end. -/
theorem Replays.said (h : Replays c w v) : v.said = w.said ++ logged c := by
  induction c generalizing w with
  | nil =>
      cases h
      exact (List.append_nil _).symm
  | cons d rest ih =>
      obtain ⟨x, hd, hrest⟩ := h
      rw [ih hrest, hd.said, List.append_assoc, ← logged_cons]

end

end ControlFlow.Fibers

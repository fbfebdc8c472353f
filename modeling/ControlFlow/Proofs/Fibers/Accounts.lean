import ControlFlow.Proofs.Fibers.Moves

/-! # Keeping account of fibers

In a world with one scheduler, its counters stand beside the fibers that are alive. Every move comes
down to a few entries in that account. However they follow each other, no more fibers are counted
than there are, and none is missed unless the counters are set to zero.
-/

namespace ControlFlow.Fibers

variable {α : Type}

/-! ## Accounts -/

/-- The counters of a scheduler, beside what they are about. -/
structure Account where
  counters : Counters
  /-- The fibers that are alive, the cached ones included. -/
  alive : Multiset Tag
  /-- The number of fibers allocated so far. -/
  allocations : Nat

namespace Account

/-- One entry in the account of a scheduler, which is the first one. -/
inductive Posting : Account → Account → Prop where
  | entered (c : Counters) (alive : Multiset Tag) (n : Nat) :
      Posting ⟨c, alive, n⟩ ⟨c.entered, alive, n⟩
  | allocated (c : Counters) (alive : Multiset Tag) (n number : Nat) :
      Posting ⟨c, alive, n⟩ ⟨c.allocated, (number, 0) ::ₘ alive, n + 1⟩
  /-- A fiber that no scheduler counts. -/
  | strayed (c : Counters) {alive : Multiset Tag} {n : Nat} {tag : Tag} : tag.2 ≠ 0 →
      Posting ⟨c, alive, n⟩ ⟨c, tag ::ₘ alive, n + 1⟩
  | freed (c : Counters) (alive : Multiset Tag) (n number : Nat) :
      Posting ⟨c, (number, 0) ::ₘ alive, n⟩ ⟨c.freed, alive, n⟩
  | lost (c : Counters) {alive : Multiset Tag} {n : Nat} {tag : Tag} : tag.2 ≠ 0 →
      Posting ⟨c, tag ::ₘ alive, n⟩ ⟨c, alive, n⟩
  /-- The counters are set to zero, whatever is alive. -/
  | zeroed (c : Counters) (alive : Multiset Tag) (n : Nat) : Posting ⟨c, alive, n⟩ ⟨.zero, alive, n⟩

/-- Any number of entries. -/
def Entries (a b : Account) : Prop := Relation.ReflTransGen Posting a b

/-- The fibers that were allocated and are not in the total: those from before the counters were
last set to zero. -/
def uncounted (a : Account) : Nat := a.allocations - a.counters.total

/-- The counters count no more than there is. -/
structure Sound (a : Account) : Prop where
  le_max : a.counters.current ≤ a.counters.max
  max_le : a.counters.max ≤ a.counters.total
  total_le : a.counters.total ≤ a.allocations
  le_alive : a.counters.current ≤ a.alive.countP (·.2 = 0)

/-- The counters count all that is alive. -/
structure Exact (a : Account) : Prop where
  current : a.counters.current = a.alive.card
  own : ∀ tag ∈ a.alive, tag.2 = 0

variable {a b : Account}

theorem Posting.sound (h : Posting a b) (ha : a.Sound) : b.Sound := by
  obtain ⟨hmax, htotal, hallocations, halive⟩ := ha
  cases h with
  | entered => exact ⟨hmax, htotal, hallocations, halive⟩
  | allocated c alive n number =>
      refine ⟨Nat.le_max_right _ _, Nat.max_le.mpr ⟨?_, ?_⟩, ?_, ?_⟩
      · exact Nat.le_succ_of_le htotal
      · exact Nat.succ_le_succ (hmax.trans htotal)
      · exact Nat.succ_le_succ hallocations
      · simpa [Counters.allocated, Multiset.countP_cons_of_pos] using halive
  | strayed c htag =>
      refine ⟨hmax, htotal, Nat.le_succ_of_le hallocations, ?_⟩
      simpa [Multiset.countP_cons_of_neg, htag] using halive
  | freed c alive n number =>
      refine ⟨(Nat.sub_le _ _).trans hmax, htotal, hallocations, ?_⟩
      simpa [Counters.freed, Multiset.countP_cons_of_pos] using halive
  | lost c htag =>
      refine ⟨hmax, htotal, hallocations, ?_⟩
      simpa [Multiset.countP_cons_of_neg, htag] using halive
  | zeroed => exact ⟨Nat.le_refl _, Nat.le_refl _, Nat.zero_le _, Nat.zero_le _⟩

/-- What is not counted is not counted later. -/
theorem Posting.uncounted_le (h : Posting a b) : a.uncounted ≤ b.uncounted := by
  cases h with
  | allocated c alive n number => exact le_of_eq (Nat.add_sub_add_right n 1 c.total).symm
  | strayed c htag => exact Nat.sub_le_sub_right (Nat.le_succ _) _
  | zeroed c alive n => exact Nat.sub_le n c.total
  | _ => exact Nat.le_refl _

/-- As long as all that is allocated is counted, all that is alive is counted. -/
theorem Posting.exact (h : Posting a b) (ha : a.Sound) (hsame : b.uncounted = a.uncounted)
    (hexact : a.Exact) : b.Exact := by
  obtain ⟨hcurrent, hown⟩ := hexact
  cases h with
  | entered => exact ⟨hcurrent, hown⟩
  | allocated c alive n number =>
      refine ⟨by simpa [Counters.allocated] using hcurrent, fun tag htag => ?_⟩
      rcases Multiset.mem_cons.mp htag with rfl | hold
      · rfl
      · exact hown tag hold
  | strayed c htag =>
      have htotal := ha.total_le
      simp only [uncounted] at hsame htotal
      omega
  | freed c alive n number =>
      refine ⟨?_, fun tag htag => hown tag (Multiset.mem_cons_of_mem htag)⟩
      have hone : c.current = alive.card + 1 := hcurrent.trans (Multiset.card_cons _ _)
      exact Nat.sub_eq_of_eq_add hone
  | lost c htag => exact absurd (hown _ (Multiset.mem_cons_self _ _)) htag
  | zeroed c alive n =>
      -- The counters were zero before.
      have htotal := ha.total_le
      have hzero : c.current = 0 := by
        have hmax := ha.le_max.trans ha.max_le
        simp only [uncounted, Counters.zero] at hsame htotal hmax
        omega
      exact ⟨hzero.symm.trans hcurrent, hown⟩

/-- What becomes of a sound account in the course of time. -/
theorem Entries.keep (h : Entries a b) (ha : a.Sound) :
    b.Sound ∧ a.uncounted ≤ b.uncounted ∧ (b.uncounted = a.uncounted → a.Exact → b.Exact) := by
  induction h with
  | refl => exact ⟨ha, Nat.le_refl _, fun _ => id⟩
  | tail _ hlast ih =>
      obtain ⟨hsound, hle, hexact⟩ := ih
      have hlast_le := hlast.uncounted_le
      refine ⟨hlast.sound hsound, hle.trans hlast_le, fun hsame ha => ?_⟩
      exact hlast.exact hsound (by omega) (hexact (by omega) ha)

theorem Sound.le_card (h : a.Sound) : a.counters.current ≤ a.alive.card :=
  h.le_alive.trans (Multiset.countP_le_card _ _)

end Account

open Account (Posting Entries)

/-! ## The account of a world -/

namespace World

/-- The account of the first scheduler, where some fibers are held. -/
def account (w : World α) (held : Multiset Tag) : Account where
  counters := (w.schedulers.head?.map Scheduler.counters).getD .zero
  alive := held + (w.schedulers.map fun x => tags x.cache).sum
  allocations := w.allocations

/-- The fibers that were allocated and are not in the total of the first scheduler. It grows when
the counters are set to zero after they have counted something, and stays as it is otherwise. -/
def uncounted (w : World α) : Nat :=
  w.allocations - ((w.schedulers.head?.map fun x => x.counters.total).getD 0)

theorem uncounted_account (w : World α) (held : Multiset Tag) :
    (w.account held).uncounted = w.uncounted := by
  cases hx : w.schedulers with
  | nil => simp [account, uncounted, Account.uncounted, hx, Counters.zero]
  | cons x rest => simp [account, uncounted, Account.uncounted, hx]

variable {w : World α} {held : Multiset Tag} {x : Scheduler α}

theorem account_eq (hx : w.schedulers = [x]) (held : Multiset Tag) :
    w.account held = ⟨x.counters, held + tags x.cache, w.allocations⟩ := by
  simp [account, hx]

theorem modify_eq (hx : w.schedulers = [x]) (s : Nat) (change : Scheduler α → Scheduler α) :
    w.modify s change = { w with schedulers := [if s = 0 then change x else x] } := by
  cases s <;> simp [modify, hx]

theorem count_eq (hx : w.schedulers = [x]) (s : Nat) (change : Counters → Counters) :
    w.count s change = { w with schedulers :=
      [{ x with counters := if s = 0 then change x.counters else x.counters }] } := by
  rw [count, modify_eq hx]
  by_cases hs : s = 0 <;> simp [hs]

theorem schedulers_allocate (hx : w.schedulers = [x]) :
    (w.allocate 0).2.schedulers = [{ x with counters := x.counters.allocated }] :=
  congrArg World.schedulers
    (count_eq (w := { w with allocations := w.allocations + 1 }) hx 0 .allocated)

/-- A fiber that is freed leaves the account, whether it was counted or not. -/
theorem posting_freed (c : Counters) (tag : Tag) (alive : Multiset Tag) (n : Nat) :
    Posting ⟨c, tag ::ₘ alive, n⟩ ⟨if tag.2 = 0 then c.freed else c, alive, n⟩ := by
  obtain ⟨number, home⟩ := tag
  by_cases hhome : home = 0
  · subst hhome
    exact .freed c alive n number
  · rw [if_neg hhome]
    exact .lost c hhome

theorem posting_lose (hx : w.schedulers = [x]) (tag : Tag) (held : Multiset Tag) :
    Posting (w.account (tag ::ₘ held)) ((w.lose tag).account held) := by
  rw [lose, count_eq (w := w.record _) hx, account_eq hx, account_eq rfl, Multiset.cons_add]
  exact posting_freed _ _ _ _

theorem posting_allocate (hx : w.schedulers = [x]) (s : Nat) (held : Multiset Tag) :
    Posting (w.account held) ((w.allocate s).2.account ((w.allocate s).1.tag ::ₘ held)) := by
  have hcount := count_eq (w := { w with allocations := w.allocations + 1 }) hx s .allocated
  simp only [allocate, hcount, account_eq hx]
  rw [account_eq rfl, Multiset.cons_add]
  by_cases hs : s = 0
  · subst hs
    exact .allocated _ _ _ w.allocations
  · simp only [if_neg hs]
    exact .strayed _ hs

theorem account_keep (hx : w.schedulers = [x]) (f : Fiber α) (held : Multiset Tag) :
    (w.keep 0 f).account held = w.account (f.tag ::ₘ held) := by
  rw [keep, modify_eq hx, account_eq hx, account_eq rfl, Multiset.cons_add, ← Multiset.add_cons]
  rfl

theorem entries_create (hx : w.schedulers = [x]) (s : Nat) (held : Multiset Tag) :
    Entries (w.account held) ((w.create s).2.account ((w.create s).1.tag ::ₘ held)) := by
  have hallocate : Entries (w.account held)
      (((w.allocate s).2.record (.handedOut (w.allocate s).1.number)).account
        ((w.allocate s).1.tag ::ₘ held)) := .single (posting_allocate hx s held)
  cases s with
  | zero =>
      cases hcache : x.cache with
      | nil => simpa [create, next, hx, hcache] using hallocate
      | cons f rest =>
          -- The fiber is alive in the cache before, and in the hands of its holder after.
          have hcreate : w.create 0 = (f, { w with schedulers := [{ x with cache := rest }] }.record
              (.handedOut f.number)) := by
            simp [create, next, hx, hcache, modify_eq hx]
          rw [hcreate, account_eq hx, account_eq rfl, hcache, tags_cons, Multiset.cons_add,
            ← Multiset.add_cons]
          exact .refl
  | succ s => simpa [create, next, hx] using hallocate

theorem entries_takeBack (hx : w.schedulers = [x]) (s : Nat) (f : Fiber α) (held : Multiset Tag) :
    Entries (w.account (f.tag ::ₘ held)) ((w.takeBack s f).account held) := by
  have hfreed : Entries (w.account (f.tag ::ₘ held))
      (((w.record (.givenBack f.number)).count f.home .freed).account held) :=
    .single (posting_lose hx f.tag held)
  simp only [takeBack]
  split
  next y hy =>
    split
    · -- There is no other scheduler with a cache.
      have hs : s = 0 := by
        have hlt := (List.getElem?_eq_some_iff.mp hy).1
        simpa [record, hx] using hlt
      subst hs
      rw [account_keep (w := w.record _) hx]
      exact .refl
    · exact hfreed
  next => exact hfreed

theorem entries_addFresh (hx : w.schedulers = [x]) (n : Nat) (held : Multiset Tag) :
    Entries (w.account held) ((addFresh n 0 w).account held) := by
  induction n generalizing w x with
  | zero => exact .refl
  | succ n ih =>
      have hmade := schedulers_allocate hx
      have hkept : ((w.allocate 0).2.keep 0 (w.allocate 0).1).schedulers =
          [{ x with counters := x.counters.allocated, cache := (w.allocate 0).1 :: x.cache }] :=
        congrArg World.schedulers (modify_eq hmade 0 _)
      have hallocate := posting_allocate hx 0 held
      rw [← account_keep hmade] at hallocate
      exact .head hallocate (ih hkept)

theorem entries_prime (hx : w.schedulers = [x]) (s : Nat) (held : Multiset Tag) :
    Entries (w.account held) ((w.prime s).account held) := by
  cases s with
  | zero => simpa [prime, hx] using entries_addFresh hx _ held
  | succ s =>
      simp only [prime, hx, List.getElem?_cons_succ, List.getElem?_nil]
      exact .refl

/-- Fibers that are freed one after the other leave the account. -/
theorem entries_freed (fs : List (Fiber α)) (hx : w.schedulers = [x]) :
    ∃ c, fs.foldl (fun w f => w.count f.home .freed) w =
        { w with schedulers := [{ x with counters := c }] } ∧
      ∀ alive n, Entries ⟨x.counters, tags fs + alive, n⟩ ⟨c, alive, n⟩ := by
  induction fs generalizing w x with
  | nil =>
      refine ⟨x.counters, by simp [← hx], fun alive n => ?_⟩
      rw [show tags [] + alive = alive from zero_add alive]
      exact .refl
  | cons f rest ih =>
      obtain ⟨c, hc, hentries⟩ := ih (congrArg World.schedulers (count_eq hx f.home .freed))
      refine ⟨c, ?_, fun alive n => .head ?_ (hentries alive n)⟩
      · rw [List.foldl_cons, hc, count_eq hx]
      · rw [tags_cons, Multiset.cons_add]
        exact posting_freed _ f.tag _ _

/-- Where a scheduler was reset, nothing is counted, and what is held is alive. -/
theorem account_reset (hx : w.schedulers = [x]) (held : Multiset Tag) :
    (w.reset 0).account held = ⟨.zero, held, w.allocations⟩ := by
  obtain ⟨c, hc, -⟩ := entries_freed x.cache hx
  have hreset : w.reset 0 =
      { w with schedulers := [{ x with cache := [], counters := .zero }] } := by
    simp [reset, hx, hc, modify_eq]
  rw [hreset, account_eq rfl]
  exact congrArg (Account.mk _ · _) (add_zero held)

theorem entries_reset (hx : w.schedulers = [x]) (s : Nat) (held : Multiset Tag) :
    Entries (w.account held) ((w.reset s).account held) := by
  cases s with
  | zero =>
      obtain ⟨c, -, hentries⟩ := entries_freed x.cache hx
      rw [account_reset hx, account_eq hx, add_comm]
      exact .tail (hentries held w.allocations) (.zeroed c held w.allocations)
  | succ s =>
      have hreset : w.reset (s + 1) = { w with schedulers := [x] } := by
        simp [reset, hx, modify_eq]
      rw [hreset, account_eq hx, account_eq rfl]
      exact .refl

end World

theorem Move.entries {p q : World α × Multiset Tag} (h : Move p q)
    (hp : p.1.schedulers.length = 1) :
    Entries (p.1.account p.2) (q.1.account q.2) := by
  obtain ⟨x, hx⟩ := List.length_eq_one_iff.mp hp
  cases h with
  | note w held entry => exact .refl
  | enter w held s =>
      dsimp only
      rw [World.count_eq hx, World.account_eq hx, World.account_eq rfl]
      by_cases hs : s = 0
      · simp only [if_pos hs]
        exact .single (.entered _ _ _)
      · simp only [if_neg hs]
        exact .refl
  | create w held s => exact World.entries_create hx s held
  | giveBack w held s _ => exact World.entries_takeBack hx s _ held
  | drop w held tag => exact .single (World.posting_lose hx tag held)
  | prime w held s => exact World.entries_prime hx s held
  | reset w held s => exact World.entries_reset hx s held

/-- Whatever jobs do in a world with one scheduler goes into its account. -/
theorem Moves.entries {w w' : World α} {held held' : Multiset Tag} (h : Moves w held w' held')
    (hw : w.schedulers.length = 1) : Entries (w.account held) (w'.account held') := by
  have hall := h.keeps (P := fun p => p.1.schedulers.length = 1 ∧
      Entries (w.account held) (p.1.account p.2))
    (fun p q hmove hp => ⟨hmove.tidy.2.trans hp.1, hp.2.trans (hmove.entries hp.1)⟩)
    ⟨hw, .refl⟩
  exact hall.2

end ControlFlow.Fibers

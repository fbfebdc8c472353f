/-! # Finite sets of numbers as ascending lists

Sets of declarations and of nodes are lists without repetition in ascending order, so that a
set has one form and its elements come out in the order in which answers list them.
-/

namespace ControlFlow.Ascending

def Sorted (xs : List Nat) : Prop := xs.Pairwise (· < ·)

/-- Put a number into an ascending list, unless it is there. -/
def insert (x : Nat) : List Nat → List Nat
  | [] => [x]
  | y :: ys => if x < y then x :: y :: ys else if x = y then y :: ys else y :: insert x ys

@[simp] theorem mem_insert {x z : Nat} {xs : List Nat} : z ∈ insert x xs ↔ z = x ∨ z ∈ xs := by
  induction xs with
  | nil => simp [insert]
  | cons y ys ih =>
      unfold insert
      split
      · simp
      · split
        · next h => simp [h]
        · simp [ih, or_left_comm]

theorem sorted_insert {x : Nat} {xs : List Nat} (h : Sorted xs) : Sorted (insert x xs) := by
  induction xs with
  | nil => simp [insert, Sorted]
  | cons y ys ih =>
      obtain ⟨hhead, htail⟩ := List.pairwise_cons.mp h
      unfold insert
      split
      · next hlt =>
          refine List.pairwise_cons.mpr ⟨fun z hz => ?_, h⟩
          rcases List.mem_cons.mp hz with rfl | hz
          · exact hlt
          · exact Nat.lt_trans hlt (hhead z hz)
      · split
        · exact h
        · next hlt hne =>
            refine List.pairwise_cons.mpr ⟨fun z hz => ?_, ih htail⟩
            rcases mem_insert.mp hz with rfl | hz
            · omega
            · exact hhead z hz

def insertAll (xs ys : List Nat) : List Nat := xs.foldr insert ys

@[simp] theorem mem_insertAll {z : Nat} {xs ys : List Nat} :
    z ∈ insertAll xs ys ↔ z ∈ xs ∨ z ∈ ys := by
  induction xs with
  | nil => simp [insertAll]
  | cons x xs ih =>
      have hcons : insertAll (x :: xs) ys = insert x (insertAll xs ys) := rfl
      simp [hcons, ih, or_assoc]

theorem sorted_insertAll {xs ys : List Nat} (h : Sorted ys) : Sorted (insertAll xs ys) := by
  induction xs with
  | nil => exact h
  | cons x xs ih => exact sorted_insert ih

/-- The set of the numbers of a list. -/
def ofList (xs : List Nat) : List Nat := insertAll xs []

@[simp] theorem mem_ofList {z : Nat} {xs : List Nat} : z ∈ ofList xs ↔ z ∈ xs := by
  simp [ofList]

theorem sorted_ofList (xs : List Nat) : Sorted (ofList xs) := sorted_insertAll List.Pairwise.nil

end ControlFlow.Ascending

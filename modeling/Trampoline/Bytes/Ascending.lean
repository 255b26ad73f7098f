import Trampoline.Bytes

/-!
# Trampoline.Bytes.Ascending -- sets as strictly ascending lists

A set of names and a set of arities are both kept as lists in strictly ascending order, so that one
set has one list and its order is the order in which it is printed. The order is a parameter; names
are compared byte by byte, a proper beginning coming first.
-/

namespace Trampoline

/-- Whether a text comes strictly before another one, byte by byte. -/
def Bytes.before : Bytes → Bytes → Bool
  | _, [] => false
  | [], _ :: _ => true
  | a :: as, b :: bs => a.toNat < b.toNat || (a == b && before as bs)

namespace Ascending

variable {α : Type} [DecidableEq α] (before : α → α → Bool)

/-- Adds an element at its place, unless it is there already. -/
def insert (x : α) : List α → List α
  | [] => [x]
  | y :: ys =>
    if x = y then y :: ys
    else if before x y then x :: y :: ys
    else y :: insert x ys

/-- The elements of either list. -/
def union (xs ys : List α) : List α := xs.foldr (insert before) ys

/-- The set of the elements of any list. -/
def ofList (xs : List α) : List α := union before xs []

/-- The elements that a list does not name. -/
def without (xs names : List α) : List α := xs.filter fun x => !names.contains x

/-! ### Members -/

@[simp]
theorem mem_insert {x y : α} {ys : List α} : y ∈ insert before x ys ↔ y = x ∨ y ∈ ys := by
  induction ys with
  | nil => simp [insert]
  | cons z zs ih =>
    by_cases hxz : x = z
    · subst hxz
      simp [insert]
    · by_cases hlt : before x z = true
      · simp [insert, hxz, hlt]
      · simp only [insert, if_neg hxz, if_neg hlt, List.mem_cons, ih]
        exact or_left_comm

@[simp]
theorem mem_union {y : α} {xs ys : List α} : y ∈ union before xs ys ↔ y ∈ xs ∨ y ∈ ys := by
  induction xs with
  | nil => simp [union]
  | cons x xs ih =>
    have hstep : union before (x :: xs) ys = insert before x (union before xs ys) := rfl
    rw [hstep, mem_insert, ih, List.mem_cons, or_assoc]

@[simp]
theorem mem_ofList {y : α} {xs : List α} : y ∈ ofList before xs ↔ y ∈ xs := by
  simp [ofList]

@[simp]
theorem mem_without {y : α} {xs names : List α} : y ∈ without xs names ↔ y ∈ xs ∧ y ∉ names := by
  simp [without]

end Ascending

/-- The set of the names in a list. -/
def Names.ofList (xs : List Bytes) : List Bytes := Ascending.ofList Bytes.before xs

/-- The names in either of two sets. -/
def Names.union (xs ys : List Bytes) : List Bytes := Ascending.union Bytes.before xs ys

/-- The names of a set that a list does not hold. -/
def Names.without (xs names : List Bytes) : List Bytes := Ascending.without xs names

end Trampoline

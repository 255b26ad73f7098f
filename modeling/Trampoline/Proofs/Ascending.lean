import Trampoline.Bytes.Ascending

/-!
# Trampoline.Proofs.Ascending -- ordered sets stay ordered

The set operations on lists keep strict order, for any order that is transitive and that decides
between different elements. Names are ordered by the lexicographic order of the library on lists of
bytes, so what is printed as ascending is ascending in the usual sense.
-/

namespace Trampoline

namespace Ascending

variable {α : Type} [DecidableEq α] (before : α → α → Bool)

/-- In strictly ascending order. -/
def Strict (xs : List α) : Prop := xs.Pairwise fun a b => before a b = true

/-- What an order must satisfy so that insertion has one place for every element. -/
structure Order : Prop where
  trans : ∀ {a b c : α}, before a b = true → before b c = true → before a c = true
  total : ∀ {a b : α}, a ≠ b → before a b = false → before b a = true

variable {before}

/-- Inserting keeps the order and adds nothing twice. -/
theorem strict_insert (ho : Order before) (x : α) {ys : List α} (h : Strict before ys) :
    Strict before (insert before x ys) := by
  induction ys with
  | nil => exact List.pairwise_singleton _ x
  | cons y ys ih =>
    obtain ⟨hy, hys⟩ := List.pairwise_cons.mp h
    rw [insert]
    split
    · exact h
    · rename_i hne
      split
      · rename_i hxy
        refine List.pairwise_cons.mpr ⟨?_, h⟩
        intro z hz
        rcases List.mem_cons.mp hz with rfl | hz
        · exact hxy
        · exact ho.trans hxy (hy z hz)
      · rename_i hxy
        refine List.pairwise_cons.mpr ⟨?_, ih hys⟩
        intro z hz
        rcases (mem_insert before).mp hz with rfl | hz
        · exact ho.total hne (Bool.eq_false_iff.mpr hxy)
        · exact hy z hz

/-- So does a union. -/
theorem strict_union (ho : Order before) (xs : List α) {ys : List α} (h : Strict before ys) :
    Strict before (union before xs ys) := by
  induction xs with
  | nil => exact h
  | cons x xs ih => exact strict_insert ho x ih

/-- Elements that are inserted one after the other are in order. -/
theorem strict_ofList (ho : Order before) (xs : List α) : Strict before (ofList before xs) :=
  strict_union ho xs List.Pairwise.nil

end Ascending

/-! ## Names -/

/-- Names are compared as lists of bytes usually are. -/
theorem Bytes.before_iff_lt : ∀ {a b : Bytes}, Bytes.before a b = true ↔ a < b
  | a, [] => by
    have hnil : Bytes.before a [] = false := by cases a <;> rfl
    rw [hnil]
    exact ⟨fun h => absurd h Bool.false_ne_true, fun h => absurd h (List.not_lt_nil a)⟩
  | [], b :: bs => ⟨fun _ => List.nil_lt_cons b bs, fun _ => rfl⟩
  | a :: as, b :: bs => by
    rw [List.cons_lt_cons_iff, UInt8.lt_iff_toNat_lt, ← Bytes.before_iff_lt (a := as)]
    simp [Bytes.before]

/-- The order of byte strings is a strict total order. -/
theorem Bytes.order : Ascending.Order Bytes.before where
  trans hab hbc := by
    rw [Bytes.before_iff_lt] at *
    exact List.lt_trans hab hbc
  total {a b} hne hab := by
    have hnlt : ¬ a < b := by
      intro h
      rw [Bytes.before_iff_lt.mpr h] at hab
      exact Bool.noConfusion hab
    exact Bytes.before_iff_lt.mpr (Std.lt_of_le_of_ne (List.not_lt.mp hnlt) hne.symm)

/-- In strictly ascending order, as lists of bytes. -/
def Names.Strict (xs : List Bytes) : Prop := xs.Pairwise (· < ·)

namespace Names

theorem strict_iff {xs : List Bytes} : Strict xs ↔ Ascending.Strict Bytes.before xs :=
  ⟨List.Pairwise.imp Bytes.before_iff_lt.mpr, List.Pairwise.imp Bytes.before_iff_lt.mp⟩

/-- In a strict order nothing comes twice. -/
theorem Strict.nodup {xs : List Bytes} (h : Strict xs) : xs.Nodup := by
  apply h.imp
  intro a b hab heq
  subst heq
  exact List.lt_irrefl a hab

theorem strict_ofList (xs : List Bytes) : Strict (ofList xs) :=
  strict_iff.mpr (Ascending.strict_ofList Bytes.order xs)

theorem strict_union (xs : List Bytes) {ys : List Bytes} (h : Strict ys) : Strict (union xs ys) :=
  strict_iff.mpr (Ascending.strict_union Bytes.order xs (strict_iff.mp h))

theorem strict_without {xs : List Bytes} (h : Strict xs) (names : List Bytes) :
    Strict (without xs names) :=
  List.Pairwise.filter _ h

@[simp]
theorem mem_ofList {x : Bytes} {xs : List Bytes} : x ∈ ofList xs ↔ x ∈ xs :=
  Ascending.mem_ofList Bytes.before

@[simp]
theorem mem_union {x : Bytes} {xs ys : List Bytes} : x ∈ union xs ys ↔ x ∈ xs ∨ x ∈ ys :=
  Ascending.mem_union Bytes.before

@[simp]
theorem mem_without {x : Bytes} {xs names : List Bytes} :
    x ∈ without xs names ↔ x ∈ xs ∧ x ∉ names :=
  Ascending.mem_without

end Names

end Trampoline

import Trampoline.Code.Primitive

/-!
# Trampoline.Proofs.Store -- slots, what they hold, and how runs end

Trees and emitted code are both given a meaning over a store of slots. A slot holds a number, a
closure or a string. What a closure is differs between the two sides, so contents are over a type of
closures; everything else is the same on both sides and stands here: the checked views of a content,
what operators compute, and the ways in which a run can end.

Whoever runs a program decides what happens to a number that does not fit. An `Overflow` is such a
decision: a number to go on with, or none, which ends the run.

`Matches` compares two computations: both give related results, or both end in the same way. A
computation that is stuck matches nothing.
-/

namespace Trampoline

/-- What a slot holds. -/
inductive Content (κ : Type) where
  | number (n : Int64)
  | closure (c : κ)
  | string (s : Bytes)

/-- The slots in the order in which they were made. A slot is known by its position. -/
abbrev Store (κ : Type) := List (Content κ)

/-- How a run ends. -/
inductive Ending where
  /-- the halt continuation printed a text -/
  | printed (text : Bytes)
  /-- a content was not of the kind that was asked for -/
  | wrongTag (expected : Tag)
  | wrongArity (arity given : Nat)
  /-- a number did not fit, and nobody said how to go on -/
  | overflow
  /-- there was no thunk left to run -/
  | returned
  deriving DecidableEq

/-- Why a computation has no result. What has no meaning is stuck. -/
inductive Stop where
  | ended (e : Ending)
  | stuck
  deriving DecidableEq

abbrev Outcome := Except Stop

/-- The value that must be there. -/
def need {α : Type} : Option α → Outcome α
  | some a => .ok a
  | none => .error .stuck

/-- The content of a slot. -/
def Store.get {κ : Type} (σ : Store κ) (i : Nat) : Outcome (Content κ) := need σ[i]?

/-- How a number that does not fit is treated. -/
abbrev Overflow := Int → Option Int64

/-- An exact result as a number of a slot. -/
def Overflow.fit (ov : Overflow) (z : Int) : Outcome Int64 :=
  if Int64.minValue.toInt ≤ z ∧ z ≤ Int64.maxValue.toInt then .ok (Int64.ofInt z)
  else
    match ov z with
    | some n => .ok n
    | none => .error (.ended .overflow)

namespace Content

variable {κ : Type}

/-- The number in a slot. -/
def num : Content κ → Outcome Int64
  | .number n => .ok n
  | _ => .error (.ended (.wrongTag .number))

/-- The closure in a slot. -/
def lam : Content κ → Outcome κ
  | .closure c => .ok c
  | _ => .error (.ended (.wrongTag .closure))

/-- The string in a slot. -/
def str : Content κ → Outcome Bytes
  | .string s => .ok s
  | _ => .error (.ended (.wrongTag .string))

/-- Truth values are numbers. -/
def truth (b : Bool) : Content κ := .number (if b then 1 else 0)

/-- What the halt continuation prints. -/
def printed : Content κ → Bytes
  | .number n => Bytes.signedDecimal n.toInt ++ [Byte.newline]
  | .closure _ => ascii "#<procedure>\n"
  | .string s => s ++ [Byte.newline]

end Content

/-! ## Operators -/

section

variable {κ : Type}

def Unary.compute : Unary → Content κ → Outcome (Content κ)
  | .isZero, a => do
    let n ← a.num
    pure (.truth (n == 0))

/-- Both operands are checked before anything is computed. -/
def Binary.compute (ov : Overflow) : Binary → Content κ → Content κ → Outcome (Content κ)
  | .add, a, b => do
    let m ← a.num
    let n ← b.num
    let r ← ov.fit (m.toInt + n.toInt)
    pure (.number r)
  | .sub, a, b => do
    let m ← a.num
    let n ← b.num
    let r ← ov.fit (m.toInt - n.toInt)
    pure (.number r)
  | .mul, a, b => do
    let m ← a.num
    let n ← b.num
    let r ← ov.fit (m.toInt * n.toInt)
    pure (.number r)
  | .equal, a, b => do
    let m ← a.num
    let n ← b.num
    pure (.truth (m == n))
  | .append, a, b => do
    let s ← a.str
    let t ← b.str
    pure (.string (s ++ t))
  | .differ, a, b => do
    let s ← a.str
    let t ← b.str
    pure (.truth (s != t))

/-- An operator on a list of operands, which must be as many as it takes. -/
def Primitive.compute (ov : Overflow) : Primitive → List (Content κ) → Outcome (Content κ)
  | .unary p, [a] => p.compute a
  | .binary p, [a, b] => p.compute ov a b
  | _, _ => .error .stuck

end

/-! ## Observations -/

/-- What can be seen of a computation. -/
inductive Observation where
  | running
  | ended (e : Ending)
  | stuck
  deriving DecidableEq

def observe {α : Type} : Outcome α → Observation
  | .ok _ => .running
  | .error (.ended e) => .ended e
  | .error .stuck => .stuck

/-- Both computations give results, which are related, or both end in the same way. -/
def Matches {α β : Type} (R : α → β → Prop) : Outcome α → Outcome β → Prop
  | .ok a, .ok b => R a b
  | .error (.ended e), .error (.ended e') => e = e'
  | _, _ => False

namespace Matches

variable {α β γ δ : Type} {R : α → β → Prop} {Q : γ → δ → Prop}

theorem refl_ended (e : Ending) : Matches R (.error (.ended e)) (.error (.ended e)) := rfl

/-- Computations that match go on to computations that match. -/
theorem bind {x : Outcome α} {y : Outcome β} {f : α → Outcome γ} {g : β → Outcome δ}
    (h : Matches R x y) (hk : ∀ a b, R a b → Matches Q (f a) (g b)) :
    Matches Q (x >>= f) (y >>= g) := by
  match x, y, h with
  | .ok a, .ok b, h => exact hk a b h
  | .error (.ended e), .error (.ended e'), h => exact h

/-- Two computations of equal results, one after the other. -/
theorem bind₂ {x x' y y' : Outcome α} {f : α → α → Outcome γ} {g : α → α → Outcome δ}
    (h : Matches Eq x y) (h' : Matches Eq x' y') (hk : ∀ a b, Matches Q (f a b) (g a b)) :
    Matches Q (x >>= fun a => x' >>= fun b => f a b) (y >>= fun a => y' >>= fun b => g a b) := by
  refine h.bind ?_
  rintro a _ rfl
  refine h'.bind ?_
  rintro b _ rfl
  exact hk a b

/-- Related outcomes are related in a wider sense. -/
theorem mono {S : α → β → Prop} {x : Outcome α} {y : Outcome β} (h : Matches R x y)
    (hRS : ∀ a b, R a b → S a b) : Matches S x y := by
  match x, y, h with
  | .ok a, .ok b, h => exact hRS a b h
  | .error (.ended e), .error (.ended e'), h => exact h

/-- Computations that match look the same, and neither is stuck. -/
theorem observe_eq {x : Outcome α} {y : Outcome β} (h : Matches R x y) :
    observe x = observe y ∧ observe y ≠ .stuck := by
  match x, y, h with
  | .ok a, .ok b, _ => exact ⟨rfl, fun h => nomatch h⟩
  | .error (.ended e), .error (.ended e'), h =>
    cases h
    exact ⟨rfl, fun h => nomatch h⟩

end Matches

end Trampoline

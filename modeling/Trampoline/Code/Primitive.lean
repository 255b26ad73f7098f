import Trampoline.Code.Ident

/-!
# Trampoline.Code.Primitive -- the built-in operators

Seven operators are built in: one takes one operand, six take two. Each computes a number or a
string from the operands' slots. A call pairs an operator with as many operands as it takes, so a
call that exists can always be printed.
-/

namespace Trampoline

/-- The three kinds of value that a slot can hold. -/
inductive Tag where
  | number
  | closure
  | string
  deriving DecidableEq, Repr

/-- The spelling of a tag in emitted code. -/
def Tag.text : Tag → Bytes
  | .number => ascii "NUM"
  | .closure => ascii "LAM"
  | .string => ascii "STR"

/-- The tag with a given index in a slot's variant. -/
def Tag.ofIndex? : Nat → Option Tag
  | 0 => some .number
  | 1 => some .closure
  | 2 => some .string
  | _ => none

/-- Operators of one operand. -/
inductive Unary where
  | isZero
  deriving DecidableEq, Repr

/-- Operators of two operands. -/
inductive Binary where
  | add
  | sub
  | mul
  | equal
  | append
  /-- tells whether two strings differ: it is one when they do -/
  | differ
  deriving DecidableEq, Repr

inductive Primitive where
  | unary (p : Unary)
  | binary (p : Binary)
  deriving DecidableEq, Repr

namespace Primitive

/-- Every operator under its source name. -/
def table : List (Bytes × Primitive) :=
  [ (ascii "zero?", .unary .isZero),
    (ascii "+", .binary .add),
    (ascii "-", .binary .sub),
    (ascii "*", .binary .mul),
    (ascii "=", .binary .equal),
    (ascii "string-append", .binary .append),
    (ascii "string=?", .binary .differ) ]

/-- The operator with a source name. -/
def ofName? (name : Bytes) : Option Primitive := table.lookup name

/-- Whether a source name is taken by an operator. -/
def isName (name : Bytes) : Bool := (ofName? name).isSome

/-- The number of operands. -/
def arity : Primitive → Nat
  | .unary _ => 1
  | .binary _ => 2

end Primitive

/-- An operator with its operands. -/
inductive PrimCall where
  | unary (p : Unary) (a : Ident)
  | binary (p : Binary) (a b : Ident)
  deriving DecidableEq, Repr

namespace PrimCall

/-- The call of a named operator, if the name is an operator's and the operands are as many as it
takes. -/
def ofName? (name : Bytes) (operands : List Ident) : Option PrimCall :=
  match Primitive.ofName? name, operands with
  | some (.unary p), [a] => some (.unary p a)
  | some (.binary p), [a, b] => some (.binary p a b)
  | _, _ => none

def operands : PrimCall → List Ident
  | .unary _ a => [a]
  | .binary _ a b => [a, b]

/-- The kind of value that a call computes. -/
def tag : PrimCall → Tag
  | .binary .append _ _ => .string
  | _ => .number

/-- An operand read as a number. -/
def number (a : Ident) : Bytes := a.text ++ ascii "->num()"

/-- An operand read as a pointer to a string. -/
def string (a : Ident) : Bytes := a.text ++ ascii "->str()"

/-- The expression that computes a call. -/
def text : PrimCall → Bytes
  | .unary .isZero a => number a ++ ascii " == 0"
  | .binary .add a b => number a ++ ascii " + " ++ number b
  | .binary .sub a b => number a ++ ascii " - " ++ number b
  | .binary .mul a b => number a ++ ascii " * " ++ number b
  | .binary .equal a b => number a ++ ascii " == " ++ number b
  | .binary .append a b =>
    ascii "std::make_shared<std::string>(*" ++ string a ++ ascii " + *" ++ string b ++ ascii ")"
  | .binary .differ a b => string a ++ ascii "->compare(*" ++ string b ++ ascii ") != 0"

end PrimCall

end Trampoline

import Trampoline.Code.Fragment

/-!
# Trampoline.Expr -- expression trees

A program is one expression in continuation-passing style. Every lambda carries a name, which
becomes the name of its class. A native node holds code that is already emitted, together with the
source names that this code reads; the halt continuation is the one native node that source text can
ask for.
-/

namespace Trampoline

/-- Constants. -/
inductive Literal where
  | integer (n : Int64)
  | boolean (b : Bool)
  | string (s : Bytes)
  | unspecified
  deriving DecidableEq

/-- Expressions. -/
inductive Expr where
  | var (name : Bytes)
  | literal (l : Literal)
  | lambda (name : Bytes) (params : List Bytes) (body : Expr)
  /-- an application; by convention its last argument is the continuation -/
  | app (callee : Expr) (args : List Expr)
  | cond (test thenBranch elseBranch : Expr)
  | letrec (defs : List (Bytes × Expr)) (body : Expr)
  | seq (exprs : List Expr)
  | assign (name : Bytes) (value : Expr)
  /-- an assignment followed by a continuation -/
  | assignThen (name : Bytes) (value next : Expr)
  | native (uses : List Bytes) (code : Fragment)

namespace Expr

/-- The code of the halt continuation: it prints its parameter and ends the run, so its thunk is never
made. -/
def haltCode (param : Bytes) : Fragment :=
  ⟨none, .verbatim (ascii "THUNK_T(nullptr)"), .thunk, [.halt (.named param)]⟩

/-- The halt continuation with a given name and parameter. -/
def halt (name param : Bytes) : Expr := .lambda name [param] (.native [param] (haltCode param))

/-- A halt continuation with a fresh parameter and a fresh name, drawn in that order. -/
def freshHalt : StateM Nat Expr := do
  let param ← Name.fresh (ascii "halt_")
  let name ← Name.fresh (ascii "lambda_")
  pure (halt name param)

/-- A lambda with a fresh name. -/
def freshLambda (params : List Bytes) (body : Expr) : StateM Nat Expr := do
  let name ← Name.fresh (ascii "lambda_")
  pure (.lambda name params body)

/-! ## Places -/

/-- The child at a position. The callee of an application and the body of a `letrec` are at
position zero, in front of the arguments and the definitions. -/
def child? : Expr → Nat → Option Expr
  | .lambda _ _ body, 0 => some body
  | .app callee _, 0 => some callee
  | .app _ args, i + 1 => args[i]?
  | .cond test _ _, 0 => some test
  | .cond _ a _, 1 => some a
  | .cond _ _ b, 2 => some b
  | .letrec _ body, 0 => some body
  | .letrec defs _, i + 1 => (defs[i]?).map Prod.snd
  | .seq exprs, i + 1 => exprs[i]?
  | .assign _ value, 0 => some value
  | .assignThen _ value _, 0 => some value
  | .assignThen _ _ next, 1 => some next
  | _, _ => none

/-- The expression reached by a list of positions, the innermost first. -/
def reach? (e : Expr) : List Nat → Option Expr
  | [] => some e
  | i :: path => (e.reach? path).bind (·.child? i)

/-- The expression that stands at a node. -/
def at? (e : Expr) (node : Node) : Option Expr := e.reach? node.path

end Expr

end Trampoline

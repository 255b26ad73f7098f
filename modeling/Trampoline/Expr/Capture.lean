import Trampoline.Bytes.Ascending
import Trampoline.Expr

/-!
# Trampoline.Expr.Capture -- free names and what lambdas capture

A name occurs where a variable is read, called or assigned, and where native code says it uses it. A
built-in operator's name is never an occurrence, except where native code lists it. Parameters are
bound in their lambda's body, and the names of a `letrec` both in its definitions and in its body. A
lambda captures the names that occur free in it.
-/

namespace Trampoline

namespace Expr

/-- The name of an occurrence, unless it belongs to an operator. -/
def occurrence (x : Bytes) : List Bytes := if Primitive.isName x then [] else [x]

mutual

/-- The names that occur free in a tree, in ascending order. -/
def free : Expr → List Bytes
  | .var x => occurrence x
  | .literal _ => []
  | .lambda _ params body => Names.without body.free params
  | .app callee args => Names.union callee.free (freeList args)
  | .cond test a b => Names.union test.free (Names.union a.free b.free)
  | .letrec defs body => Names.without (Names.union (freeDefs defs) body.free) (defs.map Prod.fst)
  | .seq exprs => freeList exprs
  | .assign x value => Names.union (occurrence x) value.free
  | .assignThen x value next => Names.union (occurrence x) (Names.union value.free next.free)
  | .native uses _ => Names.ofList uses

def freeList : List Expr → List Bytes
  | [] => []
  | e :: es => Names.union e.free (freeList es)

def freeDefs : List (Bytes × Expr) → List Bytes
  | [] => []
  | (_, e) :: ds => Names.union e.free (freeDefs ds)

end

end Expr

/-- A lambda of a tree and the names that it captures, in ascending order. -/
structure Capture where
  node : Node
  name : Bytes
  params : List Bytes
  captured : List Bytes
  deriving DecidableEq

namespace Expr

mutual

/-- What the lambdas of a tree capture, for a tree that stands at a given node. A lambda comes
before the lambdas of its body. -/
def captures (node : Node) : Expr → List Capture
  | .var _ => []
  | .literal _ => []
  | .lambda name params body =>
    ⟨node, name, params, Names.without body.free params⟩ :: captures (node.child 0) body
  | .app callee args => captures (node.child 0) callee ++ capturesList node 1 args
  | .cond test a b => captures (node.child 0) test ++ captures (node.child 1) a ++ captures (node.child 2) b
  | .letrec defs body => capturesDefs node 1 defs ++ captures (node.child 0) body
  | .seq exprs => capturesList node 1 exprs
  | .assign _ value => captures (node.child 0) value
  | .assignThen _ value next => captures (node.child 0) value ++ captures (node.child 1) next
  | .native _ _ => []

/-- The same for the children of a node from a position on. -/
def capturesList (node : Node) (i : Nat) : List Expr → List Capture
  | [] => []
  | e :: es => captures (node.child i) e ++ capturesList node (i + 1) es

/-- The same for the definitions of a node from a position on. -/
def capturesDefs (node : Node) (i : Nat) : List (Bytes × Expr) → List Capture
  | [] => []
  | (_, e) :: ds => captures (node.child i) e ++ capturesDefs node (i + 1) ds

end

end Expr

/-- The captures that are known, one per lambda. -/
abbrev Captures := List Capture

namespace Captures

/-- What the lambda at a node captures. -/
def captured? (cs : Captures) (node : Node) : Option (List Bytes) :=
  (cs.find? fun c => c.node == node).map Capture.captured

/-- Adds what is not known yet. -/
def merge (known new : Captures) : Captures :=
  known ++ new.filter fun c => !known.any fun k => k.node == c.node

end Captures

end Trampoline

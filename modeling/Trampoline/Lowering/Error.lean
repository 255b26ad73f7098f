import Trampoline.Token

/-!
# Trampoline.Lowering.Error -- why a tree has no code

A tree may use a construct for which there is no code, or a built-in operator with the wrong number
of operands. The internal errors are for callers that break a promise; a program that was read from
text never meets one.
-/

namespace Trampoline

/-- The constructs for which there is no code. -/
inductive Unsupported where
  | void
  | sequence
  | assignment
  | chainedAssignment
  /-- an operator that is not called -/
  | operatorValue (name : Bytes)
  /-- a callee that is not a name -/
  | callee
  | noContinuation
  /-- a lambda whose body is not a tail call -/
  | lambdaBody
  /-- a conditional with a tail call in one branch only -/
  | mixedBranches
  /-- a definition that is the name of the same or of a later definition -/
  | alias (name : Bytes)
  /-- a definition that is a tail call -/
  | tailCallDefinition
  /-- a program that is not a tail call -/
  | valueProgram
  deriving DecidableEq

def Unsupported.text : Unsupported → Bytes
  | .void => ascii "void"
  | .sequence => ascii "begin"
  | .assignment => ascii "set!"
  | .chainedAssignment => ascii "set-then!"
  | .operatorValue name => ascii "primitive operator " ++ name ++ ascii " used as a value"
  | .callee => ascii "application target"
  | .noContinuation => ascii "primitive application without a continuation"
  | .lambdaBody => ascii "lambda body that is not a tail call"
  | .mixedBranches => ascii "conditional with a tail call in only one branch"
  | .alias name => ascii "letrec binding that aliases " ++ name ++ ascii " before it is bound"
  | .tailCallDefinition => ascii "letrec binding that is a tail call"
  | .valueProgram => ascii "program that does not end in a tail call"

/-- The promises that a caller can break. -/
inductive Internal where
  /-- a lambda whose captures are not known -/
  | unknownCaptures
  /-- a range of arities without an arity -/
  | noArity
  /-- a unit whose root is a value -/
  | valueRoot
  /-- a byte without a mnemonic -/
  | noMnemonic
  /-- an index without a tag -/
  | noTag
  /-- a token of a kind that does not exist -/
  | noTokenKind
  /-- a step on a tree that is not there, or is of another kind -/
  | noTree
  deriving DecidableEq, Repr

/-- The causes for which a tree has no code. -/
inductive CompileError where
  | unsupported (what : Unsupported)
  | unknownPrimitive (name : Bytes) (operands : Nat)
  | internal (cause : Internal)
  deriving DecidableEq

/-- The wording. It is zero-terminated, so a name in it is cut at a zero byte. -/
def CompileError.message : CompileError → Bytes
  | .unsupported what => Bytes.zeroTerminated (ascii "unimplemented expression type: " ++ what.text)
  | .unknownPrimitive name operands =>
    Bytes.zeroTerminated (ascii "unimplemented primitive operation: " ++ name ++ ascii " with "
      ++ Bytes.decimal operands ++ ascii " operand(s)")
  | .internal _ => ascii "internal error"

/-- The causes for which a program cannot be built. -/
inductive Fault where
  | read (e : ReadError)
  | compile (e : CompileError)
  deriving DecidableEq

end Trampoline

import Trampoline.Name

/-!
# Trampoline.Code.Ident -- the identifiers of emitted code

Emitted code names three kinds of things: the variable of a source name, a temporary that the
compiler numbered, and whatever a hand-written fragment calls its result. Keeping the three apart
until the code is printed means that renaming temporaries never touches anything else.
-/

namespace Trampoline

/-- What a temporary holds. -/
inductive Temp where
  | number
  | boolean
  | string
  | closure
  | primitive
  | choice
  | ret
  deriving DecidableEq, Repr

/-- The spelling in front of a temporary's number. -/
def Temp.stem : Temp → Bytes
  | .number => ascii "__num_"
  | .boolean => ascii "__bool_"
  | .string => ascii "__str_"
  | .closure => ascii "__lam_"
  | .primitive => ascii "__prim_"
  | .choice => ascii "__if_"
  | .ret => ascii "__ret_"

/-- An identifier of emitted code. -/
inductive Ident where
  /-- the variable of a source name -/
  | named (name : Bytes)
  /-- a compiler temporary -/
  | temp (t : Temp) (n : Nat)
  /-- text that is taken as it stands -/
  | verbatim (text : Bytes)
  deriving DecidableEq, Repr

/-- The spelling of an identifier. -/
def Ident.text : Ident → Bytes
  | .named x => Name.ofVariable x
  | .temp t n => t.stem ++ Bytes.decimal n
  | .verbatim text => text

end Trampoline

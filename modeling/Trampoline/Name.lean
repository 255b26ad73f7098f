import Trampoline.Bytes

/-!
# Trampoline.Name -- fresh names and mangled names

A fresh name is a stem followed by the next number of one running count. A mangled name spells any
byte string with letters, digits and underscores only: letters and digits stand for themselves, an
underscore is doubled, and every other byte is an underscore, an `x` and two hexadecimal digits.
-/

namespace Trampoline.Name

/-- Draws the next fresh name with a stem. The count has no upper end; a count of sixty-four bits gives
the same names up to the first `2 ^ 64` of them and then starts again. -/
def fresh (stem : Bytes) : StateM Nat Bytes := fun n => (stem ++ Bytes.decimal n, n + 1)

/-- Draws one fresh name per stem, in order. -/
def freshAll : List Bytes → StateM Nat (List Bytes)
  | [] => pure []
  | stem :: rest => do
    let x ← fresh stem
    let xs ← freshAll rest
    pure (x :: xs)

/-- The spelling of one byte in a mangled name. -/
def mangleByte (b : UInt8) : Bytes :=
  if Byte.isAlnum b then [b]
  else if b = Byte.underscore then [b, b]
  else [Byte.underscore, 120, Byte.hexDigit (b >>> 4), Byte.hexDigit (b &&& 15)]

/-- A name spelled as an identifier, behind a leading text that keeps families of names apart. -/
def mangle (lead name : Bytes) : Bytes := lead ++ name.flatMap mangleByte

/-- The variable that holds a source name. -/
def ofVariable (name : Bytes) : Bytes := mangle (ascii "s_") name

/-- The class that holds the code of a lambda. -/
def ofClass (name : Bytes) : Bytes := mangle (ascii "c_") name

end Trampoline.Name

import Trampoline.Bytes.Escape
import Trampoline.Expr
import Trampoline.Token

/-!
# Trampoline.Reader.Literal -- what a literal token stands for

A literal is a truth value, a string or an integer, by its first bytes. The body of a string is what
remains without its first and its last byte; in it, a backslash and a mnemonic stand for one byte. An
integer may have one sign of each kind in front, and must fit in sixty-four bits.
-/

namespace Trampoline

namespace Literal

/-- The text that the body of a string stands for, the body starting at an offset. -/
def unescape (offset : Nat) : Bytes → Except ReadError Bytes
  | [] => .ok []
  | b :: rest =>
    if b = Byte.backslash then
      match rest with
      | [] => .error (.badEscape ⟨offset, [b]⟩)
      | m :: rest =>
        match Escape.ofMnemonic? m with
        | none => .error (.badEscape ⟨offset, [b, m]⟩)
        | some c => (unescape (offset + 2) rest).map (c :: ·)
    else (unescape (offset + 1) rest).map (b :: ·)

/-- A text without one leading byte, if it starts with that byte. -/
def dropSign (sign : UInt8) : Bytes → Bytes
  | [] => []
  | b :: rest => if b = sign then rest else b :: rest

/-- The integer that a span writes. Being too large is found out before what follows the digits. -/
def readInteger (span : Span) : Except ReadError Int64 :=
  let text := dropSign Byte.plus span.text
  let negative := text.head? == some Byte.minus
  let rest := dropSign Byte.minus text
  let digits := rest.takeWhile Byte.isDigit
  let magnitude := Bytes.digitsValue digits
  let value : Int := if negative then -(magnitude : Int) else magnitude
  if digits = [] then .error (.invalid span)
  else if value < Int64.minValue.toInt ∨ Int64.maxValue.toInt < value then .error (.outOfRange span)
  else if digits.length ≠ rest.length then .error (.invalid span)
  else .ok (Int64.ofInt value)

/-- The literal that a span stands for. -/
def ofSpan (span : Span) : Except ReadError Literal :=
  if span.text = ascii "#t" then .ok (.boolean true)
  else if span.text = ascii "#f" then .ok (.boolean false)
  else if span.text.head? = some Byte.doubleQuote then
    (unescape (span.offset + 1) (span.text.drop 1).dropLast).map .string
  else (readInteger span).map .integer

end Literal

end Trampoline

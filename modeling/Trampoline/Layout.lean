import Trampoline.Bytes

/-!
# Trampoline.Layout -- indentation by brace depth

Every line is indented by the depth of braces around it. A line that starts with a closing brace
belongs to the outside of its block, and a label stands half a step to the left. Braces inside string
and character literals do not count, and a literal ends with its line. Depth and indentation never
go below zero, however the braces are placed.
-/

namespace Trampoline.Layout

/-- Braces opened minus braces closed, outside of literals. The open literal's quote is given, and
whether the next byte is escaped in it. -/
def balanceFrom : Option UInt8 → Bool → Bytes → Int
  | _, _, [] => 0
  | some q, true, _ :: rest => balanceFrom (some q) false rest
  | some q, false, b :: rest =>
    if b = Byte.backslash then balanceFrom (some q) true rest
    else if b = q then balanceFrom none false rest
    else balanceFrom (some q) false rest
  | none, _, b :: rest =>
    if b = Byte.doubleQuote ∨ b = Byte.singleQuote then balanceFrom (some b) false rest
    else if b = Byte.openBrace then balanceFrom none false rest + 1
    else if b = Byte.closeBrace then balanceFrom none false rest - 1
    else balanceFrom none false rest

/-- Braces opened minus braces closed on a line. -/
def balance (line : Bytes) : Int := balanceFrom none false line

/-- Whether a line starts with a word that a blank or a colon follows. -/
def startsWithWord (line word : Bytes) : Bool :=
  Bytes.startsWith line word &&
    match (line.drop word.length).head? with
    | some b => b == Byte.space || b == 9 || b == Byte.colon
    | none => false

/-- Whether a line is a label of a switch or of a class. -/
def isLabel (line : Bytes) : Bool :=
  Bytes.startsWith line (ascii "case ")
    || [ascii "public", ascii "private", ascii "default"].any (startsWithWord line)

/-- The indentation of a line at a depth, in steps of `step` spaces. -/
def indentation (step : Nat) (depth : Int) (line : Bytes) : Int :=
  let level := if line.head? = some Byte.closeBrace then depth - 1 else depth
  let indent := max level 0 * step
  if isLabel line then max (indent - (step / 2 : Nat)) 0 else indent

/-- Indents lines one after the other, starting at a depth. A line of white space becomes empty. -/
def indentLines (step : Nat) : Int → List Bytes → List Bytes
  | _, [] => []
  | depth, l :: ls =>
    let line := Bytes.trimLeft l
    if line = [] then [] :: indentLines step depth ls
    else
      (List.replicate (indentation step depth line).toNat Byte.space ++ line)
        :: indentLines step (max (depth + balance line) 0) ls

/-- A text with its lines indented anew. -/
def indent (step : Nat) (text : Bytes) : Bytes := Bytes.unlines (indentLines step 0 (Bytes.lines text))

/-- The step used for units. -/
def defaultStep : Nat := 2

end Trampoline.Layout

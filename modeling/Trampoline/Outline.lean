import Trampoline.Bytes.Ascending

/-!
# Trampoline.Outline -- one-line outlines of structured values

An outline shows a value as lists, sets, named records, strings, numbers and absent parts, on one
line. Strings stand between single quotes and are not escaped.
-/

namespace Trampoline

/-- A value as it is shown. -/
inductive Outline where
  | list (elems : List Outline)
  | set (elems : List Outline)
  | record (name : Bytes) (fields : List (Bytes × Outline))
  | string (text : Bytes)
  | number (n : Int)
  | absent
  /-- a value of a named type that shows nothing of itself -/
  | hidden (typeName : Bytes)

namespace Outline

mutual

/-- The outline on one line, followed by a text. -/
def textThen : Outline → Bytes → Bytes
  | .list elems, rest => ascii "[" ++ listThen elems (ascii "]" ++ rest)
  | .set elems, rest => ascii "\x7b" ++ listThen elems (ascii "\x7d" ++ rest)
  | .record name fields, rest => name ++ (ascii "\x7b" ++ fieldsThen fields (ascii "\x7d" ++ rest))
  | .string t, rest => Byte.singleQuote :: (t ++ Byte.singleQuote :: rest)
  | .number n, rest => Bytes.signedDecimal n ++ rest
  | .absent, rest => ascii "null" ++ rest
  | .hidden typeName, rest => typeName ++ (ascii " = <abstr>" ++ rest)

/-- Outlines with commas between them, followed by a text. -/
def listThen : List Outline → Bytes → Bytes
  | [], rest => rest
  | [o], rest => o.textThen rest
  | o :: p :: os, rest => o.textThen (ascii ", " ++ listThen (p :: os) rest)

/-- Fields with commas between them, followed by a text. -/
def fieldsThen : List (Bytes × Outline) → Bytes → Bytes
  | [], rest => rest
  | [(name, o)], rest => name ++ (ascii " : " ++ o.textThen rest)
  | (name, o) :: f :: fs, rest =>
    name ++ (ascii " : " ++ o.textThen (ascii ", " ++ fieldsThen (f :: fs) rest))

end

/-- The outline on one line. -/
def text (o : Outline) : Bytes := o.textThen []

/-- A truth value is shown as a number. -/
def boolean (b : Bool) : Outline := .number (if b then 1 else 0)

/-- A list of strings. -/
def strings (ts : List Bytes) : Outline := .list (ts.map .string)

/-- The set of some numbers, in ascending order. -/
def numberSet (ns : List Int) : Outline :=
  .set ((Ascending.ofList (fun a b => decide (a < b)) ns).map .number)

/-- The set of some strings, in ascending order. -/
def stringSet (ts : List Bytes) : Outline := .set ((Names.ofList ts).map .string)

/-- Pairs each part with the next of the comma-separated names, freed of the white space around it.
Parts beyond the last name have an empty one. -/
def nameFields (names : Bytes) : List Outline → List (Bytes × Outline)
  | [] => []
  | o :: os =>
    (Bytes.trim (names.takeWhile (· != Byte.comma)), o) ::
      nameFields ((names.dropWhile (· != Byte.comma)).drop 1) os

/-- A record whose field names are given in one comma-separated text. -/
def recordOf (name fieldNames : Bytes) (parts : List Outline) : Outline :=
  .record name (nameFields fieldNames parts)

end Outline

end Trampoline

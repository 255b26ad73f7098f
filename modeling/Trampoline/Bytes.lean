/-!
# Trampoline.Bytes -- texts as byte strings

Every text that the compiler reads, holds or prints is a list of unsigned bytes. Lengths, offsets,
columns and comparisons count bytes, so a source text need not be valid in any wider encoding.
This module names the bytes that have a meaning of their own, the classes that the scanner and the
printers ask for, and the few operations on whole texts that every later module shares.
-/

namespace Trampoline

/-- A text: its bytes, first to last. -/
abbrev Bytes := List UInt8

/-- The bytes of a text written in ASCII. -/
def ascii (s : String) : Bytes := s.toList.map fun c => UInt8.ofNat c.toNat

/-! ## Bytes with a name -/

namespace Byte

@[match_pattern] abbrev newline : UInt8 := 10
@[match_pattern] abbrev escape : UInt8 := 27
@[match_pattern] abbrev space : UInt8 := 32
@[match_pattern] abbrev doubleQuote : UInt8 := 34
@[match_pattern] abbrev hash : UInt8 := 35
@[match_pattern] abbrev singleQuote : UInt8 := 39
@[match_pattern] abbrev openParen : UInt8 := 40
@[match_pattern] abbrev closeParen : UInt8 := 41
@[match_pattern] abbrev plus : UInt8 := 43
@[match_pattern] abbrev comma : UInt8 := 44
@[match_pattern] abbrev minus : UInt8 := 45
@[match_pattern] abbrev dot : UInt8 := 46
@[match_pattern] abbrev slash : UInt8 := 47
@[match_pattern] abbrev digitZero : UInt8 := 48
@[match_pattern] abbrev colon : UInt8 := 58
@[match_pattern] abbrev semicolon : UInt8 := 59
@[match_pattern] abbrev backslash : UInt8 := 92
@[match_pattern] abbrev underscore : UInt8 := 95
@[match_pattern] abbrev openBrace : UInt8 := 123
@[match_pattern] abbrev closeBrace : UInt8 := 125

/-! ## Classes -/

/-- White space: the space and the five controls from tab to carriage return. -/
def isSpace (b : UInt8) : Bool := b == 32 || (9 ≤ b && b ≤ 13)

def isDigit (b : UInt8) : Bool := 48 ≤ b && b ≤ 57

def isUpper (b : UInt8) : Bool := 65 ≤ b && b ≤ 90

def isLower (b : UInt8) : Bool := 97 ≤ b && b ≤ 122

/-- ASCII letters and digits. -/
def isAlnum (b : UInt8) : Bool := isDigit b || isUpper b || isLower b

/-- The value of a digit. -/
def digitValue (b : UInt8) : Nat := b.toNat - 48

/-- The lower-case hexadecimal digit of a value below sixteen. -/
def hexDigit (v : UInt8) : UInt8 := if v < 10 then 48 + v else 87 + v

end Byte

namespace Bytes

/-! ## Numbers -/

/-- A natural number in decimal, without leading zeros. -/
def decimal (n : Nat) : Bytes := (Nat.toDigits 10 n).map fun c => UInt8.ofNat c.toNat

/-- An integer in decimal: a minus sign in front of a negative one, no sign otherwise. -/
def signedDecimal (i : Int) : Bytes :=
  if i < 0 then Byte.minus :: decimal i.natAbs else decimal i.natAbs

/-- The number that a run of digits writes. -/
def digitsValue (ds : Bytes) : Nat := ds.foldl (fun v d => 10 * v + Byte.digitValue d) 0

/-! ## Ends -/

/-- The text without the white space in front of it. -/
def trimLeft (t : Bytes) : Bytes := t.dropWhile Byte.isSpace

/-- The text without the white space at either end. -/
def trim (t : Bytes) : Bytes := (trimLeft (trimLeft t).reverse).reverse

/-- A zero-terminated text: what stands before the first zero byte. -/
def zeroTerminated (t : Bytes) : Bytes := t.takeWhile (· != 0)

/-- Whether a text starts with another one. -/
def startsWith (t lead : Bytes) : Bool := lead.isPrefixOf t

/-! ## Lines and lists -/

/-- The lines of a text, without their newlines. There is always at least one, and a newline at the
very end is followed by an empty line. -/
def lines : Bytes → List Bytes
  | [] => [[]]
  | b :: rest =>
    if b = Byte.newline then [] :: lines rest
    else
      match lines rest with
      | [] => [[b]]
      | l :: ls => (b :: l) :: ls

/-- Lines joined by newlines. -/
def unlines (ls : List Bytes) : Bytes := List.intercalate [Byte.newline] ls

theorem lines_ne_nil (t : Bytes) : lines t ≠ [] := by
  cases t with
  | nil => simp [lines]
  | cons b rest =>
    rw [lines]
    split
    · simp
    · split <;> simp

/-- Cutting a text into lines loses nothing. -/
theorem unlines_lines (t : Bytes) : unlines (lines t) = t := by
  induction t with
  | nil => rfl
  | cons b rest ih =>
    rw [lines]
    split
    · rename_i hb
      subst hb
      cases hl : lines rest with
      | nil => exact absurd hl (lines_ne_nil rest)
      | cons l ls =>
        rw [hl] at ih
        rw [← ih]
        simp [unlines, List.intercalate, List.intersperse]
    · cases hl : lines rest with
      | nil => exact absurd hl (lines_ne_nil rest)
      | cons l ls =>
        rw [hl] at ih
        rw [← ih]
        cases ls <;> simp [unlines, List.intercalate, List.intersperse]

/-- A text as a line of its own, none if it is empty. -/
def line (t : Bytes) : List Bytes := if t = [] then [] else [t]

/-- A text closed by a newline; an empty text stays empty. -/
def closed (t : Bytes) : Bytes := if t = [] then [] else t ++ [Byte.newline]

/-- Texts with a comma and a space between them. -/
def commaList (ts : List Bytes) : Bytes := List.intercalate (ascii ", ") ts

end Bytes

end Trampoline

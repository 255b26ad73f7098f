import Trampoline.Bytes

/-!
# Trampoline.Bytes.Escape -- one-letter escapes and quoted literals

Ten bytes have a mnemonic, the letter that stands for them after a backslash. The printer writes
literals with a table from bytes to letters, and the reader decodes source literals with a table from
letters to bytes. The printer adds fixed-width octal for every other byte that must not stand bare, so
that a digit after an escape never extends it.
-/

namespace Trampoline.Escape

/-- Each byte that has a mnemonic, with its mnemonic. -/
def mnemonics : List (UInt8 × UInt8) :=
  [(39, 39), (34, 34), (92, 92), (10, 110), (13, 114), (9, 116), (8, 98), (12, 102), (7, 97), (11, 118)]

/-- Each letter that may follow a backslash, with the byte that it stands for. -/
def meanings : List (UInt8 × UInt8) :=
  [(39, 39), (34, 34), (92, 92), (110, 10), (114, 13), (116, 9), (98, 8), (102, 12), (97, 7), (118, 11)]

/-- The mnemonic of a byte. -/
def mnemonic? (b : UInt8) : Option UInt8 := mnemonics.lookup b

/-- The byte that a mnemonic stands for. -/
def ofMnemonic? (m : UInt8) : Option UInt8 := meanings.lookup m

/-- The bytes that never stand bare in a string literal: controls, the delete byte, the double quote
and the backslash. -/
def isEscaped (b : UInt8) : Bool := b < 32 || b == 127 || b == Byte.doubleQuote || b == Byte.backslash

/-- The digit for the last three bits. -/
def octalDigit (b : UInt8) : UInt8 := 48 + (b &&& 7)

/-- A byte as three octal digits after a backslash. -/
def octal (b : UInt8) : Bytes :=
  [Byte.backslash, octalDigit (b >>> 6), octalDigit (b >>> 3), octalDigit b]

/-- One byte of a literal: its mnemonic if it has one, octal if it may not stand bare or lies above
ASCII, itself otherwise. -/
def escapeByte (b : UInt8) : Bytes :=
  match mnemonic? b with
  | some m => [Byte.backslash, m]
  | none => if isEscaped b || 128 ≤ b then octal b else [b]

/-- A text as a double-quoted literal. -/
def quoted (t : Bytes) : Bytes := Byte.doubleQuote :: t.flatMap escapeByte ++ [Byte.doubleQuote]

end Trampoline.Escape

import Trampoline.Bytes

/-!
# Trampoline.Shell -- words of a shell command

Quoting wraps a text in single quotes, inside which everything stands for itself; a single quote in
the text closes the quotes, stands escaped, and opens them again. The scanner reads a command as a
shell does: blanks separate words, single quotes and backslashes take bytes as they stand, a semicolon
or a newline ends a command, and a newline behind a backslash is as good as not there. Of any other
byte that means something to a shell it only keeps that it was there, unquoted.
-/

namespace Trampoline.Shell

/-- A byte inside single quotes. -/
def quoteByte (b : UInt8) : Bytes :=
  if b = Byte.singleQuote then [Byte.singleQuote, Byte.backslash, Byte.singleQuote, Byte.singleQuote] else [b]

/-- A text as one word of a command. -/
def quote (t : Bytes) : Bytes := Byte.singleQuote :: t.flatMap quoteByte ++ [Byte.singleQuote]

/-- The bytes that separate words. -/
def isBlank (b : UInt8) : Bool := b == Byte.space || b == 9

/-- The bytes that end a command. -/
def isSeparator (b : UInt8) : Bool := b == Byte.semicolon || b == Byte.newline

/-- The bytes that start an expansion or an operator, the separators apart. -/
def isActive (b : UInt8) : Bool := (ascii "|&<>()$`\"*?[~#").contains b

/-- A word: its bytes after quoting is undone, and whether anything in it was active. -/
structure Word where
  text : Bytes
  active : Bool
  deriving DecidableEq

namespace Word

def empty : Word := ⟨[], false⟩

/-- Adds a byte that stands for itself. -/
def push (w : Word) (b : UInt8) : Word := { w with text := w.text ++ [b] }

/-- Adds an unquoted byte. -/
def pushBare (w : Word) (b : UInt8) : Word := ⟨w.text ++ [b], w.active || isActive b⟩

end Word

/-- What a command line consists of. -/
inductive Lexeme where
  | word (w : Word)
  | separator
  deriving DecidableEq

/-- How the next byte is taken. -/
inductive Mode where
  | bare
  | escaped
  | quoted
  deriving DecidableEq

/-- The word in progress, if there is one, followed by other lexemes. -/
def flush (current : Option Word) (rest : List Lexeme) : List Lexeme :=
  match current with
  | some w => .word w :: rest
  | none => rest

/-- The lexemes of a text, given the word in progress. There are none if a quote stays open or a
backslash comes last. -/
def scan? : Mode → Option Word → Bytes → Option (List Lexeme)
  | .bare, current, [] => some (flush current [])
  | .escaped, _, [] => none
  | .quoted, _, [] => none
  | .escaped, current, b :: rest =>
    if b = Byte.newline then scan? .bare current rest
    else scan? .bare (some ((current.getD .empty).push b)) rest
  | .quoted, current, b :: rest =>
    if b = Byte.singleQuote then scan? .bare current rest
    else scan? .quoted (some ((current.getD .empty).push b)) rest
  | .bare, current, b :: rest =>
    if isBlank b then (scan? .bare none rest).map (flush current)
    else if isSeparator b then (scan? .bare none rest).map fun ls => flush current (.separator :: ls)
    else if b = Byte.singleQuote then scan? .quoted (some (current.getD .empty)) rest
    else if b = Byte.backslash then scan? .escaped current rest
    else scan? .bare (some ((current.getD .empty).pushBare b)) rest

/-- The lexemes of a command line. -/
def lexemes? (line : Bytes) : Option (List Lexeme) := scan? .bare none line

/-- The commands of a command line, each a list of words. -/
def commands : List Lexeme → List (List Word)
  | [] => [[]]
  | .separator :: rest => [] :: commands rest
  | .word w :: rest =>
    match commands rest with
    | [] => [[w]]
    | ws :: wss => (w :: ws) :: wss

/-- How a command ended. -/
inductive WaitStatus where
  | exited (code : UInt8)
  | signalled (signal : Nat)
  deriving DecidableEq, Repr

/-- Whether a command ended well. -/
def WaitStatus.isSuccess (s : WaitStatus) : Bool := s == .exited 0

/-- The exit status that a failure is passed on with: its own, or one if it has none. -/
def WaitStatus.failureCode : WaitStatus → UInt8
  | .exited code => if code = 0 then 1 else code
  | .signalled _ => 1

end Trampoline.Shell

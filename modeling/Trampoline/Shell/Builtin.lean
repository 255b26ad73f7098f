import Trampoline.Shell

/-!
# Trampoline.Shell.Builtin -- a shell without programs

A shell that knows its built-in commands only: `true`, `false`, `echo`, `exit` and a `kill` of
itself. It runs the commands of a line in order and ends with the status of the last one. Whatever it
complains about goes to standard error.
-/

namespace Trampoline.Shell

/-- What a line of commands has brought about: its status and what it printed. -/
structure Outcome where
  status : WaitStatus
  output : Bytes
  errors : Bytes
  deriving DecidableEq

/-! ## Echo -/

namespace Echo

/-- The bytes that are written for a letter behind a backslash. -/
def escapes : List (UInt8 × UInt8) :=
  [(92, 92), (97, 7), (98, 8), (101, 27), (102, 12), (110, 10), (114, 13), (116, 9), (118, 11)]

def isOctal (b : UInt8) : Bool := 48 ≤ b && b ≤ 55

/-- How the next byte of a word is taken. -/
inductive Mode where
  | plain
  /-- behind a backslash -/
  | escaped
  /-- behind some octal digits of a value, with room for a number of further ones -/
  | octal (room value : Nat)

/-- A word as it is written, and whether it asks to write no more. Behind a backslash a letter may
stand for a byte and `c` ends everything. Up to three octal digits are the value of a byte, and a zero
in front of them does not count. -/
def word : Mode → Bytes → Bytes × Bool
  | .plain, [] => ([], false)
  | .escaped, [] => ([Byte.backslash], false)
  | .octal _ value, [] => ([UInt8.ofNat value], false)
  | .plain, b :: rest =>
    if b = Byte.backslash then word .escaped rest
    else
      let (t, stop) := word .plain rest
      (b :: t, stop)
  | .escaped, b :: rest =>
    if b = 99 then ([], true)
    else if b = Byte.digitZero then word (.octal 3 0) rest
    else if isOctal b then word (.octal 2 (Byte.digitValue b)) rest
    else
      let (t, stop) := word .plain rest
      match escapes.lookup b with
      | some c => (c :: t, stop)
      | none => (Byte.backslash :: b :: t, stop)
  | .octal room value, b :: rest =>
    if isOctal b ∧ room ≠ 0 then word (.octal (room - 1) (8 * value + Byte.digitValue b)) rest
    else if b = Byte.backslash then
      let (t, stop) := word .escaped rest
      (UInt8.ofNat value :: t, stop)
    else
      let (t, stop) := word .plain rest
      (UInt8.ofNat value :: b :: t, stop)

/-- Words as they are written, with spaces between them and a newline at the end. -/
def text : List Bytes → Bytes
  | [] => [Byte.newline]
  | w :: ws =>
    let (t, stop) := word .plain w
    if stop then t
    else if ws = [] then t ++ [Byte.newline]
    else t ++ Byte.space :: text ws

end Echo

/-! ## Commands -/

/-- The complaint of the shell about a command. -/
def complaint (command what : Bytes) : Bytes :=
  ascii "sh: 1: " ++ command ++ ascii ": " ++ what ++ [Byte.newline]

/-- The greatest number that `exit` takes. -/
def maxNumber : Nat := 2147483647

/-- The number that a word writes, if it is one that `exit` takes. It may have a sign. -/
def number? (w : Bytes) : Option Nat :=
  let digits := if w.head? = some Byte.plus ∨ w.head? = some Byte.minus then w.drop 1 else w
  let value := Bytes.digitsValue digits
  if digits = [] ∨ !digits.all Byte.isDigit ∨ maxNumber < value then none
  else if w.head? = some Byte.minus ∧ value ≠ 0 then none
  else some value

/-- What a command does: it ends with a status, or it ends the shell. -/
inductive Effect where
  | next (r : Outcome)
  | stop (r : Outcome)
  deriving DecidableEq

/-- Ends the shell with a number, of which the last eight bits are the status. A word that is no number
is complained about. -/
def exit : List Word → Effect
  | [] => .stop ⟨.exited 0, [], []⟩
  | w :: _ =>
    match number? w.text with
    | some n => .stop ⟨.exited (UInt8.ofNat n), [], []⟩
    | none => .stop ⟨.exited 2, [], complaint (ascii "exit") (ascii "Illegal number: " ++ w.text)⟩

/-- Runs one command. An unknown one ends with status 127. -/
def runCommand : List Word → Effect
  | [] => .next ⟨.exited 0, [], []⟩
  | name :: args =>
    if name.text = ascii "true" then .next ⟨.exited 0, [], []⟩
    else if name.text = ascii "false" then .next ⟨.exited 1, [], []⟩
    else if name.text = ascii "echo" then .next ⟨.exited 0, Echo.text (args.map Word.text), []⟩
    else if name.text = ascii "exit" then exit args
    else if name.text = ascii "kill" ∧ args = [⟨ascii "-9", false⟩, ⟨ascii "$$", true⟩] then
      .stop ⟨.signalled 9, [], []⟩
    else .next ⟨.exited 127, [], complaint name.text (ascii "not found")⟩

/-- What one command has brought about after others. -/
def Outcome.after (r before : Outcome) : Outcome :=
  ⟨r.status, before.output ++ r.output, before.errors ++ r.errors⟩

/-- Runs commands in order. -/
def runCommands (before : Outcome) : List (List Word) → Outcome
  | [] => before
  | [] :: rest => runCommands before rest
  | c :: rest =>
    match runCommand c with
    | .next r => runCommands (r.after before) rest
    | .stop r => r.after before

/-- Runs a line. One that cannot be read ends with status 2. -/
def run (line : Bytes) : Outcome :=
  match lexemes? line with
  | some ls => runCommands ⟨.exited 0, [], []⟩ (commands ls)
  | none => ⟨.exited 2, [], []⟩

end Trampoline.Shell

import Trampoline.Bytes

/-!
# Trampoline.Report -- messages for a terminal

A message has a severity, shown in colour. A report also has a subject, a token of some text, and a
description that quotes it. If the subject's place in a file is known, the report starts with the
file's name, the line and the column, and ends with the line itself and an underline below the
subject. Lines and columns count from one, columns in bytes.
-/

namespace Trampoline

/-- How serious a message is. -/
inductive Severity where
  | error
  | warning
  | note
  | plain
  deriving DecidableEq, Repr

namespace Style

/-- A terminal escape sequence. -/
def sequence (code : String) : Bytes := Byte.escape :: ascii "[" ++ ascii code ++ ascii "m"

def bold : Bytes := sequence "1"

def clear : Bytes := sequence "0"

end Style

namespace Severity

/-- The word in front of a message. -/
def name : Severity → Bytes
  | .error => ascii "error"
  | .warning => ascii "warning"
  | .note => ascii "note"
  | .plain => []

/-- The colour of a message. -/
def colour : Severity → Bytes
  | .error => Style.sequence "31"
  | .warning => Style.sequence "35"
  | .note => Style.sequence "36"
  | .plain => Style.clear

/-- The coloured word in front of a message. -/
def banner (s : Severity) : Bytes := s.colour ++ s.name ++ ascii ": " ++ Style.clear

/-- A message that is not about a token. -/
def message (s : Severity) (what : Bytes) : Bytes :=
  Style.bold ++ s.banner ++ what ++ [Byte.newline]

end Severity

/-- A piece of a text: where it starts and what it holds. -/
structure Span where
  offset : Nat
  text : Bytes
  deriving DecidableEq

/-- What a report says about its subject. -/
inductive Description where
  /-- the subject should not stand here; a note may say why -/
  | unexpected (note : Bytes)
  /-- something else should stand here -/
  | expected (what : Bytes)
  /-- words in front of the subject and behind it -/
  | around (front back : Bytes)
  deriving DecidableEq

/-- The subject in bold. -/
def Description.emphasis (subject : Bytes) : Bytes := Style.bold ++ subject ++ Style.clear

/-- The wording. An empty subject is the end of the input. -/
def Description.text (subject : Bytes) : Description → Bytes
  | .unexpected note =>
    (if subject = [] then ascii "end of input was not expected here."
      else ascii "token " ++ emphasis subject ++ ascii " was not expected here.")
      ++ (if note = [] then [] else Byte.space :: note)
  | .expected what =>
    ascii "token " ++ emphasis what ++ ascii " was expected, but "
      ++ (if subject = [] then ascii "end of input was found" else emphasis subject ++ ascii " was found")
  | .around front back =>
    front ++ (if front = [] || front.getLast? == some Byte.space then [] else [Byte.space])
      ++ emphasis subject
      ++ (if back = [] || back.head? == some Byte.space then [] else [Byte.space]) ++ back

/-- The severity of a report. A token in the wrong place is always an error; free words are as serious
as they are meant. -/
def Description.severity (meant : Severity) : Description → Severity
  | .around _ _ => meant
  | .unexpected _ | .expected _ => .error

/-- A named file and an offset in it. -/
structure Place where
  filename : Bytes
  file : Bytes
  offset : Nat
  deriving DecidableEq

namespace Place

/-- The place of a span in a file that starts at a given offset, if the file holds the whole span.
An empty file has no places. -/
def find? (filename : Bytes) (file : Span) (span : Span) : Option Place :=
  if file.text ≠ [] ∧ file.offset ≤ span.offset
      ∧ span.offset + span.text.length ≤ file.offset + file.text.length then
    some ⟨filename, file.text, span.offset - file.offset⟩
  else none

/-- What stands before the place. -/
def before (p : Place) : Bytes := p.file.take p.offset

/-- What stands before the place on its line. -/
def lineBefore (p : Place) : Bytes := (p.before.reverse.takeWhile (· != Byte.newline)).reverse

def line (p : Place) : Nat := p.before.count Byte.newline + 1

def column (p : Place) : Nat := p.lineBefore.length + 1

/-- The part of the subject that stands on its first line. -/
def subjectOnLine (subject : Bytes) : Bytes := subject.takeWhile (· != Byte.newline)

/-- What stands behind the subject on its line, nothing if the subject goes beyond the line. -/
def lineAfter (p : Place) (subject : Bytes) : Bytes :=
  if subject.contains Byte.newline then []
  else (p.file.drop (p.offset + subject.length)).takeWhile (· != Byte.newline)

end Place

/-- A message about a token. -/
structure Report where
  severity : Severity
  subject : Bytes
  description : Description
  place : Option Place
  deriving DecidableEq

namespace Report

/-- The file's name, the line and the column. -/
def heading (p : Place) : Bytes :=
  p.filename ++ ascii ":" ++ Bytes.decimal p.line ++ ascii ":" ++ Bytes.decimal p.column ++ ascii ": "

/-- The quoted line, with its number in a field of five. -/
def quotedLine (r : Report) (p : Place) : Bytes :=
  List.replicate (5 - (Bytes.decimal p.line).length) Byte.space ++ Bytes.decimal p.line ++ ascii " | "
    ++ p.lineBefore ++ Style.bold ++ r.severity.colour ++ Place.subjectOnLine r.subject ++ Style.clear
    ++ p.lineAfter r.subject ++ [Byte.newline]

/-- The underline, a caret and as many tildes as the subject has further bytes on the line. -/
def underline (r : Report) (p : Place) : Bytes :=
  ascii "      |" ++ List.replicate p.column Byte.space ++ Style.bold ++ r.severity.colour ++ ascii "^"
    ++ List.replicate ((Place.subjectOnLine r.subject).length - 1) 126 ++ Style.clear ++ [Byte.newline]

/-- The whole report. -/
def text (r : Report) : Bytes :=
  let opening := match r.place with
    | some p => heading p
    | none => []
  let quote := match r.place with
    | some p => r.quotedLine p ++ r.underline p
    | none => []
  Style.bold ++ opening ++ r.severity.banner ++ r.description.text r.subject ++ [Byte.newline] ++ quote

end Report

end Trampoline

import Trampoline.Report

/-!
# Trampoline.Token -- tokens and the causes for which reading stops

A token is a span of the source text with a kind. The end of the input is a token of its own, empty
and placed where the text ends. Every cause for which reading can stop names the span to blame.
-/

namespace Trampoline

/-- The kinds of token. -/
inductive TokenKind where
  | literal
  | identifier
  | openParen
  | closeParen
  | endOfInput
  deriving DecidableEq, Repr

/-- What a report calls a token of some kind. -/
def TokenKind.name : TokenKind → Bytes
  | .literal => ascii "literal"
  | .identifier => ascii "identifier"
  | .openParen => ascii "("
  | .closeParen => ascii ")"
  | .endOfInput => ascii "end of input"

/-- A token of the source text. -/
structure Token extends Span where
  kind : TokenKind
  deriving DecidableEq

/-- A token shown for inspection; its kind may be missing. -/
def Token.display (text : Bytes) : Option TokenKind → Bytes
  | some .literal => text
  | some .identifier => ascii "<" ++ text ++ ascii ">"
  | some .openParen => ascii "PARENS_OPEN"
  | some .closeParen => ascii "PARENS_CLOSE"
  | some .endOfInput => ascii "END_OF_INPUT"
  | none => ascii "unimplemented (" ++ text ++ ascii ")"

/-- The causes for which reading stops. -/
inductive ReadError where
  /-- a token that no expression can have here -/
  | unexpected (span : Span)
  /-- a token after the end of the program -/
  | trailing (span : Span)
  /-- a token of another kind than the one that must follow -/
  | expected (kind : TokenKind) (span : Span)
  /-- a string whose line or text ends before it is closed -/
  | unterminated (span : Span)
  /-- an atom that starts like a literal of a kind that does not exist -/
  | unsupported (span : Span)
  /-- a backslash that no mnemonic follows -/
  | badEscape (span : Span)
  /-- an integer beyond the sixty-four bit range -/
  | outOfRange (span : Span)
  /-- a literal that is neither a truth value nor a string nor an integer -/
  | invalid (span : Span)
  deriving DecidableEq

namespace ReadError

/-- The span to blame. -/
def span : ReadError → Span
  | .unexpected s | .trailing s | .expected _ s | .unterminated s | .unsupported s | .badEscape s
  | .outOfRange s | .invalid s => s

/-- What is said about it. -/
def description : ReadError → Description
  | .unexpected _ => .unexpected []
  | .trailing _ => .unexpected (ascii "A program is exactly one expression.")
  | .expected kind _ => .expected kind.name
  | .unterminated _ => .around [] (ascii "string literal is not terminated.")
  | .unsupported _ => .around (ascii "literal") (ascii "is not supported.")
  | .badEscape _ => .around (ascii "escape sequence") (ascii "is not valid.")
  | .outOfRange _ => .around (ascii "integer literal") (ascii "does not fit in 64 bits.")
  | .invalid _ => .around (ascii "literal") (ascii "is not valid.")

/-- The report without a place. -/
def report (e : ReadError) : Report := ⟨.error, e.span.text, e.description, none⟩

/-- The report with its place in the source. -/
def reportIn (source filename : Bytes) (e : ReadError) : Report :=
  { e.report with place := Place.find? filename ⟨0, source⟩ e.span }

end ReadError

end Trampoline

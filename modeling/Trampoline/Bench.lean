import Trampoline.Checked
import Trampoline.Reader

/-!
# Trampoline.Bench -- one tokenizer under any operations

A bench holds a tokenizer and copies of it that were put aside. Its operations may come in any order
and may fail. They look at the head, take it, insist on its kind, read a whole expression, and put
the tokenizer aside or take a copy back. Names drawn by reading are counted on, whatever is taken
back.
-/

namespace Trampoline

structure Bench where
  tokens : Tokenizer
  /-- the number of the next fresh name -/
  next : Nat
  /-- the copies that were put aside, each under a name, the latest first -/
  saved : List (Bytes × Tokenizer)
  deriving DecidableEq

namespace Bench

/-- What can be done at a bench. -/
inductive Op where
  | peek
  | peekToken
  | peekText
  | atEnd
  | source
  | filename
  /-- takes the head -/
  | pop
  /-- takes the head, which must be of a kind that must exist -/
  | expectPop (kind : Option TokenKind)
  | expectPeek (kind : Option TokenKind)
  /-- blames the head -/
  | unexpected
  /-- reads one expression -/
  | read
  /-- takes all tokens up to the end of the input -/
  | drain
  | save (slot : Bytes)
  /-- takes back the copy under a name; without one, nothing happens -/
  | load (slot : Bytes)
  deriving DecidableEq

/-- What an operation answers. -/
inductive Answer where
  | nothing
  | kind (k : TokenKind)
  | token (t : Token)
  | tokens (ts : List Token)
  | text (t : Bytes)
  | truth (b : Bool)
  | tree (e : Expr)

/-- A bench for a source, names being drawn from a number on. -/
def start (source filename : Bytes) (next : Nat) : Except ReadError Bench :=
  (Tokenizer.start source filename).map fun tk => ⟨tk, next, []⟩

/-- Replaces the head by the next token. -/
def advance (d : Bench) (answer : Answer) : Except Fault Answer × Bench :=
  match d.tokens.advance with
  | .ok tk => (.ok answer, { d with tokens := tk })
  | .error e => (.error (.read e), { d with tokens := d.tokens.skip })

/-- Does an operation. -/
def step (d : Bench) : Op → Except Fault Answer × Bench
  | .peek => (.ok (.kind d.tokens.head.kind), d)
  | .peekToken => (.ok (.token d.tokens.head), d)
  | .peekText => (.ok (.text d.tokens.head.text), d)
  | .atEnd => (.ok (.truth d.tokens.atEnd), d)
  | .source => (.ok (.text d.tokens.source), d)
  | .filename => (.ok (.text d.tokens.filename), d)
  | .pop => d.advance (.token d.tokens.head)
  | .expectPop kind =>
    match d.tokens.check kind with
    | .ok _ => d.advance .nothing
    | .error e => (.error e, d)
  | .expectPeek kind => ((d.tokens.check kind).map fun _ => .nothing, d)
  | .unexpected => (.error (.read (.unexpected d.tokens.head.toSpan)), d)
  | .read =>
    let (r, s) := Reader.readExpr ⟨d.tokens, d.next⟩
    ((r.map .tree).mapError .read, { d with tokens := s.tokens, next := s.next })
  | .drain =>
    let (r, tk) := d.tokens.drain
    ((r.map .tokens).mapError .read, { d with tokens := tk })
  | .save slot => (.ok .nothing, { d with saved := (slot, d.tokens) :: d.saved })
  | .load slot =>
    match d.saved.lookup slot with
    | some tk => (.ok .nothing, { d with tokens := tk })
    | none => (.ok .nothing, d)

/-- Does operations in order and collects their answers. -/
def run (d : Bench) : List Op → List (Except Fault Answer) × Bench
  | [] => ([], d)
  | op :: ops =>
    let (a, d) := d.step op
    let (as, d) := run d ops
    (a :: as, d)

end Bench

end Trampoline

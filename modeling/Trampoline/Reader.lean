import Trampoline.Reader.Literal
import Trampoline.Token.Tokenizer

/-!
# Trampoline.Reader -- from tokens to one expression

The grammar is

    exp ::= identifier | literal | %halt
          | (void) | (lambda (identifier*) exp) | (if exp exp exp)
          | (letrec ((identifier exp)*) exp) | (begin exp*)
          | (set! identifier exp) | (set-then! identifier exp exp) | (exp exp*)

where the seven keywords are keywords only right behind an opening parenthesis. One token of
lookahead decides, so the reader is a machine with a stack: a goal says what must come next, and the
frames say what an expression will be used for once it is complete. Each step consumes one token or
names the token that cannot stand there. Names of lambdas are drawn when the lambda's body is
complete.
-/

namespace Trampoline.Reader

/-- The words that start a form. -/
inductive Keyword where
  | void
  | lambda
  | cond
  | letrec
  | seq
  | assign
  | assignThen
  deriving DecidableEq, Repr

/-- The keyword with a spelling. -/
def Keyword.ofName? (name : Bytes) : Option Keyword :=
  if name = ascii "void" then some .void
  else if name = ascii "lambda" then some .lambda
  else if name = ascii "if" then some .cond
  else if name = ascii "letrec" then some .letrec
  else if name = ascii "begin" then some .seq
  else if name = ascii "set!" then some .assign
  else if name = ascii "set-then!" then some .assignThen
  else none

/-- The identifier that stands for the halt continuation. -/
def haltName : Bytes := ascii "%halt"

/-- What must come next. -/
inductive Goal where
  | expr
  /-- the inside of a form whose parenthesis is open -/
  | form
  | paramsOpen
  /-- parameters, after some -/
  | params (names : List Bytes)
  | defsOpen
  /-- definitions, after some -/
  | defs (done : List (Bytes × Expr))
  /-- the name of a definition, after some definitions -/
  | defName (done : List (Bytes × Expr))
  /-- the end of the last of some definitions -/
  | defClose (done : List (Bytes × Expr))
  /-- arguments, after some -/
  | args (callee : Expr) (done : List Expr)
  /-- parts of a sequence, after some -/
  | items (done : List Expr)
  /-- the name that an assignment is to, and whether a continuation follows -/
  | target (chained : Bool)
  /-- the end of a complete form -/
  | close (e : Expr)

/-- What an expression will be used for. -/
inductive Frame where
  | lambdaBody (params : List Bytes)
  | test
  | thenBranch (test : Expr)
  | elseBranch (test thenBranch : Expr)
  | defValue (done : List (Bytes × Expr)) (name : Bytes)
  | letrecBody (defs : List (Bytes × Expr))
  | callee
  | arg (callee : Expr) (done : List Expr)
  | item (done : List Expr)
  | assigned (name : Bytes)
  | assignedFirst (name : Bytes)
  | continuation (name : Bytes) (value : Expr)

/-- What a consumed token brings about. -/
inductive Move where
  /-- the reader waits for more -/
  | await (goal : Goal) (stack : List Frame)
  /-- an expression is complete -/
  | give (e : Expr) (stack : List Frame)
  /-- the token is a literal that is yet to be read -/
  | literal (span : Span) (stack : List Frame)
  /-- the token is the halt continuation -/
  | halt (stack : List Frame)

/-! ## One token -/

/-- A token that must be of a kind. -/
def expecting (kind : TokenKind) (t : Token) (m : Move) : Except ReadError Move :=
  if t.kind = kind then .ok m else .error (.expected kind t.toSpan)

/-- The first token of an expression. -/
def stepExpr (t : Token) (stack : List Frame) : Except ReadError Move :=
  match t.kind with
  | .literal => .ok (.literal t.toSpan stack)
  | .identifier => .ok (if t.text = haltName then .halt stack else .give (.var t.text) stack)
  | .openParen => .ok (.await .form stack)
  | .closeParen => .error (.unexpected t.toSpan)
  | .endOfInput => .error (.unexpected t.toSpan)

/-- The move into a form behind its keyword. -/
def Keyword.enter (stack : List Frame) : Keyword → Move
  | .void => .await (.close (.literal .unspecified)) stack
  | .lambda => .await .paramsOpen stack
  | .cond => .await .expr (.test :: stack)
  | .letrec => .await .defsOpen stack
  | .seq => .await (.items []) stack
  | .assign => .await (.target false) stack
  | .assignThen => .await (.target true) stack

/-- The move that a goal makes on a token, or the reason why it cannot make one. -/
def step (goal : Goal) (stack : List Frame) (t : Token) : Except ReadError Move :=
  match goal with
  | .expr => stepExpr t stack
  | .form =>
    match t.kind, Keyword.ofName? t.text with
    | .identifier, some k => .ok (k.enter stack)
    | _, _ => stepExpr t (.callee :: stack)
  | .paramsOpen => expecting .openParen t (.await (.params []) stack)
  | .params names =>
    if t.kind = .identifier then .ok (.await (.params (names ++ [t.text])) stack)
    else expecting .closeParen t (.await .expr (.lambdaBody names :: stack))
  | .defsOpen => expecting .openParen t (.await (.defs []) stack)
  | .defs done =>
    if t.kind = .openParen then .ok (.await (.defName done) stack)
    else expecting .closeParen t (.await .expr (.letrecBody done :: stack))
  | .defName done => expecting .identifier t (.await .expr (.defValue done t.text :: stack))
  | .defClose done => expecting .closeParen t (.await (.defs done) stack)
  | .args callee done =>
    if t.kind = .closeParen ∨ t.kind = .endOfInput then
      expecting .closeParen t (.give (.app callee done) stack)
    else stepExpr t (.arg callee done :: stack)
  | .items done =>
    if t.kind = .closeParen ∨ t.kind = .endOfInput then
      expecting .closeParen t (.give (.seq done) stack)
    else stepExpr t (.item done :: stack)
  | .target chained =>
    expecting .identifier t
      (.await .expr ((if chained then .assignedFirst t.text else .assigned t.text) :: stack))
  | .close e => expecting .closeParen t (.give e stack)

/-- No goal makes a move on the end of the input. -/
theorem kind_ne_endOfInput_of_step {goal : Goal} {stack : List Frame} {t : Token} {m : Move}
    (h : step goal stack t = .ok m) : t.kind ≠ .endOfInput := by
  intro hk
  cases goal <;> simp [step, stepExpr, expecting, hk] at h

/-! ## Complete expressions -/

/-- Puts a complete expression to its use: what comes next, and the frames to remember. -/
def Frame.resume (e : Expr) : Frame → StateM Nat (Goal × List Frame)
  | .lambdaBody params => do
    let lambda ← Expr.freshLambda params e
    pure (.close lambda, [])
  | .test => pure (.expr, [.thenBranch e])
  | .thenBranch c => pure (.expr, [.elseBranch c e])
  | .elseBranch c a => pure (.close (.cond c a e), [])
  | .defValue done name => pure (.defClose (done ++ [(name, e)]), [])
  | .letrecBody defs => pure (.close (.letrec defs e), [])
  | .callee => pure (.args e [], [])
  | .arg f done => pure (.args f (done ++ [e]), [])
  | .item done => pure (.items (done ++ [e]), [])
  | .assigned name => pure (.close (.assign name e), [])
  | .assignedFirst name => pure (.expr, [.continuation name e])
  | .continuation name value => pure (.close (.assignThen name value e), [])

/-- Where reading stands after a token: it is over, or it goes on. -/
inductive Progress where
  | done (e : Expr)
  | more (goal : Goal) (stack : List Frame)

/-- Hands a complete expression to the innermost frame; without one, reading is over. -/
def settle (e : Expr) : List Frame → StateM Nat Progress
  | [] => pure (.done e)
  | f :: stack => do
    let (goal, frames) ← f.resume e
    pure (.more goal (frames ++ stack))

/-- Carries out a move, once the token behind it is known to be sound. -/
def Move.perform : Move → StateM Nat (Except ReadError Progress)
  | .await goal stack => pure (.ok (.more goal stack))
  | .give e stack => do
    let p ← settle e stack
    pure (.ok p)
  | .literal span stack =>
    match Literal.ofSpan span with
    | .error err => pure (.error err)
    | .ok l => do
      let p ← settle (.literal l) stack
      pure (.ok p)
  | .halt stack => do
    let e ← Expr.freshHalt
    let p ← settle e stack
    pure (.ok p)

/-! ## Whole expressions -/

/-- A tokenizer and the number of the next fresh name. -/
structure State where
  tokens : Tokenizer
  next : Nat
  deriving DecidableEq

/-- Reads until the expression in progress is complete. What was read and drawn before a failure
stays read and drawn. -/
def run (goal : Goal) (stack : List Frame) (s : State) : Except ReadError Expr × State :=
  match _hstep : step goal stack s.tokens.head with
  | .error e => (.error e, s)
  | .ok move =>
    match _hadv : s.tokens.advance with
    | .error e => (.error e, { s with tokens := s.tokens.skip })
    | .ok tokens =>
      match move.perform s.next with
      | (.error e, next) => (.error e, ⟨tokens, next⟩)
      | (.ok (.done e), next) => (.ok e, ⟨tokens, next⟩)
      | (.ok (.more goal stack), next) => run goal stack ⟨tokens, next⟩
termination_by s.tokens.remaining
decreasing_by exact Tokenizer.remaining_advance _hadv (kind_ne_endOfInput_of_step _hstep)

/-- Reads one expression. -/
def readExpr (s : State) : Except ReadError Expr × State := run .expr [] s

/-- Reads a program: one expression, and nothing behind it. -/
def readProgram (source filename : Bytes) : StateM Nat (Except ReadError Expr) := fun next =>
  match Tokenizer.start source filename with
  | .error e => (.error e, next)
  | .ok tokens =>
    match readExpr ⟨tokens, next⟩ with
    | (.error e, s) => (.error e, s.next)
    | (.ok e, s) =>
      if s.tokens.atEnd then (.ok e, s.next) else (.error (.trailing s.tokens.head.toSpan), s.next)

end Trampoline.Reader

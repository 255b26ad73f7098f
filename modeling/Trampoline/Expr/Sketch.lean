import Trampoline.Expr.Outline

/-!
# Trampoline.Expr.Sketch -- trees before their lambdas have names

A sketch is a tree as it is handed in: a lambda may come without a name, the halt continuation is
only asked for, and parts may be absent. Naming draws the missing names bottom up and left to right,
a lambda's own after those of its body. A named sketch always has an outline; it is a tree if no
part is absent.
-/

namespace Trampoline

/-- A tree as it is handed in. -/
inductive Sketch where
  | absent
  | var (name : Bytes)
  /-- a constant, whose value may be absent -/
  | literal (l : Option Literal)
  | halt
  | lambda (name : Option Bytes) (params : List Bytes) (body : Sketch)
  | app (callee : Sketch) (args : List Sketch)
  | cond (test thenBranch elseBranch : Sketch)
  | letrec (defs : List (Bytes × Sketch)) (body : Sketch)
  | seq (exprs : List Sketch)
  | assign (name : Bytes) (value : Sketch)
  | assignThen (name : Bytes) (value next : Sketch)
  | native (uses : List Bytes) (code : Fragment)

namespace Sketch

mutual

/-- Draws the missing names. -/
def named : Sketch → StateM Nat Sketch
  | .absent => pure .absent
  | .var x => pure (.var x)
  | .literal l => pure (.literal l)
  | .halt => do
    let param ← Name.fresh (ascii "halt_")
    let name ← Name.fresh (ascii "lambda_")
    pure (.lambda (some name) [param] (.native [param] (Expr.haltCode param)))
  | .lambda (some name) params body => do
    let body ← named body
    pure (.lambda (some name) params body)
  | .lambda none params body => do
    let body ← named body
    let name ← Name.fresh (ascii "lambda_")
    pure (.lambda (some name) params body)
  | .app callee args => do
    let callee ← named callee
    let args ← namedList args
    pure (.app callee args)
  | .cond test a b => do
    let test ← named test
    let a ← named a
    let b ← named b
    pure (.cond test a b)
  | .letrec defs body => do
    let defs ← namedDefs defs
    let body ← named body
    pure (.letrec defs body)
  | .seq exprs => do
    let exprs ← namedList exprs
    pure (.seq exprs)
  | .assign x value => do
    let value ← named value
    pure (.assign x value)
  | .assignThen x value next => do
    let value ← named value
    let next ← named next
    pure (.assignThen x value next)
  | .native uses code => pure (.native uses code)

def namedList : List Sketch → StateM Nat (List Sketch)
  | [] => pure []
  | s :: ss => do
    let s ← named s
    let ss ← namedList ss
    pure (s :: ss)

def namedDefs : List (Bytes × Sketch) → StateM Nat (List (Bytes × Sketch))
  | [] => pure []
  | (x, s) :: ds => do
    let s ← named s
    let ds ← namedDefs ds
    pure ((x, s) :: ds)

end

mutual

/-- The outline of a named sketch; what has no name yet is shown as absent. -/
def outline : Sketch → Outline
  | .absent => .absent
  | .var x => Record.var x
  | .literal (some l) => Record.literal l.outline
  | .literal none => Record.literal .absent
  | .halt => .absent
  | .lambda (some name) params body => Record.lambda name params body.outline
  | .lambda none _ _ => .absent
  | .app callee args => Record.app callee.outline (outlineList args)
  | .cond test a b => Record.cond test.outline a.outline b.outline
  | .letrec defs body => Record.letrec (outlineDefs defs) body.outline
  | .seq exprs => Record.seq (outlineList exprs)
  | .assign x value => Record.assign x value.outline
  | .assignThen x value next => Record.assignThen x value.outline next.outline
  | .native uses _ => Record.native uses

def outlineList : List Sketch → List Outline
  | [] => []
  | s :: ss => s.outline :: outlineList ss

def outlineDefs : List (Bytes × Sketch) → List Outline
  | [] => []
  | (x, s) :: ds => Record.definition x s.outline :: outlineDefs ds

end

mutual

/-- The tree of a named sketch without absent parts. -/
def expr? : Sketch → Option Expr
  | .absent => none
  | .var x => some (.var x)
  | .literal l => l.map .literal
  | .halt => none
  | .lambda name params body => do
    let name ← name
    let body ← body.expr?
    pure (.lambda name params body)
  | .app callee args => do
    let callee ← callee.expr?
    let args ← exprList? args
    pure (.app callee args)
  | .cond test a b => do
    let test ← test.expr?
    let a ← a.expr?
    let b ← b.expr?
    pure (.cond test a b)
  | .letrec defs body => do
    let defs ← exprDefs? defs
    let body ← body.expr?
    pure (.letrec defs body)
  | .seq exprs => do
    let exprs ← exprList? exprs
    pure (.seq exprs)
  | .assign x value => do
    let value ← value.expr?
    pure (.assign x value)
  | .assignThen x value next => do
    let value ← value.expr?
    let next ← next.expr?
    pure (.assignThen x value next)
  | .native uses code => some (.native uses code)

def exprList? : List Sketch → Option (List Expr)
  | [] => some []
  | s :: ss => do
    let e ← s.expr?
    let es ← exprList? ss
    pure (e :: es)

def exprDefs? : List (Bytes × Sketch) → Option (List (Bytes × Expr))
  | [] => some []
  | (x, s) :: ds => do
    let e ← s.expr?
    let es ← exprDefs? ds
    pure ((x, e) :: es)

end

end Sketch

end Trampoline

import Trampoline.Expr
import Trampoline.Outline

/-!
# Trampoline.Expr.Outline -- what a tree looks like in an outline

Each kind of node is a record with its parts as fields. The records are named here once and used for
finished trees and for sketches alike.
-/

namespace Trampoline

namespace Record

/-- A record of an expression node, whose fields are named in one text. -/
def node (kind names : String) (parts : List Outline) : Outline :=
  .recordOf (ascii "ast::expression::" ++ ascii kind) (ascii names) parts

/-- A record of a constant, whose fields are named in one text. -/
def constant (kind names : String) (parts : List Outline) : Outline :=
  .recordOf (ascii "ast::literal::" ++ ascii kind) (ascii names) parts

def var (name : Bytes) : Outline := node "identifier" "name" [.string name]

def literal (value : Outline) : Outline := node "literal" "value" [value]

def lambda (name : Bytes) (params : List Bytes) (body : Outline) : Outline :=
  node "fun" "name, args, body" [.string name, .strings params, body]

def app (callee : Outline) (args : List Outline) : Outline := node "fun_app" "f, args" [callee, .list args]

def cond (test a b : Outline) : Outline :=
  node "if_then_else" "condition, true_branch, false_branch" [test, a, b]

def definition (name : Bytes) (value : Outline) : Outline := node "let_rec::def" "name, e" [.string name, value]

def letrec (defs : List Outline) (body : Outline) : Outline := node "let_rec" "defs, body" [.list defs, body]

def seq (exprs : List Outline) : Outline := node "seq" "exps" [.list exprs]

def assign (name : Bytes) (value : Outline) : Outline := node "assign" "name, value" [.string name, value]

def assignThen (name : Bytes) (value next : Outline) : Outline :=
  node "assign_then" "name, value, then" [.string name, value, next]

def native (uses : List Bytes) : Outline := node "native" "uses" [.strings uses]

end Record

/-- The outline of a constant. -/
def Literal.outline : Literal → Outline
  | .integer n => Record.constant "integer" "value" [.number n.toInt]
  | .boolean b => Record.constant "boolean" "value" [.boolean b]
  | .string s => Record.constant "string" "value" [.string s]
  | .unspecified => Record.constant "unspecified" "" []

namespace Expr

mutual

/-- The outline of a tree. -/
def outline : Expr → Outline
  | .var x => Record.var x
  | .literal l => Record.literal l.outline
  | .lambda name params body => Record.lambda name params body.outline
  | .app callee args => Record.app callee.outline (outlineList args)
  | .cond test a b => Record.cond test.outline a.outline b.outline
  | .letrec defs body => Record.letrec (outlineDefs defs) body.outline
  | .seq exprs => Record.seq (outlineList exprs)
  | .assign x value => Record.assign x value.outline
  | .assignThen x value next => Record.assignThen x value.outline next.outline
  | .native uses _ => Record.native uses

def outlineList : List Expr → List Outline
  | [] => []
  | e :: es => e.outline :: outlineList es

def outlineDefs : List (Bytes × Expr) → List Outline
  | [] => []
  | (x, e) :: ds => Record.definition x e.outline :: outlineDefs ds

end

/-- The tree on one line. -/
def dump (e : Expr) : Bytes := e.outline.text

end Expr

end Trampoline

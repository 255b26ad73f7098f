import Trampoline.Bytes.Ascending
import Trampoline.Code.Fragment
import Trampoline.Lowering.Error

/-!
# Trampoline.Lowering.ClassTable -- the classes of lambdas

Every lambda becomes a class. The table lists the classes in the order in which their lambdas were
first met, and a memo maps the node of each of these lambdas to the index of its class. The arities
that any lambda or call has are kept beside them. A class is entered before its body is lowered; if
that fails, the class stays and its texts are empty. All classes derive from a base class with one
call operator for every arity between the least and the greatest in use.
-/

namespace Trampoline

/-- A lambda after lowering: its captured names, its parameters and the code of its body. -/
structure Closure where
  captured : List Bytes
  params : List Bytes
  body : Fragment

/-- The class of a lambda with a name; the closure is missing until the lambda's body is lowered. -/
structure ClassDef where
  name : Bytes
  closure : Option Closure

/-- The indexes of the lambdas met so far, their classes and the arities in use, in ascending order. -/
structure ClassTable where
  memo : List (Node × Nat)
  defs : List ClassDef
  arities : List Nat

/-! ## Texts -/

/-- A list of `n` parameters, the first of them with the given names. -/
def formals (n : Nat) (names : List Bytes) : Bytes :=
  Bytes.commaList ((List.range n).map fun i =>
    ascii "SCHEMETYPE_T" ++
      match names[i]? with
      | some x => Byte.space :: x
      | none => [])

namespace Closure

/-- The definition of the class. -/
def decl (name : Bytes) (c : Closure) : Bytes :=
  let cls := Name.ofClass name
  let fields := c.captured.map Name.ofVariable
  ascii "class " ++ cls ++ ascii " : public lambda_t \x7b\npublic:\n" ++ cls ++ ascii "("
    ++ formals fields.length fields ++ ascii ") : lambda_t(" ++ Bytes.decimal c.params.length ++ ascii ")"
    ++ fields.flatMap (fun h => ascii ", " ++ h ++ ascii "(" ++ h ++ ascii ")")
    ++ ascii " \x7b \x7d\nusing lambda_t::operator();\nTHUNK_T operator()("
    ++ formals c.params.length [] ++ ascii ") const override;\n"
    ++ (if fields = [] then []
        else ascii "private:\n" ++ fields.flatMap fun h => declareReference h ++ [Byte.newline])
    ++ ascii "\x7d;"

/-- The definition of the class's call operator. -/
def op (name : Bytes) (c : Closure) : Bytes :=
  ascii "THUNK_T " ++ Name.ofClass name ++ ascii "::operator()("
    ++ formals c.params.length (c.params.map Name.ofVariable) ++ ascii ") const \x7b\n"
    ++ Bytes.closed c.body.decls ++ Bytes.closed c.body.ops
    ++ ascii "return std::move(" ++ c.body.value.text ++ ascii ");\n\x7d"

end Closure

namespace ClassDef

def decl (d : ClassDef) : Bytes :=
  match d.closure with
  | some c => c.decl d.name
  | none => []

def op (d : ClassDef) : Bytes :=
  match d.closure with
  | some c => c.op d.name
  | none => []

end ClassDef

namespace ClassTable

def empty : ClassTable := ⟨[], [], []⟩

/-! ## Classes and arities -/

/-- The index of the class of the lambda at a node, if that lambda has been met. -/
def index? (t : ClassTable) (node : Node) : Option Nat := t.memo.lookup node

/-- The name that the class at an index was entered with. -/
def nameAt (t : ClassTable) (i : Nat) : Bytes := t.defs[i]?.elim [] ClassDef.name

/-- The number of classes. -/
def size (t : ClassTable) : Nat := t.defs.length

/-- Marks an arity as in use. -/
def addArity (t : ClassTable) (n : Nat) : ClassTable :=
  { t with arities := Ascending.insert (fun a b => decide (a < b)) n t.arities }

/-- Enters a lambda that has not been met, under the next index, and its arity. -/
def enter (t : ClassTable) (node : Node) (name : Bytes) (arity : Nat) : ClassTable :=
  addArity { t with memo := t.memo ++ [(node, t.size)], defs := t.defs ++ [⟨name, none⟩] } arity

/-- Completes the class at an index. -/
def fill (t : ClassTable) (i : Nat) (c : Closure) : ClassTable :=
  { t with defs := t.defs.modify i fun d => { d with closure := some c } }

@[simp]
theorem mem_arities_addArity {t : ClassTable} {n k : Nat} :
    k ∈ (t.addArity n).arities ↔ k = n ∨ k ∈ t.arities :=
  Ascending.mem_insert _

/-- The least and the greatest arity in use. -/
def arityRange (t : ClassTable) : Except CompileError (Nat × Nat) :=
  match t.arities.head?, t.arities.getLast? with
  | some lo, some hi => .ok (lo, hi)
  | _, _ => .error (.internal .noArity)

/-! ## The base class and all classes -/

/-- All arities from the least to the greatest. -/
def span (range : Nat × Nat) : List Nat := List.range' range.1 (range.2 + 1 - range.1)

/-- The definition of the base class. -/
def baseDecl (range : Nat × Nat) : Bytes :=
  ascii "class lambda_t \x7b\npublic:\nexplicit lambda_t(std::size_t arity) : arity(arity) \x7b \x7d\n"
    ++ ascii "virtual ~lambda_t() = default;\n"
    ++ (span range).flatMap (fun n =>
      ascii "virtual THUNK_T operator()(" ++ formals n [] ++ ascii ") const;\n")
    ++ ascii "const std::size_t arity;\n\x7d;"

/-- The call operators of the base class, which all complain. -/
def baseOps (range : Nat × Nat) : Bytes :=
  Bytes.unlines ((span range).map fun n =>
    ascii "THUNK_T lambda_t::operator()(" ++ formals n [] ++ ascii ") const \x7b\narity_error(arity, "
      ++ Bytes.decimal n ++ ascii ");\n\x7d")

/-- The definitions of all classes. -/
def decls (t : ClassTable) (range : Nat × Nat) : Bytes :=
  baseDecl range ++ t.defs.flatMap fun d => Byte.newline :: d.decl

/-- The definitions of all call operators. -/
def ops (t : ClassTable) (range : Nat × Nat) : Bytes :=
  baseOps range ++ t.defs.flatMap fun d => Byte.newline :: d.op

/-- The definitions of all classes and of all call operators. Some arity must be in use. -/
def texts (t : ClassTable) : Except CompileError (Bytes × Bytes) :=
  t.arityRange.map fun range => (t.decls range, t.ops range)

end ClassTable

end Trampoline

import Trampoline.Expr.Capture
import Trampoline.Lowering.ClassTable

/-!
# Trampoline.Lowering -- from trees to emitted code

Lowering gives every subtree a fragment: constants and lambdas fill fresh slots, names are their own
slots, an application makes a thunk after its arguments, a conditional has an arm for each branch, and
a `letrec` declares all of its slots before it fills them in order. The captures of all lambdas must
be known beforehand. The numbers of the temporaries and the class table survive a failure: what was
drawn and entered before it stays.
-/

namespace Trampoline

namespace Lowering

/-- The number of the next temporary, and the classes met so far. -/
structure State where
  next : Nat
  table : ClassTable

/-- Lowering steps. The state survives an error. -/
abbrev Step := EStateM CompileError State

/-- A fresh temporary. -/
def draw (t : Temp) : Step Ident := fun s => .ok (.temp t s.next) { s with next := s.next + 1 }

def unsupported {α : Type} (what : Unsupported) : Step α := throw (.unsupported what)

/-- Marks an arity as in use. -/
def addArity (n : Nat) : Step PUnit := modify fun s => { s with table := s.table.addArity n }

/-- A fresh slot with a given content. -/
def put (source : Option Node) (t : Temp) (p : Payload) : Step Fragment := do
  let dst ← draw t
  pure ⟨source, dst, .value, [.put dst p]⟩

/-- A constant in a fresh slot. -/
def literal (source : Option Node) : Literal → Step Fragment
  | .integer n => put source .number (.number n)
  | .boolean b => put source .boolean (.boolean b)
  | .string s => put source .string (.string s)
  | .unspecified => unsupported .void

/-- The captures of a lambda, which must be known. -/
def capturedBy (cs : Captures) (node : Node) : Step (List Bytes) :=
  match cs.captured? node with
  | some captured => pure captured
  | none => throw (.internal .unknownCaptures)

/-- Completes the class at an index and gives its name. The body must make a thunk. -/
def complete (i : Nat) (captured params : List Bytes) (body : Fragment) : Step Bytes :=
  if body.kind = .thunk then
    modifyGet fun s =>
      let table := s.table.fill i ⟨captured, params, body⟩
      (table.nameAt i, { s with table := table })
  else unsupported .lambdaBody

/-- The name of the class of a lambda, by the index that the memo has for it. A lambda that is met for
the first time is entered under the next index, its captures are looked up and its body is lowered, in
this order; the class at that index is then completed. -/
def lift (cs : Captures) (node : Node) (name : Bytes) (params : List Bytes) (body : Step Fragment) :
    Step Bytes := do
  let s ← get
  match s.table.index? node with
  | some i => pure (s.table.nameAt i)
  | none =>
    set { s with table := s.table.enter node name params.length }
    let captured ← capturedBy cs node
    let b ← body
    complete s.table.size captured params b

/-- A closure of a lambda, whose class has the given name. -/
def closure (cs : Captures) (node : Node) (cls : Bytes) : Step Fragment := do
  let captured ← capturedBy cs node
  put (some node) .closure (.closure cls (captured.map .named))

/-- A call of a variable, after its arguments. -/
def call (node : Node) (ret : Ident) (callee : Bytes) (args : List Fragment) : Step Fragment := do
  addArity args.length
  pure ⟨some node, ret, .thunk,
    args.flatMap Fragment.code ++ [.call ret (.named callee) (args.map Fragment.value)]⟩

/-- A call of an operator, after its arguments: the last of them is the continuation, which is called
with the result. -/
def operate (node : Node) (ret : Ident) (name : Bytes) (args : List Fragment) : Step Fragment := do
  let dst ← draw .primitive
  let values := args.map Fragment.value
  match PrimCall.ofName? name values.dropLast with
  | none => throw (.unknownPrimitive name (values.length - 1))
  | some prim =>
    addArity 1
    pure ⟨some node, ret, .thunk,
      args.flatMap Fragment.code
        ++ [.put dst (.primitive prim), .call ret (values.getLastD ret) [dst]]⟩

/-- A choice between two results of one kind. -/
def choose (node : Node) (test a b : Fragment) : Step Fragment :=
  if a.kind = b.kind then do
    let dst ← draw (if a.kind = .thunk then .ret else .choice)
    pure ⟨some node, dst, a.kind,
      test.code ++ [.branch dst a.kind test.value a.code a.value b.code b.value]⟩
  else unsupported .mixedBranches

/-- The name that a definition reads before it is bound: its value is the name of one of the given
definitions, and nothing else. -/
def alias? (unbound : List Bytes) : Expr → Option Bytes
  | .var x => if unbound.contains x then some x else none
  | _ => none

mutual

/-- The code of a tree that stands at a node. -/
def lower (cs : Captures) (node : Node) : Expr → Step Fragment
  | .var x =>
    if Primitive.isName x then unsupported (.operatorValue x)
    else pure ⟨some node, .named x, .value, []⟩
  | .literal l => literal (some node) l
  | .lambda name params body => do
    let cls ← lift cs node name params (lower cs (node.child 0) body)
    closure cs node cls
  | .app (.var f) args =>
    if Primitive.isName f then
      if args.isEmpty then unsupported .noContinuation
      else do
        let ret ← draw .ret
        let vals ← lowerList cs node 1 args
        operate node ret f vals
    else do
      let ret ← draw .ret
      let vals ← lowerList cs node 1 args
      call node ret f vals
  | .app _ _ => unsupported .callee
  | .cond test a b => do
    let test ← lower cs (node.child 0) test
    let a ← lower cs (node.child 1) a
    let b ← lower cs (node.child 2) b
    choose node test a b
  | .letrec defs body => do
    let code ← lowerDefs cs node 1 defs
    let b ← lower cs (node.child 0) body
    pure ⟨some node, b.value, b.kind, defs.map (fun d => .slot (.named d.1)) ++ code ++ b.code⟩
  | .seq _ => unsupported .sequence
  | .assign _ _ => unsupported .assignment
  | .assignThen _ _ _ => unsupported .chainedAssignment
  | .native _ code => pure code

/-- The code of the children of a node from a position on. -/
def lowerList (cs : Captures) (node : Node) (i : Nat) : List Expr → Step (List Fragment)
  | [] => pure []
  | e :: es => do
    let f ← lower cs (node.child i) e
    let fs ← lowerList cs node (i + 1) es
    pure (f :: fs)

/-- The code that fills the slots of definitions from a position on. -/
def lowerDefs (cs : Captures) (node : Node) (i : Nat) : List (Bytes × Expr) → Step (List Instr)
  | [] => pure []
  | (x, e) :: ds => do
    match alias? (x :: ds.map Prod.fst) e with
    | some y => unsupported (.alias y)
    | none =>
      let v ← lower cs (node.child i) e
      if v.kind = .thunk then unsupported .tailCallDefinition
      else
        let rest ← lowerDefs cs node (i + 1) ds
        pure (v.code ++ [.copy (.named x) v.value] ++ rest)

end

/-- Lifts a tree that is a lambda, and gives the name of its class. -/
def liftRoot (cs : Captures) (node : Node) : Expr → Step (Option Bytes)
  | .lambda name params body => do
    let cls ← lift cs node name params (lower cs (node.child 0) body)
    pure (some (Name.ofClass cls))
  | _ => pure none

end Lowering

end Trampoline

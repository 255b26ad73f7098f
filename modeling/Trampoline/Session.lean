import Trampoline.Lowering
import Trampoline.Program

/-!
# Trampoline.Session -- several trees over one class table

A session holds some trees, the captures found so far, one class table and one count of fresh names.
Its steps work on any subtree of these trees. They may come in any order and may fail; a failed step
leaves behind what it had entered and drawn. Tree number `i` stands at the `i`-th child of one root, so
lambdas of different trees are never confused.
-/

namespace Trampoline

/-- A subtree of some trees: the number of its tree, and the positions that lead to it from the root of
that tree, the innermost first. -/
structure Subtree where
  tree : Nat
  path : List Nat
  deriving DecidableEq

/-- The node at which a subtree stands. -/
def Subtree.node (p : Subtree) : Node := (Node.root.child p.tree).descend p.path

structure Session where
  programs : List Expr
  captures : Captures
  state : Lowering.State
  /-- the fragment of each subtree that was lowered, the latest first -/
  lowered : List (Subtree × Fragment)

namespace Session

/-- What can be done in a session. -/
inductive Step where
  /-- finds the captures of a subtree -/
  | capture (p : Subtree)
  | lower (p : Subtree)
  /-- lifts a subtree that is a lambda -/
  | lift (p : Subtree)
  /-- prints the unit of a subtree that was lowered -/
  | emit (p : Subtree)
  | addArity (n : Nat)
  | arityRange
  /-- prints the classes met so far -/
  | classes
  | size
  | fresh (stem : Bytes)
  deriving DecidableEq

/-- What a step answers. -/
inductive Answer where
  | captures (cs : Captures)
  | fragment (f : Fragment)
  | text (t : Bytes)
  | range (r : Nat × Nat)
  | classes (decls ops : Bytes)
  | size (n : Nat)

/-- A session in which nothing has been done, its trees having drawn names up to a number. -/
def start (programs : List Expr) (next : Nat) : Session :=
  ⟨programs, [], ⟨next, ClassTable.empty⟩, []⟩

/-- The tree that stands at a subtree. -/
def at? (s : Session) (p : Subtree) : Option Expr := s.programs[p.tree]?.bind (·.reach? p.path)

/-- A step that names no subtree, or not the right kind of subtree. -/
def refuse (s : Session) : Except CompileError Answer × Session := (.error (.internal .noTree), s)

/-- Does a step. -/
def step (s : Session) : Step → Except CompileError Answer × Session
  | .capture p =>
    match s.at? p with
    | none => s.refuse
    | some e =>
      let cs := s.captures.merge (e.captures p.node)
      (.ok (.captures cs), { s with captures := cs })
  | .lower p =>
    match s.at? p with
    | none => s.refuse
    | some e =>
      match Lowering.lower s.captures p.node e s.state with
      | .ok f state => (.ok (.fragment f), { s with state := state, lowered := (p, f) :: s.lowered })
      | .error err state => (.error err, { s with state := state })
  | .lift p =>
    match s.at? p with
    | none => s.refuse
    | some e =>
      match Lowering.liftRoot s.captures p.node e s.state with
      | .ok (some name) state => (.ok (.text name), { s with state := state })
      | .ok none _ => s.refuse
      | .error err state => (.error err, { s with state := state })
  | .emit p =>
    match s.lowered.lookup p with
    | none => s.refuse
    | some f => ((Program.text ⟨s.state.table, f⟩).map .text, s)
  | .addArity n =>
    let table := s.state.table.addArity n
    (table.arityRange.map .range, { s with state := { s.state with table := table } })
  | .arityRange => (s.state.table.arityRange.map .range, s)
  | .classes => (s.state.table.texts.map fun p => .classes p.1 p.2, s)
  | .size => (.ok (.size s.state.table.size), s)
  | .fresh stem =>
    let (name, next) := Name.fresh stem s.state.next
    (.ok (.text name), { s with state := { s.state with next := next } })

/-- Does steps in order and collects their answers. -/
def run (s : Session) : List Step → List (Except CompileError Answer) × Session
  | [] => ([], s)
  | st :: sts =>
    let (a, s) := s.step st
    let (as, s) := run s sts
    (a :: as, s)

end Session

end Trampoline

import Trampoline.Code.Instr

/-!
# Trampoline.Code.Fragment -- pieces of emitted code

A fragment is a list of instructions together with the identifier of its result and the result's
kind. It remembers the tree node it was lowered from, if there is one. Fragments are put together by
splicing one into another: the instructions are appended and the result is handed over.
-/

namespace Trampoline

/-- A place in a tree: the positions of the children that lead to it from the root, the innermost
first, and their number. Nodes with equal content stand at different places, so a place tells them
apart, and places at different depths are told apart at once. -/
structure Node where
  depth : Nat
  path : List Nat
  deriving DecidableEq

namespace Node

def root : Node := ⟨0, []⟩

/-- The place of the child at a position. -/
def child (n : Node) (i : Nat) : Node := ⟨n.depth + 1, i :: n.path⟩

/-- The place reached from a node by a list of positions, the innermost first. -/
def descend (n : Node) (path : List Nat) : Node := ⟨n.depth + path.length, path ++ n.path⟩

end Node

/-- A piece of emitted code. -/
structure Fragment where
  /-- the node that was lowered, none for hand-written code -/
  source : Option Node
  /-- the identifier of the result -/
  value : Ident
  kind : Kind
  code : List Instr

namespace Fragment

/-- No code, and a result without a spelling. -/
def empty : Fragment := ⟨none, .verbatim [], .value, []⟩

/-- A hand-written fragment. -/
def verbatim (value : Bytes) (kind : Kind) (pairs : List (Bytes × Bytes)) : Fragment :=
  ⟨none, .verbatim value, kind, pairs.map fun p => .verbatim p.1 p.2⟩

/-- Adds an instruction at the end. -/
def push (f : Fragment) (i : Instr) : Fragment := { f with code := f.code ++ [i] }

/-- Appends the code of another fragment and leaves that one without code and without a result. -/
def splice (into other : Fragment) : Fragment × Fragment :=
  ({ into with code := into.code ++ other.code }, { other with value := .verbatim [], code := [] })

/-- The declaration and operation texts, pair by pair. -/
def pairs (f : Fragment) : List (Bytes × Bytes) := f.code.map fun i => (i.decl, i.op)

/-- All declarations, one a line. -/
def decls (f : Fragment) : Bytes := Bytes.unlines (Instr.declLines f.code)

/-- The lines of all operations. -/
def ops (f : Fragment) : Bytes := Bytes.unlines (Instr.opLinesAll f.code)

end Fragment

end Trampoline

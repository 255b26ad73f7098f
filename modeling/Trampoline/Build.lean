import Trampoline.Layout
import Trampoline.Lowering
import Trampoline.Program
import Trampoline.Reader

/-!
# Trampoline.Build -- from a program to its unit

The stages put together: captures, lowering with an empty class table, and the text of the unit. The
count of fresh names is the only state that goes through all of them.
-/

namespace Trampoline

namespace Build

/-- Lowers a single tree, its captures computed first. -/
def lower (e : Expr) (next : Nat) : EStateM.Result CompileError Lowering.State Fragment :=
  Lowering.lower (e.captures .root) .root e ⟨next, ClassTable.empty⟩

/-- The program of a tree, which must make a thunk. -/
def program (e : Expr) : StateM Nat (Except CompileError Program) := fun next =>
  match lower e next with
  | .error err s => (.error err, s.next)
  | .ok f s =>
    if f.kind = .thunk then (.ok ⟨s.table, f⟩, s.next)
    else (.error (.unsupported .valueProgram), s.next)

/-- The unit of a tree. -/
def unit (e : Expr) : StateM Nat (Except CompileError Bytes) := do
  let p ← program e
  pure (p.bind Program.text)

/-- A unit as it is written out. -/
def finish (pretty : Bool) (unit : Bytes) : Bytes :=
  if pretty then Layout.indent Layout.defaultStep unit else unit

/-- The unit of a source text. -/
def ofSource (source filename : Bytes) (pretty : Bool) : StateM Nat (Except Fault Bytes) := do
  match ← Reader.readProgram source filename with
  | .error e => pure (.error (.read e))
  | .ok e =>
    match ← unit e with
    | .error err => pure (.error (.compile err))
    | .ok text => pure (.ok (finish pretty text))

end Build

end Trampoline

import Trampoline.Bench
import Trampoline.Build
import Trampoline.Bytes
import Trampoline.Bytes.Ascending
import Trampoline.Bytes.Escape
import Trampoline.Checked
import Trampoline.Code.Fragment
import Trampoline.Code.Ident
import Trampoline.Code.Instr
import Trampoline.Code.Primitive
import Trampoline.Command
import Trampoline.Command.Machine
import Trampoline.Command.Path
import Trampoline.Expr
import Trampoline.Expr.Capture
import Trampoline.Expr.Outline
import Trampoline.Expr.Sketch
import Trampoline.Layout
import Trampoline.Lowering
import Trampoline.Lowering.ClassTable
import Trampoline.Lowering.Error
import Trampoline.Main
import Trampoline.Name
import Trampoline.Outline
import Trampoline.Program
import Trampoline.Proofs.Ascending
import Trampoline.Proofs.Capture
import Trampoline.Proofs.Tree
import Trampoline.Reader
import Trampoline.Reader.Literal
import Trampoline.Report
import Trampoline.Session
import Trampoline.Shell
import Trampoline.Shell.Builtin
import Trampoline.Token
import Trampoline.Token.Tokenizer
import Trampoline.Proofs.Derivation
import Trampoline.Proofs.Variables
import Trampoline.Proofs.Lowered
import Trampoline.Proofs.Scope
import Trampoline.Proofs.Source
import Trampoline.Proofs.Emitted
import Trampoline.Proofs.Binders
import Trampoline.Proofs.Kinds
import Trampoline.Proofs.Hygiene
import Trampoline.Proofs.Correspond
import Trampoline.Proofs.Simulation
import Trampoline.Proofs.Classes
import Trampoline.Proofs.Preservation
import Trampoline.Proofs.Acceptance
import Trampoline.Proofs.Decimal
import Trampoline.Proofs.Lines
import Trampoline.Proofs.Sections
import Trampoline.Proofs.Arity
import Trampoline.Proofs.Reading
import Trampoline.Proofs.Outcome
import Trampoline.Proofs.Filling
import Trampoline.Proofs.Order
import Trampoline.Proofs.Lexing
import Trampoline.Proofs.Spelling
import Trampoline.Proofs.Grammar
import Trampoline.Proofs.Parsing
import Trampoline.Proofs.Prefixes
import Trampoline.Proofs.Mangling
import Trampoline.Proofs.Numbering
import Trampoline.Proofs.Homes
import Trampoline.Proofs.Declarations
import Trampoline.Proofs.Watched
import Trampoline.Proofs.Lifting
import Trampoline.Proofs.Sessions
import Trampoline.Proofs.Quoting
import Trampoline.Proofs.Traversal
import Trampoline.Proofs.ClassText
import Trampoline.Proofs.CodeTokens
import Trampoline.Proofs.Nesting
import Trampoline.Proofs.Indentation
import Trampoline.Proofs.Reindentation
import Trampoline.Proofs.Words
import Trampoline.Proofs.Respelling
import Trampoline.Proofs.Renumbering
import Trampoline.Proofs.Equivariance
import Trampoline.Proofs.Progress
import Trampoline.Proofs.Repetition
import Trampoline.Proofs.Integers
import Trampoline.Proofs.Requoting
import Trampoline.Proofs.Places
import Trampoline.Proofs.Benches
import Trampoline.Proofs.Freshness
import Trampoline.Proofs.Arguments
import Trampoline.Proofs.ShellWords
import Trampoline.Proofs.Outlines
import Trampoline.Proofs.Dumps
import Trampoline.Proofs.Effects

import Trampoline.Build
import Trampoline.Expr.Outline
import Trampoline.Shell

/-!
# Trampoline.Command -- the command line

The command reads a source file, writes the unit to a target file and, if it is asked for an
executable, runs a compiler on the target. It needs four things from its host, whatever the host is:
to read a file, to write a file, to print a message, and to run a command line.
-/

namespace Trampoline

/-- The causes for which a path has no content. -/
inductive Unreadable where
  /-- it cannot be opened -/
  | closed
  /-- it is a folder, which can be opened but not read -/
  | folder
  deriving DecidableEq

/-- The complaint about a path that cannot be opened. -/
def cannotOpen (path : Bytes) : Bytes := ascii "cannot open file " ++ path

/-- The wording. It is zero-terminated, so the path in it is cut at a zero byte. -/
def Unreadable.message (path : Bytes) : Unreadable → Bytes
  | .closed => Bytes.zeroTerminated (cannotOpen path)
  | .folder => ascii "basic_filebuf::underflow error reading the file: Is a directory"

/-- What the command needs from its surroundings. -/
structure Host (m : Type → Type) where
  /-- the content of a file, or why there is none -/
  read : Bytes → m (Except Unreadable Bytes)
  /-- replaces the content of a file and tells whether it could be opened -/
  write : Bytes → Bytes → m Bool
  /-- prints a message -/
  complain : Bytes → m PUnit
  /-- runs a command line -/
  execute : Bytes → m Shell.WaitStatus

namespace Command

/-- The words of a command line: the name by which the command is called and the arguments, each up to
a zero byte. -/
def words (argv : List Bytes) : List Bytes := argv.map Bytes.zeroTerminated

/-- The word behind the first occurrence of an option, or a default if there is none. The option, like
the words, counts up to a zero byte. -/
def valueOf (argv : List Bytes) (option default : Bytes) : Bytes :=
  match argv.dropWhile (· != Bytes.zeroTerminated option) with
  | _ :: value :: _ => value
  | _ => default

/-- Whether a word is the option, the whole of it. -/
def occurs (argv : List Bytes) (option : Bytes) : Bool := argv.contains option

/-- What the arguments ask for. -/
structure Request where
  source : Bytes
  target : Bytes
  /-- the executable to make, empty if none is asked for -/
  executable : Bytes
  compiler : Bytes
  pretty : Bool
  dump : Bool
  deriving DecidableEq

/-- What the words of a command line ask for. The first one behind the command's name is the source and
must not look like an option; options are looked for among all words. -/
def ofWords? (argv : List Bytes) : Option Request :=
  match argv with
  | _ :: source :: _ =>
    if source.head? = some Byte.minus then none
    else
      some
        { source := source
          target := valueOf argv (ascii "-o") (ascii "/tmp/scm_output.cc")
          executable := valueOf argv (ascii "-exe") []
          compiler := valueOf argv (ascii "-cxx") (ascii "c++")
          pretty := !occurs argv (ascii "-no-pretty")
          dump := occurs argv (ascii "-dump-ast") }
  | _ => none

/-- What the arguments ask for. -/
def request? (argv : List Bytes) : Option Request := ofWords? (words argv)

/-- The command line that makes the executable. -/
def compilerLine (r : Request) : Bytes :=
  r.compiler ++ ascii " -std=c++17 -O2 " ++ Shell.quote r.target ++ ascii " -o " ++ Shell.quote r.executable

def usage : Bytes :=
  ascii "usage: scmc <source> [-o <out.cc>] [-exe <binary>] [-cxx <compiler>] [-no-pretty] [-dump-ast]"

section

variable {m : Type → Type} [Monad m] (host : Host m)

/-- Makes the executable, if one is asked for. -/
def compile (r : Request) : m UInt8 := do
  if r.executable = [] then pure 0
  else
    host.complain (Severity.note.message (compilerLine r))
    let status ← host.execute (compilerLine r)
    if status.isSuccess then pure 0
    else
      host.complain (Severity.error.message (ascii "the C++ compiler failed"))
      pure status.failureCode

/-- Writes a unit to the target and goes on to the executable. -/
def deliver (r : Request) (unit : Bytes) : m UInt8 := do
  if ← host.write r.target (Build.finish r.pretty unit) then
    host.complain (Severity.note.message (ascii "C++ written to " ++ r.target))
    compile host r
  else
    host.complain (Severity.error.message (cannotOpen r.target))
    pure 2

/-- Builds a tree, which may be shown before, and delivers its unit. -/
def build (r : Request) (e : Expr) (next : Nat) : m UInt8 := do
  if r.dump then host.complain (e.dump ++ [Byte.newline])
  match (Build.unit e next).1 with
  | .ok unit => deliver host r unit
  | .error err =>
    host.complain (Severity.error.message err.message)
    pure 1

/-- Reads the source and goes on to build it. -/
def serve (r : Request) : m UInt8 := do
  match ← host.read r.source with
  | .error cause =>
    host.complain (Severity.error.message (cause.message r.source))
    pure 2
  | .ok source =>
    match Reader.readProgram source r.source 0 with
    | (.ok e, next) => build host r e next
    | (.error err, _) =>
      host.complain (err.reportIn source r.source).text
      pure 1

/-- Runs the command on its arguments, its own name in front, and gives its exit status. -/
def run (argv : List Bytes) : m UInt8 := do
  match request? argv with
  | some r => serve host r
  | none =>
    host.complain (Severity.error.message usage)
    pure 2

end

end Command

end Trampoline

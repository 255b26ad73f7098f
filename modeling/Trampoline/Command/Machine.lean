import Trampoline.Command
import Trampoline.Command.Path
import Trampoline.Shell.Builtin

/-!
# Trampoline.Command.Machine -- a machine in memory

A machine has files, standard output and standard error, and runs command lines by a given function,
which may write files too. It remembers which command lines it ran, and the files that each of them
found. A file is told by the folder it lies in and its name, and a file can be written in every folder
that is known.
-/

namespace Trampoline

/-- Regular files, each by its folder and name, with its content. -/
abbrev Files := List ((Location × Bytes) × Bytes)

/-- How command lines are run: what comes of a line, given what each file holds, and the files that it
writes. -/
abbrev Interpreter := Bytes → (Location × Bytes → Option Bytes) → Shell.Outcome × Files

/-- The built-in shell, whose commands write no files. -/
def Shell.builtin : Interpreter := fun line _ => (run line, [])

namespace Files

/-- The files of the working folder, given by name. -/
def ofFolder (entries : List (Bytes × Bytes)) : Files :=
  entries.map fun e => ((.working, e.1), e.2)

/-- The files of the working folder by name. -/
def folder (fs : Files) : List (Bytes × Bytes) :=
  (fs.filter fun f => f.1.1 == .working).map fun f => (f.1.2, f.2)

/-- The content of the file that a path leads to. A path ends at a zero byte. -/
def read (fs : Files) (path : Bytes) : Except Unreadable Bytes :=
  match Path.target? (Bytes.zeroTerminated path) with
  | some (.folder _) => .error .folder
  | some (.file l name) =>
    match fs.lookup (l, name) with
    | some content => .ok content
    | none => .error .closed
  | none => .error .closed

/-- Replaces the content of a file, or adds the file. -/
def put (fs : Files) (key : Location × Bytes) (content : Bytes) : Files :=
  if fs.any (fun f => f.1 == key) then fs.map fun f => if f.1 = key then (key, content) else f
  else fs ++ [(key, content)]

/-- Replaces or adds several files, one after the other. -/
def putAll (fs written : Files) : Files := written.foldl (fun fs f => fs.put f.1 f.2) fs

end Files

/-- The state of a machine. -/
structure Machine where
  files : Files
  output : Bytes
  errors : Bytes
  /-- the command lines that were run, each with the files before it -/
  executed : List (Bytes × Files)
  deriving DecidableEq

namespace Machine

/-- Writes a file, if the path leads to one. A path ends at a zero byte. -/
def write (path content : Bytes) (s : Machine) : Bool × Machine :=
  match Path.target? (Bytes.zeroTerminated path) with
  | some (.file l name) => (true, { s with files := s.files.put (l, name) content })
  | _ => (false, s)

/-- Runs a command line and keeps what it printed and wrote. -/
def execute (shell : Interpreter) (line : Bytes) (s : Machine) : Shell.WaitStatus × Machine :=
  let (r, written) := shell line fun f => s.files.lookup f
  (r.status,
    { files := s.files.putAll written
      output := s.output ++ r.output
      errors := s.errors ++ r.errors
      executed := s.executed ++ [(line, s.files)] })

/-- A machine as a host of the command. -/
def host (shell : Interpreter) : Host (StateM Machine) where
  read path := fun s => (s.files.read path, s)
  write path content := write path content
  complain text := fun s => (⟨⟩, { s with errors := s.errors ++ text })
  execute line := execute shell line

/-- Runs the command on a machine with some files. -/
def run (shell : Interpreter) (argv : List Bytes) (files : Files) : UInt8 × Machine :=
  Command.run (host shell) argv ⟨files, [], [], []⟩

end Machine

end Trampoline

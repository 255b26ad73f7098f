import Trampoline.Command
import Trampoline.Shell.Builtin

/-!
# Trampoline.Main -- the executable

The command on the real file system. Command lines are run by the built-in shell.
-/

namespace Trampoline.Main

/-- The bytes of a text. -/
def bytesOf (s : String) : Bytes := s.toUTF8.toList

/-- A path, if the bytes are the text of one. -/
def pathOf (path : Bytes) : Option String := String.fromUTF8? ⟨path.toArray⟩

/-- The code by which the operating system refuses to read a folder. -/
@[match_pattern] abbrev folderCode : UInt32 := 21

/-- The host that the operating system is. -/
def realHost : Host IO where
  read path := do
    match pathOf path with
    | none => pure (.error .closed)
    | some p =>
      try
        let content ← IO.FS.readBinFile p
        pure (.ok content.toList)
      catch
        | .inappropriateType _ folderCode _ => pure (.error .folder)
        | _ => pure (.error .closed)
  write path content := do
    match pathOf path with
    | none => pure false
    | some p =>
      try
        IO.FS.writeBinFile p ⟨content.toArray⟩
        pure true
      catch _ => pure false
  complain text := do
    let err ← IO.getStderr
    err.write ⟨text.toArray⟩
    err.flush
  execute line := do
    let r := Shell.run line
    let out ← IO.getStdout
    out.write ⟨r.output.toArray⟩
    out.flush
    let err ← IO.getStderr
    err.write ⟨r.errors.toArray⟩
    err.flush
    pure r.status

end Trampoline.Main

open Trampoline in
/-- Runs the command on the arguments of the executable. These come without the name by which it was
called, so its usual name stands for it. -/
def main (args : List String) : IO UInt32 := do
  let status ← Command.run Main.realHost (ascii "scmc" :: args.map Main.bytesOf)
  pure status.toUInt32

import Trampoline.Bytes

/-!
# Trampoline.Command.Path -- where a path leads

A path is a run of parts between slashes and is followed part by part: an empty part and a dot stay,
two dots go up, a name goes down. The working folder has no subfolders, and of the folders outside of
it only the root, the one for temporary files and those above the working folder are known. So a path
leads to a folder, to a file in one of these folders, or nowhere.
-/

namespace Trampoline

/-- The folders that are known. -/
inductive Location where
  /-- the folder that lies a number of levels above the working folder -/
  | above (levels : Nat)
  | root
  /-- the folder for temporary files, which lies in the root -/
  | temporary
  deriving DecidableEq

namespace Location

def working : Location := .above 0

/-- The folder above. The root has none and stays. -/
def parent : Location → Location
  | .above n => .above (n + 1)
  | .root => .root
  | .temporary => .root

/-- The folder to which one part of a path leads, if it leads to one. -/
def enter? (l : Location) (part : Bytes) : Option Location :=
  if part = [] ∨ part = ascii "." then some l
  else if part = ascii ".." then some l.parent
  else if l = .root ∧ part = ascii "tmp" then some .temporary
  else none

end Location

namespace Path

/-- Where a path leads. -/
inductive Target where
  | folder (l : Location)
  /-- a file, which need not exist, in a folder that does -/
  | file (l : Location) (name : Bytes)
  deriving DecidableEq

/-- The bytes that a name may have at most. -/
def maxName : Nat := 255

/-- The bytes that a path may have at most. -/
def maxLength : Nat := 4095

/-- The parts of a path between its slashes. -/
def parts : Bytes → List Bytes
  | [] => [[]]
  | b :: rest =>
    if b = Byte.slash then [] :: parts rest
    else
      match parts rest with
      | [] => [[b]]
      | p :: ps => (b :: p) :: ps

/-- Follows parts from a folder on. Only the last one may be the name of a file. -/
def follow? (l : Location) : List Bytes → Option Target
  | [] => some (.folder l)
  | p :: ps =>
    match l.enter? p with
    | some l => follow? l ps
    | none => if ps = [] ∧ p.length ≤ maxName then some (.file l p) else none

/-- Where a path leads. A path that starts with a slash is followed from the root, any other one from
the working folder; an empty or overlong path leads nowhere. -/
def target? (path : Bytes) : Option Target :=
  if path = [] ∨ maxLength < path.length then none
  else if path.head? = some Byte.slash then follow? .root (parts path)
  else follow? .working (parts path)

end Path

end Trampoline

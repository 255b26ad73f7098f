import Mathlib.Data.List.DropRight
import Trampoline.Proofs.Indentation

/-!
# Trampoline.Proofs.Reindentation -- indenting a text that is indented

Indentation takes the white space off each line before it looks at it, and what it puts there again is
spaces. So neither the depth that it carries along nor the margin of a line depends on how the text was
indented before, and nothing changes when a text is indented once more. This holds of every text, whatever
its braces and quotes are like: the guards against negative depths may have anything to do here.
-/

namespace Trampoline

open Bytes

namespace Bytes

theorem trimLeft_spaces (n : Nat) (l : Bytes) : trimLeft (List.replicate n Byte.space ++ l) = trimLeft l := by
  induction n with
  | zero => rfl
  | succ n ih =>
    rw [List.replicate_succ, List.cons_append, trimLeft, List.dropWhile_cons_of_pos (by decide)]
    exact ih

theorem trimLeft_trimLeft (l : Bytes) : trimLeft (trimLeft l) = trimLeft l := by
  unfold trimLeft
  exact List.dropWhile_idempotent ..

end Bytes

namespace Layout

/-! ## Lines without their margin -/

/-- All that indentation takes from a line is what stands behind its margin. -/
theorem trimLeft_indentLine (step : Nat) (depth : Int) (l : Bytes) :
    trimLeft (indentLine step depth l) = trimLeft l := by
  unfold indentLine
  split
  · rename_i hempty
    exact hempty.symm
  · rw [trimLeft_spaces, trimLeft_trimLeft]

/-- A line that is indented stays as it is. -/
theorem indentLine_indentLine (step : Nat) (depth : Int) (l : Bytes) :
    indentLine step depth (indentLine step depth l) = indentLine step depth l := by
  show (if trimLeft (indentLine step depth l) = [] then _ else _) = _
  rw [trimLeft_indentLine]
  rfl

/-- The depth behind a line is the same before and after it is indented. -/
theorem depthAfter_indentLine (step : Nat) (margin depth : Int) (l : Bytes) :
    depthAfter depth [indentLine step margin l] = depthAfter depth [l] := by
  simp only [depthAfter, List.foldl_cons, List.foldl_nil, trimLeft_indentLine]

theorem indentLines_indentLines (step : Nat) (depth : Int) (ls : List Bytes) :
    indentLines step depth (indentLines step depth ls) = indentLines step depth ls := by
  induction ls generalizing depth with
  | nil => rfl
  | cons l ls ih =>
    -- The second run reaches every line at the depth at which the first run has reached it.
    rw [indentLines_cons, indentLines_cons, indentLine_indentLine, depthAfter_indentLine, ih]

/-! ## The result -/

/-- A line and the same line indented: spaces, and then the line without the white space in front of it. A line
of white space is empty. -/
def Indents (line indented : Bytes) : Prop :=
  (∃ n, indented = List.replicate n Byte.space ++ trimLeft line) ∧ (trimLeft line = [] → indented = [])

theorem indents_indentLine (step : Nat) (depth : Int) (l : Bytes) : Indents l (indentLine step depth l) := by
  unfold Indents indentLine
  split
  · rename_i hempty
    exact ⟨⟨0, by simp [hempty]⟩, fun _ => rfl⟩
  · rename_i hne
    exact ⟨⟨_, rfl⟩, fun hempty => absurd hempty hne⟩

/-- Only the white space in front of lines changes. -/
theorem forall₂_indentLines (step : Nat) (depth : Int) (ls : List Bytes) :
    List.Forall₂ Indents ls (indentLines step depth ls) := by
  induction ls generalizing depth with
  | nil => exact .nil
  | cons l ls ih =>
    rw [indentLines_cons]
    exact .cons (indents_indentLine step depth l) (ih _)

end Layout

/-- **Indentation is idempotent and changes nothing but margins.** For every text and every step, indenting the
text a second time changes nothing. An indented text has as many lines as the text itself, and each of them is
some spaces and the line of the text without the white space in front of it; a line of white space becomes
empty. -/
theorem indent_idempotent (step : Nat) (text : Bytes) :
    Layout.indent step (Layout.indent step text) = Layout.indent step text ∧
      ((Layout.indent step text).splitOn Byte.newline).length = (text.splitOn Byte.newline).length ∧
      List.Forall₂ Layout.Indents (text.splitOn Byte.newline)
        ((Layout.indent step text).splitOn Byte.newline) := by
  have hlines := Layout.lines_indent step text
  rw [← lines_eq_splitOn, ← lines_eq_splitOn, hlines, Layout.length_indentLines]
  refine ⟨?_, rfl, Layout.forall₂_indentLines step 0 (lines text)⟩
  show unlines (Layout.indentLines step 0 (lines (Layout.indent step text))) = _
  rw [hlines, Layout.indentLines_indentLines]
  rfl

end Trampoline

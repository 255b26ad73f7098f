import Trampoline.Proofs.Nesting

/-!
# Trampoline.Proofs.Indentation -- indenting a unit

Indentation goes through a unit line by line and carries the depth along. Where the lines nest, its guards
against depths and indentations below zero have nothing to do: each takes the greater of a value and zero, and
the value is never less. What remains is the depth of braces around each line. Only blanks at the start of
lines are new in an indented unit, so that its tokens are the ones it had before, and the depth can be counted
in these tokens as well.
-/

namespace Trampoline

open Bytes CodeToken

namespace Layout

/-! ## Line by line -/

/-- The depth that indentation has reached behind some lines. -/
def depthAfter (depth : Int) (ls : List Bytes) : Int :=
  ls.foldl (fun d l => if trimLeft l = [] then d else max (d + balance (trimLeft l)) 0) depth

/-- A line as it is indented at a depth. -/
def indentLine (step : Nat) (depth : Int) (l : Bytes) : Bytes :=
  if trimLeft l = [] then []
  else List.replicate (indentation step depth (trimLeft l)).toNat Byte.space ++ trimLeft l

theorem indentLines_cons (step : Nat) (depth : Int) (l : Bytes) (ls : List Bytes) :
    indentLines step depth (l :: ls) =
      indentLine step depth l :: indentLines step (depthAfter depth [l]) ls := by
  show (if trimLeft l = [] then _ else _) = _
  unfold indentLine depthAfter
  simp only [List.foldl_cons, List.foldl_nil]
  split <;> rfl

/-- Lines are indented from the depth behind the lines before them. -/
theorem indentLines_append (step : Nat) (depth : Int) (a b : List Bytes) :
    indentLines step depth (a ++ b) =
      indentLines step depth a ++ indentLines step (depthAfter depth a) b := by
  induction a generalizing depth with
  | nil => rfl
  | cons l a ih =>
    rw [List.cons_append, indentLines_cons, indentLines_cons, ih]
    rfl

theorem length_indentLines (step : Nat) (depth : Int) (ls : List Bytes) :
    (indentLines step depth ls).length = ls.length := by
  induction ls generalizing depth with
  | nil => rfl
  | cons l ls ih => rw [indentLines_cons, List.length_cons, List.length_cons, ih]

/-- Indenting breaks no line. -/
theorem oneLine_indentLine (step : Nat) (depth : Int) {l : Bytes} (h : OneLine l) :
    OneLine (indentLine step depth l) := by
  have htrim : OneLine (trimLeft l) := fun hmem => h ((List.dropWhile_sublist _).mem hmem)
  have hspaces : ∀ n, OneLine (List.replicate n Byte.space) :=
    fun n hmem => absurd (List.eq_of_mem_replicate hmem) (by decide)
  unfold indentLine
  split
  · exact oneLine_nil
  · exact oneLine_append.mpr ⟨hspaces _, htrim⟩

theorem oneLine_indentLines (step : Nat) (depth : Int) {ls : List Bytes} (h : ∀ l ∈ ls, OneLine l) :
    ∀ u ∈ indentLines step depth ls, OneLine u := by
  induction ls generalizing depth with
  | nil => exact fun u hu => absurd hu List.not_mem_nil
  | cons l ls ih =>
    rw [List.forall_mem_cons] at h
    rw [indentLines_cons, List.forall_mem_cons]
    exact ⟨oneLine_indentLine step depth h.1, ih _ h.2⟩

/-- The lines of an indented text are the indented lines of the text. -/
theorem lines_indent (step : Nat) (t : Bytes) : lines (indent step t) = indentLines step 0 (lines t) := by
  have hone := oneLine_indentLines step 0 fun l (hl : l ∈ lines t) => oneLine_of_mem_lines hl
  have hne : indentLines step 0 (lines t) ≠ [] := by
    rw [← List.length_pos_iff, length_indentLines, List.length_pos_iff]
    exact lines_ne_nil t
  rw [indent, lines_unlines hne]
  exact (flatMap_lines (f := id) hone).trans (List.map_id _)

/-- The indentation of a line in full, with the two guards that it has. -/
theorem indentation_eq (step : Nat) (depth : Int) (line : Bytes) :
    indentation step depth line =
      if isLabel line = true then max (max (level depth line) 0 * step - (step / 2 : Nat)) 0
      else max (level depth line) 0 * step :=
  rfl

/-- None of the guards changes anything at a line: the one of its level, the one of a label and the one of the
depth behind it. -/
structure Unclamped (step : Nat) (depth : Int) (line : Bytes) : Prop where
  level : max (level depth line) 0 = Layout.level depth line
  label : isLabel line = true →
    max (Layout.level depth line * step - (step / 2 : Nat)) 0 =
      Layout.level depth line * step - (step / 2 : Nat)
  depth : max (depth + balance line) 0 = depth + balance line

/-- The spaces before a line at a level. A label stands half a step to the left. -/
def margin (step : Nat) (level : Int) (line : Bytes) : Int :=
  level * step - if isLabel line = true then ((step / 2 : Nat) : Int) else 0

/-- Where a line can stand, its level is not cut off at zero. -/
theorem Stands.unclamped {depth : Int} {line : Bytes} (h : Stands depth line) (step : Nat) :
    Unclamped step depth line := by
  refine ⟨Int.max_eq_left h.level_nonneg, fun hlabel => Int.max_eq_left ?_,
    Int.max_eq_left h.after_nonneg⟩
  -- A label is at least one step to the right before it goes back half a step.
  have hstep : 1 * (step : Int) ≤ level depth line * step :=
    Int.mul_le_mul_of_nonneg_right (h.label hlabel) (Int.natCast_nonneg step)
  omega

theorem Unclamped.indentation {step : Nat} {depth : Int} {line : Bytes} (h : Unclamped step depth line) :
    indentation step depth line = margin step (Layout.level depth line) line := by
  rw [indentation_eq, h.level, margin]
  split
  · rename_i hlabel
    exact h.label hlabel
  · exact (Int.sub_zero _).symm

/-! ## Lines that nest -/

variable {ls : List Bytes} {d d' : Int}

/-- The depth behind lines is the depth before them and the balance of them all. -/
theorem Nests.sum (h : Nests d ls d') : d' = d + (ls.map balance).sum := by
  induction h with
  | nil d => exact (Int.add_zero d).symm
  | cons _ _ ih => rw [ih, List.map_cons, List.sum_cons, Int.add_assoc]

/-- The depth of braces is the depth that indentation has reached. -/
theorem Nests.depthAfter (h : Nests d ls d') : depthAfter d ls = d' := by
  induction h with
  | nil d => rfl
  | @cons d d' l ls hl _ ih =>
    rw [← ih]
    show Layout.depthAfter (if trimLeft l = [] then d else _) ls = _
    rw [hl.trimmed]
    split
    · rename_i hempty
      have hzero : balance l = 0 := by rw [hempty]; rfl
      rw [hzero, Int.add_zero]
    · rw [Int.max_eq_left hl.after_nonneg]

/-- Lines that nest never lead below depth zero. -/
theorem Nests.nonneg (h : Nests d ls d') (hd : 0 ≤ d) : 0 ≤ d' := by
  induction h with
  | nil d => exact hd
  | cons hl _ ih => exact ih hl.after_nonneg

/-- Every line stands at the depth that the lines before it lead to. -/
theorem Nests.stands {before after : List Bytes} {line : Bytes} (h : Nests d (before ++ line :: after) d') :
    ∃ e, Nests d before e ∧ Stands e line := by
  obtain ⟨e, hbefore, hrest⟩ := nests_append.mp h
  cases hrest with
  | cons hline _ => exact ⟨e, hbefore, hline⟩

/-- Lines that nest are lines of code without white space in front. -/
theorem Nests.codeLine (h : Nests d ls d') : ∀ l ∈ ls, CodeLine l (balance l) ∧ trimLeft l = l := by
  intro l hl
  obtain ⟨before, after, rfl⟩ := List.append_of_mem hl
  obtain ⟨e, _, hline⟩ := h.stands
  exact ⟨hline.code, hline.trimmed⟩

/-- The depth of braces can be counted in tokens. -/
theorem Nests.depthOf_tokens (h : Nests 0 ls d') : depthOf (tokens (unlines ls)) = d' := by
  rw [(tokens_unlines fun l hl => (h.codeLine l hl).1).2.1, h.sum, Int.zero_add]

/-- Indenting changes no token of a line. -/
theorem indentLine_code {l : Bytes} {e : Int} (h : CodeLine l e) (htrim : trimLeft l = l) (step : Nat)
    (depth : Int) : CodeLine (indentLine step depth l) e ∧ lex (indentLine step depth l) = lex l := by
  unfold indentLine
  rw [htrim]
  split
  · rename_i hempty
    rw [hempty] at h
    exact ⟨h, by rw [hempty]⟩
  · exact h.indented _

/-- Indented lines are lines of code with the same tokens. -/
theorem indentLines_code (h : ∀ l ∈ ls, CodeLine l (balance l) ∧ trimLeft l = l) (step : Nat) (depth : Int) :
    (∀ u ∈ indentLines step depth ls, CodeLine u (balance u)) ∧
      (indentLines step depth ls).map lex = ls.map lex := by
  induction ls generalizing depth with
  | nil => exact ⟨fun u hu => absurd hu List.not_mem_nil, rfl⟩
  | cons l ls ih =>
    rw [List.forall_mem_cons] at h
    obtain ⟨hcode, hlex⟩ := indentLine_code h.1.1 h.1.2 step depth
    obtain ⟨hcodes, hlexes⟩ := ih h.2 (Layout.depthAfter depth [l])
    rw [← hcode.balance] at hcode
    rw [indentLines_cons, List.forall_mem_cons, List.map_cons, List.map_cons, hlex, hlexes]
    exact ⟨⟨hcode, hcodes⟩, rfl⟩

variable {t : Bytes}

/-- Indentation changes no token. -/
theorem tokens_indent (h : Nests 0 (lines t) d') (step : Nat) : tokens (indent step t) = tokens t := by
  obtain ⟨hcode, hlex⟩ := indentLines_code h.codeLine step 0
  calc
    tokens (indent step t)
      = List.intercalate [.newline] ((indentLines step 0 (lines t)).map lex) := (tokens_unlines hcode).1
    _ = List.intercalate [.newline] ((lines t).map lex) := by rw [hlex]
    _ = tokens (unlines (lines t)) := (tokens_unlines fun l hl => (h.codeLine l hl).1).1.symm
    _ = tokens t := by rw [unlines_lines]

/-! ## Units -/

/-- What the braces and the literals of a text must be like for its indentation to be the depth of braces, and
what indentation then is. Positions in a text are given by the lines before them. -/
structure Disciplined (t : Bytes) : Prop where
  /-- literals end on the line on which they start, for indentation as well as for tokens -/
  literals : (∀ l ∈ lines t, openLiteral l = none) ∧ ∀ k ∈ tokens t, k.isClosed = true
  /-- no brace is closed that is not open -/
  depth_nonneg : ∀ before after, lines t = before ++ after → 0 ≤ (before.map balance).sum
  /-- no brace stays open -/
  depth_end : ((lines t).map balance).sum = 0
  /-- the depth is carried along as it is, and no guard has anything to do -/
  unclamped : ∀ before line after, lines t = before ++ line :: after → trimLeft line = line ∧
    depthAfter 0 before = (before.map balance).sum ∧
    ∀ step, Unclamped step (depthAfter 0 before) line
  /-- indentation changes no token -/
  tokens_eq : ∀ step, tokens (indent step t) = tokens t
  /-- every line that is not empty is indented by the braces that are open before it, its own closing brace
  taken off -/
  indented : ∀ step before line after, lines t = before ++ line :: after →
    (lines (indent step t))[before.length]? = some (if line = [] then [] else
      List.replicate (margin step (level (depthOf (tokens (unlines before))) line) line).toNat Byte.space
        ++ line)

/-- A text is disciplined if its lines nest and lead from depth zero back to depth zero. -/
theorem disciplined_of_nests (h : Nests 0 (lines t) 0) : Disciplined t := by
  have hcode : ∀ l ∈ lines t, CodeLine l (balance l) := fun l hl => (h.codeLine l hl).1
  have hsum {before after : List Bytes} (hlines : lines t = before ++ after) :
      Nests 0 before (before.map balance).sum := by
    rw [hlines] at h
    obtain ⟨e, hbefore, _⟩ := nests_append.mp h
    have he := hbefore.sum
    rw [Int.zero_add] at he
    exact he ▸ hbefore
  have hline {before after : List Bytes} {line : Bytes} (hlines : lines t = before ++ line :: after) :
      Stands (depthAfter 0 before) line := by
    rw [hlines] at h
    obtain ⟨e, hbefore, hline⟩ := h.stands
    rwa [hbefore.depthAfter]
  refine ⟨⟨?_, ?_⟩, ?_, ?_, ?_, tokens_indent h, ?_⟩
  · exact fun l hl => (hcode l hl).openLiteral
  · rw [← unlines_lines t]
    exact (tokens_unlines hcode).2.2
  · exact fun before after hlines => (hsum hlines).nonneg (Int.le_refl 0)
  · have hend := h.sum
    rw [Int.zero_add] at hend
    exact hend.symm
  · intro before line after hlines
    exact ⟨(hline hlines).trimmed, (hsum hlines).depthAfter, (hline hlines).unclamped⟩
  · intro step before line after hlines
    have hstands := hline hlines
    have hdepth : depthOf (tokens (unlines before)) = depthAfter 0 before := by
      rw [(hsum hlines).depthOf_tokens, (hsum hlines).depthAfter]
    rw [lines_indent step t, hlines, indentLines_append, indentLines_cons, hdepth,
      ← (hstands.unclamped step).indentation]
    have hlength := length_indentLines step 0 before
    rw [List.getElem?_append_right (by omega), hlength, Nat.sub_self, List.getElem?_cons_zero, indentLine,
      hstands.trimmed]

example : ¬ Disciplined (ascii "\x7d") := fun h => absurd h.depth_end (by decide)

end Layout

/-- **The braces of a unit are in order.** In the unit of every source text that builds, every literal ends on
its line, the depth of braces is never negative and zero at the end, and no guard of indentation has anything
to do, however large the step is. An indented unit therefore has the tokens of the unit, and each of its lines
is indented by the braces that are open there. -/
theorem ofSource_disciplined {source filename unit : Bytes} {n n' : Nat}
    (h : Build.ofSource source filename false n = (.ok unit, n')) : Layout.Disciplined unit := by
  have hanswers := Reader.readProgram_answers source filename n
  rcases hread : Reader.readProgram source filename n with ⟨err | e, m⟩
  · simp only [Build.ofSource, bind, StateT.bind, hread] at h
    cases h
  · rw [hread] at hanswers
    obtain ⟨text, hunit, rfl⟩ := Build.ofSource_ok hread h
    obtain ⟨p, range, hprogram, _, _, rfl⟩ := Build.unit_ok hunit
    apply Layout.disciplined_of_nests
    exact Layout.nests_textFor (Build.program_coded hanswers hprogram) range

/-- A choice between two answers, one of which has a brace and a quote in it. -/
def braceInString : Bytes := ascii "(letrec ((k %halt)) (if 1 (k \"\x7b\\\"\") (k 2)))"

/-- A brace in a string does not count. -/
theorem ofSource_disciplined_braceInString :
    ∃ unit n', Build.ofSource braceInString (ascii "brace") false 0 = (.ok unit, n') ∧
      Layout.Disciplined unit := by
  have hbuild : ((Build.ofSource braceInString (ascii "brace") false 0).1.toOption.map fun _ => ()) =
      some () := by decide +kernel
  obtain ⟨unit, n', hbuild, _⟩ := Build.exists_ok hbuild
  exact ⟨unit, n', hbuild, ofSource_disciplined hbuild⟩

end Trampoline

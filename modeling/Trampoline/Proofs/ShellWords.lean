import Trampoline.Proofs.Arguments

/-!
# Trampoline.Proofs.ShellWords -- what a shell makes of a quoted text

Quoting goes in and out of single quotes at every quote of the text, so what a shell reads is said of all texts in
which every byte is quoted one way or the other: runs between single quotes, and bytes behind a backslash. The
scanner reads such a text as one word, whatever stands in it, and no byte of it is ever active. A quoted text is
one of them. So the paths in the compiler's command line are words of their own, and nothing in them can end the
command, start another one or be expanded.
-/

namespace Trampoline.Shell

open Byte (singleQuote backslash newline)

/-! ## Texts without a bare byte -/

/-- A text in which no byte is bare, and the bytes that it stands for: runs between single quotes, and bytes behind
backslashes. -/
inductive AllQuoted : Bytes → Bytes → Prop
  | nil : AllQuoted [] []
  | run {inner text s : Bytes} (hinner : singleQuote ∉ inner) (h : AllQuoted text s) :
      AllQuoted (singleQuote :: (inner ++ singleQuote :: text)) (inner ++ s)
  | escaped {b : UInt8} {text s : Bytes} (hb : b ≠ newline) (h : AllQuoted text s) :
      AllQuoted (backslash :: b :: text) (b :: s)

/-- The rest of a quoted text, while a run between single quotes is open. -/
theorem allQuoted_run (t : Bytes) {inner : Bytes} (hinner : singleQuote ∉ inner) :
    AllQuoted (singleQuote :: (inner ++ (t.flatMap quoteByte ++ [singleQuote]))) (inner ++ t) := by
  induction t generalizing inner with
  | nil => exact .run hinner .nil
  | cons b t ih =>
    by_cases hb : b = singleQuote
    · -- The run ends here, the quote stands escaped, and a new run begins.
      subst hb
      exact .run hinner (.escaped (by decide) (ih List.not_mem_nil))
    · have hmore : singleQuote ∉ inner ++ [b] := by
        rw [List.mem_append, List.mem_singleton]
        rintro (h | rfl)
        · exact hinner h
        · exact hb rfl
      have hbyte : quoteByte b = [b] := if_neg hb
      simpa [hbyte] using ih hmore

theorem allQuoted_quote (t : Bytes) : AllQuoted (quote t) t := allQuoted_run t List.not_mem_nil

theorem quote_ne_nil (t : Bytes) : quote t ≠ [] := by
  intro h
  cases h

/-- Quoting adds no zero byte. -/
theorem zero_notMem_quote {t : Bytes} (ht : 0 ∉ t) : 0 ∉ quote t := by
  have hbyte : 0 ∉ t.flatMap quoteByte := by
    rw [List.mem_flatMap]
    rintro ⟨b, hb, hmem⟩
    unfold quoteByte at hmem
    split at hmem
    · exact absurd hmem (by decide)
    · rw [List.mem_singleton] at hmem
      exact ht (hmem ▸ hb)
  unfold quote
  rw [List.cons_append, List.mem_cons, List.mem_append]
  rintro (h | h | h)
  · exact absurd h (by decide)
  · exact hbyte h
  · exact absurd h (by decide)

/-! ## Steps of the scanner -/

section

variable {b : UInt8} (current : Option Word) (rest : Bytes)

theorem flush_append (ls ms : List Lexeme) : flush current (ls ++ ms) = flush current ls ++ ms := by
  cases current <;> rfl

theorem scan?_blank (hb : isBlank b = true) :
    scan? .bare current (b :: rest) = (scan? .bare none rest).map (flush current) := by
  rw [scan?, if_pos hb]

theorem scan?_separator (hb : isSeparator b = true) :
    scan? .bare current (b :: rest) = (scan? .bare none rest).map fun ls => flush current (.separator :: ls) := by
  have hblank : ¬ isBlank b = true := by
    simp only [isSeparator, isBlank, Bool.or_eq_true, beq_iff_eq] at hb ⊢
    rcases hb with rfl | rfl <;> decide
  rw [scan?, if_neg hblank, if_pos hb]

theorem scan?_singleQuote :
    scan? .bare current (singleQuote :: rest) = scan? .quoted (some (current.getD .empty)) rest := rfl

theorem scan?_backslash (hb : b ≠ newline) :
    scan? .bare current (backslash :: b :: rest) = scan? .bare (some ((current.getD .empty).push b)) rest := by
  show scan? .escaped current (b :: rest) = _
  rw [scan?, if_neg hb]

end

/-! ## The scanner on such texts -/

/-- A word and further bytes that stand for themselves. -/
def Word.pushAll (w : Word) (t : Bytes) : Word := { w with text := w.text ++ t }

/-- Inside quotes everything stands for itself. -/
theorem scan?_quoted_run {inner : Bytes} (hinner : singleQuote ∉ inner) (w : Word) (rest : Bytes) :
    scan? .quoted (some w) (inner ++ singleQuote :: rest) = scan? .bare (some (w.pushAll inner)) rest := by
  induction inner generalizing w with
  | nil => simp [scan?, Word.pushAll]
  | cons b inner ih =>
    rw [List.mem_cons, not_or] at hinner
    rw [List.cons_append, scan?, if_neg (Ne.symm hinner.1), ih hinner.2]
    simp [Word.push, Word.pushAll]

/-- Bytes that are quoted are added to the word in progress, as they are. -/
theorem scan?_allQuoted {text s : Bytes} (h : AllQuoted text s) (w : Word) (rest : Bytes) :
    scan? .bare (some w) (text ++ rest) = scan? .bare (some (w.pushAll s)) rest := by
  induction h generalizing w with
  | nil => simp [Word.pushAll]
  | run hinner _ ih =>
    rw [List.cons_append, List.append_assoc, List.cons_append, scan?_singleQuote, scan?_quoted_run hinner, ih]
    simp [Word.pushAll]
  | escaped hb _ ih =>
    rw [List.cons_append, List.cons_append, scan?_backslash _ _ hb, ih]
    simp [Word.push, Word.pushAll]

/-- A word may begin with them, and quotes around nothing are a word, too. -/
theorem scan?_allQuoted_first {text s : Bytes} (h : AllQuoted text s) (hne : text ≠ []) (rest : Bytes) :
    scan? .bare none (text ++ rest) = scan? .bare (some ⟨s, false⟩) rest := by
  have hstart : scan? .bare none (text ++ rest) = scan? .bare (some .empty) (text ++ rest) := by
    cases h with
    | nil => exact absurd rfl hne
    | run _ _ => rfl
    | escaped hb _ =>
      rw [List.cons_append, List.cons_append, scan?_backslash _ _ hb, scan?_backslash _ _ hb]
      rfl
  rw [hstart, scan?_allQuoted h]
  rfl

/-! ## What stands around a word -/

/-- Nothing, or a text that goes on with a blank or with the end of the command. -/
def EndsWord (t : Bytes) : Prop := ∀ b ∈ t.head?, isBlank b = true ∨ isSeparator b = true

theorem scan?_endsWord {t : Bytes} (ht : EndsWord t) (w : Word) :
    scan? .bare (some w) t = (lexemes? t).map (.word w :: ·) := by
  unfold lexemes?
  cases t with
  | nil => rfl
  | cons b t =>
    rcases ht b rfl with hb | hb
    · rw [scan?_blank _ _ hb, scan?_blank _ _ hb, Option.map_map]
      rfl
    · rw [scan?_separator _ _ hb, scan?_separator _ _ hb, Option.map_map]
      rfl

/-- What is read in front of a blank does not depend on what comes behind it. -/
theorem scan?_append_blank {mode : Mode} {current : Option Word} {front : Bytes} {ls : List Lexeme} {b : UInt8}
    (h : scan? mode current front = some ls) (hb : isBlank b = true) (rest : Bytes) :
    scan? mode current (front ++ b :: rest) = (lexemes? rest).map (ls ++ ·) := by
  fun_induction scan? mode current front generalizing ls with
  | case1 current =>
    cases h
    rw [List.nil_append, scan?_blank _ _ hb]
    cases current <;> rfl
  | case2 => cases h
  | case3 => cases h
  | case4 current rest' ih => exact ih h
  | case5 current c rest' hc ih =>
    rw [List.cons_append, scan?, if_neg hc, ih h]
  | case6 current rest' ih => exact ih h
  | case7 current c rest' hc ih =>
    rw [List.cons_append, scan?, if_neg hc, ih h]
  | case8 current c rest' hc ih =>
    obtain ⟨ms, hms, rfl⟩ := Option.map_eq_some_iff.mp h
    rw [List.cons_append, scan?_blank _ _ hc, ih hms, Option.map_map]
    simp only [Function.comp_def, flush_append]
  | case9 current c rest' _ hc ih =>
    obtain ⟨ms, hms, rfl⟩ := Option.map_eq_some_iff.mp h
    rw [List.cons_append, scan?_separator _ _ hc, ih hms, Option.map_map]
    simp only [Function.comp_def, ← List.cons_append, flush_append]
  | case10 current rest' _ _ ih => exact ih h
  | case11 current rest' _ _ _ ih => exact ih h
  | case12 current c rest' hblank hsep hquote hback ih =>
    rw [List.cons_append, scan?, if_neg hblank, if_neg hsep, if_neg hquote, if_neg hback, ih h]

/-- A blank separates what is before it from what is behind it. -/
theorem lexemes?_append_blank {front : Bytes} {ls : List Lexeme} {b : UInt8} (h : lexemes? front = some ls)
    (hb : isBlank b = true) (rest : Bytes) : lexemes? (front ++ b :: rest) = (lexemes? rest).map (ls ++ ·) :=
  scan?_append_blank h hb rest

/-- A quoted text at the start of a word is this word. -/
theorem lexemes?_quote_append (t : Bytes) {back : Bytes} (hback : EndsWord back) :
    lexemes? (quote t ++ back) = (lexemes? back).map (.word ⟨t, false⟩ :: ·) := by
  show scan? .bare none (quote t ++ back) = _
  rw [scan?_allQuoted_first (allQuoted_quote t) (quote_ne_nil t), scan?_endsWord hback]

/-! ## Commands -/

/-- Further words at the end of a line belong to its last command. -/
theorem commands_append_words (ls : List Lexeme) (ws : List Word) :
    ∃ before last, commands ls = before ++ [last] ∧ commands (ls ++ ws.map .word) = before ++ [last ++ ws] := by
  induction ls with
  | nil =>
    refine ⟨[], [], rfl, ?_⟩
    induction ws with
    | nil => rfl
    | cons w ws ih =>
      rw [List.nil_append, List.nil_append] at ih
      rw [List.nil_append, List.map_cons, commands, ih]
      rfl
  | cons l ls ih =>
    obtain ⟨before, last, hls, hmore⟩ := ih
    cases l with
    | separator =>
      exact ⟨[] :: before, last, by rw [commands, hls]; rfl, by rw [List.cons_append, commands, hmore]; rfl⟩
    | word w =>
      cases before with
      | nil => exact ⟨[], w :: last, by rw [commands, hls]; rfl, by rw [List.cons_append, commands, hmore]; rfl⟩
      | cons first before =>
        exact ⟨(w :: first) :: before, last, by rw [commands, hls]; rfl,
          by rw [List.cons_append, commands, hmore]; rfl⟩

end Trampoline.Shell

namespace Trampoline

open Shell

/-! ## The compiler's command line -/

namespace Command

/-- What stands behind the compiler in its command line. -/
def compilerTail (r : Request) : Bytes :=
  ascii " -std=c++17 -O2 " ++ quote r.target ++ ascii " -o " ++ quote r.executable

/-- What the compiler is called with. -/
def compilerWords (r : Request) : List Word :=
  [ascii "-std=c++17", ascii "-O2", r.target, ascii "-o", r.executable].map fun t => ⟨t, false⟩

theorem compilerLine_eq (r : Request) : compilerLine r = r.compiler ++ compilerTail r := by
  simp [compilerLine, compilerTail]

/-- The text behind the compiler is a blank and its words. -/
theorem exists_compilerTail (r : Request) :
    ∃ rest, compilerTail r = Byte.space :: rest ∧ lexemes? rest = some ((compilerWords r).map .word) := by
  have hoptions : lexemes? (ascii "-std=c++17 -O2") =
      some [.word ⟨ascii "-std=c++17", false⟩, .word ⟨ascii "-O2", false⟩] := by decide
  have hoption : lexemes? (Byte.space :: ascii "-o") = some [.word ⟨ascii "-o", false⟩] := by decide
  have hends : EndsWord (Byte.space :: ascii "-o" ++ Byte.space :: (quote r.executable ++ [])) := by
    intro b hb
    cases hb
    exact Or.inl rfl
  refine ⟨ascii "-std=c++17 -O2" ++ Byte.space :: (quote r.target ++
    (Byte.space :: ascii "-o" ++ Byte.space :: (quote r.executable ++ []))), ?_, ?_⟩
  · unfold compilerTail
    rw [List.append_nil, List.append_assoc, List.append_assoc]
    rfl
  · rw [lexemes?_append_blank hoptions rfl, lexemes?_quote_append _ hends, lexemes?_append_blank hoption rfl,
      lexemes?_quote_append _ (fun b hb => by cases hb)]
    rfl

/-- The options and the two paths are read as words. -/
theorem lexemes?_compilerTail (r : Request) : lexemes? (compilerTail r) = some ((compilerWords r).map .word) := by
  obtain ⟨rest, htail, hrest⟩ := exists_compilerTail r
  rw [htail]
  show scan? .bare none (Byte.space :: rest) = _
  rw [scan?_blank _ _ rfl]
  show (lexemes? rest).map (flush none) = _
  rw [hrest]
  rfl

theorem lexemes?_compilerLine {r : Request} {ls : List Shell.Lexeme} (h : lexemes? r.compiler = some ls) :
    lexemes? (compilerLine r) = some (ls ++ (compilerWords r).map .word) := by
  obtain ⟨rest, htail, hrest⟩ := exists_compilerTail r
  rw [compilerLine_eq, htail, lexemes?_append_blank h rfl, hrest]
  rfl

/-- The line is a text without a zero byte, so the shell gets all of it. -/
theorem zero_notMem_compilerLine {argv : List Bytes} {r : Request} (h : request? argv = some r) :
    0 ∉ compilerLine r := by
  have hasks := asks_of_request? h
  have htarget := zero_notMem_quote (hasks.target.zero_notMem (by decide))
  have hexecutable := zero_notMem_quote (hasks.executable.zero_notMem (by decide))
  have hcompiler := hasks.compiler.zero_notMem (by decide)
  unfold compilerLine
  simp only [List.mem_append, not_or]
  exact ⟨⟨⟨⟨hcompiler, by decide⟩, htarget⟩, by decide⟩, hexecutable⟩

end Command

open Command in
/-- **Quoting is exact.** A text without zero bytes is quoted without zero bytes, and every byte of the result is
quoted. Behind a blank and before a blank or the end of a command it is read as one word, which is the text and
has nothing active in it, whatever is read before and behind it. So the command line that makes an executable is
read as what the compiler's own text is read as, and five words more, among them the two paths as they are. These
words go to the last command that the compiler's text has, and no command is added for them. -/
theorem quoting_exact :
    (∀ s : Bytes, 0 ∉ s → 0 ∉ quote s ∧ AllQuoted (quote s) s ∧
      ∀ (front back : Bytes) (blank : UInt8) (ls : List Shell.Lexeme),
        lexemes? front = some ls → isBlank blank = true → EndsWord back →
          lexemes? (front ++ blank :: (quote s ++ back)) = (lexemes? back).map (ls ++ .word ⟨s, false⟩ :: ·)) ∧
    (∀ r : Request, compilerLine r = r.compiler ++ compilerTail r ∧
      lexemes? (compilerTail r) = some ((compilerWords r).map .word) ∧
      ∀ ls, lexemes? r.compiler = some ls →
        lexemes? (compilerLine r) = some (ls ++ (compilerWords r).map .word) ∧
        ∃ before last, commands ls = before ++ [last] ∧
          commands (ls ++ (compilerWords r).map .word) = before ++ [last ++ compilerWords r]) ∧
    (∀ argv r, request? argv = some r → 0 ∉ compilerLine r) := by
  refine ⟨?_, ?_, fun argv r h => zero_notMem_compilerLine h⟩
  · intro s hs
    refine ⟨zero_notMem_quote hs, allQuoted_quote s, ?_⟩
    intro front back blank ls hfront hblank hback
    rw [lexemes?_append_blank hfront hblank, lexemes?_quote_append s hback, Option.map_map]
    rfl
  · intro r
    refine ⟨compilerLine_eq r, lexemes?_compilerTail r, ?_⟩
    intro ls hcompiler
    exact ⟨lexemes?_compilerLine hcompiler, commands_append_words ls (compilerWords r)⟩

open Command in
/-- A path that tries to end the quotes, to run a command and to be expanded is still one word. -/
theorem quoting_exact_hostilePath :
    let path := ascii "'; rm *\n$(x)'"
    let r : Request := ⟨ascii "a.scm", path, [], ascii "c++", true, false⟩
    lexemes? (compilerLine r) = some ([ascii "c++", ascii "-std=c++17", ascii "-O2", path, ascii "-o", []].map
      fun t => .word ⟨t, false⟩) := by
  intro path r
  exact ((quoting_exact.2.1 r).2.2 [.word ⟨ascii "c++", false⟩] (by decide)).1

end Trampoline

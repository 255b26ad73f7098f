import Mathlib.Data.List.TakeWhile
import Trampoline.Token.Tokenizer

/-!
# Trampoline.Proofs.Lexing -- tokens and gaps of a text

What a token is, is said here without scanning: which byte strings are gaps, strings, numerals and runs,
and what must follow them. A text is cut into gaps and tokens, up to its end or up to the first place where
neither can be. There is always one such cutting and never a second one, and the tokenizer finds it.

Some of these notions depend on what comes next. A comment is a comment only if it goes on to the end of its
line, and a run is a token only if it is not a part of a longer one. They therefore take two texts: the text
itself and the text behind it.
-/

namespace Trampoline

/-! ## Gaps -/

/-- The line, or all of the text, ends here. -/
def LineEnds (t : Bytes) : Prop := ∀ b ∈ t.head?, b = Byte.newline

theorem lineEnds_nil : LineEnds [] := by simp [LineEnds]

/-- `Gap gap after`: bytes up to the space, and comments that run to the end of their line, where `after`
comes next. -/
inductive Gap : Bytes → Bytes → Prop
  | nil (after : Bytes) : Gap [] after
  | blank {b : UInt8} {gap after : Bytes} (hb : Byte.isBlank b = true) (h : Gap gap after) :
      Gap (b :: gap) after
  | comment {body gap after : Bytes} (hbody : Byte.newline ∉ body) (hend : LineEnds (gap ++ after))
      (h : Gap gap after) : Gap (Byte.semicolon :: (body ++ gap)) after

/-- A text that no gap can start. -/
def Solid (t : Bytes) : Prop := ∀ b ∈ t.head?, Byte.isBlank b = false ∧ b ≠ Byte.semicolon

theorem solid_nil : Solid [] := by simp [Solid]

theorem skipGap_solid {t : Bytes} (h : Solid t) : skipGap false t = t := by
  cases t with
  | nil => rfl
  | cons b rest =>
    obtain ⟨hblank, hsemi⟩ := h b rfl
    simp [skipGap, hblank, hsemi]

/-- A comment is skipped with its line. -/
theorem skipGap_comment {body t : Bytes} (hbody : Byte.newline ∉ body) (hend : LineEnds t) :
    skipGap true (body ++ t) = skipGap false t := by
  induction body with
  | nil =>
    cases t with
    | nil => rfl
    | cons b rest =>
      -- The newline that ends the comment is a blank itself.
      have hb : b = Byte.newline := hend b rfl
      subst hb
      rfl
  | cons b body ih =>
    simp only [List.mem_cons, not_or] at hbody
    have hb : (b != Byte.newline) = true := bne_iff_ne.mpr (Ne.symm hbody.1)
    rw [List.cons_append, skipGap, hb]
    exact ih hbody.2

/-- Exactly the gap is skipped where a solid text follows it. -/
theorem skipGap_of_gap {gap after : Bytes} (h : Gap gap after) (hsolid : Solid after) :
    skipGap false (gap ++ after) = after := by
  induction h with
  | nil after => exact skipGap_solid hsolid
  | blank hb _ ih =>
    rw [List.cons_append, skipGap, if_pos hb]
    exact ih hsolid
  | comment hbody hend _ ih =>
    have hblank : Byte.isBlank Byte.semicolon = false := by decide
    rw [List.cons_append, List.append_assoc, skipGap, hblank, if_neg (by decide), if_pos rfl,
      skipGap_comment hbody hend]
    exact ih hsolid

/-- Every text starts with a gap, up to what no gap can start. Inside a comment, the rest of the comment
comes first. -/
theorem exists_gap (t : Bytes) :
    (∃ gap after, t = gap ++ after ∧ Gap gap after ∧ Solid after) ∧
    ∃ body gap after, t = body ++ (gap ++ after) ∧ Byte.newline ∉ body ∧ LineEnds (gap ++ after) ∧
      Gap gap after ∧ Solid after := by
  induction t with
  | nil =>
    exact ⟨⟨[], [], rfl, .nil [], solid_nil⟩, [], [], [], rfl, List.not_mem_nil, lineEnds_nil, .nil [],
      solid_nil⟩
  | cons b rest ih =>
    obtain ⟨⟨gap, after, hrest, hgap, hsolid⟩, body, gap', after', hrest', hbody, hend, hgap', hsolid'⟩ := ih
    constructor
    · by_cases hblank : Byte.isBlank b = true
      · exact ⟨b :: gap, after, by rw [hrest, List.cons_append], .blank hblank hgap, hsolid⟩
      · by_cases hsemi : b = Byte.semicolon
        · refine ⟨b :: (body ++ gap'), after', ?_, ?_, hsolid'⟩
          · rw [hrest', List.cons_append, List.append_assoc]
          · rw [hsemi]
            exact .comment hbody hend hgap'
        · refine ⟨[], b :: rest, rfl, .nil _, ?_⟩
          intro c hc
          cases hc
          exact ⟨Bool.eq_false_iff.mpr hblank, hsemi⟩
    · by_cases hnewline : b = Byte.newline
      · refine ⟨[], b :: gap, after, by rw [hrest]; rfl, List.not_mem_nil, ?_, ?_, hsolid⟩
        · intro c hc
          cases hc
          exact hnewline
        · exact .blank (by rw [hnewline]; decide) hgap
      · refine ⟨b :: body, gap', after', by rw [hrest', List.cons_append], ?_, hend, hgap', hsolid'⟩
        rw [List.mem_cons, not_or]
        exact ⟨Ne.symm hnewline, hbody⟩

/-! ## Strings -/

/-- The number of backslashes at the end of a text. -/
def backslashRun (t : Bytes) : Nat := (t.reverse.takeWhile (· == Byte.backslash)).length

/-- The byte behind the text is escaped: an odd run of backslashes stands before it. -/
def Escapes (t : Bytes) : Prop := backslashRun t % 2 = 1

instance (t : Bytes) : Decidable (Escapes t) := inferInstanceAs (Decidable (_ = _))

/-- A backslash escapes what follows it unless it is escaped itself. -/
theorem escapes_concat (t : Bytes) (b : UInt8) :
    Escapes (t ++ [b]) ↔ ¬ Escapes t ∧ b = Byte.backslash := by
  unfold Escapes backslashRun
  rw [List.reverse_append, List.reverse_singleton, List.singleton_append, List.takeWhile_cons]
  by_cases hb : b = Byte.backslash
  · simp [hb]
    omega
  · simp [hb]

/-- What may stand between two double quotes, behind some text: no newline, and double quotes only if they
are escaped. -/
structure Enclosed (lead body : Bytes) : Prop where
  oneLine : Byte.newline ∉ body
  quotes : ∀ pre post, body = pre ++ Byte.doubleQuote :: post → Escapes (lead ++ pre)

/-- A string: it starts with a double quote and ends with the first one behind it that is not escaped. -/
def IsString (text : Bytes) : Prop :=
  ∃ body, text = Byte.doubleQuote :: (body ++ [Byte.doubleQuote]) ∧ Enclosed [] body ∧ ¬ Escapes body

theorem Enclosed.nil (lead : Bytes) : Enclosed lead [] :=
  ⟨List.not_mem_nil, fun pre post h => absurd h (by simp)⟩

theorem enclosed_cons {lead body : Bytes} {b : UInt8} :
    Enclosed lead (b :: body) ↔
      b ≠ Byte.newline ∧ (b = Byte.doubleQuote → Escapes lead) ∧ Enclosed (lead ++ [b]) body := by
  constructor
  · intro h
    have hline := h.oneLine
    rw [List.mem_cons, not_or] at hline
    refine ⟨Ne.symm hline.1, ?_, hline.2, ?_⟩
    · rintro rfl
      have hquote := h.quotes [] body rfl
      rwa [List.append_nil] at hquote
    · intro pre post hbody
      have hquote := h.quotes (b :: pre) post (by rw [hbody, List.cons_append])
      rwa [List.append_assoc]
  · rintro ⟨hb, hquote, hbody⟩
    refine ⟨?_, ?_⟩
    · rw [List.mem_cons, not_or]
      exact ⟨Ne.symm hb, hbody.oneLine⟩
    · intro pre post heq
      cases pre with
      | nil =>
        rw [List.append_nil]
        exact hquote (List.cons.inj heq).1
      | cons c pre =>
        obtain ⟨rfl, hrest⟩ := List.cons.inj heq
        have hinner := hbody.quotes pre post hrest
        rwa [List.append_assoc] at hinner

/-- The state of the scanner behind one more byte. -/
theorem escapes_step (lead : Bytes) (b : UInt8) :
    (!decide (Escapes lead) && b == Byte.backslash) = decide (Escapes (lead ++ [b])) := by
  rw [Bool.eq_iff_iff]
  simp [escapes_concat]

/-- A string ends at the first quote that is not escaped. -/
theorem closeString?_some {lead body : Bytes} (after : Bytes) (h : Enclosed lead body)
    (hend : ¬ Escapes (lead ++ body)) :
    closeString? (decide (Escapes lead)) (body ++ Byte.doubleQuote :: after) =
      some (body ++ [Byte.doubleQuote], after) := by
  induction body generalizing lead with
  | nil =>
    rw [List.append_nil] at hend
    have hnewline : Byte.doubleQuote ≠ Byte.newline := by decide
    rw [List.nil_append, closeString?, if_neg hnewline, if_pos ⟨rfl, decide_eq_false hend⟩,
      List.nil_append]
  | cons b body ih =>
    obtain ⟨hb, hquote, hbody⟩ := enclosed_cons.mp h
    have hopen : ¬ (b = Byte.doubleQuote ∧ decide (Escapes lead) = false) := by
      rintro ⟨hq, hesc⟩
      exact of_decide_eq_false hesc (hquote hq)
    rw [List.cons_append, closeString?, if_neg hb, if_neg hopen, escapes_step,
      ih hbody (by rwa [List.append_assoc])]
    rfl

/-- A string that is still open at the end of its line has no end. -/
theorem closeString?_none {lead body after : Bytes} (h : Enclosed lead body) (hend : LineEnds after) :
    closeString? (decide (Escapes lead)) (body ++ after) = none := by
  induction body generalizing lead with
  | nil =>
    cases after with
    | nil => rfl
    | cons b rest => rw [List.nil_append, closeString?, if_pos (hend b rfl)]
  | cons b body ih =>
    obtain ⟨hb, hquote, hbody⟩ := enclosed_cons.mp h
    have hopen : ¬ (b = Byte.doubleQuote ∧ decide (Escapes lead) = false) := by
      rintro ⟨hq, hesc⟩
      exact of_decide_eq_false hesc (hquote hq)
    rw [List.cons_append, closeString?, if_neg hb, if_neg hopen, escapes_step, ih hbody]
    rfl

/-- Behind an opening quote, there is the quote that closes the string or the line ends first. -/
theorem exists_enclosed (lead t : Bytes) :
    (∃ body after, t = body ++ Byte.doubleQuote :: after ∧ Enclosed lead body ∧
      ¬ Escapes (lead ++ body)) ∨
    ∃ body after, t = body ++ after ∧ Enclosed lead body ∧ LineEnds after := by
  induction t generalizing lead with
  | nil => exact Or.inr ⟨[], [], rfl, .nil lead, lineEnds_nil⟩
  | cons b rest ih =>
    by_cases hline : b = Byte.newline
    · refine Or.inr ⟨[], b :: rest, rfl, .nil lead, ?_⟩
      intro c hc
      cases hc
      exact hline
    · by_cases hquote : b = Byte.doubleQuote ∧ ¬ Escapes lead
      · refine Or.inl ⟨[], rest, by rw [hquote.1]; rfl, .nil lead, ?_⟩
        rw [List.append_nil]
        exact hquote.2
      · have hopen : b = Byte.doubleQuote → Escapes lead := fun hq =>
          not_not.mp fun hesc => hquote ⟨hq, hesc⟩
        rcases ih (lead ++ [b]) with ⟨body, after, hrest, hbody, hend⟩ | ⟨body, after, hrest, hbody, hend⟩
        · refine Or.inl ⟨b :: body, after, by rw [hrest, List.cons_append], ?_, ?_⟩
          · exact enclosed_cons.mpr ⟨hline, hopen, hbody⟩
          · rwa [List.append_assoc] at hend
        · refine Or.inr ⟨b :: body, after, by rw [hrest, List.cons_append], ?_, hend⟩
          exact enclosed_cons.mpr ⟨hline, hopen, hbody⟩

/-! ## Atoms -/

/-- A run of bytes that do not delimit, as long as it can be. -/
structure Run (text after : Bytes) : Prop where
  ne_nil : text ≠ []
  plain : ∀ b ∈ text, Byte.isDelimiter b = false
  maximal : ∀ b ∈ after.head?, Byte.isDelimiter b = true

/-- At least one digit, and one sign in front of them or none. -/
def IsNumeral (text : Bytes) : Prop :=
  ∃ sign digits, (sign = [] ∨ sign = [Byte.plus] ∨ sign = [Byte.minus]) ∧ digits ≠ [] ∧
    (∀ d ∈ digits, Byte.isDigit d = true) ∧ text = sign ++ digits

/-- The test for integers accepts the numerals. -/
theorem isInteger_iff {text : Bytes} : isInteger text = true ↔ IsNumeral text := by
  have hdigits (ds : Bytes) :
      (!ds.isEmpty && ds.all Byte.isDigit) = true ↔ ds ≠ [] ∧ ∀ d ∈ ds, Byte.isDigit d = true := by
    simp
  constructor
  · intro h
    cases text with
    | nil => cases h
    | cons b rest =>
      by_cases hsign : b = Byte.minus ∨ b = Byte.plus
      · simp only [isInteger, if_pos hsign] at h
        obtain ⟨hne, hall⟩ := (hdigits rest).mp h
        exact ⟨[b], rest, by rcases hsign with rfl | rfl <;> simp, hne, hall, rfl⟩
      · simp only [isInteger, if_neg hsign] at h
        obtain ⟨hne, hall⟩ := (hdigits (b :: rest)).mp h
        exact ⟨[], b :: rest, Or.inl rfl, hne, hall, rfl⟩
  · rintro ⟨sign, digits, hsign, hne, hall, rfl⟩
    rcases hsign with rfl | rfl | rfl
    · cases digits with
      | nil => exact absurd rfl hne
      | cons d ds =>
        -- A digit is no sign.
        have hd : ¬ (d = Byte.minus ∨ d = Byte.plus) := by
          have hdigit := hall d List.mem_cons_self
          rintro (rfl | rfl) <;> exact absurd hdigit (by decide)
        simp only [List.nil_append, isInteger, if_neg hd]
        exact (hdigits (d :: ds)).mpr ⟨hne, hall⟩
    · exact (hdigits digits).mpr ⟨hne, hall⟩
    · exact (hdigits digits).mpr ⟨hne, hall⟩

/-! ## Tokens and flaws -/

/-- `Lexeme text after kind`: the text is a token of the kind where `after` comes next. -/
inductive Lexeme : Bytes → Bytes → TokenKind → Prop
  | openParen (after : Bytes) : Lexeme [Byte.openParen] after .openParen
  | closeParen (after : Bytes) : Lexeme [Byte.closeParen] after .closeParen
  | string {text : Bytes} (after : Bytes) (h : IsString text) : Lexeme text after .literal
  | literal {text after : Bytes} (hrun : Run text after)
      (h : text = ascii "#t" ∨ text = ascii "#f" ∨ IsNumeral text) : Lexeme text after .literal
  | identifier {text after : Bytes} (hrun : Run text after) (hhash : text.head? ≠ some Byte.hash)
      (hnumeral : ¬ IsNumeral text) : Lexeme text after .identifier

/-- `Flaw bad after cause`: the text is no token and neither is anything that starts like it, where `after`
comes next. It is a string that its line does not close, or a run that starts with a hash and is no truth
value. -/
inductive Flaw : Bytes → Bytes → (Span → ReadError) → Prop
  | unterminated {body after : Bytes} (hbody : Enclosed [] body) (hend : LineEnds after) :
      Flaw (Byte.doubleQuote :: body) after .unterminated
  | unsupported {text after : Bytes} (hrun : Run text after) (hhash : text.head? = some Byte.hash)
      (ht : text ≠ ascii "#t") (hf : text ≠ ascii "#f") : Flaw text after .unsupported

/-- A byte that can start a run. -/
theorem Run.head {text after : Bytes} (h : Run text after) :
    ∃ b rest, text = b :: rest ∧ Byte.isDelimiter b = false ∧
      (∀ c ∈ rest, Byte.isDelimiter c = false) := by
  cases text with
  | nil => exact absurd rfl h.ne_nil
  | cons b rest =>
    exact ⟨b, rest, rfl, h.plain b List.mem_cons_self, fun c hc => h.plain c (List.mem_cons_of_mem b hc)⟩

theorem not_delimiter {b : UInt8} (h : Byte.isDelimiter b = false) :
    Byte.isBlank b = false ∧ b ≠ Byte.openParen ∧ b ≠ Byte.closeParen ∧ b ≠ Byte.doubleQuote ∧
      b ≠ Byte.semicolon := by
  simpa [Byte.isDelimiter, and_assoc] using h

theorem Run.solid {text after : Bytes} (h : Run text after) (more : Bytes) : Solid (text ++ more) := by
  obtain ⟨b, rest, rfl, hb, _⟩ := h.head
  intro c hc
  cases hc
  exact ⟨(not_delimiter hb).1, (not_delimiter hb).2.2.2.2⟩

theorem solid_cons {b : UInt8} (rest : Bytes) (hblank : Byte.isBlank b = false)
    (hsemi : b ≠ Byte.semicolon) : Solid (b :: rest) := by
  intro c hc
  cases hc
  exact ⟨hblank, hsemi⟩

theorem Lexeme.solid {text after : Bytes} {kind : TokenKind} (h : Lexeme text after kind) :
    Solid (text ++ after) := by
  cases h with
  | openParen => exact solid_cons _ (by decide) (by decide)
  | closeParen => exact solid_cons _ (by decide) (by decide)
  | string _ hs =>
    obtain ⟨body, rfl, _⟩ := hs
    exact solid_cons _ (by decide) (by decide)
  | literal hrun _ => exact hrun.solid after
  | identifier hrun _ _ => exact hrun.solid after

theorem Flaw.solid {bad after : Bytes} {cause : Span → ReadError} (h : Flaw bad after cause) :
    Solid (bad ++ after) := by
  cases h with
  | unterminated _ _ => exact solid_cons _ (by decide) (by decide)
  | unsupported hrun _ _ _ => exact hrun.solid after

/-! ## Scanning one token -/

/-- A run is split off as a whole. -/
theorem takeWhile_run {rest after : Bytes} (hrest : ∀ c ∈ rest, Byte.isDelimiter c = false)
    (hafter : ∀ b ∈ after.head?, Byte.isDelimiter b = true) :
    (rest ++ after).takeWhile (fun c => !Byte.isDelimiter c) = rest ∧
      (rest ++ after).dropWhile (fun c => !Byte.isDelimiter c) = after := by
  have hall : ∀ c ∈ rest, (!Byte.isDelimiter c) = true := fun c hc => by rw [hrest c hc]; rfl
  rw [List.takeWhile_append_of_pos hall, List.dropWhile_append_of_pos hall]
  cases after with
  | nil => simp
  | cons b more =>
    have hb : (!Byte.isDelimiter b) = false := by rw [hafter b rfl]; rfl
    rw [List.takeWhile_cons, List.dropWhile_cons, hb]
    simp

/-- A run of bytes without delimiters is one token, by its kind as an atom, or is not supported. -/
theorem scanToken_run {text after : Bytes} (offset : Nat) (h : Run text after) :
    scanToken offset (text ++ after) =
      (atomKind? text).elim (.error (.unsupported ⟨offset, text⟩)) fun kind =>
        .ok (⟨⟨offset, text⟩, kind⟩, after) := by
  obtain ⟨b, rest, rfl, hb, hrest⟩ := h.head
  obtain ⟨_, hopen, hclose, hquote, _⟩ := not_delimiter hb
  obtain ⟨htake, hdrop⟩ := takeWhile_run hrest h.maximal
  rw [List.cons_append, scanToken, if_neg hopen, if_neg hclose, if_neg hquote, htake, hdrop]
  dsimp only
  cases atomKind? (b :: rest) <;> rfl

theorem atomKind?_of_literal {text : Bytes}
    (h : text = ascii "#t" ∨ text = ascii "#f" ∨ IsNumeral text) : atomKind? text = some .literal := by
  unfold atomKind?
  rw [if_pos]
  simp only [Bool.or_eq_true, beq_iff_eq]
  rcases h with h | h | h
  · exact Or.inl (Or.inr h)
  · exact Or.inr h
  · exact Or.inl (Or.inl (isInteger_iff.mpr h))

theorem atomKind?_of_other {text : Bytes} (ht : text ≠ ascii "#t") (hf : text ≠ ascii "#f")
    (hnumeral : ¬ IsNumeral text) :
    atomKind? text = if text.head? = some Byte.hash then none else some .identifier := by
  unfold atomKind?
  rw [if_neg]
  · simp only [beq_iff_eq]
  · simp only [Bool.or_eq_true, beq_iff_eq, not_or]
    exact ⟨⟨fun h => hnumeral (isInteger_iff.mp h), ht⟩, hf⟩

theorem not_numeral_of_hash {text : Bytes} (h : text.head? = some Byte.hash) : ¬ IsNumeral text := by
  rintro ⟨sign, digits, hsign, hne, hall, rfl⟩
  rcases hsign with rfl | rfl | rfl
  · cases digits with
    | nil => exact hne rfl
    | cons d ds =>
      have hd : d = Byte.hash := Option.some.inj h
      exact absurd (hall d List.mem_cons_self) (by rw [hd]; decide)
  · exact absurd (Option.some.inj h) (by decide)
  · exact absurd (Option.some.inj h) (by decide)

/-- A token is scanned as it is. -/
theorem scanToken_lexeme {text after : Bytes} {kind : TokenKind} (offset : Nat)
    (h : Lexeme text after kind) :
    scanToken offset (text ++ after) = .ok (⟨⟨offset, text⟩, kind⟩, after) := by
  cases h with
  | openParen => rfl
  | closeParen => rfl
  | string _ hs =>
    obtain ⟨body, rfl, hbody, hend⟩ := hs
    have hclosed := closeString?_some after hbody hend
    have hstart : decide (Escapes []) = false := by decide
    rw [hstart] at hclosed
    have hopen : Byte.doubleQuote ≠ Byte.openParen := by decide
    have hclose : Byte.doubleQuote ≠ Byte.closeParen := by decide
    rw [List.cons_append, List.append_assoc, List.singleton_append, scanToken, if_neg hopen,
      if_neg hclose, if_pos rfl, hclosed]
  | literal hrun hl =>
    rw [scanToken_run offset hrun, atomKind?_of_literal hl]
    rfl
  | identifier hrun hhash hnumeral =>
    have ht : text ≠ ascii "#t" := by
      rintro rfl
      exact hhash (by decide)
    have hf : text ≠ ascii "#f" := by
      rintro rfl
      exact hhash (by decide)
    rw [scanToken_run offset hrun, atomKind?_of_other ht hf hnumeral, if_neg hhash]
    rfl

/-- A flaw is reported with its text. -/
theorem scanToken_flaw {bad after : Bytes} {cause : Span → ReadError} (offset : Nat)
    (h : Flaw bad after cause) :
    scanToken offset (bad ++ after) = .error (cause ⟨offset, bad⟩) := by
  cases h with
  | @unterminated body _ hbody hend =>
    have hnone := closeString?_none hbody hend
    have hstart : decide (Escapes []) = false := by decide
    rw [hstart] at hnone
    have hopen : Byte.doubleQuote ≠ Byte.openParen := by decide
    have hclose : Byte.doubleQuote ≠ Byte.closeParen := by decide
    have hline : (body ++ after).takeWhile (· != Byte.newline) = body := by
      have hall : ∀ c ∈ body, (c != Byte.newline) = true := by
        intro c hc
        rw [bne_iff_ne]
        rintro rfl
        exact hbody.oneLine hc
      rw [List.takeWhile_append_of_pos hall]
      cases after with
      | nil => simp
      | cons b rest =>
        rw [hend b rfl, List.takeWhile_cons]
        simp
    rw [List.cons_append, scanToken, if_neg hopen, if_neg hclose, if_pos rfl, hnone, hline]
  | unsupported hrun hhash ht hf =>
    rw [scanToken_run offset hrun, atomKind?_of_other ht hf (not_numeral_of_hash hhash), if_pos hhash]
    rfl

/-- A byte that is no delimiter starts such a run. -/
theorem exists_run {b : UInt8} (rest : Bytes) (hb : Byte.isDelimiter b = false) :
    ∃ text after, b :: rest = text ++ after ∧ Run text after := by
  refine ⟨(b :: rest).takeWhile fun c => !Byte.isDelimiter c,
    (b :: rest).dropWhile fun c => !Byte.isDelimiter c, List.takeWhile_append_dropWhile.symm, ?_, ?_, ?_⟩
  · rw [List.takeWhile_cons, hb]
    simp
  · intro c hc
    simpa using List.mem_takeWhile_imp hc
  · intro c hc
    have hstop := List.head?_dropWhile_not (fun c => !Byte.isDelimiter c) (b :: rest)
    rw [Option.mem_def.mp hc] at hstop
    simpa using hstop

/-- A text that no gap can start is empty, starts with a token or has a flaw. -/
theorem exists_lexeme {t : Bytes} (h : Solid t) :
    t = [] ∨ (∃ text after kind, t = text ++ after ∧ Lexeme text after kind) ∨
      ∃ bad after cause, t = bad ++ after ∧ Flaw bad after cause := by
  cases t with
  | nil => exact Or.inl rfl
  | cons b rest =>
    refine Or.inr ?_
    obtain ⟨hblank, hsemi⟩ := h b rfl
    by_cases hopen : b = Byte.openParen
    · exact Or.inl ⟨[b], rest, .openParen, rfl, hopen ▸ .openParen rest⟩
    · by_cases hclose : b = Byte.closeParen
      · exact Or.inl ⟨[b], rest, .closeParen, rfl, hclose ▸ .closeParen rest⟩
      · by_cases hquote : b = Byte.doubleQuote
        · subst hquote
          rcases exists_enclosed [] rest with ⟨body, after, rfl, hbody, hend⟩ | ⟨body, after, rfl, hbody, hend⟩
          · refine Or.inl ⟨Byte.doubleQuote :: (body ++ [Byte.doubleQuote]), after, .literal, ?_, ?_⟩
            · rw [List.cons_append, List.append_assoc, List.singleton_append]
            · exact .string after ⟨body, rfl, hbody, hend⟩
          · exact Or.inr ⟨Byte.doubleQuote :: body, after, _, rfl, .unterminated hbody hend⟩
        · -- What is left starts with a run.
          have hb : Byte.isDelimiter b = false := by
            simp [Byte.isDelimiter, hblank, hopen, hclose, hquote, hsemi]
          obtain ⟨text, after, heq, hrun⟩ := exists_run rest hb
          rw [heq]
          by_cases hl : text = ascii "#t" ∨ text = ascii "#f" ∨ IsNumeral text
          · exact Or.inl ⟨text, after, .literal, rfl, .literal hrun hl⟩
          · rw [not_or, not_or] at hl
            by_cases hhash : text.head? = some Byte.hash
            · exact Or.inr ⟨text, after, _, rfl, .unsupported hrun hhash hl.1 hl.2.1⟩
            · exact Or.inl ⟨text, after, .identifier, rfl, .identifier hrun hhash hl.2.2⟩

/-! ## Cutting a text -/

/-- A token with the gap in front of it. -/
structure Piece where
  gap : Bytes
  token : Token

/-- `Cut o t ps stop`: the text `t`, which starts at the offset `o`, is cut into the pieces `ps`, and behind
them it ends with a last gap or goes on with a gap and a flaw. -/
inductive Cut : Nat → Bytes → List Piece → Except ReadError Bytes → Prop
  | last {o : Nat} {gap : Bytes} (hgap : Gap gap []) : Cut o gap [] (.ok gap)
  | flaw {o : Nat} {gap bad after : Bytes} {cause : Span → ReadError} (hgap : Gap gap (bad ++ after))
      (hbad : Flaw bad after cause) :
      Cut o (gap ++ (bad ++ after)) [] (.error (cause ⟨o + gap.length, bad⟩))
  | token {o : Nat} {gap text after : Bytes} {kind : TokenKind} {ps : List Piece}
      {stop : Except ReadError Bytes} (hgap : Gap gap (text ++ after)) (htext : Lexeme text after kind)
      (h : Cut (o + gap.length + text.length) after ps stop) :
      Cut o (gap ++ (text ++ after)) (⟨gap, ⟨o + gap.length, text⟩, kind⟩ :: ps) stop

/-- No lexeme is empty. -/
theorem Lexeme.length_pos {text after : Bytes} {kind : TokenKind} (h : Lexeme text after kind) :
    0 < text.length := by
  apply List.length_pos_iff.mpr
  cases h with
  | openParen => simp
  | closeParen => simp
  | string _ hs =>
    obtain ⟨body, rfl, _⟩ := hs
    simp
  | literal hrun _ => exact hrun.ne_nil
  | identifier hrun _ _ => exact hrun.ne_nil

theorem Lexeme.kind_ne {text after : Bytes} {kind : TokenKind} (h : Lexeme text after kind) :
    kind ≠ .endOfInput := by
  cases h <;> decide

/-- Every text can be cut. -/
theorem exists_cut (o : Nat) (t : Bytes) : ∃ ps stop, Cut o t ps stop := by
  induction hn : t.length using Nat.strongRecOn generalizing o t with
  | ind n ih =>
    obtain ⟨gap, after, rfl, hgap, hsolid⟩ := (exists_gap t).1
    rcases exists_lexeme hsolid with rfl | ⟨text, rest, kind, rfl, htext⟩ | ⟨bad, rest, cause, rfl, hbad⟩
    · rw [List.append_nil]
      exact ⟨[], _, .last hgap⟩
    · have hlt : rest.length < n := by
        have hpos := htext.length_pos
        rw [List.length_append, List.length_append] at hn
        omega
      obtain ⟨ps, stop, h⟩ := ih rest.length hlt (o + gap.length + text.length) rest rfl
      exact ⟨_, stop, .token hgap htext h⟩
    · exact ⟨[], _, .flaw hgap hbad⟩

/-- The first token of a text that starts at an offset, and the text behind it. -/
def scanFrom (o : Nat) (t : Bytes) : Except ReadError (Token × Bytes) :=
  scanToken (o + (t.length - (skipGap false t).length)) (skipGap false t)

/-- The scanner tells the offset from what is unread. -/
theorem scan_eq_scanFrom {source unread : Bytes} (h : unread.length ≤ source.length) :
    scan source unread = scanFrom (source.length - unread.length) unread := by
  have hle := skipGap_length_le false unread
  have hoffset : source.length - (skipGap false unread).length =
      source.length - unread.length + (unread.length - (skipGap false unread).length) := by omega
  show scanToken _ _ = scanToken _ _
  rw [hoffset]

theorem scanFrom_gap (o : Nat) {gap after : Bytes} (h : Gap gap after) (hsolid : Solid after) :
    scanFrom o (gap ++ after) = scanToken (o + gap.length) after := by
  have hlength : (gap ++ after).length - after.length = gap.length := by
    rw [List.length_append]
    omega
  rw [scanFrom, skipGap_of_gap h hsolid, hlength]

/-- The token at the end of a source. -/
def Token.endOf (source : Bytes) : Token := ⟨⟨source.length, []⟩, .endOfInput⟩

section

variable {o : Nat} {t : Bytes} {ps : List Piece} {stop : Except ReadError Bytes}

/-- What scanning finds first in a text that is cut: the end, a flaw or the first piece. -/
theorem Cut.first (h : Cut o t ps stop) :
    (ps = [] ∧ stop = .ok t ∧ scanFrom o t = .ok (⟨⟨o + t.length, []⟩, .endOfInput⟩, [])) ∨
    (∃ err, ps = [] ∧ stop = .error err ∧ scanFrom o t = .error err) ∨
    ∃ p rest after, ps = p :: rest ∧ p.token.kind ≠ .endOfInput ∧ t = p.gap ++ (p.token.text ++ after) ∧
      p.token.offset = o + p.gap.length ∧ scanFrom o t = .ok (p.token, after) ∧
      Cut (o + p.gap.length + p.token.text.length) after rest stop := by
  cases h with
  | last hgap =>
    refine Or.inl ⟨rfl, rfl, ?_⟩
    have hscan := scanFrom_gap o hgap solid_nil
    rw [List.append_nil] at hscan
    exact hscan
  | flaw hgap hbad =>
    refine Or.inr (Or.inl ⟨_, rfl, rfl, ?_⟩)
    rw [scanFrom_gap o hgap hbad.solid, scanToken_flaw _ hbad]
  | token hgap htext h =>
    refine Or.inr (Or.inr ⟨_, _, _, rfl, htext.kind_ne, rfl, rfl, ?_, h⟩)
    rw [scanFrom_gap o hgap htext.solid, scanToken_lexeme _ htext]

/-- If nothing can be scanned, there are no pieces. -/
theorem Cut.of_error {err : ReadError} (h : Cut o t ps stop) (hscan : scanFrom o t = .error err) :
    ps = [] ∧ stop = .error err := by
  rcases h.first with ⟨_, _, hend⟩ | ⟨err', hps, hstop, herr⟩ | ⟨p, rest, after, _, _, _, _, htoken, _⟩
  · rw [hend] at hscan
    cases hscan
  · rw [herr] at hscan
    cases hscan
    exact ⟨hps, hstop⟩
  · rw [htoken] at hscan
    cases hscan

theorem Cut.of_end {tok : Token} {after : Bytes} (h : Cut o t ps stop)
    (hscan : scanFrom o t = .ok (tok, after)) (hkind : tok.kind = .endOfInput) :
    ps = [] ∧ stop = .ok t ∧ tok = ⟨⟨o + t.length, []⟩, .endOfInput⟩ ∧ after = [] := by
  rcases h.first with ⟨hps, hstop, hend⟩ | ⟨err', _, _, herr⟩ | ⟨p, rest, _, _, hne, _, _, htoken, _⟩
  · rw [hend] at hscan
    cases hscan
    exact ⟨hps, hstop, rfl, rfl⟩
  · rw [herr] at hscan
    cases hscan
  · rw [htoken] at hscan
    cases hscan
    exact absurd hkind hne

/-- If a token is scanned, it is the first piece. -/
theorem Cut.of_token {tok : Token} {after : Bytes} (h : Cut o t ps stop)
    (hscan : scanFrom o t = .ok (tok, after)) (hkind : tok.kind ≠ .endOfInput) :
    ∃ gap rest, ps = ⟨gap, tok⟩ :: rest ∧ t = gap ++ (tok.text ++ after) ∧
      Cut (o + gap.length + tok.text.length) after rest stop := by
  rcases h.first with ⟨_, _, hend⟩ | ⟨err', _, _, herr⟩ | ⟨p, rest, _, hps, _, ht, _, htoken, hrest⟩
  · rw [hend] at hscan
    cases hscan
    exact absurd rfl hkind
  · rw [herr] at hscan
    cases hscan
  · rw [htoken] at hscan
    cases hscan
    exact ⟨p.gap, rest, hps, ht, hrest⟩

/-- A text is cut in one way only. -/
theorem Cut.unique {ps' : List Piece} {stop' : Except ReadError Bytes} (h : Cut o t ps stop)
    (h' : Cut o t ps' stop') : ps = ps' ∧ stop = stop' := by
  induction ps generalizing o t ps' with
  | nil =>
    cases hscan : scanFrom o t with
    | error err =>
      obtain ⟨_, rfl⟩ := h.of_error hscan
      obtain ⟨rfl, rfl⟩ := h'.of_error hscan
      exact ⟨rfl, rfl⟩
    | ok found =>
      by_cases hkind : found.1.kind = .endOfInput
      · obtain ⟨_, rfl, _⟩ := h.of_end hscan hkind
        obtain ⟨rfl, rfl, _⟩ := h'.of_end hscan hkind
        exact ⟨rfl, rfl⟩
      · obtain ⟨gap, rest, hps, _⟩ := h.of_token hscan hkind
        cases hps
  | cons p ps ih =>
    cases hscan : scanFrom o t with
    | error err =>
      obtain ⟨hps, _⟩ := h.of_error hscan
      cases hps
    | ok found =>
      by_cases hkind : found.1.kind = .endOfInput
      · obtain ⟨hps, _⟩ := h.of_end hscan hkind
        cases hps
      · obtain ⟨gap, rest, hps, ht, hrest⟩ := h.of_token hscan hkind
        obtain ⟨gap', rest', rfl, ht', hrest'⟩ := h'.of_token hscan hkind
        cases hps
        -- The token and what is behind it are the same, so the gaps are too.
        have hgap : gap = gap' := List.append_cancel_right (ht.symm.trans ht')
        subst hgap
        obtain ⟨rfl, rfl⟩ := ih hrest hrest'
        exact ⟨rfl, rfl⟩

/-- The token of every piece is a lexeme. -/
theorem Cut.lexeme {p : Piece} (h : Cut o t ps stop) (hp : p ∈ ps) :
    ∃ after, Lexeme p.token.text after p.token.kind := by
  induction h with
  | last _ => cases hp
  | flaw _ _ => cases hp
  | token _ htext _ ih =>
    rcases List.mem_cons.mp hp with rfl | hp
    · exact ⟨_, htext⟩
    · exact ih hp

end

/-! ## The tokenizer -/

namespace Tokenizer

/-- What is ahead of a tokenizer behind its head. -/
def Ahead (tk : Tokenizer) (ps : List Piece) (stop : Except ReadError Bytes) : Prop :=
  tk.unread.length ≤ tk.source.length ∧ Cut (tk.source.length - tk.unread.length) tk.unread ps stop

/-- The tokenizer that a step gives, if pieces of a source are ahead: its head is the first of them, and the
others are ahead of it. -/
inductive Leads (source : Bytes) :
    List Piece → Except ReadError Bytes → Except ReadError Tokenizer → Prop
  | last {tk : Tokenizer} {gap : Bytes} (hsource : tk.source = source)
      (hhead : tk.head = Token.endOf source) : Leads source [] (.ok gap) (.ok tk)
  | flaw (err : ReadError) : Leads source [] (.error err) (.error err)
  | token {tk : Tokenizer} {p : Piece} {ps : List Piece} {stop : Except ReadError Bytes}
      (hsource : tk.source = source) (hhead : tk.head = p.token) (hkind : p.token.kind ≠ .endOfInput)
      (hahead : tk.Ahead ps stop) : Leads source (p :: ps) stop (.ok tk)

/-- The tokenizer over a source that a scan leads to. -/
def ofScan (source filename : Bytes) : Except ReadError (Token × Bytes) → Except ReadError Tokenizer
  | .ok (head, unread) => .ok ⟨source, filename, unread, head⟩
  | .error err => .error err

theorem start_eq_ofScan (source filename : Bytes) :
    start source filename = ofScan source filename (scan source source) := by
  unfold start
  cases scan source source <;> rfl

theorem advance_eq_ofScan (tk : Tokenizer) :
    tk.advance = ofScan tk.source tk.filename (scan tk.source tk.unread) := by
  unfold advance
  cases scan tk.source tk.unread <;> rfl

/-- A scan leads to the first of the pieces that are ahead. -/
theorem leads_ofScan {source filename unread : Bytes} {ps : List Piece} {stop : Except ReadError Bytes}
    (hle : unread.length ≤ source.length) (h : Cut (source.length - unread.length) unread ps stop) :
    Leads source ps stop (ofScan source filename (scan source unread)) := by
  rw [scan_eq_scanFrom hle]
  cases hscan : scanFrom (source.length - unread.length) unread with
  | error err =>
    obtain ⟨rfl, rfl⟩ := h.of_error hscan
    exact .flaw err
  | ok found =>
    obtain ⟨tok, after⟩ := found
    by_cases hkind : tok.kind = .endOfInput
    · obtain ⟨rfl, rfl, htok, _⟩ := h.of_end hscan hkind
      refine .last rfl ?_
      show tok = _
      rw [htok, Token.endOf, Nat.sub_add_cancel hle]
    · obtain ⟨gap, rest, rfl, ht, hrest⟩ := h.of_token hscan hkind
      refine .token rfl rfl hkind ?_
      have hlength := congrArg List.length ht
      rw [List.length_append, List.length_append] at hlength
      have hoffset : source.length - unread.length + gap.length + tok.text.length =
          source.length - after.length := by omega
      rw [hoffset] at hrest
      refine ⟨?_, hrest⟩
      show after.length ≤ source.length
      omega

/-- A new tokenizer stands at the first piece of its source. -/
theorem start_leads {source : Bytes} (filename : Bytes) {ps : List Piece} {stop : Except ReadError Bytes}
    (h : Cut 0 source ps stop) : Leads source ps stop (start source filename) := by
  rw [start_eq_ofScan]
  refine leads_ofScan (Nat.le_refl _) ?_
  rwa [Nat.sub_self]

/-- An advance leads to the next piece. -/
theorem advance_leads {tk : Tokenizer} {ps : List Piece} {stop : Except ReadError Bytes}
    (h : tk.Ahead ps stop) : Leads tk.source ps stop tk.advance := by
  rw [advance_eq_ofScan]
  exact leads_ofScan h.1 h.2

theorem drain_end {tk : Tokenizer} (h : tk.head.kind = .endOfInput) : tk.drain = (.ok [], tk) := by
  rw [drain, dif_pos h]

theorem drain_error {tk : Tokenizer} {err : ReadError} (hkind : tk.head.kind ≠ .endOfInput)
    (h : tk.advance = .error err) : tk.drain = (.error err, tk.skip) := by
  rw [drain, dif_neg hkind]
  split
  · rename_i hadv
    rw [h] at hadv
    cases hadv
    rfl
  · rename_i hadv
    rw [h] at hadv
    cases hadv

/-- Draining gives the head and goes on behind it. -/
theorem drain_step {tk next : Tokenizer} (hkind : tk.head.kind ≠ .endOfInput)
    (h : tk.advance = .ok next) :
    tk.drain = (next.drain.1.map (tk.head :: ·), next.drain.2) := by
  rw [drain, dif_neg hkind]
  split
  · rename_i hadv
    rw [h] at hadv
    cases hadv
  · rename_i hadv
    rw [h] at hadv
    cases hadv
    rcases hdrain : next.drain with ⟨tokens | err, fin⟩ <;> rfl

/-- Draining gives the head and all tokens ahead of it, or the flaw that is ahead. -/
theorem drain_ahead {tk : Tokenizer} {ps : List Piece} {stop : Except ReadError Bytes}
    (h : tk.Ahead ps stop) (hkind : tk.head.kind ≠ .endOfInput) :
    tk.drain.1 = stop.map (fun _ => tk.head :: ps.map Piece.token) ∧
      ∀ gap, stop = .ok gap → tk.drain.2.head = Token.endOf tk.source := by
  induction ps generalizing tk with
  | nil =>
    have hlead := advance_leads h
    generalize hadv : tk.advance = result at hlead
    cases hlead with
    | @last next gap hsource hhead =>
      have hend : next.drain = (.ok [], next) := drain_end (by rw [hhead]; rfl)
      rw [drain_step hkind hadv, hend]
      exact ⟨rfl, fun _ _ => hhead⟩
    | flaw err =>
      rw [drain_error hkind hadv]
      exact ⟨rfl, fun gap hgap => by cases hgap⟩
  | cons p ps ih =>
    have hlead := advance_leads h
    generalize hadv : tk.advance = result at hlead
    cases hlead with
    | @token next _ _ _ hsource hhead hnext hahead =>
      obtain ⟨htokens, hend⟩ := ih hahead (by rw [hhead]; exact hnext)
      rw [drain_step hkind hadv, htokens, hhead]
      refine ⟨?_, fun gap hgap => by rw [← hsource]; exact hend gap hgap⟩
      cases stop <;> rfl

/-- Pops tokens from a source up to the end of the input, and gives the token there too. -/
def popAll (source filename : Bytes) : Except ReadError (List Token × Token) :=
  (start source filename).bind fun tk => tk.drain.1.map fun tokens => (tokens, tk.drain.2.head)

/-- All tokens of a source are those of its pieces, if the pieces end well. -/
theorem popAll_cut {source : Bytes} (filename : Bytes) {ps : List Piece} {stop : Except ReadError Bytes}
    (h : Cut 0 source ps stop) :
    popAll source filename = stop.map fun _ => (ps.map Piece.token, Token.endOf source) := by
  have hlead := start_leads filename h
  unfold popAll
  generalize start source filename = result at hlead
  cases hlead with
  | @last tk gap hsource hhead =>
    have hend : tk.drain = (.ok [], tk) := drain_end (by rw [hhead]; rfl)
    show tk.drain.1.map _ = _
    rw [hend, hhead]
    rfl
  | flaw err => rfl
  | @token tk p rest _ hsource hhead hkind hahead =>
    obtain ⟨htokens, hend⟩ := drain_ahead hahead (by rw [hhead]; exact hkind)
    show tk.drain.1.map _ = _
    rw [htokens, hhead]
    cases stop with
    | error err => rfl
    | ok gap =>
      show Except.ok _ = Except.ok _
      rw [hend gap rfl, hsource]
      rfl

end Tokenizer

/-! ## The result -/

/-- The bytes of some pieces. -/
def Piece.join (ps : List Piece) : Bytes := ps.flatMap fun p => p.gap ++ p.token.text

theorem Piece.join_cons (p : Piece) (ps : List Piece) :
    join (p :: ps) = p.gap ++ p.token.text ++ join ps := List.flatMap_cons

/-- Pieces that end well make up the whole text. -/
theorem Cut.join_ok {o : Nat} {t last : Bytes} {ps : List Piece} (h : Cut o t ps (.ok last)) :
    t = Piece.join ps ++ last := by
  induction ps generalizing o t with
  | nil =>
    cases h with
    | last _ => rfl
  | cons p ps ih =>
    cases h with
    | token _ _ hrest =>
      rw [Piece.join_cons, List.append_assoc, List.append_assoc, ← ih hrest]

/-- Otherwise they make up the text before the first flaw. -/
theorem Cut.join_error {o : Nat} {t : Bytes} {ps : List Piece} {err : ReadError}
    (h : Cut o t ps (.error err)) :
    ∃ gap bad after cause, t = Piece.join ps ++ (gap ++ (bad ++ after)) ∧ Gap gap (bad ++ after) ∧
      Flaw bad after cause ∧ err = cause ⟨o + (Piece.join ps ++ gap).length, bad⟩ := by
  induction ps generalizing o t with
  | nil =>
    cases h with
    | flaw hgap hbad => exact ⟨_, _, _, _, rfl, hgap, hbad, rfl⟩
  | cons p ps ih =>
    cases h with
    | @token _ lead text rest kind _ _ _ _ hrest =>
      obtain ⟨gap, bad, after, cause, ht, hgap, hbad, herr⟩ := ih hrest
      refine ⟨gap, bad, after, cause, ?_, hgap, hbad, ?_⟩
      · rw [Piece.join_cons, List.append_assoc, List.append_assoc, ← ht]
      · have hoffset : o + lead.length + text.length + (Piece.join ps ++ gap).length =
            o + (Piece.join (⟨lead, ⟨o + lead.length, text⟩, kind⟩ :: ps) ++ gap).length := by
          simp only [Piece.join_cons, List.length_append]
          omega
        rw [herr, hoffset]

/-- **Exact tokenization.** Popping the tokens of a source gives some tokens and no error exactly if these
are the tokens of a cutting of the source that reaches its end; the end of the input is then at the end of
the source. Gaps and tokens in turn make up the source, and there is no other cutting. If no cutting reaches
the end, pieces are followed by a gap and a flaw, and popping fails with the flaw's text at its place. -/
theorem popAll_exact (source filename : Bytes) :
    (∀ tokens last, Tokenizer.popAll source filename = .ok (tokens, last) ↔
      last = Token.endOf source ∧ ∃ ps gap, Cut 0 source ps (.ok gap) ∧ tokens = ps.map Piece.token) ∧
    (∀ ps gap, Cut 0 source ps (.ok gap) → source = Piece.join ps ++ gap) ∧
    (∀ ps ps' stop stop', Cut 0 source ps stop → Cut 0 source ps' stop' → ps = ps' ∧ stop = stop') ∧
    ((¬ ∃ ps gap, Cut 0 source ps (.ok gap)) → ∃ ps gap bad after cause,
      source = Piece.join ps ++ (gap ++ (bad ++ after)) ∧ Gap gap (bad ++ after) ∧
      Flaw bad after cause ∧
      Cut 0 source ps (.error (cause ⟨(Piece.join ps ++ gap).length, bad⟩)) ∧
      Tokenizer.popAll source filename = .error (cause ⟨(Piece.join ps ++ gap).length, bad⟩)) := by
  obtain ⟨ps, stop, hcut⟩ := exists_cut 0 source
  have hpop := Tokenizer.popAll_cut filename hcut
  refine ⟨fun tokens last => ?_, fun ps gap h => h.join_ok, fun _ _ _ _ h h' => h.unique h', fun hnone => ?_⟩
  · rw [hpop]
    constructor
    · intro h
      cases stop with
      | error err => cases h
      | ok gap =>
        cases h
        exact ⟨rfl, ps, gap, hcut, rfl⟩
    · rintro ⟨rfl, ps', gap, hcut', rfl⟩
      obtain ⟨rfl, rfl⟩ := hcut.unique hcut'
      rfl
  · cases stop with
    | ok gap => exact absurd ⟨ps, gap, hcut⟩ hnone
    | error err =>
      obtain ⟨gap, bad, after, cause, hsource, hgap, hbad, herr⟩ := hcut.join_error
      rw [Nat.zero_add] at herr
      subst herr
      exact ⟨ps, gap, bad, after, cause, hsource, hgap, hbad, hcut, hpop⟩

-- The escaped quote does not close the string, and the comment hides the parenthesis behind it.
example : (Tokenizer.popAll (ascii "(a \"\\\"b\";)") []).toOption.map
    (fun r => (r.1.map fun t => (t.offset, t.text, t.kind), r.2.offset)) =
    some ([(0, ascii "(", .openParen), (1, ascii "a", .identifier), (3, ascii "\"\\\"b\"", .literal)], 10) := by
  decide +kernel

end Trampoline

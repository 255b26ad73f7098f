import Mathlib.Algebra.BigOperators.Group.List.Basic
import Mathlib.Algebra.Ring.Int.Defs
import Trampoline.Proofs.Lines
import Trampoline.Proofs.Mangling
import Trampoline.Proofs.Quoting

/-!
# Trampoline.Proofs.CodeTokens -- the tokens of emitted code

How emitted code is cut into tokens is said here without regard to how it is made. A backslash at the end of a
line joins the line to the next one, blanks and comments separate tokens, and a token is as long as it can be:
a word, a number, a literal with what may stand before and behind it, or a mark. Newlines are kept, because a
directive ends with its line.

Some texts are cut up line by line: those in which every literal is closed on its line, no comment and no raw
literal is opened and no line is joined to the next one. The scan of a line finds out whether it is one of
these, and counts its braces on the way. What it counts are the tokens that are braces.
-/

namespace Trampoline

open Byte (doubleQuote singleQuote backslash openBrace closeBrace)

abbrev Byte.percent : UInt8 := 37

abbrev Byte.star : UInt8 := 42

/-- A token of emitted code. -/
inductive CodeToken where
  | word (text : Bytes)
  | number (text : Bytes)
  /-- a string or a character, with its encoding and its suffix -/
  | literal (text : Bytes)
  /-- an operator or a separator -/
  | mark (text : Bytes)
  /-- a quote that is not closed on its line -/
  | unclosed (quote : UInt8)
  | other (b : UInt8)
  | newline
  deriving DecidableEq

namespace CodeToken

/-! ## Cutting a text into tokens -/

/-- Joins lines that end in a backslash to the next ones. -/
def splice : Bytes → Bytes
  | [] => []
  | [b] => [b]
  | b :: c :: t => if b = backslash ∧ c = Byte.newline then splice t else b :: splice (c :: t)

/-- The marks, each behind all longer ones. -/
def marks : List Bytes :=
  ["%:%:", "<<=", ">>=", "...", "->*", "##", "<:", ":>", "<%", "%>", "%:", "::", ".*", "+=", "-=", "*=", "/=",
    "%=", "^=", "&=", "|=", "==", "!=", "<=", ">=", "&&", "||", "<<", ">>", "++", "--", "->", "\x7b", "\x7d",
    "[", "]", "#", "(", ")", ";", ":", "?", ".", "+", "-", "*", "/", "%", "^", "&", "|", "~", "!", "=", "<",
    ">", ","].map ascii

/-- The mark that a text starts with. Before a scope a bracket is no part of a longer mark. -/
def mark? (t : Bytes) : Option Bytes :=
  if Bytes.startsWith t (ascii "<::") && !Bytes.startsWith t (ascii "<:::") &&
      !Bytes.startsWith t (ascii "<::>") then some (ascii "<")
  else marks.find? (Bytes.startsWith t)

/-- What may stand before a literal, and before a raw one. -/
def encodings : List Bytes := ["u8", "u", "U", "L"].map ascii

def rawEncodings : List Bytes := ["R", "u8R", "uR", "UR", "LR"].map ascii

/-- Splits a text behind an opening quote after the quote that closes it, on the same line. It is told whether
the next byte is escaped. -/
def closeLiteral? (quote : UInt8) : Bool → Bytes → Option (Bytes × Bytes)
  | _, [] => none
  | escaped, b :: t =>
    if b = Byte.newline then none
    else if b = quote ∧ escaped = false then some ([b], t)
    else (closeLiteral? quote (!escaped && b == backslash) t).map fun p => (b :: p.1, p.2)

/-- Splits a text after the first occurrence of a closing text. -/
def closeRaw? (closing : Bytes) : Bytes → Option (Bytes × Bytes)
  | [] => none
  | b :: t =>
    if Bytes.startsWith (b :: t) closing then some (closing, (b :: t).drop closing.length)
    else (closeRaw? closing t).map fun p => (b :: p.1, p.2)

/-- The text that closes a raw literal, given what stands behind its quote. -/
def rawClosing (t : Bytes) : Bytes :=
  Byte.closeParen :: (t.takeWhile (· != Byte.openParen) ++ [doubleQuote])

/-- The suffix of a literal: a word that does not start with a digit. -/
def suffix (t : Bytes) : Bytes := if t.head?.any Byte.isDigit then [] else t.takeWhile Byte.isWord

/-- The literal with a given lead and body, and the text behind it and its suffix. -/
def endLiteral (lead : Bytes) (p : Bytes × Bytes) : Option CodeToken × Bytes :=
  (some (.literal (lead ++ p.1 ++ suffix p.2)), p.2.drop (suffix p.2).length)

/-- A byte goes on with a number, behind another byte and before some text. -/
def continuesNumber (previous b : UInt8) (t : Bytes) : Bool :=
  Byte.isWord b || b == Byte.dot ||
    ((b == Byte.plus || b == Byte.minus) && (ascii "eEpP").contains previous) ||
    (b == singleQuote && t.head?.any Byte.isWord)

/-- Splits a text after what goes on with a number. -/
def endNumber (previous : UInt8) : Bytes → Bytes × Bytes
  | [] => ([], [])
  | b :: t =>
    if continuesNumber previous b t then ((b :: (endNumber b t).1), (endNumber b t).2) else ([], b :: t)

/-- The text behind the first end of a comment. -/
def afterComment : Bytes → Bytes
  | [] => []
  | b :: t => if b = Byte.star ∧ t.head? = some Byte.slash then t.drop 1 else afterComment t

/-- A word, or the literal whose encoding it is. -/
def stepWord (word : Bytes) : Bytes → Option CodeToken × Bytes
  | [] => (some (.word word), [])
  | b :: t =>
    let closed :=
      if b = doubleQuote ∧ word ∈ rawEncodings then closeRaw? (rawClosing t) t
      else if (b = doubleQuote ∨ b = singleQuote) ∧ word ∈ encodings then closeLiteral? b false t
      else none
    match closed with
    | some p => endLiteral (word ++ [b]) p
    | none => (some (.word word), b :: t)

/-- A mark, or a byte that is no part of any token. -/
def stepMark (b : UInt8) (t : Bytes) : Option CodeToken × Bytes :=
  match mark? (b :: t) with
  | some m => (some (.mark m), t.drop (m.length - 1))
  | none => (some (.other b), t)

/-- The token at the start of a text, and the text behind it. -/
def stepToken (b : UInt8) (t : Bytes) : Option CodeToken × Bytes :=
  if Byte.isDigit b || (b == Byte.dot && t.head?.any Byte.isDigit) then
    (some (.number (b :: (endNumber b t).1)), (endNumber b t).2)
  else if Byte.isWord b then stepWord (b :: t.takeWhile Byte.isWord) (t.dropWhile Byte.isWord)
  else if b = doubleQuote ∨ b = singleQuote then
    match closeLiteral? b false t with
    | some p => endLiteral [b] p
    | none => (some (.unclosed b), t)
  else stepMark b t

/-- What stands at the start of a text, if it is a token, and the text behind it. -/
def step (b : UInt8) (t : Bytes) : Option CodeToken × Bytes :=
  if b = Byte.newline then (some .newline, t)
  else if Byte.isSpace b then (none, t)
  else if b = Byte.slash ∧ t.head? = some Byte.slash then (none, t.dropWhile (· != Byte.newline))
  else if b = Byte.slash ∧ t.head? = some Byte.star then (none, afterComment (t.drop 1))
  else stepToken b t

/-! Every step takes at least one byte. -/

theorem closeLiteral?_length {quote : UInt8} {escaped : Bool} {t : Bytes} {p : Bytes × Bytes}
    (h : closeLiteral? quote escaped t = some p) : p.2.length ≤ t.length := by
  induction t generalizing escaped p with
  | nil => cases h
  | cons b t ih =>
    rw [closeLiteral?] at h
    split at h
    · cases h
    · split at h
      · cases h
        exact Nat.le_succ _
      · obtain ⟨q, hq, rfl⟩ := Option.map_eq_some_iff.mp h
        exact Nat.le_succ_of_le (ih (p := q) hq)

theorem closeRaw?_length {closing t : Bytes} {p : Bytes × Bytes} (h : closeRaw? closing t = some p) :
    p.2.length ≤ t.length := by
  induction t generalizing p with
  | nil => cases h
  | cons b t ih =>
    rw [closeRaw?] at h
    split at h
    · cases h
      rw [List.length_drop]
      omega
    · obtain ⟨q, hq, rfl⟩ := Option.map_eq_some_iff.mp h
      exact Nat.le_succ_of_le (ih (p := q) hq)

theorem endNumber_length (previous : UInt8) (t : Bytes) : (endNumber previous t).2.length ≤ t.length := by
  induction t generalizing previous with
  | nil => exact Nat.le_refl _
  | cons b t ih =>
    rw [endNumber]
    split
    · exact Nat.le_succ_of_le (ih b)
    · exact Nat.le_refl _

theorem afterComment_length (t : Bytes) : (afterComment t).length ≤ t.length := by
  induction t with
  | nil => exact Nat.le_refl _
  | cons b t ih =>
    rw [afterComment]
    split
    · rw [List.length_drop, List.length_cons]
      omega
    · exact Nat.le_succ_of_le ih

theorem endLiteral_length (lead : Bytes) (p : Bytes × Bytes) :
    (endLiteral lead p).2.length ≤ p.2.length := by
  show (p.2.drop _).length ≤ _
  rw [List.length_drop]
  omega

theorem stepWord_length (word t : Bytes) : (stepWord word t).2.length ≤ t.length := by
  cases t with
  | nil => exact Nat.le_refl _
  | cons b t =>
    unfold stepWord
    dsimp only
    split
    · rename_i p hp
      have hlen : p.2.length ≤ t.length := by
        split at hp
        · exact closeRaw?_length hp
        · split at hp
          · exact closeLiteral?_length hp
          · cases hp
      exact Nat.le_trans (endLiteral_length _ p) (Nat.le_succ_of_le hlen)
    · exact Nat.le_refl _

theorem stepMark_length (b : UInt8) (t : Bytes) : (stepMark b t).2.length ≤ t.length := by
  unfold stepMark
  split
  · show (t.drop _).length ≤ _
    rw [List.length_drop]
    omega
  · exact Nat.le_refl _

theorem stepToken_length (b : UInt8) (t : Bytes) : (stepToken b t).2.length ≤ t.length := by
  unfold stepToken
  split_ifs
  · exact endNumber_length b t
  · exact Nat.le_trans (stepWord_length _ _) (List.dropWhile_sublist _).length_le
  · split
    · rename_i p hp
      exact Nat.le_trans (endLiteral_length _ p) (closeLiteral?_length hp)
    · exact Nat.le_refl _
  · exact stepMark_length b t

/-- A step of the lexer never makes the text longer, which is why it ends. -/
theorem step_length (b : UInt8) (t : Bytes) : (step b t).2.length ≤ t.length := by
  unfold step
  split_ifs
  · exact Nat.le_refl _
  · exact Nat.le_refl _
  · exact (List.dropWhile_sublist _).length_le
  · refine Nat.le_trans (afterComment_length _) ?_
    rw [List.length_drop]
    omega
  · exact stepToken_length b t

/-- The tokens of a text whose lines are joined. -/
def lex (t : Bytes) : List CodeToken :=
  match t with
  | [] => []
  | b :: t => (step b t).1.toList ++ lex (step b t).2
termination_by t.length
decreasing_by
  have := step_length b t
  simp only [List.length_cons]
  omega

/-- The tokens of a text. -/
def tokens (t : Bytes) : List CodeToken := lex (splice t)

example : tokens (ascii "x=\x7bu8\"\x7d\"s, 1e+2\x7d; // \x7d") =
    [.word (ascii "x"), .mark (ascii "="), .mark (ascii "\x7b"), .literal (ascii "u8\"\x7d\"s"),
      .mark (ascii ","), .number (ascii "1e+2"), .mark (ascii "\x7d"), .mark (ascii ";")] := by
  decide +kernel

/-! ## Lines that are cut up by themselves -/

/-- Where the scan of a line stands: outside of strings, behind a word or not, or in a string, where the next
byte may be escaped. -/
inductive Mode where
  | apart
  | behindWord
  | inString (escaped : Bool)
  deriving DecidableEq

def Mode.outside : Mode → Bool
  | .inString _ => false
  | _ => true

/-- Bytes that end a line, open a character or a comment, join lines or make other spellings of braces. -/
def risky : Bytes := [Byte.newline, singleQuote, Byte.slash, backslash, Byte.percent]

/-- The depth that a byte adds, outside of literals. -/
def depthOfByte (b : UInt8) : Int := if b = openBrace then 1 else if b = closeBrace then -1 else 0

/-- The scan of one byte, with the depth that the byte adds. -/
def advance : Mode → UInt8 → Option (Mode × Int)
  | .inString escaped, b =>
    if b = Byte.newline then none
    else if b = doubleQuote ∧ escaped = false then some (.apart, 0)
    else some (.inString (!escaped && b == backslash), 0)
  | m, b =>
    if b ∈ risky then none
    -- A quote behind a word may have an encoding, or open a raw string.
    else if b = doubleQuote then if m = .apart then some (.inString false, 0) else none
    else some (if Byte.isWord b then .behindWord else .apart, depthOfByte b)

def scan : Mode → Bytes → Option (Mode × Int)
  | m, [] => some (m, 0)
  | m, b :: t => do
    let (m, d) ← advance m b
    let (m, e) ← scan m t
    return (m, d + e)

/-- The scan of a text goes from one mode to another, and the text adds a depth. -/
def Scans (m : Mode) (t : Bytes) (m' : Mode) (d : Int) : Prop := scan m t = some (m', d)

instance (m : Mode) (t : Bytes) (m' : Mode) (d : Int) : Decidable (Scans m t m' d) :=
  inferInstanceAs (Decidable (_ = _))

section

variable {m m' : Mode} {b : UInt8} {t : Bytes} {d : Int}

theorem scans_nil : Scans m [] m' d ↔ m' = m ∧ d = 0 := by
  simp [Scans, scan, eq_comm]

/-- A scan goes byte by byte, and its depths add up. -/
theorem scans_cons :
    Scans m (b :: t) m' d ↔ ∃ m₁ d₁ e, advance m b = some (m₁, d₁) ∧ Scans m₁ t m' e ∧ d = d₁ + e := by
  simp only [Scans, scan, Option.bind_eq_bind, Option.bind_eq_some_iff, Option.pure_def, Option.some.injEq,
    Prod.mk.injEq, Prod.exists]
  constructor
  · rintro ⟨m₁, d₁, hb, _, e, ht, rfl, rfl⟩
    exact ⟨m₁, d₁, e, hb, ht, rfl⟩
  · rintro ⟨m₁, d₁, e, hb, ht, rfl⟩
    exact ⟨m₁, d₁, hb, m', e, ht, rfl, rfl⟩

/-- Scans that follow each other are one scan. -/
theorem Scans.append {m₁ : Mode} {u : Bytes} {e : Int} (ht : Scans m t m₁ d)
    (hu : Scans m₁ u m' e) : Scans m (t ++ u) m' (d + e) := by
  induction t generalizing m d with
  | nil =>
    obtain ⟨rfl, rfl⟩ := scans_nil.mp ht
    rw [Int.zero_add]
    exact hu
  | cons b t ih =>
    obtain ⟨m₂, d₂, e₂, hb, hrest, rfl⟩ := scans_cons.mp ht
    rw [Int.add_assoc]
    exact scans_cons.mpr ⟨m₂, d₂, e₂ + e, hb, ih hrest, rfl⟩

/-- What a byte outside of strings can do to a scan. -/
theorem advance_outside {m₁ : Mode} (hm : m.outside = true)
    (h : advance m b = some (m₁, d)) :
    b ∉ risky ∧ (b = doubleQuote ∧ m = .apart ∧ m₁ = .inString false ∧ d = 0 ∨
      b ≠ doubleQuote ∧ m₁ = (if Byte.isWord b then .behindWord else .apart) ∧ d = depthOfByte b) := by
  have hrisky : b ∉ risky := by
    intro hb
    cases m <;> simp [advance, hb, Mode.outside] at h hm
  refine ⟨hrisky, ?_⟩
  by_cases hquote : b = doubleQuote
  · left
    cases m <;> simp_all [advance, Mode.outside]
  · right
    cases m <;> simp_all [advance, Mode.outside]

/-- No scan goes past the end of a line. -/
theorem Scans.oneLine (h : Scans m t m' d) : Byte.newline ∉ t := by
  induction t generalizing m d with
  | nil => exact List.not_mem_nil
  | cons b t ih =>
    obtain ⟨m₁, d₁, e, hb, ht, -⟩ := scans_cons.mp h
    have hline : b ≠ Byte.newline := by
      rintro rfl
      cases m <;> cases hb
    rw [List.mem_cons, not_or]
    exact ⟨hline.symm, ih ht⟩

/-- What a byte in a string can do to a scan. -/
theorem advance_inString {escaped : Bool} {m₁ : Mode}
    (h : advance (.inString escaped) b = some (m₁, d)) :
    b ≠ Byte.newline ∧ d = 0 ∧
      (b = doubleQuote ∧ escaped = false ∧ m₁ = .apart ∨
        ¬ (b = doubleQuote ∧ escaped = false) ∧ m₁ = .inString (!escaped && b == backslash)) := by
  rw [advance] at h
  split_ifs at h with hline hclose
  · cases h
    exact ⟨hline, rfl, Or.inl ⟨hclose.1, hclose.2, rfl⟩⟩
  · cases h
    exact ⟨hline, rfl, Or.inr ⟨hclose, rfl⟩⟩

/-- A scan goes over bytes that are no quotes and stays outside of strings. -/
theorem Scans.skip {w : Bytes} (hm : m.outside = true) (hw : doubleQuote ∉ w)
    (h : Scans m (w ++ t) m' d) :
    (∀ b ∈ w, b ∉ risky) ∧
      ∃ m₁ e, m₁.outside = true ∧ Scans m₁ t m' e ∧ d = (w.map depthOfByte).sum + e := by
  induction w generalizing m d with
  | nil => exact ⟨fun _ hb => absurd hb List.not_mem_nil, m, d, hm, h, (Int.zero_add d).symm⟩
  | cons b w ih =>
    rw [List.mem_cons, not_or] at hw
    obtain ⟨m₂, d₂, e₂, hb, ht, rfl⟩ := scans_cons.mp h
    obtain ⟨hrisky, ⟨hquote, _⟩ | ⟨_, rfl, rfl⟩⟩ := advance_outside hm hb
    · exact absurd hquote.symm hw.1
    · have hout : Mode.outside (if Byte.isWord b then .behindWord else .apart) = true := by
        split <;> rfl
      obtain ⟨hrest, m₁, e, hm₁, hback, rfl⟩ := ih hout hw.2 ht
      refine ⟨List.forall_mem_cons.mpr ⟨hrisky, hrest⟩, m₁, e, hm₁, hback, ?_⟩
      rw [List.map_cons, List.sum_cons, Int.add_assoc]

/-- In a string, a scan that ends outside of strings finds the quote that closes it. -/
theorem Scans.close {escaped : Bool} (hm' : m'.outside = true)
    (h : Scans (.inString escaped) t m' d) :
    ∃ body after, t = body ++ after ∧
      (∀ rest, closeLiteral? doubleQuote escaped (t ++ rest) = some (body, after ++ rest)) ∧
      Scans .apart after m' d := by
  induction t generalizing escaped d with
  | nil =>
    obtain ⟨rfl, _⟩ := scans_nil.mp h
    cases hm'
  | cons b t ih =>
    obtain ⟨m₁, d₁, e, hb, ht, rfl⟩ := scans_cons.mp h
    obtain ⟨hline, rfl, ⟨hquote, hesc, rfl⟩ | ⟨hopen, rfl⟩⟩ := advance_inString hb
    · refine ⟨[b], t, rfl, fun rest => ?_, ?_⟩
      · rw [List.cons_append, closeLiteral?, if_neg hline, if_pos ⟨hquote, hesc⟩]
      · rw [Int.zero_add]
        exact ht
    · obtain ⟨body, after, hsplit, hclose, hafter⟩ := ih ht
      refine ⟨b :: body, after, congrArg (b :: ·) hsplit, fun rest => ?_, ?_⟩
      · rw [List.cons_append, closeLiteral?, if_neg hline, if_neg hopen, hclose rest]
        rfl
      · rw [Int.zero_add]
        exact hafter

/-! What a step takes does not depend on the text behind the line. -/

theorem lineEnds_iff {t : Bytes} : LineEnds t ↔ t = [] ∨ ∃ u, t = Byte.newline :: u := by
  cases t <;> simp [LineEnds]

theorem head?_append_lineEnds {p : UInt8 → Bool} (hp : p Byte.newline = false) (t : Bytes) {rest : Bytes}
    (hrest : LineEnds rest) : (t ++ rest).head?.any p = t.head?.any p := by
  cases t with
  | cons b t => rfl
  | nil =>
    rcases lineEnds_iff.mp hrest with rfl | ⟨u, rfl⟩
    · rfl
    · exact hp

/-- What is taken off a line does not depend on the lines behind it. -/
theorem takeWhile_append_lineEnds {p : UInt8 → Bool} (hp : p Byte.newline = false) (t : Bytes)
    {rest : Bytes} (hrest : LineEnds rest) :
    (t ++ rest).takeWhile p = t.takeWhile p ∧ (t ++ rest).dropWhile p = t.dropWhile p ++ rest := by
  induction t with
  | nil =>
    rcases lineEnds_iff.mp hrest with rfl | ⟨u, rfl⟩
    · exact ⟨rfl, rfl⟩
    · simp [hp]
  | cons b t ih =>
    rw [List.cons_append, List.takeWhile_cons, List.takeWhile_cons, List.dropWhile_cons,
      List.dropWhile_cons]
    cases p b with
    | true => exact ⟨congrArg (b :: ·) ih.1, ih.2⟩
    | false => exact ⟨rfl, rfl⟩

/-- Whether a text starts with another one is decided before a byte that the other one does not hold. -/
theorem startsWith_append_cons {w : Bytes} {b : UInt8} (hw : b ∉ w) (t rest : Bytes) :
    Bytes.startsWith (t ++ b :: rest) w = Bytes.startsWith t w := by
  induction w generalizing t with
  | nil => simp [Bytes.startsWith]
  | cons c w ih =>
    rw [List.mem_cons, not_or] at hw
    cases t with
    | cons d t =>
      have hrest := ih hw.2 t
      simp only [Bytes.startsWith] at hrest
      simp [Bytes.startsWith, List.isPrefixOf, hrest]
    | nil =>
      have hb : (c == b) = false := beq_eq_false_iff_ne.mpr (Ne.symm hw.1)
      simp [Bytes.startsWith, List.isPrefixOf, hb]

theorem marks_oneLine : ∀ m ∈ marks, m ≠ [] ∧ Byte.newline ∉ m ∧ doubleQuote ∉ m := by
  decide

theorem mark?_append_cons {b : UInt8} (hb : b ∉ marks.flatten) (t rest : Bytes) :
    mark? (t ++ b :: rest) = mark? t := by
  have hscope (w : Bytes) (hw : w ⊆ marks.flatten) := startsWith_append_cons (fun h => hb (hw h)) t rest
  have hmarks (ms : List Bytes) (h : ∀ m ∈ ms, m ⊆ marks.flatten) :
      ms.find? (Bytes.startsWith (t ++ b :: rest)) = ms.find? (Bytes.startsWith t) := by
    induction ms with
    | nil => rfl
    | cons m ms ih =>
      rw [List.forall_mem_cons] at h
      rw [List.find?_cons, List.find?_cons, hscope m h.1, ih h.2]
  unfold mark?
  rw [hscope (ascii "<::") (by decide), hscope (ascii "<:::") (by decide), hscope (ascii "<::>") (by decide),
    hmarks marks fun m hm _ hc => List.mem_flatten_of_mem hm hc]

/-- Neither does the mark that a line starts with. -/
theorem mark?_append_lineEnds (t : Bytes) {rest : Bytes} (hrest : LineEnds rest) :
    mark? (t ++ rest) = mark? t := by
  rcases lineEnds_iff.mp hrest with rfl | ⟨u, rfl⟩
  · rw [List.append_nil]
  · exact mark?_append_cons (by decide) t u

theorem continuesNumber_append_lineEnds (previous b : UInt8) (t : Bytes) {rest : Bytes}
    (hrest : LineEnds rest) : continuesNumber previous b (t ++ rest) = continuesNumber previous b t := by
  unfold continuesNumber
  rw [head?_append_lineEnds (by decide) t hrest]

/-- Nor does the end of a number. -/
theorem endNumber_append_lineEnds (previous : UInt8) (t : Bytes) {rest : Bytes} (hrest : LineEnds rest) :
    endNumber previous (t ++ rest) = ((endNumber previous t).1, (endNumber previous t).2 ++ rest) := by
  induction t generalizing previous with
  | nil =>
    rcases lineEnds_iff.mp hrest with rfl | ⟨u, rfl⟩
    · rfl
    · have hstop : continuesNumber previous Byte.newline u = false := rfl
      show endNumber previous (Byte.newline :: u) = ([], Byte.newline :: u)
      rw [endNumber, hstop]
      rfl
  | cons b t ih =>
    rw [List.cons_append, endNumber, endNumber, continuesNumber_append_lineEnds previous b t hrest, ih b]
    split <;> rfl

/-- A byte that is no quote and no brace. -/
def plain (b : UInt8) : Bool := b != doubleQuote && b != openBrace && b != closeBrace

theorem plain_of_isWord {b : UInt8} (h : Byte.isWord b = true) : plain b = true := by
  have hne : ∀ c, Byte.isWord c = false → b ≠ c := fun c hc => Byte.ne_of_isWord h hc
  simp [plain, hne doubleQuote (by decide), hne openBrace (by decide), hne closeBrace (by decide)]

theorem plain_of_isSpace {b : UInt8} (h : Byte.isSpace b = true) : plain b = true := by
  have hne : ∀ c, Byte.isSpace c = false → b ≠ c := by
    rintro c hc rfl
    rw [h] at hc
    cases hc
  simp [plain, hne doubleQuote (by decide), hne openBrace (by decide), hne closeBrace (by decide)]

theorem plain_of_continuesNumber {previous b : UInt8} {t : Bytes} (h : continuesNumber previous b t = true) :
    plain b = true := by
  simp only [continuesNumber, Bool.or_eq_true, Bool.and_eq_true, beq_iff_eq] at h
  rcases h with ((hword | rfl) | ⟨rfl | rfl, _⟩) | ⟨rfl, _⟩
  · exact plain_of_isWord hword
  all_goals rfl

/-- A number takes plain bytes only, and loses none. -/
theorem endNumber_split (previous : UInt8) (t : Bytes) :
    (endNumber previous t).1 ++ (endNumber previous t).2 = t ∧
      ∀ b ∈ (endNumber previous t).1, plain b = true := by
  induction t generalizing previous with
  | nil => exact ⟨rfl, fun _ hb => absurd hb List.not_mem_nil⟩
  | cons b t ih =>
    rw [endNumber]
    split
    · rename_i hb
      exact ⟨congrArg (b :: ·) (ih b).1,
        List.forall_mem_cons.mpr ⟨plain_of_continuesNumber hb, (ih b).2⟩⟩
    · exact ⟨rfl, fun _ hb => absurd hb List.not_mem_nil⟩

/-! ## Tokens and depth of a line -/

/-- The depth that a token adds. Braces have a second spelling. -/
def depth : CodeToken → Int
  | .mark m =>
    if m = ascii "\x7b" ∨ m = ascii "<%" then 1
    else if m = ascii "\x7d" ∨ m = ascii "%>" then -1
    else 0
  | _ => 0

/-- The depth that tokens add. -/
def depthOf (ts : List CodeToken) : Int := (ts.map depth).sum

/-- Depths add up. -/
theorem depthOf_append (ts us : List CodeToken) : depthOf (ts ++ us) = depthOf ts + depthOf us := by
  rw [depthOf, List.map_append, List.sum_append]
  rfl

/-- The token is no literal, or a literal that is closed on the line on which it is opened. -/
def isClosed : CodeToken → Bool
  | .unclosed _ => false
  | .literal text => !text.contains Byte.newline
  | _ => true

/-- `Cuts b t m' d`: at the line `b :: t` a step takes a token that ends with the line at the latest, whatever
comes behind the line, and the rest of the line can be scanned outside of strings. -/
def Cuts (b : UInt8) (t : Bytes) (m' : Mode) (d : Int) : Prop :=
  ∃ (k : Option CodeToken) (t' : Bytes) (m : Mode) (e : Int),
    (∀ rest, LineEnds rest → step b (t ++ rest) = (k, t' ++ rest)) ∧ k.all isClosed = true ∧
    m.outside = true ∧ Scans m t' m' e ∧ d = depthOf k.toList + e

/-- A step that takes no quotes cuts, if the braces it takes are the ones of its token. -/
theorem Scans.cuts {w t' : Bytes} {k : Option CodeToken} (hm : m.outside = true)
    (h : Scans m (b :: t) m' d) (ht : t = w ++ t')
    (hquote : doubleQuote ∉ b :: w) (hk : k.all isClosed = true)
    (hdepth : (∀ c ∈ b :: w, c ∉ risky) → depthOf k.toList = ((b :: w).map depthOfByte).sum)
    (hstep : ∀ rest, LineEnds rest → CodeToken.step b (t ++ rest) = (k, t' ++ rest)) : Cuts b t m' d := by
  rw [ht, ← List.cons_append] at h
  obtain ⟨hrisky, m₁, e, hm₁, hscan, rfl⟩ := h.skip hm hquote
  exact ⟨k, t', m₁, e, hstep, hk, hm₁, hscan, by rw [hdepth hrisky]⟩

theorem not_quote_of_plain {w : Bytes} (h : ∀ b ∈ w, plain b = true) : doubleQuote ∉ w :=
  fun hmem => absurd (h _ hmem) (by decide)

theorem sum_depthOfByte_plain {w : Bytes} (h : ∀ b ∈ w, plain b = true) : (w.map depthOfByte).sum = 0 := by
  apply List.sum_eq_zero
  intro d hd
  obtain ⟨b, hb, rfl⟩ := List.mem_map.mp hd
  have := h b hb
  simp only [plain, Bool.and_eq_true, bne_iff_ne] at this
  simp [depthOfByte, this]

/-- A step that takes plain bytes cuts, if its token is no brace. -/
theorem Scans.cuts_plain {w t' : Bytes} {k : Option CodeToken} (hm : m.outside = true)
    (h : Scans m (b :: t) m' d) (ht : t = w ++ t')
    (hplain : ∀ c ∈ b :: w, plain c = true) (hk : k.all isClosed = true) (hdepth : depthOf k.toList = 0)
    (hstep : ∀ rest, LineEnds rest → CodeToken.step b (t ++ rest) = (k, t' ++ rest)) : Cuts b t m' d :=
  h.cuts hm ht (not_quote_of_plain hplain) hk (fun _ => hdepth.trans (sum_depthOfByte_plain hplain).symm)
    hstep

/-- A suffix ends with the line at the latest. -/
theorem suffix_append_lineEnds (t : Bytes) {rest : Bytes} (hrest : LineEnds rest) :
    suffix (t ++ rest) = suffix t := by
  unfold suffix
  rw [head?_append_lineEnds (by decide) t hrest, (takeWhile_append_lineEnds (by decide) t hrest).1]

theorem suffix_split (t : Bytes) : suffix t <+: t ∧ ∀ b ∈ suffix t, plain b = true := by
  unfold suffix
  split
  · exact ⟨List.nil_prefix, fun _ hb => absurd hb List.not_mem_nil⟩
  · exact ⟨List.takeWhile_prefix _, fun b hb => plain_of_isWord (List.mem_takeWhile_imp hb)⟩

/-- The word at the start of a line has no literal behind it. -/
theorem stepWord_append_lineEnds {word : Bytes} (h : Scans .behindWord t m' d)
    {rest : Bytes} (hrest : LineEnds rest) : stepWord word (t ++ rest) = (some (.word word), t ++ rest) := by
  have hquote : ∀ b ∈ (t ++ rest).head?, b ≠ doubleQuote ∧ b ≠ singleQuote := by
    intro b hb
    cases t with
    | nil =>
      have hb : b = Byte.newline := hrest b hb
      rw [hb]
      decide
    | cons c t =>
      cases hb
      obtain ⟨m₁, d₁, e, hc, _, _⟩ := scans_cons.mp h
      obtain ⟨hrisky, ⟨_, hm, _⟩ | ⟨hquote, _⟩⟩ := advance_outside rfl hc
      · cases hm
      · refine ⟨hquote, fun hc => hrisky ?_⟩
        rw [hc]
        decide
  cases ht : t ++ rest with
  | nil => rfl
  | cons b u =>
    obtain ⟨hdouble, hsingle⟩ := hquote b (by rw [ht]; rfl)
    simp [stepWord, hdouble, hsingle]

/-- A number ends with the line at the latest. -/
theorem Scans.cuts_number (hm : m.outside = true)
    (h : Scans m (b :: t) m' d) (hstart : ∀ u, CodeToken.step b u = stepToken b u)
    (hnumber : (Byte.isDigit b || (b == Byte.dot && t.head?.any Byte.isDigit)) = true) : Cuts b t m' d := by
  obtain ⟨hsplit, hplain⟩ := endNumber_split b t
  have hb : plain b = true := by
    simp only [Bool.or_eq_true, Bool.and_eq_true, beq_iff_eq] at hnumber
    rcases hnumber with hdigit | ⟨rfl, _⟩
    · apply plain_of_isWord
      simp [Byte.isWord, Byte.isAlnum, hdigit]
    · rfl
  refine h.cuts_plain hm (k := some (.number (b :: (endNumber b t).1))) hsplit.symm
    (List.forall_mem_cons.mpr ⟨hb, hplain⟩) rfl rfl ?_
  intro rest hrest
  rw [hstart, stepToken, head?_append_lineEnds (by decide) t hrest, if_pos hnumber,
    endNumber_append_lineEnds b t hrest]

/-- The scan of a word goes on behind it. -/
theorem Scans.behindWord {w : Bytes} (hw : ∀ b ∈ w, Byte.isWord b = true)
    (h : Scans .behindWord (w ++ t) m' d) : Scans .behindWord t m' d := by
  induction w generalizing d with
  | nil => exact h
  | cons b w ih =>
    rw [List.forall_mem_cons] at hw
    obtain ⟨m₁, d₁, e, hb, ht, rfl⟩ := scans_cons.mp h
    obtain ⟨-, ⟨hquote, -⟩ | ⟨-, rfl, rfl⟩⟩ := advance_outside rfl hb
    · rw [hquote] at hw
      cases hw.1
    · rw [if_pos hw.1] at ht
      have hzero := sum_depthOfByte_plain (w := [b]) (List.forall_mem_singleton.mpr (plain_of_isWord hw.1))
      rw [List.map_singleton, List.sum_singleton] at hzero
      rw [hzero, Int.zero_add]
      exact ih hw.2 ht

/-- A word ends with the line at the latest, and no literal follows it. -/
theorem Scans.cuts_word (hm : m.outside = true)
    (h : Scans m (b :: t) m' d) (hstart : ∀ u, CodeToken.step b u = stepToken b u)
    (hnumber : ¬ (Byte.isDigit b || (b == Byte.dot && t.head?.any Byte.isDigit)) = true)
    (hword : Byte.isWord b = true) : Cuts b t m' d := by
  have hplain : ∀ c ∈ b :: t.takeWhile Byte.isWord, plain c = true :=
    List.forall_mem_cons.mpr ⟨plain_of_isWord hword, fun c hc => plain_of_isWord (List.mem_takeWhile_imp hc)⟩
  have hsplit := (List.takeWhile_append_dropWhile (p := Byte.isWord) (l := t)).symm
  -- The scan stands behind a word there, so that no quote can follow.
  obtain ⟨m₁, d₁, e, hb, ht, -⟩ := scans_cons.mp h
  have hm₁ : m₁ = .behindWord := by
    obtain ⟨-, ⟨hquote, -⟩ | ⟨-, hm₁, -⟩⟩ := advance_outside hm hb
    · rw [hquote] at hword
      cases hword
    · rw [hm₁, if_pos hword]
  have hbehind : Scans .behindWord (t.dropWhile Byte.isWord) m' e := by
    rw [hm₁, hsplit] at ht
    exact ht.behindWord fun c hc => List.mem_takeWhile_imp hc
  refine h.cuts_plain hm (k := some (.word (b :: t.takeWhile Byte.isWord))) hsplit hplain rfl rfl ?_
  intro rest hrest
  obtain ⟨htake, hdrop⟩ := takeWhile_append_lineEnds (p := Byte.isWord) (by decide) t hrest
  rw [hstart, stepToken, head?_append_lineEnds (by decide) t hrest, if_neg hnumber, if_pos hword, htake,
    hdrop, stepWord_append_lineEnds hbehind hrest]

/-- A string ends on its line, and so does its suffix. -/
theorem Scans.cuts_string (hm' : m'.outside = true)
    (h : Scans (.inString false) t m' d) : Cuts doubleQuote t m' d := by
  obtain ⟨body, after, ht, hclose, hafter⟩ := h.close hm'
  obtain ⟨⟨t', hsplit⟩, hplain⟩ := suffix_split after
  -- Body and suffix are a part of the line.
  have honeLine : ([doubleQuote] ++ body ++ suffix after).contains Byte.newline = false := by
    have hline := h.oneLine
    rw [ht, ← hsplit] at hline
    simp only [List.mem_append, not_or] at hline
    simp +decide [hline.1, hline.2.1]
  rw [← hsplit] at hafter
  obtain ⟨-, m₁, e, hm₁, hback, rfl⟩ := hafter.skip rfl (not_quote_of_plain hplain)
  refine ⟨some (.literal ([doubleQuote] ++ body ++ suffix after)), t', m₁, e, ?_, ?_, hm₁, hback, ?_⟩
  · intro rest hrest
    have hnumber (c : Bool) : ¬ (Byte.isDigit doubleQuote || (doubleQuote == Byte.dot && c)) = true := by
      cases c <;> decide
    have hall : suffix after ++ (t' ++ rest) = after ++ rest := by rw [← List.append_assoc, hsplit]
    show stepToken doubleQuote (t ++ rest) = _
    unfold stepToken
    rw [if_neg (hnumber _), if_neg (by decide), if_pos (Or.inl rfl), hclose rest]
    show endLiteral [doubleQuote] (body, after ++ rest) = _
    unfold endLiteral
    rw [suffix_append_lineEnds after hrest, ← hall, List.drop_left]
  · show (!_) = true
    rw [honeLine]
    rfl
  · rw [sum_depthOfByte_plain hplain]
    rfl

/-- The braces of a mark are those of its bytes. -/
theorem depth_mark : ∀ m ∈ marks, Byte.percent ∉ m → depth (.mark m) = (m.map depthOfByte).sum := by
  decide

theorem mem_of_mark? {t m : Bytes} (h : mark? t = some m) : m ∈ marks ∧ Bytes.startsWith t m = true := by
  unfold mark? at h
  split at h
  · rename_i hscope
    obtain rfl := Option.some.inj h
    simp only [Bool.and_eq_true, Bytes.startsWith, List.isPrefixOf_iff_prefix] at hscope ⊢
    have hshort : ascii "<" <+: ascii "<::" := by decide
    exact ⟨by decide, hshort.trans hscope.1.1⟩
  · exact ⟨List.mem_of_find?_eq_some h, List.find?_some h⟩

/-- Braces are marks. -/
theorem depthOfByte_of_mark?_none (h : mark? (b :: t) = none) : depthOfByte b = 0 := by
  have hnone : ∀ m ∈ marks, ¬ Bytes.startsWith (b :: t) m = true := by
    unfold mark? at h
    split at h
    · cases h
    · exact List.find?_eq_none.mp h
  have hbrace (c : UInt8) (hc : [c] ∈ marks) : b ≠ c := by
    rintro rfl
    exact hnone [b] hc (by simp [Bytes.startsWith, List.isPrefixOf])
  rw [depthOfByte, if_neg (hbrace openBrace (by decide)), if_neg (hbrace closeBrace (by decide))]

/-- A mark ends with the line at the latest. -/
theorem Scans.cuts_mark (hm : m.outside = true)
    (h : Scans m (b :: t) m' d) (hquote : b ≠ doubleQuote)
    (hstart : ∀ u, LineEnds u → CodeToken.step b (t ++ u) = stepMark b (t ++ u)) : Cuts b t m' d := by
  have hmark {u : Bytes} (hu : LineEnds u) : mark? (b :: (t ++ u)) = mark? (b :: t) :=
    mark?_append_lineEnds (b :: t) hu
  cases hcase : mark? (b :: t) with
  | some k =>
    obtain ⟨hmem, hlead⟩ := mem_of_mark? hcase
    obtain ⟨hne, -, hk⟩ := marks_oneLine k hmem
    obtain ⟨t', hsplit⟩ := List.isPrefixOf_iff_prefix.mp hlead
    cases k with
    | nil => exact absurd rfl hne
    | cons c w =>
      obtain ⟨rfl, rfl⟩ := List.cons.inj hsplit
      refine h.cuts hm (k := some (.mark (c :: w))) rfl hk rfl ?_ ?_
      · intro hrisky
        have hpercent : Byte.percent ∉ c :: w := fun hmem => hrisky _ hmem (by decide)
        rw [← depth_mark _ hmem hpercent]
        exact Int.add_zero _
      · intro rest hrest
        rw [hstart rest hrest, stepMark, hmark hrest, hcase]
        show (_, ((w ++ t') ++ rest).drop w.length) = _
        rw [List.append_assoc, List.drop_left]
  | none =>
    -- A byte that starts no mark is no brace.
    refine h.cuts hm (k := some (.other b)) (w := []) rfl ?_ rfl ?_ ?_
    · exact fun hmem => hquote (List.mem_singleton.mp hmem).symm
    · intro _
      rw [List.map_singleton, List.sum_singleton, depthOfByte_of_mark?_none hcase]
      rfl
    · intro rest hrest
      rw [hstart rest hrest, stepMark, hmark hrest, hcase]

/-- A step at a line that can be scanned cuts. -/
theorem Scans.step (hm : m.outside = true)
    (hm' : m'.outside = true) (h : Scans m (b :: t) m' d) : Cuts b t m' d := by
  obtain ⟨m₁, d₁, e, hb, ht, hd⟩ := scans_cons.mp h
  obtain ⟨hrisky, hcase⟩ := advance_outside hm hb
  simp only [risky, List.mem_cons, List.not_mem_nil, or_false, not_or] at hrisky
  obtain ⟨hline, hsingle, hslash, _, _⟩ := hrisky
  by_cases hspace : Byte.isSpace b = true
  · refine h.cuts_plain hm (w := []) (k := none) rfl ?_ rfl rfl ?_
    · exact List.forall_mem_singleton.mpr (plain_of_isSpace hspace)
    · intro rest _
      rw [CodeToken.step, if_neg hline, if_pos hspace]
  have hstart (u : Bytes) : CodeToken.step b u = stepToken b u := by
    rw [CodeToken.step, if_neg hline, if_neg hspace, if_neg fun h => hslash h.1,
      if_neg fun h => hslash h.1]
  by_cases hnumber : (Byte.isDigit b || (b == Byte.dot && t.head?.any Byte.isDigit)) = true
  · exact h.cuts_number hm hstart hnumber
  by_cases hword : Byte.isWord b = true
  · exact h.cuts_word hm hstart hnumber hword
  rcases hcase with ⟨rfl, rfl, rfl, rfl⟩ | ⟨hquote, -⟩
  · rw [hd, Int.zero_add]
    exact ht.cuts_string hm'
  · refine h.cuts_mark hm hquote ?_
    intro rest hrest
    rw [hstart, stepToken, head?_append_lineEnds (by decide) t hrest, if_neg hnumber, if_neg hword,
      if_neg (not_or.mpr ⟨hquote, hsingle⟩)]

/-- A text is lexed one step after the other. -/
theorem lex_cons (b : UInt8) (t : Bytes) : lex (b :: t) = (step b t).1.toList ++ lex (step b t).2 := by
  rw [lex]

/-- The tokens of a line do not depend on the text behind it, add the depth that its scan finds, and leave no
literal open. -/
theorem Scans.lex (hm : m.outside = true) (hm' : m'.outside = true)
    (h : Scans m t m' d) :
    (∀ rest, LineEnds rest → CodeToken.lex (t ++ rest) = CodeToken.lex t ++ CodeToken.lex rest) ∧
      depthOf (CodeToken.lex t) = d ∧ ∀ k ∈ CodeToken.lex t, k.isClosed = true := by
  -- The induction is on the length, because a step takes more than one byte at a time.
  induction hn : t.length using Nat.strong_induction_on generalizing m t d with
  | _ n ih =>
    cases t with
    | nil =>
      obtain ⟨-, rfl⟩ := scans_nil.mp h
      simp [CodeToken.lex, depthOf]
    | cons b t =>
      obtain ⟨k, t', m₁, e, hstep, hk, hm₁, hscan, rfl⟩ := h.step hm hm'
      have hhere : CodeToken.step b t = (k, t') := by
        have := hstep [] lineEnds_nil
        rwa [List.append_nil, List.append_nil] at this
      have hshort : t'.length < n := by
        have := step_length b t
        rw [hhere] at this
        rw [← hn]
        exact Nat.lt_succ_of_le this
      obtain ⟨hrest, hdepth, hclosed⟩ := ih t'.length hshort hm₁ hscan rfl
      rw [lex_cons, hhere]
      refine ⟨fun rest hline => ?_, ?_, ?_⟩
      · rw [List.cons_append, lex_cons, hstep rest hline, hrest rest hline, List.append_assoc]
      · rw [depthOf_append, hdepth]
      · intro k' hk'
        rcases List.mem_append.mp hk' with hmem | hmem
        · exact (Option.all_eq_true _ _).mp hk k' (Option.mem_toList.mp hmem)
        · exact hclosed k' hmem

/-- A line that can be scanned is not joined to the next one: a backslash stands in a string only, which goes
on behind it. -/
theorem Scans.splice (hm' : m'.outside = true) (h : Scans m t m' d)
    (rest : Bytes) : CodeToken.splice (t ++ rest) = t ++ CodeToken.splice rest := by
  induction t generalizing m d with
  | nil => rfl
  | cons b t ih =>
    have honeLine := h.oneLine
    obtain ⟨m₁, d₁, e, hb, ht, -⟩ := scans_cons.mp h
    have hlast : t = [] → b ≠ backslash := by
      rintro rfl rfl
      obtain ⟨rfl, -⟩ := scans_nil.mp ht
      cases m with
      | inString escaped =>
        cases hb
        cases hm'
      | _ => cases hb
    have hnext := ih ht
    rw [List.cons_append, List.cons_append, ← hnext]
    cases htail : t ++ rest with
    | nil => rfl
    | cons c u =>
      rw [CodeToken.splice, if_neg]
      rintro ⟨hback, hline⟩
      cases t with
      | nil => exact hlast rfl hback
      | cons c' t =>
        obtain ⟨rfl, -⟩ := List.cons.inj htail
        rw [hline] at honeLine
        exact honeLine (List.mem_cons_of_mem _ List.mem_cons_self)

end

/-! ## Texts made of such lines -/

/-- A line of code that closes its literals and adds a depth. -/
def CodeLine (l : Bytes) (d : Int) : Prop := ∃ m : Mode, m.outside = true ∧ Scans .apart l m d

/-- The depth that a line is scanned to is the depth of its tokens. -/
theorem CodeLine.depthOf_lex {l : Bytes} {d : Int} (h : CodeLine l d) : depthOf (lex l) = d := by
  obtain ⟨m, hm, hscan⟩ := h
  exact (hscan.lex rfl hm).2.1

/-- No token of a line of code goes on behind the line. -/
theorem CodeLine.isClosed {l : Bytes} {d : Int} (h : CodeLine l d) : ∀ k ∈ lex l, k.isClosed = true := by
  obtain ⟨m, hm, hscan⟩ := h
  exact (hscan.lex rfl hm).2.2

theorem CodeLine.oneLine {l : Bytes} {d : Int} (h : CodeLine l d) : Byte.newline ∉ l := by
  obtain ⟨m, -, hscan⟩ := h
  exact hscan.oneLine

theorem CodeLine.tokens_eq {l : Bytes} {d : Int} (h : CodeLine l d) : tokens l = lex l := by
  obtain ⟨m, hm, hscan⟩ := h
  have hsplice := hscan.splice hm []
  rw [List.append_nil, splice, List.append_nil] at hsplice
  rw [tokens, hsplice]

/-- The usual step when a text is cut up: its first line is a line of code. -/
theorem tokens_line {l : Bytes} {d : Int} (h : CodeLine l d) (t : Bytes) :
    tokens (l ++ Byte.newline :: t) = lex l ++ .newline :: tokens t := by
  obtain ⟨m, hm, hscan⟩ := h
  have hnewline : splice (Byte.newline :: t) = Byte.newline :: splice t := by
    cases t with
    | nil => rfl
    | cons c t => rw [splice, if_neg fun h => absurd h.1 (by decide)]
  have hends : LineEnds (Byte.newline :: splice t) := lineEnds_iff.mpr (Or.inr ⟨_, rfl⟩)
  rw [tokens, hscan.splice hm, hnewline, (hscan.lex rfl hm).1 _ hends, lex_cons]
  rfl

/-- A text that is made of lines of code has the tokens of its lines. They add the depth that the lines add,
and leave no literal open. -/
theorem tokens_unlines {ls : List Bytes} {depths : Bytes → Int} (h : ∀ l ∈ ls, CodeLine l (depths l)) :
    tokens (Bytes.unlines ls) = List.intercalate [.newline] (ls.map lex) ∧
      depthOf (tokens (Bytes.unlines ls)) = (ls.map depths).sum ∧
      ∀ k ∈ tokens (Bytes.unlines ls), k.isClosed = true := by
  induction ls with
  | nil => simp [Bytes.unlines, tokens, splice, lex, depthOf]
  | cons l ls ih =>
    rw [List.forall_mem_cons] at h
    cases ls with
    | nil =>
      have htext : Bytes.unlines [l] = l := by simp [Bytes.unlines]
      rw [htext, h.1.tokens_eq]
      exact ⟨by simp, h.1.depthOf_lex.trans (by simp), h.1.isClosed⟩
    | cons u ls =>
      obtain ⟨htokens, hdepth, hclosed⟩ := ih h.2
      have htext : Bytes.unlines (l :: u :: ls) = l ++ Byte.newline :: Bytes.unlines (u :: ls) := by
        rw [Bytes.unlines, List.intercalate_cons_cons, List.append_assoc]
        rfl
      rw [htext, tokens_line h.1]
      refine ⟨?_, ?_, ?_⟩
      · rw [htokens]
        simp only [List.map_cons, List.intercalate_cons_cons, List.append_assoc, List.singleton_append]
      · rw [depthOf_append, h.1.depthOf_lex, List.map_cons, List.sum_cons, ← hdepth]
        exact congrArg (depths l + ·) (Int.zero_add _)
      · intro k hk
        rcases List.mem_append.mp hk with hk | hk
        · exact h.1.isClosed k hk
        · rcases List.mem_cons.mp hk with rfl | hk
          · rfl
          · exact hclosed k hk

/-- Spaces before a line change neither its tokens nor its depth. -/
theorem CodeLine.indented {l : Bytes} {d : Int} (h : CodeLine l d) (n : Nat) :
    CodeLine (List.replicate n Byte.space ++ l) d ∧ lex (List.replicate n Byte.space ++ l) = lex l := by
  induction n with
  | zero => exact ⟨h, rfl⟩
  | succ n ih =>
    obtain ⟨⟨m, hm, hscan⟩, hlex⟩ := ih
    rw [List.replicate_succ, List.cons_append]
    constructor
    · exact ⟨m, hm, scans_cons.mpr ⟨.apart, 0, d, by decide, hscan, (Int.zero_add d).symm⟩⟩
    · rw [lex_cons, ← hlex]
      rfl

end CodeToken

end Trampoline

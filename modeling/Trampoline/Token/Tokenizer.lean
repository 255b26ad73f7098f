import Trampoline.Token

/-!
# Trampoline.Token.Tokenizer -- from bytes to tokens, one at a time

Between tokens lie gaps: bytes up to the space, and comments from a semicolon to the end of its line.
A token is a parenthesis, a string on one line, or an atom, the longest run of bytes that do not
delimit. A tokenizer holds the next token, its head, and the text after it. A step that fails keeps
the head; all it leaves behind is that the gap before the bad token is skipped. A step from any head
but the end of the input leaves less to read.
-/

namespace Trampoline

/-! ## Lexical classes -/

/-- The bytes of which gaps consist, comments apart. -/
def Byte.isBlank (b : UInt8) : Bool := b ≤ 32

/-- The bytes that end an atom. -/
def Byte.isDelimiter (b : UInt8) : Bool :=
  isBlank b || b == openParen || b == closeParen || b == doubleQuote || b == semicolon

/-- An optional sign and at least one digit, nothing else. -/
def isInteger (atom : Bytes) : Bool :=
  let digits := match atom with
    | b :: rest => if b = Byte.minus ∨ b = Byte.plus then rest else b :: rest
    | [] => []
  !digits.isEmpty && digits.all Byte.isDigit

/-- The kind of an atom. Of the atoms that start with a hash only the two truth values have one. -/
def atomKind? (atom : Bytes) : Option TokenKind :=
  if isInteger atom || atom == ascii "#t" || atom == ascii "#f" then some .literal
  else if atom.head? == some Byte.hash then none
  else some .identifier

/-! ## Scanning -/

/-- Drops the gap in front of a text, given whether it starts inside a comment. -/
def skipGap : Bool → Bytes → Bytes
  | _, [] => []
  | true, b :: rest => skipGap (b != Byte.newline) rest
  | false, b :: rest =>
    if Byte.isBlank b then skipGap false rest
    else if b = Byte.semicolon then skipGap true rest
    else b :: rest

/-- Splits the text behind an opening quote after the quote that closes it, given whether the next
byte is escaped. There is none if the line or the text ends first. -/
def closeString? : Bool → Bytes → Option (Bytes × Bytes)
  | _, [] => none
  | escaped, b :: rest =>
    if b = Byte.newline then none
    else if b = Byte.doubleQuote ∧ escaped = false then some ([b], rest)
    else (closeString? (!escaped && b == Byte.backslash) rest).map fun p => (b :: p.1, p.2)

/-- The first token of a text without a gap in front, which starts at an offset, and the text behind
the token. -/
def scanToken (offset : Nat) : Bytes → Except ReadError (Token × Bytes)
  | [] => .ok (⟨⟨offset, []⟩, .endOfInput⟩, [])
  | b :: rest =>
    if b = Byte.openParen then .ok (⟨⟨offset, [b]⟩, .openParen⟩, rest)
    else if b = Byte.closeParen then .ok (⟨⟨offset, [b]⟩, .closeParen⟩, rest)
    else if b = Byte.doubleQuote then
      match closeString? false rest with
      | some (body, after) => .ok (⟨⟨offset, b :: body⟩, .literal⟩, after)
      | none => .error (.unterminated ⟨offset, b :: rest.takeWhile (· != Byte.newline)⟩)
    else
      let atom := b :: rest.takeWhile fun c => !Byte.isDelimiter c
      match atomKind? atom with
      | some kind => .ok (⟨⟨offset, atom⟩, kind⟩, rest.dropWhile fun c => !Byte.isDelimiter c)
      | none => .error (.unsupported ⟨offset, atom⟩)

/-- The first token of the unread end of a source, and the text behind it. -/
def scan (source unread : Bytes) : Except ReadError (Token × Bytes) :=
  let text := skipGap false unread
  scanToken (source.length - text.length) text

/-! ### Scanning makes progress -/

theorem skipGap_length_le (inComment : Bool) (t : Bytes) : (skipGap inComment t).length ≤ t.length := by
  fun_induction skipGap inComment t <;> simp_all <;> omega

theorem closeString?_length {escaped : Bool} {t body after : Bytes}
    (h : closeString? escaped t = some (body, after)) : after.length < t.length := by
  induction t generalizing escaped body after with
  | nil => simp [closeString?] at h
  | cons b rest ih =>
    rw [closeString?] at h
    split at h
    · simp at h
    · split at h
      · simp at h
        simp [h.2]
      · obtain ⟨p, hp, he⟩ := Option.map_eq_some_iff.1 h
        obtain ⟨p1, p2⟩ := p
        have := ih hp
        simp only [Prod.mk.injEq] at he
        simp only [← he.2, List.length_cons]
        omega

theorem atomKind?_ne_endOfInput {atom : Bytes} {kind : TokenKind} (h : atomKind? atom = some kind) :
    kind ≠ .endOfInput := by
  rintro rfl
  rw [atomKind?] at h
  split at h
  · simp at h
  · split at h <;> simp at h

/-- A token other than the end of the input takes at least one byte. -/
theorem scanToken_length {offset : Nat} {t : Bytes} {tok : Token} {after : Bytes}
    (h : scanToken offset t = .ok (tok, after)) :
    (tok.kind = .endOfInput ∧ after = []) ∨ (tok.kind ≠ .endOfInput ∧ after.length < t.length) := by
  cases t with
  | nil =>
    simp only [scanToken, Except.ok.injEq, Prod.mk.injEq] at h
    simp [← h.1, ← h.2]
  | cons b rest =>
    rw [scanToken] at h
    split at h
    · simp only [Except.ok.injEq, Prod.mk.injEq] at h
      simp [← h.1, ← h.2]
    · split at h
      · simp only [Except.ok.injEq, Prod.mk.injEq] at h
        simp [← h.1, ← h.2]
      · split at h
        · split at h
          · rename_i heq
            simp only [Except.ok.injEq, Prod.mk.injEq] at h
            have := closeString?_length heq
            right
            simp only [← h.1, ← h.2, List.length_cons]
            exact ⟨by simp, by omega⟩
          · simp at h
        · dsimp only at h
          split at h
          · rename_i heq
            simp only [Except.ok.injEq, Prod.mk.injEq] at h
            right
            simp only [← h.1, ← h.2, List.length_cons]
            refine ⟨atomKind?_ne_endOfInput heq, ?_⟩
            have := (List.dropWhile_sublist (fun c => !Byte.isDelimiter c) (l := rest)).length_le
            omega
          · simp at h

/-! ## The tokenizer -/

/-- A source that is read up to and including its head. -/
structure Tokenizer where
  source : Bytes
  filename : Bytes
  unread : Bytes
  head : Token
  deriving DecidableEq

namespace Tokenizer

/-- The name of a source that has none. -/
def defaultFilename : Bytes := ascii "source.scm"

/-- A tokenizer whose head is the first token of a source. -/
def start (source filename : Bytes) : Except ReadError Tokenizer :=
  match scan source source with
  | .ok (head, unread) => .ok ⟨source, filename, unread, head⟩
  | .error e => .error e

/-- Replaces the head by the next token. -/
def advance (tk : Tokenizer) : Except ReadError Tokenizer :=
  match scan tk.source tk.unread with
  | .ok (head, unread) => .ok { tk with unread := unread, head := head }
  | .error e => .error e

/-- The tokenizer without the gap behind its head. A step that fails leaves it like this, since gaps
are skipped before tokens are looked at. -/
def skip (tk : Tokenizer) : Tokenizer := { tk with unread := skipGap false tk.unread }

/-- Whether the end of the input is reached. -/
def atEnd (tk : Tokenizer) : Bool := tk.head.kind == .endOfInput

/-- How much there is to read, the head included. -/
def remaining (tk : Tokenizer) : Nat := tk.unread.length + if tk.atEnd then 0 else 1

theorem remaining_advance {tk next : Tokenizer} (h : tk.advance = .ok next)
    (hend : tk.head.kind ≠ .endOfInput) : next.remaining < tk.remaining := by
  unfold advance scan at h
  dsimp only at h
  split at h
  · rename_i head unread heq
    simp only [Except.ok.injEq] at h
    have hlen := skipGap_length_le false tk.unread
    rcases scanToken_length heq with ⟨hk, hu⟩ | ⟨hk, hu⟩
    · subst h
      simp [remaining, atEnd, hk, hu, hend]
    · subst h
      simp only [remaining, atEnd, beq_iff_eq, hk, hend, if_false]
      omega
  · simp at h

/-- Fails unless the head is of a kind. -/
def expect (kind : TokenKind) (tk : Tokenizer) : Except ReadError Tokenizer :=
  if tk.head.kind = kind then .ok tk else .error (.expected kind tk.head.toSpan)

/-- The tokens up to the end of the input and the tokenizer there; or the first failure and what it
leaves of the tokenizer that failed. -/
def drain (tk : Tokenizer) : Except ReadError (List Token) × Tokenizer :=
  if _hend : tk.head.kind = .endOfInput then (.ok [], tk)
  else
    match _h : tk.advance with
    | .error e => (.error e, tk.skip)
    | .ok next =>
      match next.drain with
      | (.ok tokens, last) => (.ok (tk.head :: tokens), last)
      | (.error e, last) => (.error e, last)
termination_by tk.remaining
decreasing_by exact remaining_advance _h _hend

end Tokenizer

end Trampoline

import Trampoline.Proofs.Quoting

/-!
# Trampoline.Proofs.Requoting -- printed literals in the source language

The tables of mnemonics of the printer of string literals and of the reader of strings undo each other, but the
printer also writes octal, which the reader does not know. So a printed literal is always one token of the
source language, and what this token stands for depends on its bytes: without an octal escape it is the text
that was printed, and otherwise the first octal escape is refused, by its first two bytes.
-/

namespace Trampoline

open Byte (doubleQuote backslash)

/-- The bytes that are printed in octal: controls but those from the bell to the carriage return, the delete
byte, and all above ASCII. -/
def Byte.OctalOnly (b : UInt8) : Prop := (b < 32 ∧ ¬ (7 ≤ b ∧ b ≤ 13)) ∨ b = 127 ∨ 128 ≤ b

instance (b : UInt8) : Decidable (Byte.OctalOnly b) := inferInstanceAs (Decidable (_ ∨ _))

open Byte (OctalOnly)

/-! ## What is printed for a byte -/

/-- The three ways in which a byte is printed. -/
theorem escapeByte_cases (b : UInt8) :
    (¬ OctalOnly b ∧ ∃ m, (b, m) ∈ Escape.mnemonics ∧ Escape.escapeByte b = [backslash, m]) ∨
    (¬ OctalOnly b ∧ b ≠ backslash ∧ Escape.escapeByte b = [b]) ∨
    (OctalOnly b ∧ Escape.escapeByte b = Escape.octal b) := by
  have hall : ∀ n : Fin 256, (Escape.mnemonic? ⟨⟨n⟩⟩ = none ∧
      (Escape.isEscaped ⟨⟨n⟩⟩ || decide (128 ≤ (⟨⟨n⟩⟩ : UInt8))) = true) ↔ OctalOnly ⟨⟨n⟩⟩ := by
    decide +kernel
  have hoctal : (Escape.mnemonic? b = none ∧ (Escape.isEscaped b || decide (128 ≤ b)) = true) ↔ OctalOnly b :=
    hall b.toBitVec.toFin
  unfold Escape.escapeByte
  rw [← hoctal]
  cases hm : Escape.mnemonic? b with
  | some m =>
    exact Or.inl ⟨fun h => (by cases h.1), m, Escape.mnemonic?_eq_some.mp hm, rfl⟩
  | none =>
    by_cases hbare : (Escape.isEscaped b || decide (128 ≤ b)) = true
    · exact Or.inr (Or.inr ⟨⟨rfl, hbare⟩, if_pos hbare⟩)
    · refine Or.inr (Or.inl ⟨fun h => hbare h.2, ?_, if_neg hbare⟩)
      rintro rfl
      exact hbare (by decide)

/-- The bytes that are printed in octal. -/
theorem escapeByte_eq_octal_iff (b : UInt8) : Escape.escapeByte b = Escape.octal b ↔ OctalOnly b := by
  have hlength (h : Escape.escapeByte b = Escape.octal b) : (Escape.escapeByte b).length = 4 := by
    rw [h]
    rfl
  rcases escapeByte_cases b with ⟨hb, m, _, heq⟩ | ⟨hb, _, heq⟩ | ⟨hb, heq⟩
  · refine ⟨fun h => ?_, fun h => absurd h hb⟩
    have := hlength h
    rw [heq] at this
    cases this
  · refine ⟨fun h => ?_, fun h => absurd h hb⟩
    have := hlength h
    rw [heq] at this
    cases this
  · exact ⟨fun _ => hb, fun _ => heq⟩

/-! ## Reading it back -/

theorem Literal.unescape_bare {b : UInt8} (hb : b ≠ backslash) (offset : Nat) (t : Bytes) :
    unescape offset (b :: t) = (unescape (offset + 1) t).map (b :: ·) := by
  rw [unescape.eq_def]
  exact if_neg hb

theorem Literal.unescape_backslash (offset : Nat) (m : UInt8) (t : Bytes) :
    unescape offset (backslash :: m :: t) =
      (Escape.ofMnemonic? m).elim (.error (.badEscape ⟨offset, [backslash, m]⟩)) fun c =>
        (unescape (offset + 2) t).map (c :: ·) := by
  rw [unescape, if_pos rfl]
  cases Escape.ofMnemonic? m <;> rfl

/-- What is printed for a byte other than in octal is read as this byte. -/
theorem unescape_escapeByte {b : UInt8} (hb : ¬ OctalOnly b) (offset : Nat) (t : Bytes) :
    Literal.unescape offset (Escape.escapeByte b ++ t) =
      (Literal.unescape (offset + (Escape.escapeByte b).length) t).map (b :: ·) := by
  rcases escapeByte_cases b with ⟨_, m, hm, heq⟩ | ⟨_, hback, heq⟩ | ⟨hoctal, _⟩
  · rw [heq, List.cons_append, List.singleton_append, Literal.unescape_backslash, Escape.ofMnemonic?_eq_some.mpr hm]
    rfl
  · rw [heq, List.singleton_append, Literal.unescape_bare hback]
    rfl
  · exact absurd hoctal hb

/-- No mnemonic is an octal digit. -/
theorem ofMnemonic?_octalDigit (b : UInt8) : Escape.ofMnemonic? (Escape.octalDigit b) = none := by
  have hdigit : Byte.isOctal (Escape.octalDigit b) = true := by
    have hle : (b &&& 7).toNat ≤ 7 := by
      rw [UInt8.toNat_and]
      exact Nat.and_le_right
    have hsum : (48 + (b &&& 7)).toNat = 48 + (b &&& 7).toNat := by
      rw [UInt8.toNat_add]
      show (48 + (b &&& 7).toNat) % 256 = _
      omega
    simp only [Escape.octalDigit, Byte.isOctal, UInt8.le_iff_toNat_le, hsum, Bool.and_eq_true,
      decide_eq_true_eq]
    exact ⟨Nat.le_add_right 48 _, Nat.add_le_add_left hle 48⟩
  have hall : Escape.mnemonics.all (fun p => !Byte.isOctal p.2) = true := by decide
  rw [Option.eq_none_iff_forall_ne_some]
  intro c hc
  have hletter := List.all_eq_true.mp hall _ (Escape.ofMnemonic?_eq_some.mp hc)
  rw [hdigit] at hletter
  cases hletter

/-- A backslash before an octal digit is refused. -/
theorem unescape_octal {b : UInt8} (hb : OctalOnly b) (offset : Nat) (t : Bytes) :
    Literal.unescape offset (Escape.escapeByte b ++ t) =
      .error (.badEscape ⟨offset, (Escape.escapeByte b).take 2⟩) := by
  rw [(escapeByte_eq_octal_iff b).mpr hb]
  show Literal.unescape offset (backslash :: Escape.octalDigit (b >>> 6) :: _) = _
  rw [Literal.unescape_backslash, ofMnemonic?_octalDigit]
  rfl

/-- Without octal, what is printed is read back. -/
theorem unescape_flatMap {s : Bytes} (hs : ∀ b ∈ s, ¬ OctalOnly b) (offset : Nat) (t : Bytes) :
    Literal.unescape offset (s.flatMap Escape.escapeByte ++ t) =
      (Literal.unescape (offset + (s.flatMap Escape.escapeByte).length) t).map (s ++ ·) := by
  induction s generalizing offset with
  | nil =>
    cases h : Literal.unescape offset t <;> simp [h, Except.map]
  | cons b s ih =>
    obtain ⟨hb, hs⟩ := List.forall_mem_cons.mp hs
    rw [List.flatMap_cons, List.append_assoc, unescape_escapeByte hb, ih hs, List.length_append, Nat.add_assoc]
    cases Literal.unescape _ t <;> rfl

theorem exists_first_octal {s : Bytes} (h : ∃ b ∈ s, OctalOnly b) :
    ∃ front b back, s = front ++ b :: back ∧ (∀ c ∈ front, ¬ OctalOnly c) ∧ OctalOnly b := by
  have hsome : (s.find? fun b => decide (OctalOnly b)).isSome = true := by
    rw [List.find?_isSome]
    simpa using h
  obtain ⟨b, hb⟩ := Option.isSome_iff_exists.mp hsome
  obtain ⟨hoctal, front, back, heq, hfront⟩ := List.find?_eq_some_iff_append.mp hb
  exact ⟨front, b, back, heq, by simpa using hfront, of_decide_eq_true hoctal⟩

/-- A printed literal is cut into one token, which is a literal. -/
theorem popAll_quoted (s filename : Bytes) :
    Tokenizer.popAll (Escape.quoted s) filename =
      .ok ([⟨⟨0, Escape.quoted s⟩, .literal⟩], Token.endOf (Escape.quoted s)) := by
  have hstring : Lexeme (Escape.quoted s) [] .literal :=
    .string [] (Quoting.isString_of_decode (Quoting.decode_quoted s))
  have hcut : Cut 0 ([] ++ (Escape.quoted s ++ [])) [⟨[], ⟨0, Escape.quoted s⟩, .literal⟩] (.ok []) :=
    .token (.nil _) hstring (.last (.nil []))
  rw [List.nil_append, List.append_nil] at hcut
  exact Tokenizer.popAll_cut filename hcut

/-- A printed literal is read as a string. -/
theorem ofSpan_quoted (s : Bytes) :
    Literal.ofSpan ⟨0, Escape.quoted s⟩ = (Literal.unescape 1 (s.flatMap Escape.escapeByte)).map .string := by
  rw [Escape.quoted, List.cons_append, ofSpan_string]

/-- **Printed literals in the source language.** The printed literal of a text is one token and nothing else.
The bytes that are printed in octal are the ones that have no other escape and may not stand bare. If the text
has none of them, the token stands for the text; otherwise it is refused, and the span to blame is the first
two bytes of what is printed for the first of them. -/
theorem quoted_rereads (s filename : Bytes) :
    Tokenizer.popAll (Escape.quoted s) filename =
      .ok ([⟨⟨0, Escape.quoted s⟩, .literal⟩], Token.endOf (Escape.quoted s)) ∧
    (∀ b, Escape.escapeByte b = Escape.octal b ↔ OctalOnly b) ∧
    ((∀ b ∈ s, ¬ OctalOnly b) → Literal.ofSpan ⟨0, Escape.quoted s⟩ = .ok (.string s)) ∧
    ((∃ b ∈ s, OctalOnly b) → ∃ front b back, s = front ++ b :: back ∧
      (∀ c ∈ front, ¬ OctalOnly c) ∧ OctalOnly b ∧
      ∃ lead two rest err, Escape.quoted s = lead ++ (two ++ rest) ∧
        lead = doubleQuote :: front.flatMap Escape.escapeByte ∧ two = (Escape.octal b).take 2 ∧
        Literal.ofSpan ⟨0, Escape.quoted s⟩ = .error err ∧ err.span = ⟨lead.length, two⟩ ∧
        err.description = .around (ascii "escape sequence") (ascii "is not valid.")) := by
  refine ⟨popAll_quoted s filename, escapeByte_eq_octal_iff, ?_, ?_⟩
  · intro hs
    have hread := unescape_flatMap hs 1 []
    rw [List.append_nil] at hread
    rw [ofSpan_quoted, hread, Literal.unescape]
    simp [Except.map]
  · intro h
    obtain ⟨front, b, back, rfl, hfront, hb⟩ := exists_first_octal h
    have hoctal := (escapeByte_eq_octal_iff b).mpr hb
    refine ⟨front, b, back, rfl, hfront, hb, doubleQuote :: front.flatMap Escape.escapeByte,
      (Escape.octal b).take 2, (Escape.octal b).drop 2 ++ (back.flatMap Escape.escapeByte ++ [doubleQuote]),
      .badEscape _, ?_, rfl, rfl, ?_, rfl, rfl⟩
    · rw [← List.append_assoc (List.take 2 _), List.take_append_drop, Escape.quoted, List.flatMap_append,
        List.flatMap_cons, hoctal]
      simp only [List.cons_append, List.append_assoc]
    · rw [ofSpan_quoted, List.flatMap_append, List.flatMap_cons, unescape_flatMap hfront, unescape_octal hb,
        hoctal, List.length_cons, Nat.add_comm 1]
      rfl

/-- A bell has a mnemonic and a quote is escaped, but a zero byte has no escape that the reader knows. -/
theorem quoted_rereads_zeroByte :
    Literal.ofSpan ⟨0, Escape.quoted [7, 34]⟩ = .ok (.string [7, 34]) ∧
    ∃ err, Literal.ofSpan ⟨0, Escape.quoted [7, 0]⟩ = .error err ∧
      err.description = .around (ascii "escape sequence") (ascii "is not valid.") := by
  have hplain : ∀ b ∈ ([7, 34] : Bytes), ¬ OctalOnly b :=
    List.forall_mem_cons.mpr ⟨by decide, List.forall_mem_singleton.mpr (by decide)⟩
  refine ⟨(quoted_rereads [7, 34] []).2.2.1 hplain, ?_⟩
  obtain ⟨_, _, _, _, _, _, _, _, _, err, _, _, _, hread, _, hdescription⟩ :=
    (quoted_rereads [7, 0] []).2.2.2 ⟨0, by decide, by decide⟩
  exact ⟨err, hread, hdescription⟩

end Trampoline

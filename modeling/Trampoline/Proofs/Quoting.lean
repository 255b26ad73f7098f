import Trampoline.Lowering
import Trampoline.Proofs.Spelling

/-!
# Trampoline.Proofs.Quoting -- the bytes of a string, from its token to the emitted literal

How a double-quoted literal of the emitted code is read is said here by a decoder with a table of its own.
A backslash takes one letter, or as many octal digits as follow it up to three, so what an escape denotes can
depend on the byte behind it. The printer always writes three digits, and so every text survives: its literal
is decoded to the text. A string token of the source is decoded to the same bytes as the literal that its
lowered code holds.
-/

namespace Trampoline

open Byte (newline doubleQuote backslash)

/-! ## Decoding -/

def Byte.isOctal (b : UInt8) : Bool := 48 ≤ b && b ≤ 55

/-- The number that a run of octal digits writes. -/
def octalValue (digits : Bytes) : Nat := digits.foldl (fun v d => 8 * v + Byte.digitValue d) 0

namespace Quoting

/-- The letters that denote one byte behind a backslash, with this byte. -/
def letters : List (UInt8 × UInt8) :=
  [(39, 39), (34, 34), (63, 63), (92, 92), (97, 7), (98, 8), (102, 12), (110, 10), (114, 13), (116, 9),
    (118, 11)]

/-- The byte that is denoted by what follows a backslash, and the text behind it. -/
def escape? (t : Bytes) : Option (UInt8 × Bytes) :=
  let digits := (t.take 3).takeWhile Byte.isOctal
  if digits = [] then
    match t with
    | [] => none
    | m :: rest => (letters.lookup m).map fun b => (b, rest)
  else if octalValue digits < 256 then some (UInt8.ofNat (octalValue digits), t.drop digits.length)
  else none

theorem escape?_length {t after : Bytes} {b : UInt8} (h : escape? t = some (b, after)) :
    after.length < t.length := by
  unfold escape? at h
  dsimp only at h
  split at h
  · cases t with
    | nil => cases h
    | cons m rest =>
      obtain ⟨c, _, hc⟩ := Option.map_eq_some_iff.mp h
      cases hc
      exact Nat.lt_succ_self _
  · rename_i hne
    split at h
    · cases h
      have hpos := List.length_pos_iff.mpr hne
      have hle : ((t.take 3).takeWhile Byte.isOctal).length ≤ t.length :=
        ((List.takeWhile_sublist _).trans (List.take_sublist 3 t)).length_le
      rw [List.length_drop]
      omega
    · cases h

/-- The bytes of a literal behind its opening quote. The quote that closes it must come last. -/
def decodeBody (t : Bytes) : Option Bytes :=
  match t with
  | [] => none
  | b :: rest =>
    if b = newline then none
    else if b = doubleQuote then if rest = [] then some [] else none
    else if b = backslash then
      match _h : escape? rest with
      | none => none
      | some (c, after) => (decodeBody after).map (c :: ·)
    else (decodeBody rest).map (b :: ·)
termination_by t.length
decreasing_by
  · have := escape?_length _h
    simp only [List.length_cons]
    omega
  · simp

/-- The bytes that a double-quoted literal denotes. -/
def decode : Bytes → Option Bytes
  | [] => none
  | b :: rest => if b = doubleQuote then decodeBody rest else none

-- Of four digits the last one stands for itself.
example : decode (ascii "\"\\1012\"") = some (ascii "A2") := by cbv

theorem decodeBody_close : decodeBody [doubleQuote] = some [] := by
  rw [decodeBody]
  rfl

theorem decodeBody_bare {b : UInt8} (t : Bytes) (hline : b ≠ newline) (hquote : b ≠ doubleQuote)
    (hback : b ≠ backslash) : decodeBody (b :: t) = (decodeBody t).map (b :: ·) := by
  rw [decodeBody, if_neg hline, if_neg hquote, if_neg hback]

/-- An escape stands for one byte. -/
theorem decodeBody_escape {b : UInt8} {t after : Bytes} (h : escape? t = some (b, after)) :
    decodeBody (backslash :: t) = (decodeBody after).map (b :: ·) := by
  have hline : backslash ≠ newline := by decide
  have hquote : backslash ≠ doubleQuote := by decide
  rw [decodeBody, if_neg hline, if_neg hquote, if_pos rfl]
  split
  · rename_i hnone
    rw [h] at hnone
    cases hnone
  · rename_i c rest hsome
    rw [h] at hsome
    cases hsome
    rfl

/-! ## Escapes that are printed -/

/-- A mnemonic is no digit and denotes the byte that it was taken from. -/
theorem escape?_mnemonic {b m : UInt8} (h : (b, m) ∈ Escape.mnemonics) (t : Bytes) :
    escape? (m :: t) = some (b, t) := by
  have hall : Escape.mnemonics.all (fun p => !Byte.isOctal p.2 && letters.lookup p.2 == some p.1) = true := by
    decide
  have hm := List.all_eq_true.mp hall (b, m) h
  simp only [Bool.and_eq_true, Bool.not_eq_true', beq_iff_eq] at hm
  have hdigits : ((m :: t).take 3).takeWhile Byte.isOctal = [] := by
    rw [List.take_succ_cons, List.takeWhile_cons, hm.1]
    rfl
  unfold escape?
  rw [hdigits]
  show (letters.lookup m).map (fun c => (c, t)) = _
  rw [hm.2]
  rfl

/-- Three digits are taken and never a fourth one, whatever comes behind them. -/
theorem escape?_octal (b : UInt8) (t : Bytes) :
    escape? (Escape.octalDigit (b >>> 6) :: Escape.octalDigit (b >>> 3) :: Escape.octalDigit b :: t) =
      some (b, t) := by
  let digits : UInt8 → Bytes := fun b =>
    [Escape.octalDigit (b >>> 6), Escape.octalDigit (b >>> 3), Escape.octalDigit b]
  have hall : ∀ n : Fin 256, (digits ⟨⟨n⟩⟩).takeWhile Byte.isOctal = digits ⟨⟨n⟩⟩ ∧
      octalValue (digits ⟨⟨n⟩⟩) = n := by decide +kernel
  obtain ⟨hdigits, hvalue⟩ : (digits b).takeWhile Byte.isOctal = digits b ∧
      octalValue (digits b) = b.toNat := hall b.toBitVec.toFin
  have hlt : octalValue (digits b) < 256 := by
    rw [hvalue]
    exact b.toNat_lt
  show escape? (digits b ++ t) = _
  have htake : (digits b ++ t).take 3 = digits b := rfl
  have hdrop : (digits b ++ t).drop 3 = t := rfl
  unfold escape?
  rw [htake, hdigits, if_neg (List.cons_ne_nil _ _), if_pos hlt, hvalue, UInt8.ofNat_toNat]
  exact congrArg (fun rest => some (b, rest)) hdrop

/-- Whatever comes behind it, what is printed for a byte is read as this byte. -/
theorem decodeBody_escapeByte (b : UInt8) (t : Bytes) :
    decodeBody (Escape.escapeByte b ++ t) = (decodeBody t).map (b :: ·) := by
  unfold Escape.escapeByte
  split
  · rename_i m hm
    exact decodeBody_escape (escape?_mnemonic (Escape.mnemonic?_eq_some.mp hm) t)
  · split
    · exact decodeBody_escape (escape?_octal b t)
    · -- A byte that may stand bare is neither a control nor a quote nor a backslash.
      rename_i hbare
      have hne : ∀ c, (Escape.isEscaped c || decide (128 ≤ c)) = true → b ≠ c := by
        rintro c hc rfl
        exact hbare hc
      exact decodeBody_bare t (hne newline (by decide)) (hne doubleQuote (by decide)) (hne backslash (by decide))

/-- A quoted text is decoded to the text. -/
theorem decode_quoted (s : Bytes) : decode (Escape.quoted s) = some s := by
  show decodeBody (s.flatMap Escape.escapeByte ++ [doubleQuote]) = some s
  induction s with
  | nil => exact decodeBody_close
  | cons b s ih =>
    rw [List.flatMap_cons, List.append_assoc, decodeBody_escapeByte, ih]
    rfl

/-! ## What can be decoded is a string -/

theorem enclosed_append {lead front back : Bytes} :
    Enclosed lead (front ++ back) ↔ Enclosed lead front ∧ Enclosed (lead ++ front) back := by
  induction front generalizing lead with
  | nil =>
    rw [List.nil_append, List.append_nil]
    exact ⟨fun h => ⟨.nil lead, h⟩, And.right⟩
  | cons b front ih =>
    rw [List.cons_append, enclosed_cons, enclosed_cons, ih, List.append_assoc, List.singleton_append]
    simp only [and_assoc]

/-- A byte that is neither a backslash nor a quote nor a newline leaves the byte behind it bare. -/
theorem enclosed_bare (lead : Bytes) {b : UInt8} (hline : b ≠ newline) (hquote : b ≠ doubleQuote)
    (hback : b ≠ backslash) : Enclosed lead [b] ∧ ¬ Escapes (lead ++ [b]) := by
  refine ⟨enclosed_cons.mpr ⟨hline, fun h => absurd h hquote, .nil _⟩, ?_⟩
  rw [escapes_concat]
  exact fun h => hback h.2

/-- A backslash takes the byte behind it, and digits may follow. -/
theorem enclosed_escaped {lead more : Bytes} {m : UInt8} (hlead : ¬ Escapes lead) (hm : m ≠ newline)
    (hmore : ∀ d ∈ more, Byte.isOctal d = true) :
    Enclosed lead (backslash :: m :: more) ∧ ¬ Escapes (lead ++ backslash :: m :: more) := by
  have hback : Escapes (lead ++ [backslash]) := (escapes_concat _ _).mpr ⟨hlead, rfl⟩
  have htaken : ¬ Escapes (lead ++ [backslash] ++ [m]) := by
    rw [escapes_concat]
    exact fun h => h.1 hback
  have hdigits : Enclosed (lead ++ [backslash] ++ [m]) more ∧
      ¬ Escapes (lead ++ [backslash] ++ [m] ++ more) := by
    generalize lead ++ [backslash] ++ [m] = front at htaken ⊢
    induction more generalizing front with
    | nil => exact ⟨.nil front, by rwa [List.append_nil]⟩
    | cons d more ih =>
      have hd : Byte.isOctal d = true := hmore d List.mem_cons_self
      have hother : ∀ c, Byte.isOctal c = false → d ≠ c := by
        rintro c hc rfl
        rw [hc] at hd
        cases hd
      have hfirst := enclosed_bare front (hother _ (by decide)) (hother _ (by decide))
        (hother _ (by decide))
      have hrest := ih (fun c hc => hmore c (List.mem_cons_of_mem d hc)) (front ++ [d]) hfirst.2
      rw [List.append_assoc, List.singleton_append] at hrest
      refine ⟨enclosed_append.mpr ⟨hfirst.1, ?_⟩, hrest.2⟩
      exact hrest.1
  refine ⟨enclosed_cons.mpr ⟨by decide, fun h => absurd h (by decide), ?_⟩, ?_⟩
  · exact enclosed_cons.mpr ⟨hm, fun _ => hback, hdigits.1⟩
  · simpa using hdigits.2

/-- Behind a backslash one letter is taken, or digits. -/
theorem escape?_taken {t after : Bytes} {b : UInt8} (h : escape? t = some (b, after)) :
    ∃ m more, t = m :: (more ++ after) ∧ m ≠ newline ∧ ∀ d ∈ more, Byte.isOctal d = true := by
  unfold escape? at h
  dsimp only at h
  split at h
  · cases t with
    | nil => cases h
    | cons m rest =>
      obtain ⟨c, hlookup, hc⟩ := Option.map_eq_some_iff.mp h
      cases hc
      refine ⟨m, [], rfl, ?_, fun d hd => absurd hd List.not_mem_nil⟩
      rintro rfl
      have hnone : letters.lookup newline = none := by decide
      rw [hnone] at hlookup
      cases hlookup
  · split at h
    · cases h
      obtain ⟨rest, hrest⟩ : (t.take 3).takeWhile Byte.isOctal <+: t :=
        (List.takeWhile_prefix _).trans (List.take_prefix 3 t)
      have hoctal : ∀ d ∈ (t.take 3).takeWhile Byte.isOctal, Byte.isOctal d = true := fun d hd =>
        List.mem_takeWhile_imp hd
      generalize (t.take 3).takeWhile Byte.isOctal = digits at *
      cases digits with
      | nil => contradiction
      | cons m more =>
        refine ⟨m, more, ?_, ?_, fun d hd => hoctal d (List.mem_cons_of_mem m hd)⟩
        · rw [← hrest, List.drop_left, List.cons_append]
        · rintro rfl
          exact absurd (hoctal _ List.mem_cons_self) (by decide)
    · cases h

/-- What can be decoded is enclosed in quotes. -/
theorem decodeBody_enclosed {lead t s : Bytes} (hlead : ¬ Escapes lead) (h : decodeBody t = some s) :
    ∃ body, t = body ++ [doubleQuote] ∧ Enclosed lead body ∧ ¬ Escapes (lead ++ body) := by
  fun_induction decodeBody t generalizing lead s with
  | case1 => cases h
  | case2 => cases h
  | case3 => exact ⟨[], rfl, .nil lead, by rwa [List.append_nil]⟩
  | case4 => cases h
  | case5 => cases h
  | case6 rest c after hescape _ _ ih =>
    obtain ⟨s', hs', _⟩ := Option.map_eq_some_iff.mp h
    obtain ⟨m, more, rfl, hm, hmore⟩ := escape?_taken hescape
    have hfirst := enclosed_escaped hlead hm hmore
    obtain ⟨body, rfl, hbody, hend⟩ := ih hfirst.2 hs'
    refine ⟨backslash :: m :: more ++ body, ?_, enclosed_append.mpr ⟨hfirst.1, hbody⟩, ?_⟩
    · simp
    · rwa [List.append_assoc] at hend
  | case7 b rest hline hquote hback ih =>
    obtain ⟨s', hs', _⟩ := Option.map_eq_some_iff.mp h
    have hfirst := enclosed_bare lead hline hquote hback
    obtain ⟨body, rfl, hbody, hend⟩ := ih hfirst.2 hs'
    refine ⟨b :: body, rfl, enclosed_append.mpr ⟨hfirst.1, hbody⟩, ?_⟩
    rwa [List.append_assoc] at hend

/-- A literal that denotes anything starts with a quote and ends with the first quote that is not escaped. -/
theorem isString_of_decode {t s : Bytes} (h : decode t = some s) : IsString t := by
  cases t with
  | nil => cases h
  | cons b rest =>
    rw [decode] at h
    split at h
    · rename_i hquote
      have hstart : ¬ Escapes [] := by decide
      obtain ⟨body, rfl, hbody, hend⟩ := decodeBody_enclosed hstart h
      exact ⟨body, by rw [hquote], hbody, hend⟩
    · cases h

/-- Only printable bytes are printed. -/
theorem printable_quoted (s : Bytes) : ∀ b ∈ Escape.quoted s, 32 ≤ b ∧ b ≤ 126 := by
  have hall : ∀ n : Fin 256,
      (Escape.escapeByte ⟨⟨n⟩⟩).all (fun b => decide (32 ≤ b) && decide (b ≤ 126)) = true := by
    decide +kernel
  have hquote : 32 ≤ doubleQuote ∧ doubleQuote ≤ 126 := by decide
  intro b hb
  simp only [Escape.quoted, List.cons_append, List.mem_cons, List.mem_append, List.mem_flatMap,
    List.not_mem_nil, or_false] at hb
  rcases hb with rfl | ⟨c, _, hc⟩ | rfl
  · exact hquote
  · have hbyte := List.all_eq_true.mp (hall c.toBitVec.toFin) b hc
    simpa using hbyte
  · exact hquote

/-! ## Strings of the source -/

/-- What the body of a string stands for in the source is what it denotes in emitted code. -/
theorem decodeBody_unescapes {lead body s : Bytes} (h : Unescapes body s) (hbody : Enclosed lead body)
    (hlead : ¬ Escapes lead) : decodeBody (body ++ [doubleQuote]) = some s := by
  induction h generalizing lead with
  | nil => exact decodeBody_close
  | @plain b body s hb _ ih =>
    obtain ⟨hline, hquote, hrest⟩ := enclosed_cons.mp hbody
    have hbare : b ≠ doubleQuote := fun hq => hlead (hquote hq)
    rw [List.cons_append, decodeBody_bare _ hline hbare hb,
      ih hrest (enclosed_bare lead hline hbare hb).2]
    rfl
  | @escape c m body s hm _ ih =>
    obtain ⟨_, _, hrest⟩ := enclosed_cons.mp hbody
    obtain ⟨hline, _, hrest⟩ := enclosed_cons.mp hrest
    have hnone : ∀ d ∈ ([] : Bytes), Byte.isOctal d = true := fun d hd => absurd hd List.not_mem_nil
    have htaken := (enclosed_escaped hlead hline hnone).2
    rw [List.append_assoc] at hrest
    rw [List.cons_append, List.cons_append, decodeBody_escape (escape?_mnemonic hm _), ih hrest htaken]
    rfl

end Quoting

/-- The tokenizers that a source is read with, from its first token on. -/
inductive Tokenizer.Reads (source filename : Bytes) : Tokenizer → Prop
  | start {tk : Tokenizer} (h : Tokenizer.start source filename = .ok tk) : Reads source filename tk
  | advance {tk next : Tokenizer} (h : Reads source filename tk) (hnext : tk.advance = .ok next) :
      Reads source filename next

theorem scan_lexeme {source unread after : Bytes} {tok : Token} (h : scan source unread = .ok (tok, after)) :
    tok.text = [] ∨ Lexeme tok.text after tok.kind := by
  obtain ⟨gap, rest, rfl, hgap, hsolid⟩ := (exists_gap unread).1
  unfold scan at h
  dsimp only at h
  rw [skipGap_of_gap hgap hsolid] at h
  rcases exists_lexeme hsolid with rfl | ⟨text, behind, kind, rfl, hlexeme⟩ | ⟨bad, behind, cause, rfl, hflaw⟩
  · cases h
    exact Or.inl rfl
  · rw [scanToken_lexeme _ hlexeme] at h
    cases h
    exact Or.inr hlexeme
  · rw [scanToken_flaw _ hflaw] at h
    cases h

/-- The head of a tokenizer is a token where the unread text comes next, or the end of the input. -/
theorem Tokenizer.Reads.lexeme {source filename : Bytes} {tk : Tokenizer} (h : tk.Reads source filename) :
    tk.head.text = [] ∨ Lexeme tk.head.text tk.unread tk.head.kind := by
  cases h with
  | start hstart =>
    unfold Tokenizer.start at hstart
    split at hstart
    · rename_i hscan
      cases hstart
      exact scan_lexeme hscan
    · cases hstart
  | advance _ hnext =>
    unfold Tokenizer.advance at hnext
    split at hnext
    · rename_i hscan
      cases hnext
      exact scan_lexeme hscan
    · cases hnext

/-- A token that starts with a quote is a string. -/
theorem Lexeme.isString {text after : Bytes} {kind : TokenKind} (h : Lexeme text after kind)
    (hquote : text.head? = some doubleQuote) : IsString text := by
  have hrun : ¬ Run text after := by
    intro hrun
    obtain ⟨b, rest, rfl, hb, _⟩ := hrun.head
    exact (not_delimiter hb).2.2.2.1 (Option.some.inj hquote)
  cases h with
  | openParen => exact absurd hquote (by decide)
  | closeParen => exact absurd hquote (by decide)
  | string _ hs => exact hs
  | literal hr _ => exact absurd hr hrun
  | identifier hr _ _ => exact absurd hr hrun

/-- The code of a string fills one fresh slot. -/
theorem lower_string (cs : Captures) (node : Node) (s : Lowering.State) (v : Bytes) :
    Lowering.lower cs node (.literal (.string v)) s =
      .ok ⟨some node, .temp .string s.next, .value, [.put (.temp .string s.next) (.string v)]⟩
        { s with next := s.next + 1 } := by
  rw [Lowering.lower]
  rfl

/-- The statement that fills a slot with a text. -/
def emplaceString (x v : Bytes) : Bytes :=
  x ++ ascii "->value.emplace<STR>(std::make_shared<std::string>(" ++ Escape.quoted v ++ ascii ", "
    ++ Bytes.decimal v.length ++ ascii "));"

theorem op_string (x : Ident) (v : Bytes) :
    (Instr.put x (.string v)).op = emplaceString x.text v := by
  have htag : Payload.tag (.string v) = .string := rfl
  simp [Instr.op, Instr.opLines, Bytes.unlines, Payload.statement, Payload.text, htag, emplaceString,
    Tag.text, ascii]

/-! ## From the token to the emitted literal -/

/-- A string token that is accepted denotes the same bytes in the source and in emitted code, and these
bytes are what its code puts into a slot. -/
theorem string_lowered {text after : Bytes} {kind : TokenKind} {offset : Nat} {l : Literal}
    (htext : Lexeme text after kind) (hquote : text.head? = some doubleQuote)
    (hl : Literal.ofSpan ⟨offset, text⟩ = .ok l) :
    ∃ body v, text = doubleQuote :: (body ++ [doubleQuote]) ∧ Unescapes body v ∧ l = .string v ∧
      Quoting.decode text = some v := by
  obtain ⟨body, rfl, hbody, hend⟩ := htext.isString hquote
  rw [ofSpan_string] at hl
  obtain ⟨v, hv, rfl⟩ := map_ok.mp hl
  have hv := unescape_ok_iff.mp hv
  have hstart : ¬ Escapes [] := by decide
  refine ⟨body, v, rfl, hv, rfl, ?_⟩
  show Quoting.decodeBody (body ++ [doubleQuote]) = some v
  exact Quoting.decodeBody_unescapes hv hbody hstart

/-- Every text survives in its literal, which is a string of printable bytes, and so does every string token
that is accepted: the code of its literal is one slot and the statement that fills it with the bytes of the
token, behind which stands their number. -/
theorem string_survives :
    (∀ s : Bytes, Quoting.decode (Escape.quoted s) = some s ∧ IsString (Escape.quoted s) ∧
      ∀ b ∈ Escape.quoted s, 32 ≤ b ∧ b ≤ 126) ∧
    ∀ (source filename : Bytes) (tk : Tokenizer) (l : Literal), tk.Reads source filename →
      tk.head.text.head? = some doubleQuote → Literal.ofSpan tk.head.toSpan = .ok l →
      ∃ body v, tk.head.text = doubleQuote :: (body ++ [doubleQuote]) ∧ Unescapes body v ∧
        Quoting.decode tk.head.text = some v ∧
        ∀ (cs : Captures) (node : Node) (s : Lowering.State),
          ∃ f, Lowering.lower cs node (.literal l) s = .ok f { s with next := s.next + 1 } ∧
            f.pairs = [(declareSlot f.value.text, emplaceString f.value.text v)] := by
  refine ⟨?_, ?_⟩
  · intro s
    exact ⟨Quoting.decode_quoted s, Quoting.isString_of_decode (Quoting.decode_quoted s),
      Quoting.printable_quoted s⟩
  · intro source filename tk l htk hquote hl
    have htext : Lexeme tk.head.text tk.unread tk.head.kind := by
      rcases htk.lexeme with hnil | htext
      · rw [hnil] at hquote
        cases hquote
      · exact htext
    obtain ⟨body, v, hbody, hv, rfl, hdecode⟩ := string_lowered htext hquote hl
    refine ⟨body, v, hbody, hv, hdecode, ?_⟩
    intro cs node s
    refine ⟨_, lower_string cs node s v, ?_⟩
    show [((Instr.put _ _).decl, (Instr.put _ _).op)] = _
    rw [op_string]
    rfl

/-- A newline is escaped in the source and escaped again where it is printed. -/
theorem string_survives_newline :
    ∃ body v, ascii "\"a\\n\"" = doubleQuote :: (body ++ [doubleQuote]) ∧ Unescapes body v ∧
      Quoting.decode (ascii "\"a\\n\"") = some v ∧
      ∀ (cs : Captures) (node : Node) (s : Lowering.State),
        ∃ f, Lowering.lower cs node (.literal (.string [97, 10])) s = .ok f { s with next := s.next + 1 } ∧
          f.pairs = [(declareSlot f.value.text, emplaceString f.value.text v)] :=
  string_survives.2 (ascii "\"a\\n\"") [] ⟨ascii "\"a\\n\"", [], [], ⟨⟨0, ascii "\"a\\n\""⟩, .literal⟩⟩
    (.string [97, 10]) (.start rfl) rfl rfl

end Trampoline

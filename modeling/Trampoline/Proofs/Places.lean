import Mathlib.Data.List.Induction
import Trampoline.Proofs.Prefixes

/-!
# Trampoline.Proofs.Places -- where reports point, and what they show

A report about a source can be located only if the span that it blames is a piece of this source. Every error
of the reader blames such a span: a token, the end of the input, a flaw where no token can be, or an escape
inside a string. These are pieces of pieces, and so pieces of the source.

A located report quotes the line on which its subject starts. What it prints is put together from the subject
and from scans of the file in both directions; here it is compared with the line that holds the offset, said
without scanning.
-/

namespace Trampoline

open Byte (newline space)

/-! ## Pieces of a source -/

/-- The inner span is a piece of the outer one: its text stands there at its offset. -/
def Span.PieceOf (inner outer : Span) : Prop :=
  ∃ front back, outer.text = front ++ (inner.text ++ back) ∧ inner.offset = outer.offset + front.length

namespace Span.PieceOf

theorem refl (span : Span) : span.PieceOf span := ⟨[], [], by simp, rfl⟩

/-- A piece of a piece is a piece. -/
theorem trans {inner middle outer : Span} (h : inner.PieceOf middle) (h' : middle.PieceOf outer) :
    inner.PieceOf outer := by
  obtain ⟨front, back, htext, hoffset⟩ := h
  obtain ⟨front', back', htext', hoffset'⟩ := h'
  refine ⟨front' ++ front, back ++ back', ?_, ?_⟩
  · rw [htext', htext]
    simp only [List.append_assoc]
  · rw [hoffset, hoffset', List.length_append, Nat.add_assoc]

/-- What stands between two texts is a piece of the whole. -/
theorem between (offset : Nat) (front text back : Bytes) :
    PieceOf ⟨offset + front.length, text⟩ ⟨offset, front ++ (text ++ back)⟩ := ⟨front, back, rfl, rfl⟩

theorem length_le {inner outer : Span} (h : inner.PieceOf outer) :
    inner.offset + inner.text.length ≤ outer.offset + outer.text.length := by
  obtain ⟨front, back, htext, hoffset⟩ := h
  rw [htext, hoffset]
  simp only [List.length_append]
  omega

end Span.PieceOf

theorem Flaw.span_eq {bad after : Bytes} {cause : Span → ReadError} (h : Flaw bad after cause) (span : Span) :
    (cause span).span = span := by
  cases h <;> rfl

section

variable {o : Nat} {t : Bytes} {ps : List Piece}

/-- Tokens are pieces of the source. -/
theorem Cut.token_pieceOf {stop : Except ReadError Bytes} (h : Cut o t ps stop) {p : Piece} (hp : p ∈ ps) :
    p.token.toSpan.PieceOf ⟨o, t⟩ := by
  induction h with
  | last _ => cases hp
  | flaw _ _ => cases hp
  | @token o gap text after kind ps stop _ _ _ ih =>
    rcases List.mem_cons.mp hp with rfl | hp
    · exact .between o gap text after
    · refine (ih hp).trans ?_
      have hrest := Span.PieceOf.between o (gap ++ text) after []
      simpa only [List.length_append, List.append_assoc, List.append_nil, Nat.add_assoc] using hrest

/-- So is what an error of the scanner blames. -/
theorem Cut.flaw_pieceOf {err : ReadError} (h : Cut o t ps (.error err)) : err.span.PieceOf ⟨o, t⟩ := by
  obtain ⟨gap, bad, after, cause, rfl, _, hflaw, rfl⟩ := h.join_error
  rw [hflaw.span_eq]
  have hpiece := Span.PieceOf.between o (Piece.join ps ++ gap) bad after
  simpa only [List.append_assoc] using hpiece

end

/-! ## Errors of literals -/

/-- A refused escape is a piece of the body that it stands in. -/
theorem unescape_pieceOf {offset : Nat} {body : Bytes} {err : ReadError}
    (h : Literal.unescape offset body = .error err) : err.span.PieceOf ⟨offset, body⟩ := by
  fun_induction Literal.unescape offset body generalizing err with
  | case1 => cases h
  | case2 offset =>
    cases h
    exact .refl _
  | case3 offset m rest _ =>
    cases h
    exact .between offset [] [Byte.backslash, m] rest
  | case4 offset m rest c _ ih =>
    refine (ih (error_of_map h)).trans ?_
    simpa using Span.PieceOf.between offset [Byte.backslash, m] rest []
  | case5 offset b rest _ ih =>
    refine (ih (error_of_map h)).trans ?_
    simpa using Span.PieceOf.between offset [b] rest []

theorem readInteger_span {span : Span} {err : ReadError} (h : Literal.readInteger span = .error err) :
    err.span = span := by
  unfold Literal.readInteger at h
  dsimp only at h
  split_ifs at h <;> cases h <;> rfl

/-- What an error about a literal blames is a piece of the literal. -/
theorem ofSpan_pieceOf {span : Span} {err : ReadError} (h : Literal.ofSpan span = .error err) :
    err.span.PieceOf span := by
  unfold Literal.ofSpan at h
  split_ifs at h with _ _ hquote
  · refine (unescape_pieceOf (error_of_map h)).trans ?_
    obtain ⟨offset, text⟩ := span
    cases text with
    | nil => cases hquote
    | cons b rest =>
      -- The body is what is left without the first byte and without the last one, if there is one.
      have hbody : rest = rest.dropLast ++ rest.getLast?.toList := by
        cases rest using List.reverseRecOn <;> simp
      have hpiece := Span.PieceOf.between offset [b] rest.dropLast rest.getLast?.toList
      rwa [← hbody] at hpiece
  · rw [readInteger_span (error_of_map h)]
    exact .refl span

/-! ## Errors of the reader -/

theorem Token.endOf_pieceOf (source : Bytes) : (Token.endOf source).toSpan.PieceOf ⟨0, source⟩ := by
  refine ⟨source, [], ?_, ?_⟩
  · show source = source ++ ([] ++ [])
    simp
  · show source.length = 0 + source.length
    omega

/-- The head of a tokenizer is a piece of the source, the end of the input too. -/
theorem Tokenizer.Leads.head_pieceOf {source : Bytes} {used rest : List Piece}
    {stop : Except ReadError Bytes} {tk : Tokenizer} (hcut : Cut 0 source (used ++ rest) stop)
    (h : Tokenizer.Leads source rest stop (.ok tk)) : tk.head.toSpan.PieceOf ⟨0, source⟩ := by
  cases h with
  | last _ hhead =>
    rw [hhead]
    exact Token.endOf_pieceOf source
  | token _ hhead _ _ =>
    rw [hhead]
    exact hcut.token_pieceOf (List.mem_append_right used List.mem_cons_self)

/-- Whatever a program is refused for, the span to blame is a piece of its source. -/
theorem Reader.readProgram_pieceOf {source filename : Bytes} {n m : Nat} {err : ReadError}
    (h : readProgram source filename n = (.error err, m)) : err.span.PieceOf ⟨0, source⟩ := by
  obtain ⟨ps, stop, hcut⟩ := exists_cut 0 source
  have hend := readProgram_concludes filename n hcut
  rw [h] at hend
  cases hend with
  | trailing hps _ =>
    subst hps
    exact hcut.token_pieceOf (List.mem_append_right _ List.mem_cons_self)
  | stuck hps _ hrest hstep =>
    subst hps
    rw [(step_blames hstep).2]
    exact hrest.head_pieceOf hcut
  | flaw hstop =>
    subst hstop
    exact hcut.flaw_pieceOf
  | literal hp _ hspan => exact (ofSpan_pieceOf hspan).trans (hcut.token_pieceOf hp)

/-- A piece of a file that is not empty has a place in it. -/
theorem Place.find?_of_pieceOf {file : Bytes} {span : Span} (filename : Bytes) (hfile : file ≠ [])
    (h : span.PieceOf ⟨0, file⟩) : Place.find? filename ⟨0, file⟩ span = some ⟨filename, file, span.offset⟩ := by
  rw [find?, if_pos ⟨hfile, Nat.zero_le _, h.length_le⟩]
  rfl

/-! ## The line of an offset -/

/-- `LineAt file offset before line after`: the line of the file that holds the offset, without its newline,
with what comes before it and behind it. An offset at a newline belongs to the line that ends there. -/
structure LineAt (file : Bytes) (offset : Nat) (before line after : Bytes) : Prop where
  split : file = before ++ (line ++ after)
  starts : before = [] ∨ before.getLast? = some newline
  oneLine : newline ∉ line
  ends : LineEnds after
  holds : before.length ≤ offset ∧ offset ≤ before.length + line.length

/-- A text is cut in front of its last line. -/
theorem exists_lastLine (t : Bytes) :
    ∃ before, t = before ++ (t.reverse.takeWhile (· != newline)).reverse ∧
      (before = [] ∨ before.getLast? = some newline) := by
  refine ⟨(t.reverse.dropWhile (· != newline)).reverse, ?_, ?_⟩
  · rw [← List.reverse_append, List.takeWhile_append_dropWhile, List.reverse_reverse]
  · have hstop := List.head?_dropWhile_not (· != newline) t.reverse
    rw [List.getLast?_reverse]
    cases hdrop : t.reverse.dropWhile (· != newline) with
    | nil => exact Or.inl rfl
    | cons b rest =>
      rw [hdrop] at hstop
      have hb : b = newline := by simpa using hstop
      exact Or.inr (congrArg some hb)

/-- A text is cut behind its first line. -/
theorem exists_firstLine (t : Bytes) : ∃ after, t = t.takeWhile (· != newline) ++ after ∧ LineEnds after := by
  refine ⟨t.dropWhile (· != newline), List.takeWhile_append_dropWhile.symm, ?_⟩
  have hstop := List.head?_dropWhile_not (· != newline) t
  intro b hb
  rw [Option.mem_def.mp hb] at hstop
  simpa using hstop

theorem not_mem_takeWhile_line (t : Bytes) : newline ∉ t.takeWhile (· != newline) := by
  intro h
  have hne := List.mem_takeWhile_imp h
  simp at hne

/-- The three parts of a quoted line are the line of the place. -/
theorem Place.lineAt {file token back : Bytes} (filename before : Bytes) (hfile : file = before ++ (token ++ back)) :
    let p : Place := ⟨filename, file, before.length⟩
    ∃ front after,
      LineAt file before.length front (p.lineBefore ++ (subjectOnLine token ++ p.lineAfter token)) after ∧
      before = front ++ p.lineBefore := by
  intro p
  have hbefore : p.before = before := by simp [p, Place.before, hfile]
  obtain ⟨front, hfront, hstarts⟩ := exists_lastLine before
  have hline : p.lineBefore = (before.reverse.takeWhile (· != newline)).reverse := by
    rw [lineBefore, hbefore]
  rw [← hline] at hfront
  -- What stands from the place on: the subject on its line, the rest of the line, and what follows.
  have hrest : ∃ after, token ++ back = subjectOnLine token ++ (p.lineAfter token ++ after) ∧
      newline ∉ p.lineAfter token ∧ LineEnds after := by
    by_cases hmem : newline ∈ token
    · obtain ⟨after, htoken, hends⟩ := exists_firstLine token
      have hafter : p.lineAfter token = [] := by simp [lineAfter, hmem]
      refine ⟨after ++ back, ?_, by simp [hafter], ?_⟩
      · rw [hafter, List.nil_append, ← List.append_assoc, subjectOnLine, ← htoken]
      · cases after with
        | nil =>
          rw [List.append_nil] at htoken
          rw [htoken] at hmem
          exact absurd hmem (not_mem_takeWhile_line token)
        | cons b rest => exact hends
    · have htoken : subjectOnLine token = token := by
        unfold subjectOnLine
        rw [List.takeWhile_eq_self_iff]
        intro b hb
        rw [bne_iff_ne]
        rintro rfl
        exact hmem hb
      have hdrop : file.drop (before.length + token.length) = back := by
        rw [hfile, ← List.append_assoc, ← List.length_append, List.drop_left]
      have hafter : p.lineAfter token = back.takeWhile (· != newline) := by
        simp [lineAfter, hmem, p, hdrop]
      obtain ⟨after, hback, hends⟩ := exists_firstLine back
      refine ⟨after, ?_, ?_, hends⟩
      · rw [htoken, hafter, ← hback]
      · rw [hafter]
        exact not_mem_takeWhile_line back
  obtain ⟨after, hsplit, hlast, hends⟩ := hrest
  refine ⟨front, after, ⟨?_, hstarts, ?_, hends, ?_⟩, hfront⟩
  · rw [hfile, hsplit]
    nth_rewrite 1 [hfront]
    simp only [List.append_assoc]
  · simp only [List.mem_append, not_or]
    refine ⟨?_, not_mem_takeWhile_line token, hlast⟩
    rw [hline, List.mem_reverse]
    exact not_mem_takeWhile_line _
  · have hlength := congrArg List.length hfront
    simp only [List.length_append] at hlength ⊢
    omega

/-! ## What a located report shows -/

/-- The line of a file that holds an offset, cut into what stands before the offset, the part of the line up to
another offset, and what stands behind it. -/
structure Quote (file : Bytes) (b e : Nat) where
  before : Bytes
  left : Bytes
  shown : Bytes
  right : Bytes
  after : Bytes
  lineAt : LineAt file b before (left ++ (shown ++ right)) after
  offset_eq : b = before.length + left.length
  shown_eq : shown = ((file.take e).drop b).takeWhile (· != newline)

namespace Quote

variable {file : Bytes} {b e : Nat}

/-- The number of the line: one more than the newlines before the offset. -/
def number (_ : Quote file b e) : Nat := 1 + (file.take b).count newline

/-- The column of the offset: one more than the bytes before it on its line. -/
def column (q : Quote file b e) : Nat := 1 + q.left.length

/-- What is printed before the part from the offset on: the number in a field of five, a bar, and the line up to
the offset. -/
def lead (q : Quote file b e) : Bytes :=
  List.replicate (5 - (Bytes.decimal q.number).length) space ++ Bytes.decimal q.number ++ ascii " | " ++ q.left

/-- What is printed below it: a bar, and as many spaces as the column says. -/
def indent (q : Quote file b e) : Bytes := ascii "      |" ++ List.replicate q.column space

/-- A caret for the first byte, and a tilde for each further one. -/
def marks (q : Quote file b e) : Bytes := ascii "^" ++ List.replicate (max q.shown.length 1 - 1) 126

/-- A text in the style of a severity. -/
def styled (s : Severity) (t : Bytes) : Bytes := Style.bold ++ s.colour ++ t ++ Style.clear

/-- The lines that are printed for what is said about the bytes between the two offsets. -/
def print (q : Quote file b e) (filename : Bytes) (s : Severity) (said : Bytes) : Bytes :=
  Style.bold ++ (filename ++ ascii ":" ++ Bytes.decimal q.number ++ ascii ":" ++ Bytes.decimal q.column ++ ascii ": ")
    ++ s.banner ++ said ++ [newline]
    ++ (q.lead ++ styled s q.shown ++ q.right ++ [newline])
    ++ (q.indent ++ styled s q.marks ++ [newline])

/-- The number leaves its field only from the hundred thousandth line on. -/
theorem length_lead_eq_iff (q : Quote file b e) : q.lead.length = q.indent.length ↔ q.number ≤ 99999 := by
  have hdigits : (Bytes.decimal q.number).length ≤ 5 ↔ q.number < 10 ^ 5 := by
    rw [Bytes.decimal, List.length_map, Nat.length_toDigits_le_iff (by decide) (by decide)]
  have hbar : (ascii " | ").length = 3 := by decide
  have hrail : (ascii "      |").length = 7 := by decide
  simp only [lead, indent, column, List.length_append, List.length_replicate, hbar, hrail]
  omega

end Quote

/-- A report points at the bytes of a file between two offsets: it is printed as a quote of them, and the first
mark stands in the column of the first byte as long as the number of the line has five digits. -/
def Report.PointsAt (r : Report) (filename file : Bytes) (b e : Nat) : Prop :=
  ∃ q : Quote file b e, r.text = q.print filename r.severity (r.description.text r.subject) ∧
    (q.lead.length = q.indent.length ↔ q.number ≤ 99999)

theorem Report.pointsAt_of_place {r : Report} {filename file before back : Bytes}
    (hfile : file = before ++ (r.subject ++ back)) (hplace : r.place = some ⟨filename, file, before.length⟩) :
    r.PointsAt filename file before.length (before.length + r.subject.length) := by
  obtain ⟨front, after, hline, hfront⟩ := Place.lineAt filename before hfile
  have htoken : (file.take (before.length + r.subject.length)).drop before.length = r.subject := by
    rw [hfile, ← List.append_assoc, ← List.length_append, List.take_left, List.drop_left]
  let q : Quote file before.length (before.length + r.subject.length) :=
    { before := front, left := _, shown := _, right := _, after := after, lineAt := hline
      offset_eq := by rw [← List.length_append, ← hfront]
      shown_eq := by rw [htoken, Place.subjectOnLine] }
  refine ⟨q, ?_, q.length_lead_eq_iff⟩
  have hnumber : Place.line ⟨filename, file, before.length⟩ = q.number := Nat.add_comm _ 1
  have hcolumn : Place.column ⟨filename, file, before.length⟩ = q.column := Nat.add_comm _ 1
  have hmarks : (Place.subjectOnLine r.subject).length - 1 = max q.shown.length 1 - 1 := by
    show _ = max (Place.subjectOnLine r.subject).length 1 - 1
    omega
  simp only [Report.text, hplace, heading, quotedLine, underline, hnumber, hcolumn, hmarks, Quote.print, Quote.lead,
    Quote.indent, Quote.marks, Quote.styled, List.append_assoc]
  rfl

/-- A report about a piece of a file points at it. -/
theorem Report.pointsAt_of_pieceOf {r : Report} {filename file : Bytes} {b : Nat} (hfile : file ≠ [])
    (h : Span.PieceOf ⟨b, r.subject⟩ ⟨0, file⟩) (hplace : r.place = Place.find? filename ⟨0, file⟩ ⟨b, r.subject⟩) :
    r.PointsAt filename file b (b + r.subject.length) := by
  rw [Place.find?_of_pieceOf filename hfile h] at hplace
  obtain ⟨before, back, htext, hoffset⟩ := h
  obtain rfl : b = before.length := hoffset.trans (Nat.zero_add _)
  exact pointsAt_of_place htext hplace

theorem pieceOf_range {file : Bytes} {b e : Nat} (hb : b ≤ e) (he : e ≤ file.length) :
    Span.PieceOf ⟨b, (file.take e).drop b⟩ ⟨0, file⟩ := by
  refine ⟨file.take b, file.drop e, ?_, ?_⟩
  · have hfront : file.take b = (file.take e).take b := by rw [List.take_take, Nat.min_eq_left hb]
    show file = file.take b ++ ((file.take e).drop b ++ file.drop e)
    rw [hfront, ← List.append_assoc, List.take_append_drop, List.take_append_drop]
  · show b = 0 + (file.take b).length
    rw [List.length_take]
    omega

/-- **Read errors are located, and located correctly.** A source that is not empty and is refused is refused for
a piece of it, so the report has a place, and points there. And a report about the bytes between any two offsets
of a file that is not empty points at them: it gives the line and the column of the first offset, quotes the
whole line, and marks what the line has of these bytes. -/
theorem readErrors_located :
    (∀ (source filename : Bytes) (n m : Nat) (err : ReadError), source ≠ [] →
      Reader.readProgram source filename n = (.error err, m) →
      err.span.PieceOf ⟨0, source⟩ ∧
      (err.reportIn source filename).place = some ⟨filename, source, err.span.offset⟩ ∧
      (err.reportIn source filename).PointsAt filename source err.span.offset
        (err.span.offset + err.span.text.length)) ∧
    (∀ (filename file : Bytes) (b e : Nat) (severity : Severity) (description : Description), file ≠ [] →
      b ≤ e → e ≤ file.length →
      Report.PointsAt ⟨severity, (file.take e).drop b, description,
        Place.find? filename ⟨0, file⟩ ⟨b, (file.take e).drop b⟩⟩ filename file b e) := by
  refine ⟨?_, ?_⟩
  · intro source filename n m err hsource hread
    have hpiece := Reader.readProgram_pieceOf hread
    refine ⟨hpiece, Place.find?_of_pieceOf filename hsource hpiece, ?_⟩
    exact Report.pointsAt_of_pieceOf (r := err.reportIn source filename) hsource hpiece rfl
  · intro filename file b e severity description hfile hb he
    have hlength : b + ((file.take e).drop b).length = e := by
      rw [List.length_drop, List.length_take]
      omega
    have hpoints := Report.pointsAt_of_pieceOf
      (r := ⟨severity, (file.take e).drop b, description,
        Place.find? filename ⟨0, file⟩ ⟨b, (file.take e).drop b⟩⟩) hfile (pieceOf_range hb he) rfl
    rwa [hlength] at hpoints

/-- The escape in the string on the second line is to blame, and nothing else of the string. -/
theorem readErrors_located_badEscape :
    (∃ m, Reader.readProgram (ascii "(f\n \"a\\q\")") (ascii "x") 0 = (.error (.badEscape ⟨6, ascii "\\q"⟩), m)) ∧
    (ReadError.reportIn (ascii "(f\n \"a\\q\")") (ascii "x") (.badEscape ⟨6, ascii "\\q"⟩)).PointsAt (ascii "x")
      (ascii "(f\n \"a\\q\")") 6 8 := by
  have heval : (Reader.readProgram (ascii "(f\n \"a\\q\")") (ascii "x") 0).1.map (fun _ => ()) =
      .error (.badEscape ⟨6, ascii "\\q"⟩) := by
    decide +kernel
  have hread : Reader.readProgram (ascii "(f\n \"a\\q\")") (ascii "x") 0 =
      (.error (.badEscape ⟨6, ascii "\\q"⟩), _) := Prod.ext (error_of_map heval) rfl
  exact ⟨⟨_, hread⟩, (readErrors_located.1 _ _ _ _ _ (by decide) hread).2.2⟩

end Trampoline

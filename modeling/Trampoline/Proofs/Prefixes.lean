import Trampoline.Proofs.Parsing

/-!
# Trampoline.Proofs.Prefixes -- where syntax errors point

Whatever the reader has consumed can go on to a program: every goal and every frame has tokens that close it,
and they are written down here. So a step that is not possible is the first thing that is wrong. The tokens
before the reported one are a start of some program, and together with it they are a start of none; and if the
end of the input is reported, they are not yet a program.

A source that is cut to its end and whose literals are literals can only be refused for this reason.
-/

namespace Trampoline

open Reader Phrase

/-! ## Starts of programs -/

/-- What the grammar sees of a token that can stand in a source, a literal being one that spells something. -/
def Terminal.Valid : Terminal → Prop
  | .literal text => Lexeme text [] .literal ∧ Spells text (Literal.ofText text)
  | .identifier name => Lexeme name [] .identifier
  | .openParen => True
  | .closeParen => True
  | .endOfInput => False

/-- Tokens with which a program can start. -/
def Viable (ts : List Terminal) : Prop :=
  ∃ us, (∀ t ∈ ts ++ us, t.Valid) ∧ ∃ p : Phrase, p.Derives (ts ++ us)

/-- The span is the one of the first token that no program can have where it stands. -/
inductive FirstImpossible (source : Bytes) : Span → Prop
  | token {before behind : List Piece} {p : Piece} {stop : Except ReadError Bytes}
      (hcut : Cut 0 source (before ++ p :: behind) stop) (hviable : Viable (Piece.terminals before))
      (hnone : ∀ us, ∀ q : Phrase, ¬ q.Derives (Piece.terminals before ++ p.token.terminal :: us)) :
      FirstImpossible source p.token.toSpan
  /-- the source ends too early -/
  | endOfInput {ps : List Piece} {gap : Bytes} (hcut : Cut 0 source ps (.ok gap))
      (hviable : Viable (Piece.terminals ps)) (hnone : ∀ q : Phrase, ¬ q.Derives (Piece.terminals ps)) :
      FirstImpossible source (Token.endOf source).toSpan

/-- The cause is a token that cannot stand where it does. -/
def ReadError.Syntactic : ReadError → Prop
  | .unexpected _ => True
  | .trailing _ => True
  | .expected _ _ => True
  | _ => False

/-! ## Causes -/

theorem Flaw.not_syntactic {bad after : Bytes} {cause : Span → ReadError} (h : Flaw bad after cause)
    (span : Span) : ¬ (cause span).Syntactic := by
  cases h <;> exact id

theorem unescape_not_syntactic {offset : Nat} {body : Bytes} {err : ReadError}
    (h : Literal.unescape offset body = .error err) : ¬ err.Syntactic := by
  fun_induction Literal.unescape offset body generalizing err with
  | case1 => cases h
  | case2 =>
    cases h
    exact id
  | case3 =>
    cases h
    exact id
  | case4 _ _ _ _ _ ih => exact ih (error_of_map h)
  | case5 _ _ _ _ ih => exact ih (error_of_map h)

theorem readInteger_not_syntactic {span : Span} {err : ReadError}
    (h : Literal.readInteger span = .error err) : ¬ err.Syntactic := by
  unfold Literal.readInteger at h
  dsimp only at h
  split_ifs at h <;> cases h <;> exact id

/-- A literal that cannot be read is no matter of syntax. -/
theorem ofSpan_not_syntactic {span : Span} {err : ReadError} (h : Literal.ofSpan span = .error err) :
    ¬ err.Syntactic := by
  unfold Literal.ofSpan at h
  split_ifs at h
  · exact unescape_not_syntactic (error_of_map h)
  · exact readInteger_not_syntactic (error_of_map h)

namespace Reader

/-- The error blames a token for standing where it does. -/
def Blames (t : Token) (err : ReadError) : Prop := err.Syntactic ∧ err.span = t.toSpan

/-- A token that is not the one that is asked for is to blame. -/
theorem expecting_blames {kind : TokenKind} {t : Token} {move : Move} {err : ReadError}
    (h : expecting kind t move = .error err) : Blames t err := by
  unfold expecting at h
  split at h
  · cases h
  · cases h
    exact ⟨trivial, rfl⟩

theorem stepExpr_blames {t : Token} {stack : List Frame} {err : ReadError}
    (h : stepExpr t stack = .error err) : Blames t err := by
  unfold stepExpr at h
  split at h
  case h_4 | h_5 =>
    cases h
    exact ⟨trivial, rfl⟩
  all_goals cases h

/-- A step that is not possible is the fault of the head. -/
theorem step_blames {goal : Goal} {stack : List Frame} {t : Token} {err : ReadError}
    (h : step goal stack t = .error err) : Blames t err := by
  cases goal with
  | expr => exact stepExpr_blames h
  | form =>
    rw [step] at h
    split at h
    · cases h
    · exact stepExpr_blames h
  | params names =>
    rw [step] at h
    split at h
    · cases h
    · exact expecting_blames h
  | defs done =>
    rw [step] at h
    split at h
    · cases h
    · exact expecting_blames h
  | args callee done =>
    rw [step] at h
    split at h
    · exact expecting_blames h
    · exact stepExpr_blames h
  | items done =>
    rw [step] at h
    split at h
    · exact expecting_blames h
    · exact stepExpr_blames h
  | _ => exact expecting_blames h

/-! ## Every configuration can be closed -/

/-- An expression that can stand anywhere. -/
def filler : Terminal := .identifier (ascii "x")

/-- Tokens that finish the form of a goal. -/
def Goal.closing : Goal → List Terminal
  | .expr => [filler]
  | .form => [filler, .closeParen]
  | .paramsOpen => [.openParen, .closeParen, filler, .closeParen]
  | .params _ => [.closeParen, filler, .closeParen]
  | .defsOpen => [.openParen, .closeParen, filler, .closeParen]
  | .defs _ => [.closeParen, filler, .closeParen]
  | .defName _ => [filler, filler, .closeParen, .closeParen, filler, .closeParen]
  | .defClose _ => [.closeParen, .closeParen, filler, .closeParen]
  | .args _ _ => [.closeParen]
  | .items _ => [.closeParen]
  | .target false => [filler, filler, .closeParen]
  | .target true => [filler, filler, filler, .closeParen]
  | .close _ => [.closeParen]

/-- Tokens that finish the form of a frame, once its expression is there. -/
def Frame.closing : Frame → List Terminal
  | .test => [filler, filler, .closeParen]
  | .thenBranch _ => [filler, .closeParen]
  | .defValue _ _ => [.closeParen, .closeParen, filler, .closeParen]
  | .assignedFirst _ => [filler, .closeParen]
  | _ => [.closeParen]

@[simp]
theorem valid_filler : filler.Valid := by
  refine .identifier ⟨by decide, ?_, by simp⟩ (by decide) ?_
  · intro b hb
    rw [List.mem_singleton.mp hb]
    decide
  · rw [← isInteger_iff]
    decide

@[simp]
theorem valid_openParen : Terminal.openParen.Valid := trivial

@[simp]
theorem valid_closeParen : Terminal.closeParen.Valid := trivial

theorem Goal.closing_valid (goal : Goal) : ∀ t ∈ goal.closing, t.Valid := by
  cases goal with
  | target chained => cases chained <;> simp [closing]
  | _ => simp [closing]

theorem Frame.closing_valid (f : Frame) : ∀ t ∈ f.closing, t.Valid := by
  cases f <;> simp [closing]

theorem reads_filler (n : Nat) (r : List Terminal) :
    Reads n (filler :: r) (.var (ascii "x")) n r :=
  (reads_identifier (by decide)).mpr ⟨rfl, rfl, rfl⟩

/-- Every goal can be completed. -/
theorem Goal.completes_closing (goal : Goal) (n : Nat) (r : List Terminal) :
    ∃ e m, goal.Completes n (goal.closing ++ r) e m r := by
  have hparams (names : List Bytes) (n : Nat) :
      ∃ e m, (Goal.params names).Completes n (.closeParen :: filler :: .closeParen :: r) e m r :=
    ⟨_, _, (completes_params (fun x h => by cases h)).mpr ⟨rfl, _, _, _, reads_filler n _, rfl, rfl⟩⟩
  have hdefs (done : List (Bytes × Expr)) (n : Nat) :
      ∃ e m, (Goal.defs done).Completes n (.closeParen :: filler :: .closeParen :: r) e m r :=
    ⟨_, _, (completes_defs (fun h => by cases h)).mpr ⟨rfl, _, _, _, reads_filler n _, rfl, rfl, rfl⟩⟩
  cases goal with
  | expr => exact ⟨_, _, reads_filler n r⟩
  | form =>
    have hword (k : Keyword) : filler ≠ k.terminal := by cases k <;> decide
    have hargs : (Goal.args (.var (ascii "x")) []).Completes n (.closeParen :: r)
        (.app (.var (ascii "x")) []) n r :=
      (completes_last (.app (.var (ascii "x"))) []).mpr ⟨rfl, rfl, rfl⟩
    exact ⟨_, _, (completes_app hword).mpr ⟨_, _, _, reads_filler n _, hargs⟩⟩
  | paramsOpen =>
    obtain ⟨e, m, h⟩ := hparams [] n
    exact ⟨e, m, completes_paramsOpen.mpr ⟨rfl, h⟩⟩
  | params names => exact hparams names n
  | defsOpen =>
    obtain ⟨e, m, h⟩ := hdefs [] n
    exact ⟨e, m, completes_defsOpen.mpr ⟨rfl, h⟩⟩
  | defs done => exact hdefs done n
  | defName done =>
    obtain ⟨e, m, h⟩ := hdefs (done ++ [(ascii "x", .var (ascii "x"))]) n
    exact ⟨e, m, completes_defName.mpr ⟨_, rfl, _, _, _, reads_filler n _, completes_defClose.mpr ⟨rfl, h⟩⟩⟩
  | defClose done =>
    obtain ⟨e, m, h⟩ := hdefs done n
    exact ⟨e, m, completes_defClose.mpr ⟨rfl, h⟩⟩
  | args callee done => exact ⟨_, _, (completes_last (.app callee) done).mpr ⟨rfl, rfl, rfl⟩⟩
  | items done => exact ⟨_, _, (completes_last .seq done).mpr ⟨rfl, rfl, rfl⟩⟩
  | target chained =>
    cases chained with
    | false =>
      exact ⟨_, _, completes_target.mpr ⟨_, rfl, _, _, _, reads_filler n _, rfl, rfl, rfl⟩⟩
    | true =>
      exact ⟨_, _, completes_target.mpr
        ⟨_, rfl, _, _, _, reads_filler n _, _, _, _, reads_filler n _, rfl, rfl, rfl⟩⟩
  | close e => exact ⟨_, _, rfl, rfl, rfl⟩

/-- So can every frame. -/
theorem Frame.completes_closing (f : Frame) (e' : Expr) (n : Nat) (r : List Terminal) :
    ∃ e m, f.Completes e' n (f.closing ++ r) e m r := by
  cases f with
  | lambdaBody params => exact ⟨_, _, rfl, rfl⟩
  | test => exact ⟨_, _, _, _, _, reads_filler n _, _, _, _, reads_filler n _, rfl, rfl, rfl⟩
  | thenBranch c => exact ⟨_, _, _, _, _, reads_filler n _, rfl, rfl, rfl⟩
  | elseBranch c a => exact ⟨_, _, rfl, rfl, rfl⟩
  | defValue done x => exact (Goal.defClose (done ++ [(x, e')])).completes_closing n r
  | letrecBody defs => exact ⟨_, _, rfl, rfl, rfl⟩
  | callee => exact (Goal.args e' []).completes_closing n r
  | arg g done => exact (Goal.args g (done ++ [e'])).completes_closing n r
  | item done => exact (Goal.items (done ++ [e'])).completes_closing n r
  | assigned x => exact ⟨_, _, rfl, rfl, rfl⟩
  | assignedFirst x => exact ⟨_, _, _, _, _, reads_filler n _, rfl, rfl, rfl⟩
  | continuation x value => exact ⟨_, _, rfl, rfl, rfl⟩

/-- So can a stack of frames. -/
theorem closes_closing (stack : List Frame) (e' : Expr) (n : Nat) :
    ∃ e m, Closes e' n (stack.flatMap Frame.closing) e m [] stack := by
  induction stack generalizing e' n with
  | nil => exact ⟨e', n, rfl, rfl, rfl⟩
  | cons f stack ih =>
    obtain ⟨a, k, hf⟩ := f.completes_closing e' n (stack.flatMap Frame.closing)
    obtain ⟨e, m, hstack⟩ := ih a k
    exact ⟨e, m, a, k, _, hf, hstack⟩

/-- Whatever the configuration, some tokens lead from it to the end of a program. -/
theorem pending_closing (goal : Goal) (stack : List Frame) (n : Nat) :
    ∃ us e m, (∀ t ∈ us, t.Valid) ∧ Pending goal stack n us e m [] := by
  obtain ⟨a, k, hgoal⟩ := goal.completes_closing n (stack.flatMap Frame.closing)
  obtain ⟨e, m, hstack⟩ := closes_closing stack a k
  refine ⟨_, e, m, ?_, a, k, _, hgoal, hstack⟩
  intro t ht
  rcases List.mem_append.mp ht with ht | ht
  · exact goal.closing_valid t ht
  · obtain ⟨f, _, ht⟩ := List.mem_flatMap.mp ht
    exact f.closing_valid t ht

end Reader

/-! ## The first impossible token -/

theorem Lexeme.alone {text after : Bytes} {kind : TokenKind} (h : Lexeme text after kind) :
    Lexeme text [] kind := by
  have hrun (h : Run text after) : Run text [] := ⟨h.ne_nil, h.plain, by simp⟩
  cases h with
  | openParen => exact .openParen []
  | closeParen => exact .closeParen []
  | string _ hs => exact .string [] hs
  | literal h hl => exact .literal (hrun h) hl
  | identifier h hhash hnumeral => exact .identifier (hrun h) hhash hnumeral

/-- Pieces of a source are tokens that can stand in one, if their literals are literals. -/
theorem Cut.valid {source : Bytes} {o : Nat} {ps used : List Piece} {stop : Except ReadError Bytes}
    (hcut : Cut o source ps stop) (hused : ∀ p ∈ used, p ∈ ps) (hlegible : Legible (Piece.terminals used)) :
    ∀ t ∈ Piece.terminals used, t.Valid := by
  intro t ht
  obtain ⟨p, hp, rfl⟩ := List.mem_map.mp ht
  obtain ⟨after, hlexeme⟩ := hcut.lexeme (hused p hp)
  have halone := hlexeme.alone
  obtain ⟨gap, ⟨⟨offset, text⟩, kind⟩⟩ := p
  cases kind with
  | literal => exact ⟨halone, hlegible text ht⟩
  | identifier => exact halone
  | openParen => trivial
  | closeParen => trivial
  | endOfInput => exact absurd rfl hlexeme.kind_ne

namespace Reader

section

variable {n k : Nat} {used : List Piece} {goal : Goal} {stack : List Frame}

/-- Behind what is consumed, derivations go on as the configuration does. -/
theorem Consumes.pending_of_derives {us : List Terminal} {q : Phrase}
    (h : Consumes (.more .expr []) n (used.map Piece.token) (.more goal stack) k)
    (hq : q.Derives (Piece.terminals used ++ us)) :
    ∃ e m, Pending goal stack k us e m [] := by
  have hread : Reads n (Piece.terminals used ++ us) (q.denote n).1 (q.denote n).2 [] :=
    ⟨q, derives_iff_starts.mp hq, rfl⟩
  refine ⟨(q.denote n).1, (q.denote n).2, h.pends.mp ?_⟩
  rw [List.map_map]
  exact pending_start.mpr hread

theorem Consumes.derives_of_pending {us : List Terminal} {e : Expr} {m : Nat}
    (h : Consumes (.more .expr []) n (used.map Piece.token) (.more goal stack) k)
    (hpending : Pending goal stack k us e m []) :
    ∃ q : Phrase, q.Derives (Piece.terminals used ++ us) := by
  have hread := pending_start.mp (h.pends.mpr hpending)
  rw [List.map_map] at hread
  obtain ⟨q, hq, _⟩ := hread
  exact ⟨q, derives_iff_starts.mpr hq⟩

/-- Tokens that were consumed without an error start some phrase. -/
theorem Consumes.viable (h : Consumes (.more .expr []) n (used.map Piece.token) (.more goal stack) k)
    (hvalid : ∀ t ∈ Piece.terminals used, t.Valid) : Viable (Piece.terminals used) := by
  obtain ⟨us, e, m, hus, hpending⟩ := pending_closing goal stack k
  exact ⟨us, List.forall_mem_append.mpr ⟨hvalid, hus⟩, h.derives_of_pending hpending⟩

end

/-- A syntax error points at the first token that is not possible. -/
theorem Concludes.firstImpossible {source : Bytes} {n m : Nat} {ps : List Piece}
    {stop : Except ReadError Bytes} {err : ReadError} (hcut : Cut 0 source ps stop)
    (h : Concludes source n ps stop (.error err, m)) (herr : err.Syntactic) :
    FirstImpossible source err.span := by
  cases h with
  | @trailing used rest p e _ hps h =>
    subst hps
    have hvalid := hcut.valid (fun q hq => List.mem_append_left _ hq)
      (hcut.legible rfl fun t => h.literal)
    obtain ⟨q, ⟨hproper, hyield⟩, _⟩ := h.reads []
    have hyield : Piece.terminals used = q.yield := by simpa [Piece.terminals] using hyield
    refine .token hcut ⟨[], ?_, q, hproper, ?_⟩ ?_
    · rwa [List.append_nil]
    · rw [List.append_nil, hyield]
    · -- The tokens before the reported one are a phrase, and no other phrase starts like it.
      intro us q' hq'
      have hstarts : Starts (Piece.terminals used ++ p.token.terminal :: us) q (p.token.terminal :: us) :=
        ⟨hproper, by rw [hyield]⟩
      obtain ⟨_, hrest⟩ := hstarts.unique (derives_iff_starts.mp hq')
      cases hrest
  | @stuck used rest goal stack k _ tk _ hps h hrest hstep =>
    subst hps
    have hvalid := hcut.valid (fun q hq => List.mem_append_left _ hq)
      (hcut.legible rfl fun t => h.literal)
    have hviable := h.viable hvalid
    obtain ⟨_, hspan⟩ := step_blames hstep
    rw [hspan]
    cases hrest with
    | last _ hhead =>
      rw [List.append_nil] at hcut
      rw [hhead]
      refine .endOfInput hcut hviable ?_
      intro q hq
      rw [← List.append_nil (Piece.terminals used)] at hq
      obtain ⟨e, m, hpending⟩ := h.pending_of_derives hq
      exact not_pending_nil hpending
    | token _ hhead _ _ =>
      rw [hhead] at hstep ⊢
      refine .token hcut hviable ?_
      intro us q hq
      obtain ⟨e, m, hpending⟩ := h.pending_of_derives hq
      rw [pending_step, hstep] at hpending
      exact not_leaves_error hpending
  | flaw hstop =>
    subst hstop
    obtain ⟨_, _, _, _, _, _, hflaw, rfl⟩ := hcut.join_error
    exact absurd herr (hflaw.not_syntactic _)
  | literal _ _ hspan => exact absurd herr (ofSpan_not_syntactic hspan)

end Reader

/-- **Syntax errors point at the first impossible token.** If a source is refused for a token that cannot
stand where it does, the tokens before it are a start of some program, and with it they are a start of none;
if the token is the end of the input, they are not a program. And a source that is cut to its end, whose
literals are literals and which has no derivation, is refused for this reason. -/
theorem readProgram_blames_first (source filename : Bytes) (n : Nat) :
    (∀ err m, readProgram source filename n = (.error err, m) → err.Syntactic →
      FirstImpossible source err.span) ∧
    (∀ ps gap, Cut 0 source ps (.ok gap) → Legible (Piece.terminals ps) →
      (∀ q : Phrase, ¬ q.Derives (Piece.terminals ps)) →
      ∃ err m, readProgram source filename n = (.error err, m) ∧ err.Syntactic ∧
        FirstImpossible source err.span) := by
  have hfirst : ∀ err m, readProgram source filename n = (.error err, m) → err.Syntactic →
      FirstImpossible source err.span := by
    intro err m hread herr
    obtain ⟨ps, stop, hcut⟩ := exists_cut 0 source
    have hend := readProgram_concludes filename n hcut
    rw [hread] at hend
    exact hend.firstImpossible hcut herr
  refine ⟨hfirst, fun ps gap hcut hlegible hnone => ?_⟩
  have hend := readProgram_concludes filename n hcut
  generalize hread : readProgram source filename n = result at hend
  cases hend with
  | tree _ h =>
    obtain ⟨p, hp, _⟩ := h.reads []
    rw [List.append_nil] at hp
    exact absurd (derives_iff_starts.mpr hp) (hnone p)
  | trailing hps h => exact ⟨_, _, rfl, trivial, hfirst _ _ hread trivial⟩
  | stuck hps h hrest hstep =>
    obtain ⟨herr, _⟩ := step_blames hstep
    exact ⟨_, _, rfl, herr, hfirst _ _ hread herr⟩
  | flaw hstop => cases hstop
  | literal hp hkind hspan => exact absurd hspan (hlegible.ofSpan hp hkind)

/-- The second branch of a conditional is missing, and the parenthesis that closes it is to blame. -/
theorem readProgram_blames_first_missingBranch :
    ∃ m, readProgram (ascii "(if a b)") [] 0 = (.error (.unexpected ⟨7, ascii ")"⟩), m) ∧
      FirstImpossible (ascii "(if a b)") ⟨7, ascii ")"⟩ := by
  have heval : (readProgram (ascii "(if a b)") [] 0).1.map (fun _ => ()) =
      .error (.unexpected ⟨7, ascii ")"⟩) := by
    decide +kernel
  have hread : readProgram (ascii "(if a b)") [] 0 = (.error (.unexpected ⟨7, ascii ")"⟩), _) :=
    Prod.ext (error_of_map heval) rfl
  exact ⟨_, hread, (readProgram_blames_first (ascii "(if a b)") [] 0).1 _ _ hread trivial⟩

end Trampoline

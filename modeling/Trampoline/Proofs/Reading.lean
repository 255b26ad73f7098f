import Mathlib.Data.List.TakeWhile
import Trampoline.Proofs.Lowered
import Trampoline.Reader

/-!
# Trampoline.Proofs.Reading -- what the reader can give

The reader is a machine: a goal, a stack of frames and a tokenizer. Two facts hold at every step. The
trees that goals and frames carry have native code in halt continuations only, since nothing but the halt
identifier makes a native node. And a head that the tokenizer calls a literal looks like one: it is a truth
value, starts with a double quote, or is an optional sign and digits. So a tree that is read has the first
property, and a literal token is never found to be no literal.
-/

namespace Trampoline

/-! ## Literal tokens -/

/-- The text looks like a literal: a truth value, a string or an integer. -/
def LooksLiteral (text : Bytes) : Prop :=
  text = ascii "#t" ∨ text = ascii "#f" ∨ text.head? = some Byte.doubleQuote ∨ isInteger text = true

/-- If the token is called a literal, it looks like one. -/
def Token.WellNamed (t : Token) : Prop := t.kind = .literal → LooksLiteral t.text

theorem atomKind?_literal {atom : Bytes} (h : atomKind? atom = some .literal) : LooksLiteral atom := by
  unfold atomKind? at h
  split at h
  · rename_i hatom
    simp only [Bool.or_eq_true, beq_iff_eq] at hatom
    rcases hatom with (hint | ht) | hf
    · exact Or.inr (Or.inr (Or.inr hint))
    · exact Or.inl ht
    · exact Or.inr (Or.inl hf)
  · split at h <;> cases h

/-- A token that is scanned is well named. -/
theorem scanToken_wellNamed {offset : Nat} {text after : Bytes} {t : Token}
    (h : scanToken offset text = .ok (t, after)) : t.WellNamed := by
  intro hkind
  cases text with
  | nil =>
    cases h
    cases hkind
  | cons b rest =>
    rw [scanToken] at h
    split at h
    · cases h
      cases hkind
    · split at h
      · cases h
        cases hkind
      · split at h
        · rename_i hquote
          split at h
          · cases h
            exact Or.inr (Or.inr (Or.inl (congrArg some hquote)))
          · cases h
        · dsimp only at h
          split at h
          · rename_i hatom
            cases h
            exact atomKind?_literal (hatom.trans (congrArg some hkind))
          · cases h

/-- The cause is any but that a literal is no literal. -/
def ReadError.Expected (err : ReadError) : Prop := ∀ span, err ≠ .invalid span

/-- An error of the scanner is one of those that are expected. -/
theorem scanToken_expected {offset : Nat} {text : Bytes} {err : ReadError}
    (h : scanToken offset text = .error err) : err.Expected := by
  cases text with
  | nil => cases h
  | cons b rest =>
    rw [scanToken] at h
    split at h
    · cases h
    · split at h
      · cases h
      · split at h
        · split at h
          · cases h
          · cases h
            intro span heq
            cases heq
        · dsimp only at h
          split at h
          · cases h
          · cases h
            intro span heq
            cases heq

namespace Tokenizer

theorem start_wellNamed {source filename : Bytes} {tk : Tokenizer} (h : start source filename = .ok tk) :
    tk.head.WellNamed := by
  unfold start at h
  split at h
  · rename_i hscan
    cases h
    exact scanToken_wellNamed hscan
  · cases h

theorem advance_wellNamed {tk next : Tokenizer} (h : tk.advance = .ok next) : next.head.WellNamed := by
  unfold advance at h
  split at h
  · rename_i hscan
    cases h
    exact scanToken_wellNamed hscan
  · cases h

theorem start_expected {source filename : Bytes} {err : ReadError}
    (h : start source filename = .error err) : err.Expected := by
  unfold start at h
  split at h
  · cases h
  · rename_i hscan
    cases h
    exact scanToken_expected hscan

theorem advance_expected {tk : Tokenizer} {err : ReadError} (h : tk.advance = .error err) :
    err.Expected := by
  unfold advance at h
  split at h
  · cases h
  · rename_i hscan
    cases h
    exact scanToken_expected hscan

end Tokenizer

theorem error_of_map {ε α β : Type} {x : Except ε α} {f : α → β} {err : ε}
    (h : x.map f = .error err) : x = .error err := by
  cases x with
  | error e =>
    cases h
    rfl
  | ok a => cases h

namespace Literal

theorem unescape_expected {offset : Nat} {body : Bytes} {err : ReadError}
    (h : unescape offset body = .error err) : err.Expected := by
  fun_induction unescape offset body generalizing err with
  | case1 => cases h
  | case2 =>
    cases h
    intro span heq
    cases heq
  | case3 =>
    cases h
    intro span heq
    cases heq
  | case4 _ _ _ _ _ ih => exact ih (error_of_map h)
  | case5 _ _ _ _ ih => exact ih (error_of_map h)

theorem dropSign_eq_self {sign : UInt8} {t : Bytes} (hsign : Byte.isDigit sign = false)
    (h : t.all Byte.isDigit) : dropSign sign t = t := by
  cases t with
  | nil => rfl
  | cons b rest =>
    rw [List.all_cons, Bool.and_eq_true] at h
    have hne : b ≠ sign := by
      rintro rfl
      rw [hsign] at h
      cases h.1
    rw [dropSign, if_neg hne]

/-- Without its sign, an integer is a run of digits. -/
theorem dropSign_integer {text : Bytes} (h : isInteger text = true) :
    (dropSign Byte.minus (dropSign Byte.plus text)).all Byte.isDigit ∧
      dropSign Byte.minus (dropSign Byte.plus text) ≠ [] := by
  have hminus : Byte.isDigit Byte.minus = false := by decide
  have hplus : Byte.isDigit Byte.plus = false := by decide
  have hne : Byte.minus ≠ Byte.plus := by decide
  cases text with
  | nil => cases h
  | cons b rest =>
    simp only [isInteger, Bool.and_eq_true, Bool.not_eq_true', List.isEmpty_eq_false_iff] at h
    by_cases hb : b = Byte.plus
    · -- A plus is dropped, and the digits behind it start with no minus.
      rw [if_pos (Or.inr hb)] at h
      rw [dropSign, if_pos hb, dropSign_eq_self hminus h.2]
      exact ⟨h.2, h.1⟩
    · rw [dropSign, if_neg hb]
      by_cases hb' : b = Byte.minus
      · rw [if_pos (Or.inl hb')] at h
        rw [dropSign, if_pos hb']
        exact ⟨h.2, h.1⟩
      · rw [if_neg (not_or.mpr ⟨hb', hb⟩)] at h
        rw [dropSign_eq_self hminus h.2]
        exact ⟨h.2, h.1⟩

theorem readInteger_expected {span : Span} (hspan : isInteger span.text = true) {err : ReadError}
    (h : readInteger span = .error err) : err.Expected := by
  obtain ⟨hdigits, hne⟩ := dropSign_integer hspan
  have hall : (dropSign Byte.minus (dropSign Byte.plus span.text)).takeWhile Byte.isDigit =
      dropSign Byte.minus (dropSign Byte.plus span.text) := by
    rw [List.takeWhile_eq_self_iff]
    simpa using hdigits
  unfold readInteger at h
  dsimp only at h
  rw [hall, if_neg hne, if_neg (not_not_intro rfl)] at h
  -- With or without a minus, the value fits or does not.
  split at h
  all_goals
    split at h
    · cases h
      intro span heq
      cases heq
    · cases h

/-- What looks like a literal is one, or says why not. -/
theorem ofSpan_expected {span : Span} (hspan : LooksLiteral span.text) {err : ReadError}
    (h : ofSpan span = .error err) : err.Expected := by
  unfold ofSpan at h
  split at h
  · cases h
  · split at h
    · cases h
    · split at h
      · exact unescape_expected (error_of_map h)
      · rename_i ht hf hquote
        have hint : isInteger span.text = true := by
          rcases hspan with h | h | h | h
          · exact absurd h ht
          · exact absurd h hf
          · exact absurd h hquote
          · exact h
        exact readInteger_expected hint (error_of_map h)

end Literal

namespace Reader

/-! ## The machine -/

/-- The trees of a goal have native code in halt continuations only. -/
def Goal.OnlyHalts : Goal → Prop
  | .defs done | .defName done | .defClose done => ∀ d ∈ done, d.2.OnlyHalts
  | .args callee done => callee.OnlyHalts ∧ ∀ a ∈ done, a.OnlyHalts
  | .items done => ∀ a ∈ done, a.OnlyHalts
  | .close e => e.OnlyHalts
  | _ => True

def Frame.OnlyHalts : Frame → Prop
  | .thenBranch t => t.OnlyHalts
  | .elseBranch t a => t.OnlyHalts ∧ a.OnlyHalts
  | .defValue done _ | .letrecBody done => ∀ d ∈ done, d.2.OnlyHalts
  | .arg f done => f.OnlyHalts ∧ ∀ a ∈ done, a.OnlyHalts
  | .item done => ∀ a ∈ done, a.OnlyHalts
  | .continuation _ value => value.OnlyHalts
  | _ => True

/-- What a move leaves to be done is of this kind too, and its literal looks like one. -/
def Move.Sound : Move → Prop
  | .await goal stack => goal.OnlyHalts ∧ ∀ f ∈ stack, f.OnlyHalts
  | .give e stack => e.OnlyHalts ∧ ∀ f ∈ stack, f.OnlyHalts
  | .literal span stack => LooksLiteral span.text ∧ ∀ f ∈ stack, f.OnlyHalts
  | .halt stack => ∀ f ∈ stack, f.OnlyHalts

def Progress.OnlyHalts : Progress → Prop
  | .done e => e.OnlyHalts
  | .more goal stack => goal.OnlyHalts ∧ ∀ f ∈ stack, f.OnlyHalts

theorem expecting_ok {kind : TokenKind} {t : Token} {m m' : Move} (h : expecting kind t m = .ok m') :
    m' = m := by
  unfold expecting at h
  split at h
  · cases h
    rfl
  · cases h

theorem stepExpr_sound {t : Token} {stack : List Frame} {m : Move} (ht : t.WellNamed)
    (hstack : ∀ f ∈ stack, f.OnlyHalts) (h : stepExpr t stack = .ok m) : m.Sound := by
  unfold stepExpr at h
  split at h
  · rename_i hkind
    cases h
    exact ⟨ht hkind, hstack⟩
  · cases h
    split
    · exact hstack
    · exact ⟨.var _, hstack⟩
  · cases h
    exact ⟨trivial, hstack⟩
  · cases h
  · cases h

theorem Keyword.enter_sound {stack : List Frame} (hstack : ∀ f ∈ stack, f.OnlyHalts) (k : Keyword) :
    (k.enter stack).Sound := by
  cases k with
  | void => exact ⟨.literal _, hstack⟩
  | lambda => exact ⟨trivial, hstack⟩
  | cond => exact ⟨trivial, List.forall_mem_cons.mpr ⟨trivial, hstack⟩⟩
  | letrec => exact ⟨trivial, hstack⟩
  | seq => exact ⟨fun a ha => absurd ha List.not_mem_nil, hstack⟩
  | assign => exact ⟨trivial, hstack⟩
  | assignThen => exact ⟨trivial, hstack⟩

/-- A step of the reader on a well-named token keeps native nodes out of everything but halt continuations, and
asks for a literal only where the token is one. -/
theorem step_sound {goal : Goal} {stack : List Frame} {t : Token} {m : Move} (ht : t.WellNamed)
    (hgoal : goal.OnlyHalts) (hstack : ∀ f ∈ stack, f.OnlyHalts) (h : step goal stack t = .ok m) :
    m.Sound := by
  have hpush (f : Frame) (hf : f.OnlyHalts) : ∀ g ∈ f :: stack, g.OnlyHalts :=
    List.forall_mem_cons.mpr ⟨hf, hstack⟩
  cases goal with
  | expr => exact stepExpr_sound ht hstack h
  | form =>
    rw [step] at h
    split at h
    · cases h
      exact Keyword.enter_sound hstack _
    · exact stepExpr_sound ht (hpush .callee trivial) h
  | paramsOpen =>
    rw [expecting_ok h]
    exact ⟨trivial, hstack⟩
  | params names =>
    rw [step] at h
    split at h
    · cases h
      exact ⟨trivial, hstack⟩
    · rw [expecting_ok h]
      exact ⟨trivial, hpush (.lambdaBody names) trivial⟩
  | defsOpen =>
    rw [expecting_ok h]
    exact ⟨fun d hd => absurd hd List.not_mem_nil, hstack⟩
  | defs done =>
    rw [step] at h
    split at h
    · cases h
      exact ⟨hgoal, hstack⟩
    · rw [expecting_ok h]
      exact ⟨trivial, hpush (.letrecBody done) hgoal⟩
  | defName done =>
    rw [expecting_ok h]
    exact ⟨trivial, hpush (.defValue done t.text) hgoal⟩
  | defClose done =>
    rw [expecting_ok h]
    exact ⟨hgoal, hstack⟩
  | args callee done =>
    rw [step] at h
    split at h
    · rw [expecting_ok h]
      exact ⟨.app hgoal.1 hgoal.2, hstack⟩
    · exact stepExpr_sound ht (hpush (.arg callee done) hgoal) h
  | items done =>
    rw [step] at h
    split at h
    · rw [expecting_ok h]
      exact ⟨.seq hgoal, hstack⟩
    · exact stepExpr_sound ht (hpush (.item done) hgoal) h
  | target chained =>
    rw [expecting_ok h]
    refine ⟨trivial, hpush _ ?_⟩
    cases chained <;> trivial
  | close e =>
    rw [expecting_ok h]
    exact ⟨hgoal, hstack⟩

theorem expecting_expected {kind : TokenKind} {t : Token} {m : Move} {err : ReadError}
    (h : expecting kind t m = .error err) : err.Expected := by
  unfold expecting at h
  split at h
  · cases h
  · cases h
    intro span heq
    cases heq

theorem stepExpr_expected {t : Token} {stack : List Frame} {err : ReadError}
    (h : stepExpr t stack = .error err) : err.Expected := by
  unfold stepExpr at h
  split at h
  case h_4 | h_5 =>
    cases h
    intro span heq
    cases heq
  all_goals cases h

/-- A goal that cannot make a move blames the token for being where it is. -/
theorem step_expected {goal : Goal} {stack : List Frame} {t : Token} {err : ReadError}
    (h : step goal stack t = .error err) : err.Expected := by
  cases goal with
  | expr => exact stepExpr_expected h
  | form =>
    rw [step] at h
    split at h
    · cases h
    · exact stepExpr_expected h
  | params names =>
    rw [step] at h
    split at h
    · cases h
    · exact expecting_expected h
  | defs done =>
    rw [step] at h
    split at h
    · cases h
    · exact expecting_expected h
  | args callee done =>
    rw [step] at h
    split at h
    · exact expecting_expected h
    · exact stepExpr_expected h
  | items done =>
    rw [step] at h
    split at h
    · exact expecting_expected h
    · exact stepExpr_expected h
  | _ => exact expecting_expected h

/-- Closing frames keeps native nodes where they belong. -/
theorem settle_onlyHalts {e : Expr} {stack : List Frame} (he : e.OnlyHalts)
    (hstack : ∀ f ∈ stack, f.OnlyHalts) (next : Nat) : (settle e stack next).1.OnlyHalts := by
  cases stack with
  | nil => exact he
  | cons f stack =>
    obtain ⟨hf, hrest⟩ := List.forall_mem_cons.mp hstack
    cases f with
    | lambdaBody params => exact ⟨.lambda _ _ he, hrest⟩
    | test => exact ⟨trivial, List.forall_mem_cons.mpr ⟨he, hrest⟩⟩
    | thenBranch t => exact ⟨trivial, List.forall_mem_cons.mpr ⟨⟨hf, he⟩, hrest⟩⟩
    | elseBranch t a => exact ⟨.cond hf.1 hf.2 he, hrest⟩
    | defValue done name =>
      refine ⟨List.forall_mem_append.mpr ⟨hf, ?_⟩, hrest⟩
      exact List.forall_mem_singleton.mpr he
    | letrecBody defs => exact ⟨.letrec hf he, hrest⟩
    | callee => exact ⟨⟨he, fun a ha => absurd ha List.not_mem_nil⟩, hrest⟩
    | arg g done =>
      refine ⟨⟨hf.1, List.forall_mem_append.mpr ⟨hf.2, ?_⟩⟩, hrest⟩
      exact List.forall_mem_singleton.mpr he
    | item done =>
      refine ⟨List.forall_mem_append.mpr ⟨hf, ?_⟩, hrest⟩
      exact List.forall_mem_singleton.mpr he
    | assigned name => exact ⟨.assign _ he, hrest⟩
    | assignedFirst name => exact ⟨trivial, List.forall_mem_cons.mpr ⟨he, hrest⟩⟩
    | continuation name value => exact ⟨.assignThen _ hf he, hrest⟩

/-- A result of reading that is as it must be: it has a property, or it is an error that is to be
expected. -/
def Answers {α : Type} (P : α → Prop) : Except ReadError α → Prop
  | .ok a => P a
  | .error err => err.Expected

/-- A sound move leads on, or fails with an error that is expected. -/
theorem Move.perform_answers {m : Move} (hm : m.Sound) (next : Nat) :
    Answers Progress.OnlyHalts (m.perform next).1 := by
  cases m with
  | await goal stack => exact hm
  | give e stack => exact settle_onlyHalts hm.1 hm.2 next
  | literal span stack =>
    rw [perform]
    cases hl : Literal.ofSpan span with
    | error err => exact Literal.ofSpan_expected hm.1 hl
    | ok l => exact settle_onlyHalts (.literal l) hm.2 next
  | halt stack => exact settle_onlyHalts (.halt _ _) hm _

/-- Whatever is read, the trees in progress and the head stay as they must be. -/
theorem run_answers {goal : Goal} {stack : List Frame} {s : State} (hgoal : goal.OnlyHalts)
    (hstack : ∀ f ∈ stack, f.OnlyHalts) (hhead : s.tokens.head.WellNamed) :
    Answers Expr.OnlyHalts (run goal stack s).1 := by
  fun_induction run goal stack s with
  | case1 goal stack s err hstep => exact step_expected hstep
  | case2 goal stack s m hstep err hadv => exact Tokenizer.advance_expected hadv
  | case3 goal stack s m hstep tokens hadv err next hperform =>
    have hm := Move.perform_answers (step_sound hhead hgoal hstack hstep) s.next
    rwa [hperform] at hm
  | case4 goal stack s m hstep tokens hadv e next hperform =>
    have hm := Move.perform_answers (step_sound hhead hgoal hstack hstep) s.next
    rwa [hperform] at hm
  | case5 goal stack s m hstep tokens hadv goal' stack' next hperform ih =>
    have hm := Move.perform_answers (step_sound hhead hgoal hstack hstep) s.next
    rw [hperform] at hm
    exact ih hm.1 hm.2 (Tokenizer.advance_wellNamed hadv)

/-- A program that is read has native code in halt continuations only, and one that is not read has no
literal token that is no literal. -/
theorem readProgram_answers (source filename : Bytes) (next : Nat) :
    Answers Expr.OnlyHalts (readProgram source filename next).1 := by
  unfold readProgram
  split
  · rename_i hstart
    exact Tokenizer.start_expected hstart
  · rename_i tokens hstart
    have hrun : Answers Expr.OnlyHalts (readExpr ⟨tokens, next⟩).1 :=
      run_answers trivial (fun f hf => absurd hf List.not_mem_nil) (Tokenizer.start_wellNamed hstart)
    split
    · rename_i hread
      rwa [hread] at hrun
    · rename_i hread
      rw [hread] at hrun
      split
      · exact hrun
      · intro span heq
        cases heq

end Reader

end Trampoline

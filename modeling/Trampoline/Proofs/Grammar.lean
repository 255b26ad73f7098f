import Trampoline.Proofs.Spelling

/-!
# Trampoline.Proofs.Grammar -- the grammar of programs

The derivations of the grammar are trees, one constructor a production. The yield of a derivation is the
sequence of its tokens, and its tree is what it stands for: the lambdas of a program are numbered in the
order in which they end, and a halt continuation takes two numbers.

Two productions need a condition. An identifier is not the one that stands for the halt continuation, and
what an application applies is not a keyword. With them the first tokens of a sequence decide which
production it is derived by, and no sequence has two derivations.
-/

namespace Trampoline

open Reader

/-- What the grammar sees of a token. -/
inductive Terminal where
  | literal (text : Bytes)
  | identifier (name : Bytes)
  | openParen
  | closeParen
  /-- what stands behind the last token; no derivation has it -/
  | endOfInput
  deriving DecidableEq

/-- What the grammar sees of a token. -/
def Token.terminal (t : Token) : Terminal :=
  match t.kind with
  | .literal => .literal t.text
  | .identifier => .identifier t.text
  | .openParen => .openParen
  | .closeParen => .closeParen
  | .endOfInput => .endOfInput

namespace Reader.Keyword

/-- The spelling of a keyword. -/
def spelling : Keyword → Bytes
  | .void => ascii "void"
  | .lambda => ascii "lambda"
  | .cond => ascii "if"
  | .letrec => ascii "letrec"
  | .seq => ascii "begin"
  | .assign => ascii "set!"
  | .assignThen => ascii "set-then!"

/-- A keyword is an identifier. -/
def terminal (k : Keyword) : Terminal := .identifier k.spelling

theorem ofName?_spelling (k : Keyword) : ofName? k.spelling = some k := by
  cases k <;> decide

theorem spelling_of_ofName? {name : Bytes} {k : Keyword} (h : ofName? name = some k) :
    name = k.spelling := by
  unfold ofName? at h
  split_ifs at h <;> cases h <;> assumption

theorem spelling_ne_haltName (k : Keyword) : k.spelling ≠ haltName := by
  cases k <;> decide

theorem terminal_inj {k k' : Keyword} (h : k.terminal = k'.terminal) : k = k' := by
  have hname := congrArg ofName? (Terminal.identifier.inj h)
  rw [ofName?_spelling, ofName?_spelling] at hname
  exact Option.some.inj hname

end Reader.Keyword

/-! ## Derivations -/

/-- The derivations of an expression. -/
inductive Phrase where
  | var (name : Bytes)
  | literal (text : Bytes)
  | halt
  | void
  | lambda (params : List Bytes) (body : Phrase)
  | cond (test thenBranch elseBranch : Phrase)
  | letrec (defs : List (Bytes × Phrase)) (body : Phrase)
  | seq (items : List Phrase)
  | assign (name : Bytes) (value : Phrase)
  | assignThen (name : Bytes) (value next : Phrase)
  | app (callee : Phrase) (args : List Phrase)

namespace Phrase

mutual

/-- The tokens of a derivation. -/
def yield : Phrase → List Terminal
  | .var x => [.identifier x]
  | .literal text => [.literal text]
  | .halt => [.identifier haltName]
  | .void => [.openParen, Keyword.void.terminal, .closeParen]
  | .lambda params body =>
    [.openParen, Keyword.lambda.terminal, .openParen] ++ params.map .identifier ++ [.closeParen] ++
      body.yield ++ [.closeParen]
  | .cond test a b =>
    [.openParen, Keyword.cond.terminal] ++ test.yield ++ a.yield ++ b.yield ++ [.closeParen]
  | .letrec defs body =>
    [.openParen, Keyword.letrec.terminal, .openParen] ++ yieldDefs defs ++ [.closeParen] ++
      body.yield ++ [.closeParen]
  | .seq items => [.openParen, Keyword.seq.terminal] ++ yieldAll items ++ [.closeParen]
  | .assign x value =>
    [.openParen, Keyword.assign.terminal, .identifier x] ++ value.yield ++ [.closeParen]
  | .assignThen x value next =>
    [.openParen, Keyword.assignThen.terminal, .identifier x] ++ value.yield ++ next.yield ++ [.closeParen]
  | .app callee args => [.openParen] ++ callee.yield ++ yieldAll args ++ [.closeParen]

def yieldAll : List Phrase → List Terminal
  | [] => []
  | p :: ps => p.yield ++ yieldAll ps

def yieldDefs : List (Bytes × Phrase) → List Terminal
  | [] => []
  | (x, p) :: ds => [.openParen, .identifier x] ++ p.yield ++ [.closeParen] ++ yieldDefs ds

end

attribute [simp] yield yieldAll yieldDefs

/-- The conditions of the productions hold: no name is the one of the halt continuation, and no keyword is
applied. -/
inductive Proper : Phrase → Prop
  | var {x : Bytes} (hx : x ≠ haltName) : Proper (.var x)
  | literal (text : Bytes) : Proper (.literal text)
  | halt : Proper .halt
  | void : Proper .void
  | lambda (params : List Bytes) {body : Phrase} (hbody : Proper body) : Proper (.lambda params body)
  | cond {test a b : Phrase} (htest : Proper test) (ha : Proper a) (hb : Proper b) :
      Proper (.cond test a b)
  | letrec {defs : List (Bytes × Phrase)} {body : Phrase} (hdefs : ∀ d ∈ defs, Proper d.2)
      (hbody : Proper body) : Proper (.letrec defs body)
  | seq {items : List Phrase} (hitems : ∀ p ∈ items, Proper p) : Proper (.seq items)
  | assign (x : Bytes) {value : Phrase} (hvalue : Proper value) : Proper (.assign x value)
  | assignThen (x : Bytes) {value next : Phrase} (hvalue : Proper value) (hnext : Proper next) :
      Proper (.assignThen x value next)
  | app {callee : Phrase} {args : List Phrase} (hcallee : Proper callee)
      (hhead : ∀ k : Keyword, callee ≠ .var k.spelling) (hargs : ∀ p ∈ args, Proper p) :
      Proper (.app callee args)

/-- The phrase is a derivation of the tokens. -/
structure Derives (p : Phrase) (ts : List Terminal) : Prop where
  proper : p.Proper
  yield_eq : p.yield = ts

/-! ## What derivations stand for -/

mutual

/-- The tree that a derivation stands for, given the next number. -/
def denote : Phrase → StateM Nat Expr
  | .var x => pure (.var x)
  | .literal text => pure (.literal (Literal.ofText text))
  | .halt => Expr.freshHalt
  | .void => pure (.literal .unspecified)
  | .lambda params body => do
    let e ← body.denote
    Expr.freshLambda params e
  | .cond test a b => do
    let t ← test.denote
    let x ← a.denote
    let y ← b.denote
    pure (.cond t x y)
  | .letrec defs body => do
    let ds ← denoteDefs defs
    let e ← body.denote
    pure (.letrec ds e)
  | .seq items => do
    let es ← denoteAll items
    pure (.seq es)
  | .assign x value => do
    let e ← value.denote
    pure (.assign x e)
  | .assignThen x value next => do
    let e ← value.denote
    let k ← next.denote
    pure (.assignThen x e k)
  | .app callee args => do
    let f ← callee.denote
    let es ← denoteAll args
    pure (.app f es)

def denoteAll : List Phrase → StateM Nat (List Expr)
  | [] => pure []
  | p :: ps => do
    let e ← p.denote
    let es ← denoteAll ps
    pure (e :: es)

def denoteDefs : List (Bytes × Phrase) → StateM Nat (List (Bytes × Expr))
  | [] => pure []
  | (x, p) :: ds => do
    let e ← p.denote
    let es ← denoteDefs ds
    pure ((x, e) :: es)

end

end Phrase

/-! ## How sequences of tokens start -/

open Phrase

/-- `Starts ts p r`: the tokens start with those of a derivation, and `r` is behind them. -/
def Starts (ts : List Terminal) (p : Phrase) (r : List Terminal) : Prop := p.Proper ∧ ts = p.yield ++ r

def StartsAll (ts : List Terminal) (ps : List Phrase) (r : List Terminal) : Prop :=
  (∀ p ∈ ps, p.Proper) ∧ ts = yieldAll ps ++ r

def StartsDefs (ts : List Terminal) (ds : List (Bytes × Phrase)) (r : List Terminal) : Prop :=
  (∀ d ∈ ds, d.2.Proper) ∧ ts = yieldDefs ds ++ r

/-- A phrase derives terminals if they start with the phrase and nothing is left. -/
theorem derives_iff_starts {p : Phrase} {ts : List Terminal} : p.Derives ts ↔ Starts ts p [] := by
  constructor
  · rintro ⟨hp, rfl⟩
    exact ⟨hp, (List.append_nil _).symm⟩
  · rintro ⟨hp, rfl⟩
    exact ⟨hp, (List.append_nil _).symm⟩

section

variable {ts r : List Terminal} {p : Phrase}

/-- A derivation has a first token, which is a literal, an identifier or an opening parenthesis. -/
theorem Starts.head (h : Starts ts p r) :
    ∃ t us, ts = t :: us ∧ ((∃ text, t = .literal text) ∨ (∃ x, t = .identifier x) ∨ t = .openParen) := by
  obtain ⟨_, rfl⟩ := h
  cases p with
  | literal text => exact ⟨_, _, rfl, .inl ⟨_, rfl⟩⟩
  | var x => exact ⟨_, _, rfl, .inr (.inl ⟨_, rfl⟩)⟩
  | halt => exact ⟨_, _, rfl, .inr (.inl ⟨_, rfl⟩)⟩
  | _ => exact ⟨_, _, rfl, .inr (.inr rfl)⟩

theorem not_starts_nil : ¬ Starts [] p r := by
  intro h
  obtain ⟨t, us, hts, _⟩ := h.head
  cases hts

/-- No phrase starts with a closing parenthesis. -/
theorem not_starts_closeParen : ¬ Starts (.closeParen :: ts) p r := by
  intro h
  obtain ⟨t, us, hts, ⟨_, rfl⟩ | ⟨_, rfl⟩ | rfl⟩ := h.head <;> cases hts

theorem not_starts_endOfInput : ¬ Starts (.endOfInput :: ts) p r := by
  intro h
  obtain ⟨t, us, hts, ⟨_, rfl⟩ | ⟨_, rfl⟩ | rfl⟩ := h.head <;> cases hts

theorem starts_literal {text : Bytes} :
    Starts (.literal text :: ts) p r ↔ p = .literal text ∧ r = ts := by
  constructor
  · rintro ⟨_, h⟩
    cases p with
    | literal text' =>
      cases h
      exact ⟨rfl, rfl⟩
    | _ => cases h
  · rintro ⟨rfl, rfl⟩
    exact ⟨.literal text, rfl⟩

/-- The name of the halt continuation is a phrase of its own. -/
theorem starts_halt : Starts (.identifier haltName :: ts) p r ↔ p = .halt ∧ r = ts := by
  constructor
  · rintro ⟨hp, h⟩
    cases hp with
    | var hx =>
      obtain ⟨hx', _⟩ := List.cons.inj h
      exact absurd (Terminal.identifier.inj hx').symm hx
    | halt => exact ⟨rfl, (List.cons.inj h).2.symm⟩
    | _ => cases h
  · rintro ⟨rfl, rfl⟩
    exact ⟨.halt, rfl⟩

/-- Any other identifier is a variable. -/
theorem starts_identifier {x : Bytes} (hx : x ≠ haltName) :
    Starts (.identifier x :: ts) p r ↔ p = .var x ∧ r = ts := by
  constructor
  · rintro ⟨_, h⟩
    cases p with
    | var y =>
      cases h
      exact ⟨rfl, rfl⟩
    | halt =>
      obtain ⟨hx', _⟩ := List.cons.inj h
      exact absurd (Terminal.identifier.inj hx') hx
    | _ => cases h
  · rintro ⟨rfl, rfl⟩
    exact ⟨.var hx, rfl⟩

/-! ### Forms -/

/-- The keyword of a form that has one. -/
def Phrase.keyword? : Phrase → Option Keyword
  | .void => some .void
  | .lambda _ _ => some .lambda
  | .cond _ _ _ => some .cond
  | .letrec _ _ => some .letrec
  | .seq _ => some .seq
  | .assign _ _ => some .assign
  | .assignThen _ _ _ => some .assignThen
  | _ => none

/-- What is behind an opening parenthesis: a keyword and its form, or an application. -/
theorem Starts.form {t : Terminal} (h : Starts (.openParen :: t :: ts) p r) :
    (∃ k, p.keyword? = some k ∧ t = k.terminal) ∨
      ∃ f args us, p = .app f args ∧ (∀ k : Keyword, t ≠ k.terminal) ∧ Starts (t :: ts) f us ∧
        StartsAll us args (.closeParen :: r) := by
  obtain ⟨hp, h⟩ := h
  cases hp with
  | var _ => cases h
  | literal _ => cases h
  | halt => cases h
  | @app f args hf hhead hargs =>
    right
    have hts : t :: ts = f.yield ++ (yieldAll args ++ (.closeParen :: r)) := by
      simpa using h
    refine ⟨f, args, _, rfl, ?_, ⟨hf, hts⟩, hargs, rfl⟩
    -- An identifier in front is all of the callee, so a keyword in front would be the callee.
    rintro k rfl
    have hstart : Starts (.identifier k.spelling :: ts) f _ := ⟨hf, hts⟩
    exact hhead k ((starts_identifier k.spelling_ne_haltName).mp hstart).1
  | _ => exact .inl ⟨_, rfl, (List.cons.inj (List.cons.inj h).2).1⟩

/-- A keyword behind a parenthesis decides the kind of the phrase. -/
theorem Starts.keyword {k : Keyword} (h : Starts (.openParen :: k.terminal :: ts) p r) :
    p.keyword? = some k := by
  rcases h.form with ⟨k', hk', hterm⟩ | ⟨_, _, _, _, hne, _⟩
  · rw [hk', Keyword.terminal_inj hterm]
  · exact absurd rfl (hne k)

/-- Behind a parenthesis, anything but a keyword starts a call. -/
theorem starts_app {t : Terminal} (ht : ∀ k : Keyword, t ≠ k.terminal) :
    Starts (.openParen :: t :: ts) p r ↔
      ∃ f args us, p = .app f args ∧ Starts (t :: ts) f us ∧ StartsAll us args (.closeParen :: r) := by
  constructor
  · intro h
    rcases h.form with ⟨k, _, hk⟩ | ⟨f, args, us, hp, _, hf, hargs⟩
    · exact absurd hk (ht k)
    · exact ⟨f, args, us, hp, hf, hargs⟩
  · rintro ⟨f, args, us, rfl, ⟨hf, hts⟩, hargs, rfl⟩
    refine ⟨.app hf ?_ hargs, ?_⟩
    · rintro k rfl
      exact ht k (List.cons.inj hts).1
    · rw [hts]
      simp

theorem starts_void :
    Starts (.openParen :: Keyword.void.terminal :: ts) p r ↔ p = .void ∧ ts = .closeParen :: r := by
  constructor
  · intro h
    have hk := h.keyword
    cases p with
    | void => exact ⟨rfl, by simpa using h.2⟩
    | _ => cases hk
  · rintro ⟨rfl, rfl⟩
    exact ⟨.void, rfl⟩

theorem starts_lambda :
    Starts (.openParen :: Keyword.lambda.terminal :: ts) p r ↔
      ∃ params body us, p = .lambda params body ∧
        ts = .openParen :: (params.map .identifier ++ .closeParen :: us) ∧
        Starts us body (.closeParen :: r) := by
  constructor
  · intro h
    have hk := h.keyword
    obtain ⟨hp, h⟩ := h
    cases hp with
    | @lambda params body hbody =>
      exact ⟨params, body, _, rfl, by simpa using h, hbody, rfl⟩
    | _ => cases hk
  · rintro ⟨params, body, us, rfl, rfl, hbody, rfl⟩
    exact ⟨.lambda params hbody, by simp⟩

theorem starts_cond :
    Starts (.openParen :: Keyword.cond.terminal :: ts) p r ↔
      ∃ a b c us vs, p = .cond a b c ∧ Starts ts a us ∧ Starts us b vs ∧
        Starts vs c (.closeParen :: r) := by
  constructor
  · intro h
    have hk := h.keyword
    obtain ⟨hp, h⟩ := h
    cases hp with
    | cond ha hb hc =>
      exact ⟨_, _, _, _, _, rfl, ⟨ha, by simpa using h⟩, ⟨hb, rfl⟩, hc, rfl⟩
    | _ => cases hk
  · rintro ⟨a, b, c, us, vs, rfl, ⟨ha, rfl⟩, ⟨hb, rfl⟩, hc, rfl⟩
    exact ⟨.cond ha hb hc, by simp⟩

theorem starts_letrec :
    Starts (.openParen :: Keyword.letrec.terminal :: ts) p r ↔
      ∃ defs body us vs, p = .letrec defs body ∧ ts = .openParen :: us ∧
        StartsDefs us defs (.closeParen :: vs) ∧ Starts vs body (.closeParen :: r) := by
  constructor
  · intro h
    have hk := h.keyword
    obtain ⟨hp, h⟩ := h
    cases hp with
    | letrec hdefs hbody =>
      exact ⟨_, _, _, _, rfl, by simpa using h, ⟨hdefs, rfl⟩, hbody, rfl⟩
    | _ => cases hk
  · rintro ⟨defs, body, us, vs, rfl, rfl, ⟨hdefs, rfl⟩, hbody, rfl⟩
    exact ⟨.letrec hdefs hbody, by simp⟩

theorem starts_seq :
    Starts (.openParen :: Keyword.seq.terminal :: ts) p r ↔
      ∃ items, p = .seq items ∧ StartsAll ts items (.closeParen :: r) := by
  constructor
  · intro h
    have hk := h.keyword
    obtain ⟨hp, h⟩ := h
    cases hp with
    | seq hitems => exact ⟨_, rfl, hitems, by simpa using h⟩
    | _ => cases hk
  · rintro ⟨items, rfl, hitems, rfl⟩
    exact ⟨.seq hitems, by simp⟩

theorem starts_assign :
    Starts (.openParen :: Keyword.assign.terminal :: ts) p r ↔
      ∃ x value us, p = .assign x value ∧ ts = .identifier x :: us ∧
        Starts us value (.closeParen :: r) := by
  constructor
  · intro h
    have hk := h.keyword
    obtain ⟨hp, h⟩ := h
    cases hp with
    | assign x hvalue => exact ⟨x, _, _, rfl, by simpa using h, hvalue, rfl⟩
    | _ => cases hk
  · rintro ⟨x, value, us, rfl, rfl, hvalue, rfl⟩
    exact ⟨.assign x hvalue, by simp⟩

theorem starts_assignThen :
    Starts (.openParen :: Keyword.assignThen.terminal :: ts) p r ↔
      ∃ x value next us vs, p = .assignThen x value next ∧ ts = .identifier x :: us ∧
        Starts us value vs ∧ Starts vs next (.closeParen :: r) := by
  constructor
  · intro h
    have hk := h.keyword
    obtain ⟨hp, h⟩ := h
    cases hp with
    | assignThen x hvalue hnext =>
      exact ⟨x, _, _, _, _, rfl, by simpa using h, ⟨hvalue, rfl⟩, hnext, rfl⟩
    | _ => cases hk
  · rintro ⟨x, value, next, us, vs, rfl, rfl, ⟨hvalue, rfl⟩, hnext, rfl⟩
    exact ⟨.assignThen x hvalue hnext, by simp⟩

end

/-! ### Lists -/

section

variable {ts r : List Terminal}

theorem startsAll_nil : StartsAll ts [] r ↔ ts = r := by
  simp [StartsAll]

theorem startsAll_cons {p : Phrase} {ps : List Phrase} :
    StartsAll ts (p :: ps) r ↔ ∃ us, Starts ts p us ∧ StartsAll us ps r := by
  constructor
  · rintro ⟨hall, rfl⟩
    obtain ⟨hp, hps⟩ := List.forall_mem_cons.mp hall
    exact ⟨_, ⟨hp, by simp⟩, hps, rfl⟩
  · rintro ⟨us, ⟨hp, rfl⟩, hps, rfl⟩
    exact ⟨List.forall_mem_cons.mpr ⟨hp, hps⟩, by simp⟩

theorem startsDefs_nil : StartsDefs ts [] r ↔ ts = r := by
  simp [StartsDefs]

theorem startsDefs_cons {x : Bytes} {p : Phrase} {ds : List (Bytes × Phrase)} :
    StartsDefs ts ((x, p) :: ds) r ↔ ∃ us vs, ts = .openParen :: .identifier x :: us ∧
      Starts us p (.closeParen :: vs) ∧ StartsDefs vs ds r := by
  constructor
  · rintro ⟨hall, rfl⟩
    obtain ⟨hp, hds⟩ := List.forall_mem_cons.mp hall
    exact ⟨_, _, by simp, ⟨hp, rfl⟩, hds, rfl⟩
  · rintro ⟨us, vs, rfl, ⟨hp, rfl⟩, hds, rfl⟩
    exact ⟨List.forall_mem_cons.mpr ⟨hp, hds⟩, by simp⟩

/-! ## One derivation at most -/

/-- Parameters end at the first closing parenthesis. -/
theorem params_unique {xs ys : List Bytes} {us vs : List Terminal}
    (h : xs.map Terminal.identifier ++ .closeParen :: us = ys.map Terminal.identifier ++ .closeParen :: vs) :
    ys = xs ∧ vs = us := by
  induction xs generalizing ys with
  | nil =>
    cases ys with
    | nil =>
      cases h
      exact ⟨rfl, rfl⟩
    | cons y ys => cases h
  | cons x xs ih =>
    cases ys with
    | nil => cases h
    | cons y ys =>
      obtain ⟨hx, htail⟩ := List.cons.inj h
      obtain ⟨rfl, rfl⟩ := ih htail
      cases hx
      exact ⟨rfl, rfl⟩

/-- Tokens that start with the yield of a phrase start with no other phrase. -/
def Phrase.Only (p : Phrase) : Prop := ∀ ⦃r q s⦄, Starts (p.yield ++ r) q s → q = p ∧ s = r

/-- What a list of phrases yields is the yield of no other list. -/
theorem startsAll_only {ps qs : List Phrase} (hps : ∀ p ∈ ps, p.Proper) (h : ∀ p ∈ ps, p.Only)
    {s : List Terminal} (hstarts : StartsAll (yieldAll ps ++ .closeParen :: r) qs (.closeParen :: s)) :
    qs = ps ∧ s = r := by
  induction ps generalizing qs with
  | nil =>
    cases qs with
    | nil => exact ⟨rfl, (List.cons.inj (startsAll_nil.mp hstarts)).2.symm⟩
    | cons q qs =>
      obtain ⟨us, hq, _⟩ := startsAll_cons.mp hstarts
      exact absurd hq not_starts_closeParen
  | cons p ps ih =>
    obtain ⟨hp, htail⟩ := List.forall_mem_cons.mp hps
    obtain ⟨honly, honlyTail⟩ := List.forall_mem_cons.mp h
    have hassoc : yieldAll (p :: ps) ++ .closeParen :: r = p.yield ++ (yieldAll ps ++ .closeParen :: r) := by
      simp
    rw [hassoc] at hstarts
    cases qs with
    | nil =>
      have hclose : Starts (.closeParen :: s) p _ := ⟨hp, (startsAll_nil.mp hstarts).symm⟩
      exact absurd hclose not_starts_closeParen
    | cons q qs =>
      obtain ⟨us, hq, hqs⟩ := startsAll_cons.mp hstarts
      obtain ⟨rfl, rfl⟩ := honly hq
      obtain ⟨rfl, rfl⟩ := ih htail honlyTail hqs
      exact ⟨rfl, rfl⟩

/-- What bindings yield is the yield of no other bindings. -/
theorem startsDefs_only {ds es : List (Bytes × Phrase)} (h : ∀ d ∈ ds, d.2.Only) {s : List Terminal}
    (hstarts : StartsDefs (yieldDefs ds ++ .closeParen :: r) es (.closeParen :: s)) : es = ds ∧ s = r := by
  induction ds generalizing es with
  | nil =>
    cases es with
    | nil => exact ⟨rfl, (List.cons.inj (startsDefs_nil.mp hstarts)).2.symm⟩
    | cons e es =>
      obtain ⟨us, vs, hts, _⟩ := startsDefs_cons.mp hstarts
      cases hts
  | cons d ds ih =>
    obtain ⟨x, p⟩ := d
    obtain ⟨honly, honlyTail⟩ := List.forall_mem_cons.mp h
    have hassoc : yieldDefs ((x, p) :: ds) ++ .closeParen :: r =
        .openParen :: .identifier x ::
          (p.yield ++ .closeParen :: (yieldDefs ds ++ .closeParen :: r)) := by
      simp
    rw [hassoc] at hstarts
    cases es with
    | nil => cases startsDefs_nil.mp hstarts
    | cons e es =>
      obtain ⟨y, q⟩ := e
      obtain ⟨us, vs, hts, hq, hes⟩ := startsDefs_cons.mp hstarts
      cases hts
      obtain ⟨rfl, hvs⟩ := honly hq
      cases hvs
      obtain ⟨rfl, rfl⟩ := ih honlyTail hes
      exact ⟨rfl, rfl⟩

/-- The induction is on the derivation; the first tokens name the production of any other one. -/
theorem Phrase.Proper.only {p : Phrase} (hp : p.Proper) : p.Only := by
  induction hp with
  | var hx => exact fun r q s h => (starts_identifier hx).mp h
  | literal text => exact fun r q s h => starts_literal.mp h
  | halt => exact fun r q s h => starts_halt.mp h
  | void =>
    intro r q s h
    obtain ⟨rfl, hr⟩ := starts_void.mp h
    cases hr
    exact ⟨rfl, rfl⟩
  | @lambda params body hbody ih =>
    intro r q s h
    have hassoc : (Phrase.lambda params body).yield ++ r =
        .openParen :: Keyword.lambda.terminal :: .openParen ::
          (params.map .identifier ++ .closeParen :: (body.yield ++ .closeParen :: r)) := by
      simp
    rw [hassoc] at h
    obtain ⟨params', body', us, rfl, hts, hbody'⟩ := starts_lambda.mp h
    obtain ⟨rfl, rfl⟩ := params_unique (List.cons.inj hts).2
    obtain ⟨rfl, hr⟩ := ih hbody'
    cases hr
    exact ⟨rfl, rfl⟩
  | @cond a b c ha hb hc iha ihb ihc =>
    intro r q s h
    have hassoc : (Phrase.cond a b c).yield ++ r =
        .openParen :: Keyword.cond.terminal :: (a.yield ++ (b.yield ++ (c.yield ++ .closeParen :: r))) := by
      simp
    rw [hassoc] at h
    obtain ⟨a', b', c', us, vs, rfl, ha', hb', hc'⟩ := starts_cond.mp h
    obtain ⟨rfl, rfl⟩ := iha ha'
    obtain ⟨rfl, rfl⟩ := ihb hb'
    obtain ⟨rfl, hr⟩ := ihc hc'
    cases hr
    exact ⟨rfl, rfl⟩
  | @letrec defs body hdefs hbody ihdefs ihbody =>
    intro r q s h
    have hassoc : (Phrase.letrec defs body).yield ++ r =
        .openParen :: Keyword.letrec.terminal :: .openParen ::
          (yieldDefs defs ++ .closeParen :: (body.yield ++ .closeParen :: r)) := by
      simp
    rw [hassoc] at h
    obtain ⟨defs', body', us, vs, rfl, hts, hdefs', hbody'⟩ := starts_letrec.mp h
    cases hts
    obtain ⟨rfl, rfl⟩ := startsDefs_only ihdefs hdefs'
    obtain ⟨rfl, hr⟩ := ihbody hbody'
    cases hr
    exact ⟨rfl, rfl⟩
  | @seq items hitems ih =>
    intro r q s h
    have hassoc : (Phrase.seq items).yield ++ r =
        .openParen :: Keyword.seq.terminal :: (yieldAll items ++ .closeParen :: r) := by
      simp
    rw [hassoc] at h
    obtain ⟨items', rfl, hitems'⟩ := starts_seq.mp h
    obtain ⟨rfl, rfl⟩ := startsAll_only hitems ih hitems'
    exact ⟨rfl, rfl⟩
  | @assign x value hvalue ih =>
    intro r q s h
    have hassoc : (Phrase.assign x value).yield ++ r =
        .openParen :: Keyword.assign.terminal :: .identifier x :: (value.yield ++ .closeParen :: r) := by
      simp
    rw [hassoc] at h
    obtain ⟨x', value', us, rfl, hts, hvalue'⟩ := starts_assign.mp h
    cases hts
    obtain ⟨rfl, hr⟩ := ih hvalue'
    cases hr
    exact ⟨rfl, rfl⟩
  | @assignThen x value next hvalue hnext ihvalue ihnext =>
    intro r q s h
    have hassoc : (Phrase.assignThen x value next).yield ++ r =
        .openParen :: Keyword.assignThen.terminal :: .identifier x ::
          (value.yield ++ (next.yield ++ .closeParen :: r)) := by
      simp
    rw [hassoc] at h
    obtain ⟨x', value', next', us, vs, rfl, hts, hvalue', hnext'⟩ := starts_assignThen.mp h
    cases hts
    obtain ⟨rfl, rfl⟩ := ihvalue hvalue'
    obtain ⟨rfl, hr⟩ := ihnext hnext'
    cases hr
    exact ⟨rfl, rfl⟩
  | @app callee args hcallee hhead hargs ihcallee ihargs =>
    intro r q s h
    have hassoc : (Phrase.app callee args).yield ++ r =
        .openParen :: (callee.yield ++ (yieldAll args ++ .closeParen :: r)) := by
      simp
    rw [hassoc] at h
    have hstart : Starts (callee.yield ++ (yieldAll args ++ .closeParen :: r)) callee _ := ⟨hcallee, rfl⟩
    obtain ⟨t, us, hts, _⟩ := hstart.head
    rw [hts] at h hstart
    rcases h.form with ⟨k, _, rfl⟩ | ⟨callee', args', vs, rfl, _, hcallee', hargs'⟩
    · exact absurd ((starts_identifier k.spelling_ne_haltName).mp hstart).1 (hhead k)
    · rw [← hts] at hcallee'
      obtain ⟨rfl, rfl⟩ := ihcallee hcallee'
      obtain ⟨rfl, rfl⟩ := startsAll_only hargs ihargs hargs'
      exact ⟨rfl, rfl⟩

/-- Tokens start with one phrase at most. -/
theorem Starts.unique {p q : Phrase} {s : List Terminal} (h : Starts ts p r) (h' : Starts ts q s) :
    q = p ∧ s = r := by
  obtain ⟨hp, rfl⟩ := h
  exact hp.only h'

end

end Trampoline

import Trampoline.Proofs.Grammar

/-!
# Trampoline.Proofs.Parsing -- the reader against the grammar

What a configuration of the reader can still become is said by the grammar. A goal completes to a tree if
the tokens ahead finish the form that it is a part of, a frame completes if they finish the form around an
expression, and a stack closes frame by frame. One step lemma says that consuming a token keeps this: the
tokens from the head on complete a configuration exactly if the step is possible and the tokens behind the
head complete what it leads to. A run is a sequence of such steps, up to the end of an expression or to the
first reason to stop.

So a source is read as a tree exactly if it is cut into tokens to its end, these tokens have a derivation
that stands for the tree, and the literals among them spell something.
-/

namespace Trampoline

open Reader Phrase

/-! ## Reading by derivation -/

theorem state_bind {α β : Type} {x : StateM Nat α} {f : α → StateM Nat β} {n m : Nat} {b : β} :
    (x >>= f) n = (b, m) ↔ ∃ a k, x n = (a, k) ∧ f a k = (b, m) := by
  constructor
  · intro h
    exact ⟨(x n).1, (x n).2, rfl, h⟩
  · rintro ⟨a, k, hx, hf⟩
    show f (x n).1 (x n).2 = _
    rw [hx]
    exact hf

theorem state_pure {α : Type} {a b : α} {n m : Nat} :
    (pure a : StateM Nat α) n = (b, m) ↔ b = a ∧ m = n := by
  show (a, n) = (b, m) ↔ _
  rw [Prod.mk.injEq, eq_comm, @eq_comm _ n]

/-- `Reads n ts e m r`: the tokens start with a derivation that stands for the tree, `r` is behind them,
and the next number goes from `n` to `m`. -/
def Reads (n : Nat) (ts : List Terminal) (e : Expr) (m : Nat) (r : List Terminal) : Prop :=
  ∃ p, Starts ts p r ∧ p.denote n = (e, m)

def ReadsAll (n : Nat) (ts : List Terminal) (es : List Expr) (m : Nat) (r : List Terminal) : Prop :=
  ∃ ps, StartsAll ts ps r ∧ denoteAll ps n = (es, m)

def ReadsDefs (n : Nat) (ts : List Terminal) (ds : List (Bytes × Expr)) (m : Nat) (r : List Terminal) :
    Prop :=
  ∃ ps, StartsDefs ts ps r ∧ denoteDefs ps n = (ds, m)

section

variable {n m : Nat} {ts r : List Terminal} {e : Expr}

theorem not_reads_nil : ¬ Reads n [] e m r := fun ⟨_, h, _⟩ => not_starts_nil h

theorem not_reads_closeParen : ¬ Reads n (.closeParen :: ts) e m r := fun ⟨_, h, _⟩ =>
  not_starts_closeParen h

theorem not_reads_endOfInput : ¬ Reads n (.endOfInput :: ts) e m r := fun ⟨_, h, _⟩ =>
  not_starts_endOfInput h

theorem reads_literal {text : Bytes} :
    Reads n (.literal text :: ts) e m r ↔ e = .literal (Literal.ofText text) ∧ m = n ∧ r = ts := by
  constructor
  · rintro ⟨p, hp, hd⟩
    obtain ⟨rfl, rfl⟩ := starts_literal.mp hp
    obtain ⟨rfl, rfl⟩ := state_pure.mp hd
    exact ⟨rfl, rfl, rfl⟩
  · rintro ⟨rfl, rfl, rfl⟩
    exact ⟨_, starts_literal.mpr ⟨rfl, rfl⟩, rfl⟩

/-- The halt name is read as a new halt continuation. -/
theorem reads_halt :
    Reads n (.identifier haltName :: ts) e m r ↔ Expr.freshHalt n = (e, m) ∧ r = ts := by
  constructor
  · rintro ⟨p, hp, hd⟩
    obtain ⟨rfl, rfl⟩ := starts_halt.mp hp
    exact ⟨hd, rfl⟩
  · rintro ⟨hd, rfl⟩
    exact ⟨_, starts_halt.mpr ⟨rfl, rfl⟩, hd⟩

theorem reads_identifier {x : Bytes} (hx : x ≠ haltName) :
    Reads n (.identifier x :: ts) e m r ↔ e = .var x ∧ m = n ∧ r = ts := by
  constructor
  · rintro ⟨p, hp, hd⟩
    obtain ⟨rfl, rfl⟩ := (starts_identifier hx).mp hp
    obtain ⟨rfl, rfl⟩ := state_pure.mp hd
    exact ⟨rfl, rfl, rfl⟩
  · rintro ⟨rfl, rfl, rfl⟩
    exact ⟨_, (starts_identifier hx).mpr ⟨rfl, rfl⟩, rfl⟩

theorem readsAll_closeParen {es : List Expr} :
    ReadsAll n (.closeParen :: ts) es m (.closeParen :: r) ↔ es = [] ∧ m = n ∧ ts = r := by
  constructor
  · rintro ⟨ps, hps, hd⟩
    cases ps with
    | nil =>
      obtain ⟨rfl, rfl⟩ := state_pure.mp hd
      cases startsAll_nil.mp hps
      exact ⟨rfl, rfl, rfl⟩
    | cons p ps =>
      obtain ⟨us, hp, _⟩ := startsAll_cons.mp hps
      exact absurd hp not_starts_closeParen
  · rintro ⟨rfl, rfl, rfl⟩
    exact ⟨[], startsAll_nil.mpr rfl, rfl⟩

/-- A list is read member by member up to the closing parenthesis. -/
theorem readsAll_cons {t : Terminal} (ht : t ≠ .closeParen) {es : List Expr} :
    ReadsAll n (t :: ts) es m (.closeParen :: r) ↔ ∃ e k us, Reads n (t :: ts) e k us ∧
      ∃ es', ReadsAll k us es' m (.closeParen :: r) ∧ es = e :: es' := by
  constructor
  · rintro ⟨ps, hps, hd⟩
    cases ps with
    | nil =>
      cases startsAll_nil.mp hps
      exact absurd rfl ht
    | cons p ps =>
      obtain ⟨us, hp, hps⟩ := startsAll_cons.mp hps
      obtain ⟨e, k, he, hd⟩ := state_bind.mp hd
      obtain ⟨es', k', hes, hd⟩ := state_bind.mp hd
      obtain ⟨rfl, rfl⟩ := state_pure.mp hd
      exact ⟨e, k, us, ⟨p, hp, he⟩, es', ⟨ps, hps, hes⟩, rfl⟩
  · rintro ⟨e, k, us, ⟨p, hp, he⟩, es', ⟨ps, hps, hes⟩, rfl⟩
    refine ⟨p :: ps, startsAll_cons.mpr ⟨us, hp, hps⟩, ?_⟩
    exact state_bind.mpr ⟨e, k, he, state_bind.mpr ⟨es', m, hes, rfl⟩⟩

theorem readsDefs_closeParen {ds : List (Bytes × Expr)} :
    ReadsDefs n (.closeParen :: ts) ds m (.closeParen :: r) ↔ ds = [] ∧ m = n ∧ ts = r := by
  constructor
  · rintro ⟨ps, hps, hd⟩
    cases ps with
    | nil =>
      obtain ⟨rfl, rfl⟩ := state_pure.mp hd
      cases startsDefs_nil.mp hps
      exact ⟨rfl, rfl, rfl⟩
    | cons p ps =>
      obtain ⟨us, vs, hts, _⟩ := startsDefs_cons.mp hps
      cases hts
  · rintro ⟨rfl, rfl, rfl⟩
    exact ⟨[], startsDefs_nil.mpr rfl, rfl⟩

/-- So are bindings. -/
theorem readsDefs_cons {t : Terminal} (ht : t ≠ .closeParen) {ds : List (Bytes × Expr)} :
    ReadsDefs n (t :: ts) ds m (.closeParen :: r) ↔ ∃ x us e k vs, t = .openParen ∧
      ts = .identifier x :: us ∧ Reads n us e k (.closeParen :: vs) ∧
      ∃ ds', ReadsDefs k vs ds' m (.closeParen :: r) ∧ ds = (x, e) :: ds' := by
  constructor
  · rintro ⟨ps, hps, hd⟩
    cases ps with
    | nil =>
      cases startsDefs_nil.mp hps
      exact absurd rfl ht
    | cons d ps =>
      obtain ⟨x, p⟩ := d
      obtain ⟨us, vs, hts, hp, hrest⟩ := startsDefs_cons.mp hps
      cases hts
      obtain ⟨e, k, he, hd⟩ := state_bind.mp hd
      obtain ⟨ds', k', hds, hd⟩ := state_bind.mp hd
      obtain ⟨rfl, rfl⟩ := state_pure.mp hd
      exact ⟨x, us, e, k, vs, rfl, rfl, ⟨p, hp, he⟩, ds', ⟨ps, hrest, hds⟩, rfl⟩
  · rintro ⟨x, us, e, k, vs, rfl, rfl, ⟨p, hp, he⟩, ds', ⟨ps, hps, hds⟩, rfl⟩
    refine ⟨(x, p) :: ps, startsDefs_cons.mpr ⟨us, vs, rfl, hp, hps⟩, ?_⟩
    exact state_bind.mpr ⟨e, k, he, state_bind.mpr ⟨ds', m, hds, rfl⟩⟩

end

/-! ## What configurations can become -/

namespace Reader

/-- `goal.Completes n ts e m r`: the tokens `ts` finish the form of a goal, which is then the tree `e`, and
`r` is behind them. The next number goes from `n` to `m`. -/
def Goal.Completes (n : Nat) (ts : List Terminal) (e : Expr) (m : Nat) (r : List Terminal) : Goal → Prop
  | .expr => Reads n ts e m r
  | .form => Reads n (.openParen :: ts) e m r
  | .paramsOpen => Reads n (.openParen :: Keyword.lambda.terminal :: ts) e m r
  | .params names => ∃ xs us body k, ts = xs.map .identifier ++ .closeParen :: us ∧
      Reads n us body k (.closeParen :: r) ∧ Expr.freshLambda (names ++ xs) body k = (e, m)
  | .defsOpen => Reads n (.openParen :: Keyword.letrec.terminal :: ts) e m r
  | .defs done => ∃ ds k us body, ReadsDefs n ts ds k (.closeParen :: us) ∧
      Reads k us body m (.closeParen :: r) ∧ e = .letrec (done ++ ds) body
  | .defName done => ∃ ds k us body, ReadsDefs n (.openParen :: ts) ds k (.closeParen :: us) ∧
      Reads k us body m (.closeParen :: r) ∧ e = .letrec (done ++ ds) body
  | .defClose done => ∃ ds k us vs body, ts = .closeParen :: vs ∧ ReadsDefs n vs ds k (.closeParen :: us) ∧
      Reads k us body m (.closeParen :: r) ∧ e = .letrec (done ++ ds) body
  | .args callee done => ∃ es, ReadsAll n ts es m (.closeParen :: r) ∧ e = .app callee (done ++ es)
  | .items done => ∃ es, ReadsAll n ts es m (.closeParen :: r) ∧ e = .seq (done ++ es)
  | .target chained =>
    Reads n (.openParen :: (if chained then Keyword.assignThen else Keyword.assign).terminal :: ts) e m r
  | .close e' => e = e' ∧ m = n ∧ ts = .closeParen :: r

/-- `f.Completes e' n ts e m r`: once the expression `e'` that a frame waits for is there, the tokens finish
the form of the frame, which is then the tree `e`. -/
def Frame.Completes (e' : Expr) (n : Nat) (ts : List Terminal) (e : Expr) (m : Nat) (r : List Terminal) :
    Frame → Prop
  | .lambdaBody params => Expr.freshLambda params e' n = (e, m) ∧ ts = .closeParen :: r
  | .test => ∃ a k us, Reads n ts a k us ∧ ∃ b k' vs, Reads k us b k' vs ∧
      (Goal.close (.cond e' a b)).Completes k' vs e m r
  | .thenBranch c => ∃ b k us, Reads n ts b k us ∧ (Goal.close (.cond c e' b)).Completes k us e m r
  | .elseBranch c a => (Goal.close (.cond c a e')).Completes n ts e m r
  | .defValue done x => (Goal.defClose (done ++ [(x, e')])).Completes n ts e m r
  | .letrecBody defs => (Goal.close (.letrec defs e')).Completes n ts e m r
  | .callee => (Goal.args e' []).Completes n ts e m r
  | .arg f done => (Goal.args f (done ++ [e'])).Completes n ts e m r
  | .item done => (Goal.items (done ++ [e'])).Completes n ts e m r
  | .assigned x => (Goal.close (.assign x e')).Completes n ts e m r
  | .assignedFirst x => ∃ a k us, Reads n ts a k us ∧ (Goal.close (.assignThen x e' a)).Completes k us e m r
  | .continuation x value => (Goal.close (.assignThen x value e')).Completes n ts e m r

/-- The frames of a stack complete one after the other. -/
def Closes (e' : Expr) (n : Nat) (ts : List Terminal) (e : Expr) (m : Nat) (r : List Terminal) :
    List Frame → Prop
  | [] => e = e' ∧ m = n ∧ r = ts
  | f :: stack => ∃ a k us, f.Completes e' n ts a k us ∧ Closes a k us e m r stack

/-- `Pending goal stack n ts e m r`: with the tokens `ts` ahead, the reader is to end with the tree `e`, the
tokens `r` and the next number `m`. -/
def Pending (goal : Goal) (stack : List Frame) (n : Nat) (ts : List Terminal) (e : Expr) (m : Nat)
    (r : List Terminal) : Prop :=
  ∃ a k us, goal.Completes n ts a k us ∧ Closes a k us e m r stack

/-- What is pending behind a move. -/
def Move.Pends (n : Nat) (ts : List Terminal) (e : Expr) (m : Nat) (r : List Terminal) : Move → Prop
  | .await goal stack => Pending goal stack n ts e m r
  | .give e' stack => Closes e' n ts e m r stack
  | .literal span stack => Closes (.literal (Literal.ofText span.text)) n ts e m r stack
  | .halt stack => ∃ e' k, Expr.freshHalt n = (e', k) ∧ Closes e' k ts e m r stack

/-- What is pending behind a token. -/
def Progress.Pends (n : Nat) (ts : List Terminal) (e : Expr) (m : Nat) (r : List Terminal) : Progress → Prop
  | .done e' => e = e' ∧ m = n ∧ r = ts
  | .more goal stack => Pending goal stack n ts e m r

section

variable {n m : Nat} {ts r : List Terminal} {e : Expr}

/-- A goal that comes down to an expression and a frame may be replaced by them. -/
theorem pending_push {goal : Goal} {f : Frame} {us : List Terminal}
    (h : ∀ a k vs, goal.Completes n ts a k vs ↔
      ∃ e' k' us', Reads n us e' k' us' ∧ f.Completes e' k' us' a k vs) (stack : List Frame) :
    Pending goal stack n ts e m r ↔ Pending .expr (f :: stack) n us e m r := by
  constructor
  · rintro ⟨a, k, vs, hgoal, hstack⟩
    obtain ⟨e', k', us', hread, hf⟩ := (h a k vs).mp hgoal
    exact ⟨e', k', us', hread, a, k, vs, hf, hstack⟩
  · rintro ⟨e', k', us', hread, a, k, vs, hf, hstack⟩
    exact ⟨a, k, vs, (h a k vs).mpr ⟨e', k', us', hread, hf⟩, hstack⟩

/-- A goal that comes down to another one may be replaced by it. -/
theorem pending_congr {goal goal' : Goal} {us : List Terminal}
    (h : ∀ a k vs, goal.Completes n ts a k vs ↔ goal'.Completes n us a k vs) (stack : List Frame) :
    Pending goal stack n ts e m r ↔ Pending goal' stack n us e m r := by
  unfold Pending
  simp only [h]

/-! ### Forms -/

theorem completes_void :
    Goal.form.Completes n (Keyword.void.terminal :: ts) e m r ↔
      (Goal.close (.literal .unspecified)).Completes n ts e m r := by
  constructor
  · rintro ⟨p, hp, hd⟩
    obtain ⟨rfl, rfl⟩ := starts_void.mp hp
    obtain ⟨rfl, rfl⟩ := state_pure.mp hd
    exact ⟨rfl, rfl, rfl⟩
  · rintro ⟨rfl, rfl, rfl⟩
    exact ⟨_, starts_void.mpr ⟨rfl, rfl⟩, rfl⟩

theorem completes_paramsOpen {t : Terminal} :
    Goal.paramsOpen.Completes n (t :: ts) e m r ↔
      t = .openParen ∧ (Goal.params []).Completes n ts e m r := by
  constructor
  · rintro ⟨p, hp, hd⟩
    obtain ⟨xs, body, us, rfl, hts, hbody⟩ := starts_lambda.mp hp
    cases hts
    obtain ⟨b, k, hb, hd⟩ := state_bind.mp hd
    exact ⟨rfl, xs, us, b, k, rfl, ⟨body, hbody, hb⟩, hd⟩
  · rintro ⟨rfl, xs, us, b, k, rfl, ⟨body, hbody, hb⟩, hd⟩
    exact ⟨_, starts_lambda.mpr ⟨xs, body, us, rfl, rfl, hbody⟩, state_bind.mpr ⟨b, k, hb, hd⟩⟩

theorem completes_params_identifier {names : List Bytes} {x : Bytes} :
    (Goal.params names).Completes n (.identifier x :: ts) e m r ↔
      (Goal.params (names ++ [x])).Completes n ts e m r := by
  constructor
  · rintro ⟨xs, us, body, k, hts, hbody, hd⟩
    cases xs with
    | nil => cases hts
    | cons y xs =>
      cases hts
      refine ⟨xs, us, body, k, rfl, hbody, ?_⟩
      rwa [List.append_assoc]
  · rintro ⟨xs, us, body, k, rfl, hbody, hd⟩
    refine ⟨x :: xs, us, body, k, rfl, hbody, ?_⟩
    rwa [List.append_assoc] at hd

/-- The parameters end at the closing parenthesis, and the body follows. -/
theorem completes_params {names : List Bytes} {t : Terminal} (ht : ∀ x, t ≠ .identifier x) :
    (Goal.params names).Completes n (t :: ts) e m r ↔ t = .closeParen ∧
      ∃ e' k us, Reads n ts e' k us ∧ (Frame.lambdaBody names).Completes e' k us e m r := by
  constructor
  · rintro ⟨xs, us, body, k, hts, hbody, hd⟩
    cases xs with
    | nil =>
      cases hts
      rw [List.append_nil] at hd
      exact ⟨rfl, body, k, _, hbody, hd, rfl⟩
    | cons y xs =>
      cases hts
      exact absurd rfl (ht y)
  · rintro ⟨rfl, body, k, us, hbody, hd, rfl⟩
    refine ⟨[], ts, body, k, rfl, hbody, ?_⟩
    rwa [List.append_nil]

theorem completes_cond :
    Goal.form.Completes n (Keyword.cond.terminal :: ts) e m r ↔
      ∃ e' k us, Reads n ts e' k us ∧ Frame.test.Completes e' k us e m r := by
  constructor
  · rintro ⟨p, hp, hd⟩
    obtain ⟨a, b, c, us, vs, rfl, ha, hb, hc⟩ := starts_cond.mp hp
    obtain ⟨x, k, hx, hd⟩ := state_bind.mp hd
    obtain ⟨y, k', hy, hd⟩ := state_bind.mp hd
    obtain ⟨z, k'', hz, hd⟩ := state_bind.mp hd
    obtain ⟨rfl, rfl⟩ := state_pure.mp hd
    exact ⟨x, k, us, ⟨a, ha, hx⟩, y, k', vs, ⟨b, hb, hy⟩, z, _, _, ⟨c, hc, hz⟩, rfl, rfl, rfl⟩
  · rintro ⟨x, k, us, ⟨a, ha, hx⟩, y, k', vs, ⟨b, hb, hy⟩, z, k'', _, ⟨c, hc, hz⟩, rfl, rfl, rfl⟩
    refine ⟨_, starts_cond.mpr ⟨a, b, c, us, vs, rfl, ha, hb, hc⟩, ?_⟩
    exact state_bind.mpr ⟨x, k, hx, state_bind.mpr ⟨y, k', hy, state_bind.mpr ⟨z, _, hz, rfl⟩⟩⟩

theorem completes_defsOpen {t : Terminal} :
    Goal.defsOpen.Completes n (t :: ts) e m r ↔
      t = .openParen ∧ (Goal.defs []).Completes n ts e m r := by
  constructor
  · rintro ⟨p, hp, hd⟩
    obtain ⟨defs, body, us, vs, rfl, hts, hdefs, hbody⟩ := starts_letrec.mp hp
    cases hts
    obtain ⟨ds, k, hds, hd⟩ := state_bind.mp hd
    obtain ⟨b, k', hb, hd⟩ := state_bind.mp hd
    obtain ⟨rfl, rfl⟩ := state_pure.mp hd
    exact ⟨rfl, ds, k, vs, b, ⟨defs, hdefs, hds⟩, ⟨body, hbody, hb⟩, rfl⟩
  · rintro ⟨rfl, ds, k, vs, b, ⟨defs, hdefs, hds⟩, ⟨body, hbody, hb⟩, rfl⟩
    refine ⟨_, starts_letrec.mpr ⟨defs, body, ts, vs, rfl, rfl, hdefs, hbody⟩, ?_⟩
    exact state_bind.mpr ⟨ds, k, hds, state_bind.mpr ⟨b, m, hb, rfl⟩⟩

theorem completes_defs {done : List (Bytes × Expr)} {t : Terminal} (ht : t ≠ .openParen) :
    (Goal.defs done).Completes n (t :: ts) e m r ↔ t = .closeParen ∧
      ∃ e' k us, Reads n ts e' k us ∧ (Frame.letrecBody done).Completes e' k us e m r := by
  constructor
  · rintro ⟨ds, k, us, body, hds, hbody, rfl⟩
    by_cases hclose : t = .closeParen
    · subst hclose
      obtain ⟨rfl, rfl, rfl⟩ := readsDefs_closeParen.mp hds
      rw [List.append_nil]
      exact ⟨rfl, body, m, _, hbody, rfl, rfl, rfl⟩
    · obtain ⟨_, _, _, _, _, hopen, _⟩ := (readsDefs_cons hclose).mp hds
      exact absurd hopen ht
  · rintro ⟨rfl, body, k, us, hbody, rfl, rfl, rfl⟩
    refine ⟨[], n, ts, body, readsDefs_closeParen.mpr ⟨rfl, rfl, rfl⟩, hbody, ?_⟩
    rw [List.append_nil]

theorem completes_defName {done : List (Bytes × Expr)} {t : Terminal} :
    (Goal.defName done).Completes n (t :: ts) e m r ↔ ∃ x, t = .identifier x ∧
      ∃ e' k us, Reads n ts e' k us ∧ (Frame.defValue done x).Completes e' k us e m r := by
  constructor
  · rintro ⟨ds, k, us, body, hds, hbody, rfl⟩
    obtain ⟨x, vs, a, k', ws, _, hts, ha, ds', hds', rfl⟩ := (readsDefs_cons (by decide)).mp hds
    cases hts
    refine ⟨x, rfl, a, k', _, ha, ds', k, us, ws, body, rfl, hds', hbody, ?_⟩
    rw [List.append_assoc, List.singleton_append]
  · rintro ⟨x, rfl, a, k', _, ha, ds', k, us, ws, body, rfl, hds', hbody, rfl⟩
    refine ⟨(x, a) :: ds', k, us, body, ?_, hbody, ?_⟩
    · exact (readsDefs_cons (by decide)).mpr ⟨x, ts, a, k', ws, rfl, rfl, ha, ds', hds', rfl⟩
    · rw [List.append_assoc, List.singleton_append]

theorem completes_defClose {done : List (Bytes × Expr)} {t : Terminal} :
    (Goal.defClose done).Completes n (t :: ts) e m r ↔
      t = .closeParen ∧ (Goal.defs done).Completes n ts e m r := by
  constructor
  · rintro ⟨ds, k, us, vs, body, hts, hds, hbody, he⟩
    cases hts
    exact ⟨rfl, ds, k, us, body, hds, hbody, he⟩
  · rintro ⟨rfl, ds, k, us, body, hds, hbody, he⟩
    exact ⟨ds, k, us, ts, body, rfl, hds, hbody, he⟩

theorem completes_seq :
    Goal.form.Completes n (Keyword.seq.terminal :: ts) e m r ↔
      (Goal.items []).Completes n ts e m r := by
  constructor
  · rintro ⟨p, hp, hd⟩
    obtain ⟨items, rfl, hitems⟩ := starts_seq.mp hp
    obtain ⟨es, k, hes, hd⟩ := state_bind.mp hd
    obtain ⟨rfl, rfl⟩ := state_pure.mp hd
    exact ⟨es, ⟨items, hitems, hes⟩, rfl⟩
  · rintro ⟨es, ⟨items, hitems, hes⟩, rfl⟩
    exact ⟨_, starts_seq.mpr ⟨items, rfl, hitems⟩, state_bind.mpr ⟨es, m, hes, rfl⟩⟩

/-- What follows the parenthesis is read as the callee. -/
theorem completes_app {t : Terminal} (ht : ∀ k : Keyword, t ≠ k.terminal) :
    Goal.form.Completes n (t :: ts) e m r ↔
      ∃ e' k us, Reads n (t :: ts) e' k us ∧ Frame.callee.Completes e' k us e m r := by
  constructor
  · rintro ⟨p, hp, hd⟩
    obtain ⟨f, args, us, rfl, hf, hargs⟩ := (starts_app ht).mp hp
    obtain ⟨a, k, ha, hd⟩ := state_bind.mp hd
    obtain ⟨es, k', hes, hd⟩ := state_bind.mp hd
    obtain ⟨rfl, rfl⟩ := state_pure.mp hd
    exact ⟨a, k, us, ⟨f, hf, ha⟩, es, ⟨args, hargs, hes⟩, rfl⟩
  · rintro ⟨a, k, us, ⟨f, hf, ha⟩, es, ⟨args, hargs, hes⟩, rfl⟩
    refine ⟨_, (starts_app ht).mpr ⟨f, args, us, rfl, hf, hargs⟩, ?_⟩
    exact state_bind.mpr ⟨a, k, ha, state_bind.mpr ⟨es, m, hes, rfl⟩⟩

/-- Arguments and the parts of a sequence: one more of them, -/
theorem completes_more (build : List Expr → Expr) (done : List Expr) {t : Terminal} (ht : t ≠ .closeParen) :
    (∃ es, ReadsAll n (t :: ts) es m (.closeParen :: r) ∧ e = build (done ++ es)) ↔
      ∃ e' k us, Reads n (t :: ts) e' k us ∧
        ∃ es, ReadsAll k us es m (.closeParen :: r) ∧ e = build (done ++ [e'] ++ es) := by
  constructor
  · rintro ⟨es, hes, rfl⟩
    obtain ⟨a, k, us, ha, es', hes', rfl⟩ := (readsAll_cons ht).mp hes
    refine ⟨a, k, us, ha, es', hes', ?_⟩
    rw [List.append_assoc, List.singleton_append]
  · rintro ⟨a, k, us, ha, es', hes', rfl⟩
    refine ⟨a :: es', (readsAll_cons ht).mpr ⟨a, k, us, ha, es', hes', rfl⟩, ?_⟩
    rw [List.append_assoc, List.singleton_append]

/-- or the end of them. -/
theorem completes_last (build : List Expr → Expr) (done : List Expr) :
    (∃ es, ReadsAll n (.closeParen :: ts) es m (.closeParen :: r) ∧ e = build (done ++ es)) ↔
      e = build done ∧ m = n ∧ r = ts := by
  constructor
  · rintro ⟨es, hes, rfl⟩
    obtain ⟨rfl, rfl, rfl⟩ := readsAll_closeParen.mp hes
    rw [List.append_nil]
    exact ⟨rfl, rfl, rfl⟩
  · rintro ⟨rfl, rfl, rfl⟩
    refine ⟨[], readsAll_closeParen.mpr ⟨rfl, rfl, rfl⟩, ?_⟩
    rw [List.append_nil]

theorem completes_target {chained : Bool} {t : Terminal} :
    (Goal.target chained).Completes n (t :: ts) e m r ↔ ∃ x, t = .identifier x ∧
      ∃ e' k us, Reads n ts e' k us ∧
        (if chained then Frame.assignedFirst x else Frame.assigned x).Completes e' k us e m r := by
  cases chained with
  | false =>
    constructor
    · rintro ⟨p, hp, hd⟩
      obtain ⟨x, value, us, rfl, hts, hvalue⟩ := starts_assign.mp hp
      cases hts
      obtain ⟨a, k, ha, hd⟩ := state_bind.mp hd
      obtain ⟨rfl, rfl⟩ := state_pure.mp hd
      exact ⟨x, rfl, a, _, _, ⟨value, hvalue, ha⟩, rfl, rfl, rfl⟩
    · rintro ⟨x, rfl, a, k, _, ⟨value, hvalue, ha⟩, rfl, rfl, rfl⟩
      exact ⟨_, starts_assign.mpr ⟨x, value, ts, rfl, rfl, hvalue⟩, state_bind.mpr ⟨a, _, ha, rfl⟩⟩
  | true =>
    constructor
    · rintro ⟨p, hp, hd⟩
      obtain ⟨x, value, next, us, vs, rfl, hts, hvalue, hnext⟩ := starts_assignThen.mp hp
      cases hts
      obtain ⟨a, k, ha, hd⟩ := state_bind.mp hd
      obtain ⟨b, k', hb, hd⟩ := state_bind.mp hd
      obtain ⟨rfl, rfl⟩ := state_pure.mp hd
      exact ⟨x, rfl, a, k, vs, ⟨value, hvalue, ha⟩, b, _, _, ⟨next, hnext, hb⟩, rfl, rfl, rfl⟩
    · rintro ⟨x, rfl, a, k, vs, ⟨value, hvalue, ha⟩, b, k', _, ⟨next, hnext, hb⟩, rfl, rfl, rfl⟩
      refine ⟨_, starts_assignThen.mpr ⟨x, value, next, ts, vs, rfl, rfl, hvalue, hnext⟩, ?_⟩
      exact state_bind.mpr ⟨a, k, ha, state_bind.mpr ⟨b, _, hb, rfl⟩⟩

/-! ### One token -/

/-- The result of a step is a move, and this is pending behind it. -/
def Leaves (n : Nat) (ts : List Terminal) (e : Expr) (m : Nat) (r : List Terminal)
    (result : Except ReadError Move) : Prop :=
  ∃ move, result = .ok move ∧ move.Pends n ts e m r

theorem leaves_ok {move : Move} : Leaves n ts e m r (.ok move) ↔ move.Pends n ts e m r := by
  simp [Leaves]

theorem not_leaves_error {err : ReadError} : ¬ Leaves n ts e m r (.error err) := by
  simp [Leaves]

/-- Only a token of the kind that is asked for leads on. -/
theorem leaves_expecting {kind : TokenKind} {t : Token} {move : Move} :
    Leaves n ts e m r (expecting kind t move) ↔ t.kind = kind ∧ move.Pends n ts e m r := by
  unfold expecting
  split
  · rename_i hkind
    rw [leaves_ok]
    exact ⟨fun h => ⟨hkind, h⟩, fun h => h.2⟩
  · rename_i hkind
    exact ⟨fun h => absurd h not_leaves_error, fun h => absurd h.1 hkind⟩

theorem pending_stepExpr {stack : List Frame} {t : Token} :
    Pending .expr stack n (t.terminal :: ts) e m r ↔ Leaves n ts e m r (stepExpr t stack) := by
  obtain ⟨⟨offset, text⟩, kind⟩ := t
  cases kind with
  | literal =>
    show Pending .expr stack n (.literal text :: ts) e m r ↔ Leaves n ts e m r (.ok (.literal _ stack))
    rw [leaves_ok]
    constructor
    · rintro ⟨a, k, us, hread, hstack⟩
      obtain ⟨rfl, rfl, rfl⟩ := reads_literal.mp hread
      exact hstack
    · intro hstack
      exact ⟨_, _, _, reads_literal.mpr ⟨rfl, rfl, rfl⟩, hstack⟩
  | identifier =>
    show Pending .expr stack n (.identifier text :: ts) e m r ↔
      Leaves n ts e m r (.ok (if text = haltName then .halt stack else .give (.var text) stack))
    rw [leaves_ok]
    split
    · rename_i hname
      subst hname
      constructor
      · rintro ⟨a, k, us, hread, hstack⟩
        obtain ⟨hfresh, rfl⟩ := reads_halt.mp hread
        exact ⟨a, k, hfresh, hstack⟩
      · rintro ⟨a, k, hfresh, hstack⟩
        exact ⟨a, k, ts, reads_halt.mpr ⟨hfresh, rfl⟩, hstack⟩
    · rename_i hname
      constructor
      · rintro ⟨a, k, us, hread, hstack⟩
        obtain ⟨rfl, rfl, rfl⟩ := (reads_identifier hname).mp hread
        exact hstack
      · intro hstack
        exact ⟨_, _, _, (reads_identifier hname).mpr ⟨rfl, rfl, rfl⟩, hstack⟩
  | openParen =>
    show Pending .expr stack n (.openParen :: ts) e m r ↔ Leaves n ts e m r (.ok (.await .form stack))
    rw [leaves_ok]
    exact Iff.rfl
  | closeParen =>
    refine iff_of_false ?_ not_leaves_error
    rintro ⟨a, k, us, hread, _⟩
    exact not_reads_closeParen hread
  | endOfInput =>
    refine iff_of_false ?_ not_leaves_error
    rintro ⟨a, k, us, hread, _⟩
    exact not_reads_endOfInput hread

theorem pending_enter (k : Keyword) (stack : List Frame) :
    Pending .form stack n (k.terminal :: ts) e m r ↔ (k.enter stack).Pends n ts e m r := by
  cases k with
  | void => exact pending_congr (fun a k vs => completes_void) stack
  | lambda => exact Iff.rfl
  | cond => exact pending_push (fun a k vs => completes_cond) stack
  | letrec => exact Iff.rfl
  | seq => exact pending_congr (fun a k vs => completes_seq) stack
  | assign => exact Iff.rfl
  | assignThen => exact Iff.rfl

theorem terminal_openParen {t : Token} : t.terminal = .openParen ↔ t.kind = .openParen := by
  obtain ⟨span, kind⟩ := t
  cases kind <;> simp [Token.terminal]

theorem terminal_closeParen {t : Token} : t.terminal = .closeParen ↔ t.kind = .closeParen := by
  obtain ⟨span, kind⟩ := t
  cases kind <;> simp [Token.terminal]

theorem terminal_identifier {t : Token} {x : Bytes} :
    t.terminal = .identifier x ↔ t.kind = .identifier ∧ t.text = x := by
  obtain ⟨span, kind⟩ := t
  cases kind <;> simp [Token.terminal]

/-- Goals that end with one more token of a kind. -/
theorem pending_expecting {goal goal' : Goal} {kind : TokenKind} {t : Token}
    (h : ∀ a k vs, goal.Completes n (t.terminal :: ts) a k vs ↔ t.kind = kind ∧ goal'.Completes n ts a k vs)
    (stack : List Frame) :
    Pending goal stack n (t.terminal :: ts) e m r ↔
      Leaves n ts e m r (expecting kind t (.await goal' stack)) := by
  rw [leaves_expecting]
  constructor
  · rintro ⟨a, k, us, hgoal, hstack⟩
    obtain ⟨hkind, hgoal'⟩ := (h a k us).mp hgoal
    exact ⟨hkind, a, k, us, hgoal', hstack⟩
  · rintro ⟨hkind, a, k, us, hgoal', hstack⟩
    exact ⟨a, k, us, (h a k us).mpr ⟨hkind, hgoal'⟩, hstack⟩

/-- Goals that go on with an expression behind one more token of a kind. -/
theorem pending_expecting_push {goal : Goal} {f : Frame} {kind : TokenKind} {t : Token}
    (h : ∀ a k vs, goal.Completes n (t.terminal :: ts) a k vs ↔ t.kind = kind ∧
      ∃ e' k' us, Reads n ts e' k' us ∧ f.Completes e' k' us a k vs) (stack : List Frame) :
    Pending goal stack n (t.terminal :: ts) e m r ↔
      Leaves n ts e m r (expecting kind t (.await .expr (f :: stack))) := by
  rw [leaves_expecting]
  constructor
  · rintro ⟨a, k, vs, hgoal, hstack⟩
    obtain ⟨hkind, e', k', us, hread, hf⟩ := (h a k vs).mp hgoal
    exact ⟨hkind, e', k', us, hread, a, k, vs, hf, hstack⟩
  · rintro ⟨hkind, e', k', us, hread, a, k, vs, hf, hstack⟩
    exact ⟨a, k, vs, (h a k vs).mpr ⟨hkind, e', k', us, hread, hf⟩, hstack⟩

/-- Goals that end with a closing parenthesis, and are then a tree. -/
theorem pending_expecting_give {goal : Goal} {e' : Expr} {t : Token}
    (h : ∀ a k vs, goal.Completes n (t.terminal :: ts) a k vs ↔
      t.kind = .closeParen ∧ a = e' ∧ k = n ∧ vs = ts) (stack : List Frame) :
    Pending goal stack n (t.terminal :: ts) e m r ↔
      Leaves n ts e m r (expecting .closeParen t (.give e' stack)) := by
  rw [leaves_expecting]
  constructor
  · rintro ⟨a, k, vs, hgoal, hstack⟩
    obtain ⟨hkind, rfl, rfl, rfl⟩ := (h a k vs).mp hgoal
    exact ⟨hkind, hstack⟩
  · rintro ⟨hkind, hstack⟩
    exact ⟨_, _, _, (h _ _ _).mpr ⟨hkind, rfl, rfl, rfl⟩, hstack⟩

/-- Arguments and the parts of a sequence end with a closing parenthesis or go on with an expression. -/
theorem pending_listing {goal : Goal} {f : Frame} {build : List Expr → Expr} {done : List Expr} {t : Token}
    (hgoal : ∀ us a k vs, goal.Completes n us a k vs ↔
      ∃ es, ReadsAll n us es k (.closeParen :: vs) ∧ a = build (done ++ es))
    (hf : ∀ e' k' us a k vs, f.Completes e' k' us a k vs ↔
      ∃ es, ReadsAll k' us es k (.closeParen :: vs) ∧ a = build (done ++ [e'] ++ es))
    (stack : List Frame) :
    Pending goal stack n (t.terminal :: ts) e m r ↔
      Leaves n ts e m r (if t.kind = .closeParen ∨ t.kind = .endOfInput then
        expecting .closeParen t (.give (build done) stack) else stepExpr t (f :: stack)) := by
  by_cases hclose : t.kind = .closeParen
  · rw [if_pos (Or.inl hclose)]
    refine pending_expecting_give (fun a k vs => ?_) stack
    rw [hgoal, terminal_closeParen.mpr hclose, completes_last]
    exact ⟨fun h => ⟨hclose, h⟩, fun h => h.2⟩
  · have hne : t.terminal ≠ .closeParen := fun h => hclose (terminal_closeParen.mp h)
    have hpush : Pending goal stack n (t.terminal :: ts) e m r ↔
        Pending .expr (f :: stack) n (t.terminal :: ts) e m r := by
      refine pending_push (fun a k vs => ?_) stack
      simp only [hgoal, hf, completes_more build done hne]
    rw [hpush, pending_stepExpr]
    split
    · rename_i hend
      have hend := hend.resolve_left hclose
      rw [stepExpr, hend, leaves_expecting, hend]
      exact iff_of_false not_leaves_error (fun h => by cases h.1)
    · exact Iff.rfl

/-- **One token.** The tokens from the head on complete a configuration exactly if the step is possible and
the tokens behind the head complete what it leads to. -/
theorem pending_step (goal : Goal) (stack : List Frame) (t : Token) :
    Pending goal stack n (t.terminal :: ts) e m r ↔ Leaves n ts e m r (step goal stack t) := by
  cases goal with
  | expr => exact pending_stepExpr
  | form =>
    by_cases hword : ∃ k : Keyword, t.terminal = k.terminal
    · obtain ⟨k, hk⟩ := hword
      obtain ⟨hkind, htext⟩ := terminal_identifier.mp hk
      rw [step, hkind, htext, Keyword.ofName?_spelling, leaves_ok, hk]
      exact pending_enter k stack
    · have hne (k : Keyword) : t.terminal ≠ k.terminal := fun h => hword ⟨k, h⟩
      rw [pending_push (fun a k vs => completes_app hne) stack, pending_stepExpr, step]
      split
      · rename_i k hkind hname
        have hk : t.terminal = k.terminal :=
          terminal_identifier.mpr ⟨hkind, Keyword.spelling_of_ofName? hname⟩
        exact absurd hk (hne k)
      · exact Iff.rfl
  | paramsOpen =>
    refine pending_expecting (fun a k vs => ?_) stack
    rw [completes_paramsOpen, terminal_openParen]
  | params names =>
    rw [step]
    split
    · rename_i hkind
      rw [terminal_identifier.mpr ⟨hkind, rfl⟩, leaves_ok]
      exact pending_congr (fun a k vs => completes_params_identifier) stack
    · rename_i hkind
      have hne (x : Bytes) : t.terminal ≠ .identifier x := fun h => hkind (terminal_identifier.mp h).1
      refine pending_expecting_push (fun a k vs => ?_) stack
      rw [completes_params hne, terminal_closeParen]
  | defsOpen =>
    refine pending_expecting (fun a k vs => ?_) stack
    rw [completes_defsOpen, terminal_openParen]
  | defs done =>
    rw [step]
    split
    · rename_i hkind
      rw [terminal_openParen.mpr hkind, leaves_ok]
      exact Iff.rfl
    · rename_i hkind
      have hne : t.terminal ≠ .openParen := fun h => hkind (terminal_openParen.mp h)
      refine pending_expecting_push (fun a k vs => ?_) stack
      rw [completes_defs hne, terminal_closeParen]
  | defName done =>
    refine pending_expecting_push (fun a k vs => ?_) stack
    simp only [completes_defName, terminal_identifier, and_assoc, exists_and_left, exists_eq_left']
  | defClose done =>
    refine pending_expecting (fun a k vs => ?_) stack
    rw [completes_defClose, terminal_closeParen]
  | args callee done =>
    exact pending_listing (fun us a k vs => Iff.rfl) (fun e' k' us a k vs => Iff.rfl) stack
  | items done =>
    exact pending_listing (fun us a k vs => Iff.rfl) (fun e' k' us a k vs => Iff.rfl) stack
  | target chained =>
    refine pending_expecting_push (fun a k vs => ?_) stack
    simp only [completes_target, terminal_identifier, and_assoc, exists_and_left, exists_eq_left']
  | close e' =>
    refine pending_expecting_give (fun a k vs => ?_) stack
    rw [← terminal_closeParen]
    constructor
    · rintro ⟨rfl, rfl, hts⟩
      obtain ⟨hclose, rfl⟩ := List.cons.inj hts
      exact ⟨hclose, rfl, rfl, rfl⟩
    · rintro ⟨hclose, rfl, rfl, rfl⟩
      exact ⟨rfl, rfl, by rw [hclose]⟩

/-- Every goal needs a token. -/
theorem not_pending_nil {goal : Goal} {stack : List Frame} : ¬ Pending goal stack n [] e m r := by
  rintro ⟨a, k, us, hgoal, _⟩
  cases goal with
  | expr => exact not_reads_nil hgoal
  | form =>
    obtain ⟨p, hp, _⟩ := hgoal
    obtain ⟨hproper, hts⟩ := hp
    cases hproper with
    | var _ => cases hts
    | literal _ => cases hts
    | halt => cases hts
    | app _ _ _ => simp at hts
    | _ => cases (List.cons.inj hts).2
  | paramsOpen =>
    obtain ⟨p, hp, _⟩ := hgoal
    obtain ⟨_, _, _, _, hts, _⟩ := starts_lambda.mp hp
    cases hts
  | params names =>
    obtain ⟨xs, _, _, _, hts, _⟩ := hgoal
    cases xs <;> cases hts
  | defsOpen =>
    obtain ⟨p, hp, _⟩ := hgoal
    obtain ⟨_, _, _, _, _, hts, _⟩ := starts_letrec.mp hp
    cases hts
  | defs done =>
    obtain ⟨_, _, _, _, ⟨ps, hps, _⟩, _⟩ := hgoal
    cases ps with
    | nil => cases startsDefs_nil.mp hps
    | cons d ps =>
      obtain ⟨_, _, hts, _⟩ := startsDefs_cons.mp hps
      cases hts
  | defName done =>
    obtain ⟨_, _, _, _, hds, _⟩ := hgoal
    obtain ⟨_, _, _, _, _, _, hts, _⟩ := (readsDefs_cons (by decide)).mp hds
    cases hts
  | defClose done =>
    obtain ⟨_, _, _, _, _, hts, _⟩ := hgoal
    cases hts
  | args callee done =>
    obtain ⟨_, ⟨ps, hps, _⟩, _⟩ := hgoal
    cases ps with
    | nil => cases startsAll_nil.mp hps
    | cons p ps =>
      obtain ⟨_, hp, _⟩ := startsAll_cons.mp hps
      exact not_starts_nil hp
  | items done =>
    obtain ⟨_, ⟨ps, hps, _⟩, _⟩ := hgoal
    cases ps with
    | nil => cases startsAll_nil.mp hps
    | cons p ps =>
      obtain ⟨_, hp, _⟩ := startsAll_cons.mp hps
      exact not_starts_nil hp
  | target chained =>
    obtain ⟨p, hp, _⟩ := hgoal
    cases chained with
    | false =>
      obtain ⟨_, _, _, _, hts, _⟩ := starts_assign.mp hp
      cases hts
    | true =>
      obtain ⟨_, _, _, _, _, _, hts, _⟩ := starts_assignThen.mp hp
      cases hts
  | close e' => cases hgoal.2.2

/-! ### Complete expressions -/

theorem closes_push {f g : Frame} {e' : Expr}
    (h : ∀ a k vs, f.Completes e' n ts a k vs ↔
      ∃ x k' us, Reads n ts x k' us ∧ g.Completes x k' us a k vs) (stack : List Frame) :
    Closes e' n ts e m r (f :: stack) ↔ Pending .expr (g :: stack) n ts e m r := by
  constructor
  · rintro ⟨a, k, vs, hf, hstack⟩
    obtain ⟨x, k', us, hread, hg⟩ := (h a k vs).mp hf
    exact ⟨x, k', us, hread, a, k, vs, hg, hstack⟩
  · rintro ⟨x, k', us, hread, a, k, vs, hg, hstack⟩
    exact ⟨a, k, vs, (h a k vs).mpr ⟨x, k', us, hread, hg⟩, hstack⟩

/-- An expression that is read closes as many frames as it can. -/
theorem closes_settle (e' : Expr) (stack : List Frame) :
    Closes e' n ts e m r stack ↔ (settle e' stack n).1.Pends (settle e' stack n).2 ts e m r := by
  cases stack with
  | nil => exact Iff.rfl
  | cons f stack =>
    cases f with
    | lambdaBody params =>
      constructor
      · rintro ⟨a, k, us, ⟨hfresh, hts⟩, hstack⟩
        cases hfresh
        exact ⟨_, _, us, ⟨rfl, rfl, hts⟩, hstack⟩
      · rintro ⟨a, k, us, ⟨rfl, rfl, hts⟩, hstack⟩
        exact ⟨_, _, us, ⟨rfl, hts⟩, hstack⟩
    | test => exact closes_push (fun a k vs => Iff.rfl) stack
    | thenBranch c => exact closes_push (fun a k vs => Iff.rfl) stack
    | assignedFirst x => exact closes_push (fun a k vs => Iff.rfl) stack
    | _ => exact Iff.rfl

theorem Move.perform_literal {span : Span} {stack : List Frame} {p : Progress} {k : Nat}
    (h : (Move.literal span stack).perform n = (.ok p, k)) :
    ∃ l, Literal.ofSpan span = .ok l ∧ settle (.literal l) stack n = (p, k) := by
  rw [perform] at h
  cases hl : Literal.ofSpan span with
  | error err =>
    rw [hl] at h
    cases h
  | ok l =>
    rw [hl] at h
    cases h
    exact ⟨l, rfl, rfl⟩

/-- Performing a move does not change what is pending. -/
theorem Move.perform_pends {move : Move} {p : Progress} {k : Nat} (h : move.perform n = (.ok p, k)) :
    move.Pends n ts e m r ↔ p.Pends k ts e m r := by
  cases move with
  | await goal stack =>
    cases h
    exact Iff.rfl
  | give e' stack =>
    cases h
    exact closes_settle e' stack
  | literal span stack =>
    obtain ⟨l, hl, hsettle⟩ := perform_literal h
    show Closes (.literal (Literal.ofText span.text)) n ts e m r stack ↔ _
    rw [ofText_of_ofSpan hl, closes_settle, hsettle]
  | halt stack =>
    cases h
    constructor
    · rintro ⟨e', k, hfresh, hstack⟩
      cases hfresh
      exact (closes_settle _ stack).mp hstack
    · intro hstack
      exact ⟨_, _, rfl, (closes_settle _ stack).mpr hstack⟩

end

/-! ## Runs -/

/-- `Consumes p n used q k`: consuming the tokens leads the reader from one configuration to another. -/
inductive Consumes : Progress → Nat → List Token → Progress → Nat → Prop
  | refl (p : Progress) (n : Nat) : Consumes p n [] p n
  | cons {goal : Goal} {stack : List Frame} {n k m : Nat} {t : Token} {move : Move} {p q : Progress}
      {used : List Token} (hstep : step goal stack t = .ok move) (hperform : move.perform n = (.ok p, k))
      (h : Consumes p k used q m) : Consumes (.more goal stack) n (t :: used) q m

/-- What is consumed is what is pending. -/
theorem Consumes.pends {p q : Progress} {n k m : Nat} {used : List Token} {ts r : List Terminal} {e : Expr}
    (h : Consumes p n used q k) :
    p.Pends n (used.map Token.terminal ++ ts) e m r ↔ q.Pends k ts e m r := by
  induction h with
  | refl p n => exact Iff.rfl
  | @cons goal stack n k' _ t move p q used hstep hperform _ ih =>
    show Pending goal stack n (t.terminal :: (used.map Token.terminal ++ ts)) e m r ↔ _
    rw [pending_step, hstep, leaves_ok, Move.perform_pends hperform, ih]

theorem step_literal {goal : Goal} {stack : List Frame} {t : Token} {move : Move}
    (hkind : t.kind = .literal) (h : step goal stack t = .ok move) :
    ∃ stack', move = .literal t.toSpan stack' := by
  cases goal <;> simp [step, stepExpr, expecting, hkind] at h <;> exact ⟨_, h.symm⟩

/-- The literals that are consumed are literals. -/
theorem Consumes.literal {p q : Progress} {n k : Nat} {used : List Token} (h : Consumes p n used q k)
    {t : Token} (ht : t ∈ used) (hkind : t.kind = .literal) : ∃ l, Literal.ofSpan t.toSpan = .ok l := by
  induction h with
  | refl => cases ht
  | cons hstep hperform _ ih =>
    rcases List.mem_cons.mp ht with rfl | ht
    · obtain ⟨stack', rfl⟩ := step_literal hkind hstep
      obtain ⟨l, hl, _⟩ := Move.perform_literal hperform
      exact ⟨l, hl⟩
    · exact ih ht

/-- The ways in which a run ends, if pieces of a source are ahead of it. -/
inductive Ends (source : Bytes) (goal : Goal) (stack : List Frame) (n : Nat) (ps : List Piece)
    (stop : Except ReadError Bytes) : Except ReadError Expr × State → Prop
  | done {used rest : List Piece} {e : Expr} {s : State} (hps : ps = used ++ rest)
      (h : Consumes (.more goal stack) n (used.map Piece.token) (.done e) s.next)
      (hrest : Tokenizer.Leads source rest stop (.ok s.tokens)) : Ends source goal stack n ps stop (.ok e, s)
  /-- no step is possible -/
  | stuck {used rest : List Piece} {goal' : Goal} {stack' : List Frame} {k : Nat} {tk : Tokenizer}
      {err : ReadError} {s : State} (hps : ps = used ++ rest)
      (h : Consumes (.more goal stack) n (used.map Piece.token) (.more goal' stack') k)
      (hrest : Tokenizer.Leads source rest stop (.ok tk)) (hstep : step goal' stack' tk.head = .error err) :
      Ends source goal stack n ps stop (.error err, s)
  | flaw {err : ReadError} {s : State} (hstop : stop = .error err) :
      Ends source goal stack n ps stop (.error err, s)
  /-- a literal is none -/
  | literal {p : Piece} {err : ReadError} {s : State} (hp : p ∈ ps) (hkind : p.token.kind = .literal)
      (hspan : Literal.ofSpan p.token.toSpan = .error err) : Ends source goal stack n ps stop (.error err, s)

/-- A move fails only on a literal. -/
theorem Move.perform_error {move : Move} {n k : Nat} {err : ReadError}
    (h : move.perform n = (.error err, k)) :
    ∃ span stack, move = .literal span stack ∧ Literal.ofSpan span = .error err := by
  cases move with
  | await goal stack => cases h
  | give e stack => cases h
  | halt stack => cases h
  | literal span stack =>
    rw [perform] at h
    cases hl : Literal.ofSpan span with
    | error err' =>
      rw [hl] at h
      cases h
      exact ⟨span, stack, rfl, hl⟩
    | ok l =>
      rw [hl] at h
      cases h

theorem stepExpr_eq_literal {t : Token} {span : Span} {stack stack' : List Frame}
    (h : stepExpr t stack = .ok (.literal span stack')) : t.kind = .literal ∧ span = t.toSpan := by
  unfold stepExpr at h
  split at h
  · rename_i hkind
    cases h
    exact ⟨hkind, rfl⟩
  · split_ifs at h <;> cases h
  all_goals cases h

theorem step_eq_literal {goal : Goal} {t : Token} {span : Span} {stack stack' : List Frame}
    (h : step goal stack t = .ok (.literal span stack')) : t.kind = .literal ∧ span = t.toSpan := by
  cases goal with
  | expr => exact stepExpr_eq_literal h
  | form =>
    rw [step] at h
    split at h
    · rename_i k _ _
      cases k <;> cases h
    · exact stepExpr_eq_literal h
  | params names =>
    rw [step] at h
    split at h
    · cases h
    · cases expecting_ok h
  | defs done =>
    rw [step] at h
    split at h
    · cases h
    · cases expecting_ok h
  | args callee done =>
    rw [step] at h
    split at h
    · cases expecting_ok h
    · exact stepExpr_eq_literal h
  | items done =>
    rw [step] at h
    split at h
    · cases expecting_ok h
    · exact stepExpr_eq_literal h
  | _ => cases expecting_ok h

theorem Ends.cons {source : Bytes} {goal goal' : Goal} {stack stack' : List Frame} {n k : Nat} {p : Piece}
    {ps : List Piece} {stop : Except ReadError Bytes} {move : Move}
    {result : Except ReadError Expr × State} (hstep : step goal stack p.token = .ok move)
    (hperform : move.perform n = (.ok (.more goal' stack'), k))
    (h : Ends source goal' stack' k ps stop result) : Ends source goal stack n (p :: ps) stop result := by
  cases h with
  | @done used rest _ _ hps h hrest =>
    have hps : p :: ps = (p :: used) ++ rest := by rw [hps, List.cons_append]
    exact .done hps (.cons hstep hperform h) hrest
  | @stuck used rest _ _ _ _ _ _ hps h hrest hstuck =>
    have hps : p :: ps = (p :: used) ++ rest := by rw [hps, List.cons_append]
    exact .stuck hps (.cons hstep hperform h) hrest hstuck
  | flaw hstop => exact .flaw hstop
  | literal hp hkind hspan => exact .literal (List.mem_cons_of_mem p hp) hkind hspan

theorem leads_token {source : Bytes} {ps : List Piece} {stop : Except ReadError Bytes} {tk : Tokenizer}
    (h : Tokenizer.Leads source ps stop (.ok tk)) (hkind : tk.head.kind ≠ .endOfInput) :
    ∃ p rest, ps = p :: rest ∧ tk.head = p.token ∧ Tokenizer.Leads source rest stop tk.advance := by
  cases h with
  | last hsource hhead =>
    rw [hhead] at hkind
    exact absurd rfl hkind
  | token hsource hhead _ hahead =>
    subst hsource
    exact ⟨_, _, rfl, hhead, Tokenizer.advance_leads hahead⟩

/-- Every run ends in one of these ways. -/
theorem run_ends {source : Bytes} {goal : Goal} {stack : List Frame} {s : State} {ps : List Piece}
    {stop : Except ReadError Bytes} (h : Tokenizer.Leads source ps stop (.ok s.tokens)) :
    Ends source goal stack s.next ps stop (run goal stack s) := by
  fun_induction run goal stack s generalizing ps with
  | case1 goal stack s err hstep => exact .stuck (List.nil_append ps).symm (.refl _ _) h hstep
  | case2 goal stack s move hstep err hadv =>
    obtain ⟨p, rest, rfl, hhead, hnext⟩ := leads_token h (kind_ne_endOfInput_of_step hstep)
    rw [hadv] at hnext
    cases hnext
    exact .flaw rfl
  | case3 goal stack s move hstep tokens hadv err next hperform =>
    obtain ⟨p, rest, rfl, hhead, _⟩ := leads_token h (kind_ne_endOfInput_of_step hstep)
    obtain ⟨span, stack', rfl, hspan⟩ := Move.perform_error hperform
    obtain ⟨hkind, rfl⟩ := step_eq_literal hstep
    rw [hhead] at hkind hspan
    exact .literal List.mem_cons_self hkind hspan
  | case4 goal stack s move hstep tokens hadv e next hperform =>
    obtain ⟨p, rest, rfl, hhead, hnext⟩ := leads_token h (kind_ne_endOfInput_of_step hstep)
    rw [hadv] at hnext
    rw [hhead] at hstep
    have hps : p :: rest = [p] ++ rest := List.singleton_append.symm
    exact .done hps (.cons hstep hperform (.refl _ _)) hnext
  | case5 goal stack s move hstep tokens hadv goal' stack' next hperform ih =>
    obtain ⟨p, rest, rfl, hhead, hnext⟩ := leads_token h (kind_ne_endOfInput_of_step hstep)
    rw [hadv] at hnext
    rw [hhead] at hstep
    exact .cons hstep hperform (ih hnext)

/-- The ways in which reading a program ends, if it is cut into pieces. -/
inductive Concludes (source : Bytes) (n : Nat) (ps : List Piece) (stop : Except ReadError Bytes) :
    Except ReadError Expr × Nat → Prop
  | tree {gap : Bytes} {e : Expr} {m : Nat} (hstop : stop = .ok gap)
      (h : Consumes (.more .expr []) n (ps.map Piece.token) (.done e) m) : Concludes source n ps stop (.ok e, m)
  /-- a piece is behind the expression -/
  | trailing {used rest : List Piece} {p : Piece} {e : Expr} {m : Nat} (hps : ps = used ++ p :: rest)
      (h : Consumes (.more .expr []) n (used.map Piece.token) (.done e) m) :
      Concludes source n ps stop (.error (.trailing p.token.toSpan), m)
  /-- no step is possible -/
  | stuck {used rest : List Piece} {goal : Goal} {stack : List Frame} {k m : Nat} {tk : Tokenizer}
      {err : ReadError} (hps : ps = used ++ rest)
      (h : Consumes (.more .expr []) n (used.map Piece.token) (.more goal stack) k)
      (hrest : Tokenizer.Leads source rest stop (.ok tk)) (hstep : step goal stack tk.head = .error err) :
      Concludes source n ps stop (.error err, m)
  | flaw {err : ReadError} {m : Nat} (hstop : stop = .error err) : Concludes source n ps stop (.error err, m)
  /-- a literal is none -/
  | literal {p : Piece} {err : ReadError} {m : Nat} (hp : p ∈ ps) (hkind : p.token.kind = .literal)
      (hspan : Literal.ofSpan p.token.toSpan = .error err) : Concludes source n ps stop (.error err, m)

/-- Reading a source concludes on the pieces that it is cut into. -/
theorem readProgram_concludes {source : Bytes} (filename : Bytes) (n : Nat) {ps : List Piece}
    {stop : Except ReadError Bytes} (hcut : Cut 0 source ps stop) :
    Concludes source n ps stop (readProgram source filename n) := by
  have hlead := Tokenizer.start_leads filename hcut
  unfold readProgram
  split
  · rename_i err hstart
    rw [hstart] at hlead
    cases hlead
    exact .flaw rfl
  · rename_i tokens hstart
    rw [hstart] at hlead
    have hends : Ends source .expr [] n ps stop (readExpr ⟨tokens, n⟩) :=
      run_ends (s := ⟨tokens, n⟩) hlead
    split
    · rename_i err s hread
      rw [hread] at hends
      cases hends with
      | stuck hps h hrest hstep => exact .stuck hps h hrest hstep
      | flaw hstop => exact .flaw hstop
      | literal hp hkind hspan => exact .literal hp hkind hspan
    · rename_i e s hread
      rw [hread] at hends
      cases hends with
      | @done used rest _ _ hps h hrest =>
        split
        · rename_i hend
          have hend : s.tokens.head.kind = .endOfInput := beq_iff_eq.mp hend
          generalize hresult : Except.ok s.tokens = result at hrest
          cases hrest with
          | last _ _ =>
            rw [List.append_nil] at hps
            rw [hps]
            exact .tree rfl h
          | flaw err => cases hresult
          | token _ hhead hkind _ =>
            cases hresult
            rw [hhead] at hend
            exact absurd hend hkind
        · rename_i hend
          have hend : s.tokens.head.kind ≠ .endOfInput := fun h => hend (beq_iff_eq.mpr h)
          obtain ⟨p, rest', rfl, hhead, _⟩ := leads_token hrest hend
          rw [hhead]
          exact .trailing hps h

end Reader

/-! ## The result -/

/-- What the grammar sees of the tokens of some pieces. -/
def Piece.terminals (ps : List Piece) : List Terminal := ps.map fun p => p.token.terminal

/-- All literals among some tokens are literals. -/
def Legible (ts : List Terminal) : Prop := ∀ text, .literal text ∈ ts → Spells text (Literal.ofText text)

theorem terminals_append (ps qs : List Piece) :
    Piece.terminals (ps ++ qs) = (ps.map Piece.token).map Token.terminal ++ Piece.terminals qs := by
  simp [Piece.terminals]

theorem Token.terminal_literal {t : Token} {text : Bytes} :
    t.terminal = .literal text ↔ t.kind = .literal ∧ t.text = text := by
  obtain ⟨span, kind⟩ := t
  cases kind <;> simp [Token.terminal]

/-- The pieces of a source whose literals are read are legible. -/
theorem Cut.legible {source : Bytes} {ps : List Piece} {stop : Except ReadError Bytes} {o : Nat}
    (hcut : Cut o source ps stop) {used rest : List Piece} (hps : ps = used ++ rest)
    (h : ∀ t ∈ used.map Piece.token, t.kind = .literal → ∃ l, Literal.ofSpan t.toSpan = .ok l) :
    Legible (Piece.terminals used) := by
  intro text htext
  obtain ⟨p, hp, hterminal⟩ := List.mem_map.mp htext
  obtain ⟨hkind, rfl⟩ := Token.terminal_literal.mp hterminal
  obtain ⟨l, hl⟩ := h p.token (List.mem_map_of_mem hp) hkind
  obtain ⟨after, hlexeme⟩ := hcut.lexeme (p := p) (by rw [hps]; exact List.mem_append_left _ hp)
  rw [hkind] at hlexeme
  rw [ofText_of_ofSpan hl]
  exact spells_of_ofSpan hlexeme hl

theorem Legible.ofSpan {ps : List Piece} (h : Legible (Piece.terminals ps)) {p : Piece} (hp : p ∈ ps)
    (hkind : p.token.kind = .literal) {err : ReadError} : Literal.ofSpan p.token.toSpan ≠ .error err := by
  have hterminal : p.token.terminal = .literal p.token.text := Token.terminal_literal.mpr ⟨hkind, rfl⟩
  have hspells := h p.token.text (List.mem_map.mpr ⟨p, hp, hterminal⟩)
  rw [hspells.ofSpan p.token.offset]
  intro herr
  cases herr

namespace Reader

/-- At the start, the whole of an expression is pending. -/
theorem pending_start {n m : Nat} {ts r : List Terminal} {e : Expr} :
    Pending .expr [] n ts e m r ↔ Reads n ts e m r := by
  constructor
  · rintro ⟨a, k, us, hread, rfl, rfl, rfl⟩
    exact hread
  · intro hread
    exact ⟨e, m, r, hread, rfl, rfl, rfl⟩

/-- Consuming the tokens of an expression is reading it. -/
theorem Consumes.reads {n m : Nat} {used : List Piece} {e : Expr} (rest : List Piece)
    (h : Consumes (.more .expr []) n (used.map Piece.token) (.done e) m) :
    Reads n (Piece.terminals (used ++ rest)) e m (Piece.terminals rest) := by
  rw [terminals_append]
  exact pending_start.mp (h.pends.mpr ⟨rfl, rfl, rfl⟩)

/-- A step that is not possible leaves nothing pending, whatever is ahead. -/
theorem not_pending_of_step {source : Bytes} {rest : List Piece} {stop : Except ReadError Bytes}
    {tk : Tokenizer} {goal : Goal} {stack : List Frame} {err : ReadError} {k m : Nat} {e : Expr}
    {r : List Terminal} (hrest : Tokenizer.Leads source rest stop (.ok tk))
    (hstep : step goal stack tk.head = .error err) :
    ¬ Pending goal stack k (Piece.terminals rest) e m r := by
  cases hrest with
  | last _ _ => exact not_pending_nil
  | @token _ p rest _ _ hhead _ _ =>
    show ¬ Pending goal stack k (p.token.terminal :: Piece.terminals rest) e m r
    rw [pending_step, ← hhead, hstep]
    exact not_leaves_error

/-- A program that is legible and has a derivation is read as the tree of the derivation. -/
theorem Concludes.eq_tree {source : Bytes} {n m : Nat} {ps : List Piece} {gap : Bytes} {e : Expr}
    {result : Except ReadError Expr × Nat} (h : Concludes source n ps (.ok gap) result)
    (hlegible : Legible (Piece.terminals ps)) (hread : Reads n (Piece.terminals ps) e m []) :
    result = (.ok e, m) := by
  obtain ⟨p, hp, hdenote⟩ := hread
  cases h with
  | tree _ h =>
    obtain ⟨q, hq, hdenote'⟩ := h.reads []
    rw [List.append_nil] at hq
    obtain ⟨rfl, _⟩ := hp.unique hq
    rw [hdenote] at hdenote'
    cases hdenote'
    rfl
  | trailing hps h =>
    subst hps
    obtain ⟨q, hq, _⟩ := h.reads (_ :: _)
    obtain ⟨_, hrest⟩ := hp.unique hq
    cases hrest
  | @stuck used rest _ _ _ _ _ _ hps h hrest hstep =>
    subst hps
    rw [terminals_append] at hp
    have hpending := h.pends.mp (pending_start.mpr ⟨p, hp, hdenote⟩)
    exact absurd hpending (not_pending_of_step hrest hstep)
  | flaw hstop => cases hstop
  | literal hp hkind hspan => exact absurd hspan (hlegible.ofSpan hp hkind)

end Reader

/-- **The reader accepts exactly its grammar.** A source is read as a tree exactly if it is cut into tokens
to its end, the literals among them are literals, and they have a derivation that stands for the tree. There
is one derivation at most. Every other source is refused. -/
theorem readProgram_exact (source filename : Bytes) (n : Nat) :
    (∀ e m, readProgram source filename n = (.ok e, m) ↔
      ∃ ps gap, ∃ p : Phrase, Cut 0 source ps (.ok gap) ∧ Legible (Piece.terminals ps) ∧
        p.Derives (Piece.terminals ps) ∧ p.denote n = (e, m)) ∧
    (∀ ts, ∀ p q : Phrase, p.Derives ts → q.Derives ts → p = q) ∧
    ((¬ ∃ ps gap, ∃ p : Phrase, Cut 0 source ps (.ok gap) ∧ Legible (Piece.terminals ps) ∧
        p.Derives (Piece.terminals ps)) → ∃ err m, readProgram source filename n = (.error err, m)) := by
  have hexact (e : Expr) (m : Nat) : readProgram source filename n = (.ok e, m) ↔
      ∃ ps gap, ∃ p : Phrase, Cut 0 source ps (.ok gap) ∧ Legible (Piece.terminals ps) ∧
        p.Derives (Piece.terminals ps) ∧ p.denote n = (e, m) := by
    constructor
    · intro h
      obtain ⟨ps, stop, hcut⟩ := exists_cut 0 source
      have hend := readProgram_concludes filename n hcut
      rw [h] at hend
      cases hend with
      | @tree gap _ _ hstop hconsumes =>
        subst hstop
        have hlegible := hcut.legible (List.append_nil ps).symm fun t => hconsumes.literal
        obtain ⟨p, hp, hdenote⟩ := hconsumes.reads []
        rw [List.append_nil] at hp
        exact ⟨ps, gap, p, hcut, hlegible, derives_iff_starts.mpr hp, hdenote⟩
    · rintro ⟨ps, gap, p, hcut, hlegible, hp, hdenote⟩
      have hend := readProgram_concludes filename n hcut
      exact hend.eq_tree hlegible ⟨p, derives_iff_starts.mp hp, hdenote⟩
  refine ⟨hexact, fun ts p q hp hq => ?_, fun hnone => ?_⟩
  · exact ((derives_iff_starts.mp hq).unique (derives_iff_starts.mp hp)).1
  · rcases hresult : readProgram source filename n with ⟨err | e, m⟩
    · exact ⟨err, m, rfl⟩
    · obtain ⟨ps, gap, p, hcut, hlegible, hp, _⟩ := (hexact e m).mp hresult
      exact absurd ⟨ps, gap, p, hcut, hlegible, hp⟩ hnone

end Trampoline

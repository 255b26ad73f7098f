import Trampoline.Proofs.Kinds

/-!
# Trampoline.Proofs.Acceptance -- which trees have code

Lowering refuses trees in a dozen places, each of them next to the code it would have emitted. Here the
trees that have code are described on their own, by a judgement `e.HasKind κ` with one rule for each kind
of node. Lowering a tree succeeds with the kind `κ` exactly if the judgement holds, and if it holds for
no kind, lowering fails and names a fault that some node of the tree has.

Success is read off derivations. For failures there is no derivation, so `lower_error` follows the run up
to the step that stopped it. It needs only that the captures of all lambdas are known, and says of any
class table that the fault is in the tree: a lambda that was met before is not lowered again and cannot
fail.
-/

namespace Trampoline

namespace Expr

/-! ## The judgement -/

/-- The number of operands of every operator. -/
def operandCounts : List (Bytes × Nat) :=
  [ (ascii "zero?", 1), (ascii "+", 2), (ascii "-", 2), (ascii "*", 2), (ascii "=", 2),
    (ascii "string-append", 2), (ascii "string=?", 2) ]

/-- The number of operands of the operator with a name, if it is one's. -/
def operandCount? (f : Bytes) : Option Nat := operandCounts.lookup f

/-- No definition is just the name of itself or of a later definition. -/
structure NoAliases (defs : List (Bytes × Expr)) : Prop where
  own : ∀ d ∈ defs, d.2 ≠ .var d.1
  ahead : defs.Pairwise fun d later => d.2 ≠ .var later.1

mutual

/-- The trees that have code, with the kind of its result. -/
inductive HasKind : Expr → Kind → Prop
  | var {x : Bytes} (hx : operandCount? x = none) : HasKind (.var x) .value
  | integer (n : Int64) : HasKind (.literal (.integer n)) .value
  | boolean (b : Bool) : HasKind (.literal (.boolean b)) .value
  | string (s : Bytes) : HasKind (.literal (.string s)) .value
  | lambda {name : Bytes} {params : List Bytes} {body : Expr} (hb : HasKind body .thunk) :
      HasKind (.lambda name params body) .value
  | call {f : Bytes} {args : List Expr} (hf : operandCount? f = none)
      (hs : ∀ a ∈ args, HasSomeKind a) : HasKind (.app (.var f) args) .thunk
  | operate {f : Bytes} {args : List Expr} {k : Nat} (hf : operandCount? f = some k)
      (hs : ∀ a ∈ args, HasSomeKind a) (hn : args.length = k + 1) : HasKind (.app (.var f) args) .thunk
  | cond {test a b : Expr} {κ : Kind} (ht : HasSomeKind test) (ha : HasKind a κ) (hb : HasKind b κ) :
      HasKind (.cond test a b) κ
  | letrec {defs : List (Bytes × Expr)} {body : Expr} {κ : Kind} (hd : ∀ d ∈ defs, HasKind d.2 .value)
      (hn : NoAliases defs) (hb : HasKind body κ) : HasKind (.letrec defs body) κ
  | native (uses : List Bytes) (code : Fragment) : HasKind (.native uses code) code.kind

/-- The trees that have code, whatever its result is. -/
inductive HasSomeKind : Expr → Prop
  | of {e : Expr} {κ : Kind} (h : HasKind e κ) : HasSomeKind e

end

/-- A tree has no other kind than its shape tells. -/
theorem HasKind.kind_eq {e : Expr} {κ : Kind} (h : e.HasKind κ) : e.kind = κ := by
  induction e using Expr.induction generalizing κ with
  | cond test a b _ iha _ =>
    cases h with
    | cond _ ha _ => exact iha ha
  | letrec defs body _ ihb =>
    cases h with
    | letrec _ _ hb => exact ihb hb
  | _ => cases h <;> rfl

/-! ## Faults -/

/-- Why a node has no code: the reason shows at the node itself and in the kinds of its children. -/
inductive Lacks : Expr → Unsupported → Prop
  | void : Lacks (.literal .unspecified) .void
  | sequence (exprs : List Expr) : Lacks (.seq exprs) .sequence
  | assignment (x : Bytes) (value : Expr) : Lacks (.assign x value) .assignment
  | chainedAssignment (x : Bytes) (value next : Expr) :
      Lacks (.assignThen x value next) .chainedAssignment
  | operatorValue {x : Bytes} (hx : operandCount? x ≠ none) : Lacks (.var x) (.operatorValue x)
  | callee {callee : Expr} {args : List Expr} (hf : ∀ f, callee ≠ .var f) :
      Lacks (.app callee args) .callee
  | noContinuation {f : Bytes} (hf : operandCount? f ≠ none) :
      Lacks (.app (.var f) []) .noContinuation
  | lambdaBody {name : Bytes} {params : List Bytes} {body : Expr} (hb : body.kind = .value) :
      Lacks (.lambda name params body) .lambdaBody
  | mixedBranches {test a b : Expr} (hk : a.kind ≠ b.kind) : Lacks (.cond test a b) .mixedBranches
  | alias {pre post : List (Bytes × Expr)} {x y : Bytes} {body : Expr}
      (hy : y ∈ x :: post.map Prod.fst) :
      Lacks (.letrec (pre ++ (x, .var y) :: post) body) (.alias y)
  | tailCallDefinition {defs : List (Bytes × Expr)} {d : Bytes × Expr} {body : Expr} (hd : d ∈ defs)
      (hk : d.2.kind = .thunk) : Lacks (.letrec defs body) .tailCallDefinition

/-- A node is a call of an operator with a number of operands that it does not take. -/
inductive Miscounts : Expr → Bytes → Nat → Prop
  | intro {f : Bytes} {args : List Expr} {k n : Nat} (hf : operandCount? f = some k)
      (hn : args.length = n + 1) (hne : n ≠ k) : Miscounts (.app (.var f) args) f n

/-- Somewhere in the tree is a node with the fault that an error names. -/
def Rejects (e : Expr) (err : CompileError) : Prop :=
  (∃ what path a, err = .unsupported what ∧ e.reach? path = some a ∧ a.Lacks what) ∨
    ∃ f n path a, err = .unknownPrimitive f n ∧ e.reach? path = some a ∧ a.Miscounts f n

theorem Lacks.rejects {e : Expr} {what : Unsupported} (h : e.Lacks what) :
    e.Rejects (.unsupported what) :=
  Or.inl ⟨what, [], e, rfl, rfl, h⟩

theorem Miscounts.rejects {e : Expr} {f : Bytes} {n : Nat} (h : e.Miscounts f n) :
    e.Rejects (.unknownPrimitive f n) :=
  Or.inr ⟨f, n, [], e, rfl, rfl, h⟩

/-- What is wrong with a child is wrong with the tree. -/
theorem Rejects.of_child {e c : Expr} {i : Nat} {err : CompileError} (hc : e.child? i = some c)
    (h : c.Rejects err) : e.Rejects err := by
  rcases h with ⟨what, path, a, rfl, ha, hl⟩ | ⟨f, n, path, a, rfl, ha, hm⟩
  · exact Or.inl ⟨what, path ++ [i], a, rfl, (reach?_of_child hc path).trans ha, hl⟩
  · exact Or.inr ⟨f, n, path ++ [i], a, rfl, (reach?_of_child hc path).trans ha, hm⟩

end Expr

open Trampoline.Expr

/-! ## Operators -/

theorem operandCount?_eq (f : Bytes) : operandCount? f = (Primitive.ofName? f).map Primitive.arity := by
  simp only [operandCount?, operandCounts, Primitive.ofName?, Primitive.table, List.lookup_cons,
    List.lookup_nil]
  repeat' split
  all_goals rfl

/-- Only operators have a number of operands. -/
theorem operandCount?_eq_none {f : Bytes} : operandCount? f = none ↔ Primitive.isName f = false := by
  rw [operandCount?_eq, Option.map_eq_none_iff, Primitive.isName, Option.isSome_eq_false_iff,
    Option.isNone_iff_eq_none]

theorem operandCount?_ne_none {f : Bytes} : operandCount? f ≠ none ↔ Primitive.isName f = true := by
  rw [ne_eq, operandCount?_eq_none, Bool.not_eq_false]

/-- An operator can be called with as many operands as it takes, and with no other number. -/
theorem ofName?_isSome {f : Bytes} {xs : List Ident} {k : Nat} (hf : operandCount? f = some k) :
    (PrimCall.ofName? f xs).isSome ↔ xs.length = k := by
  rw [operandCount?_eq] at hf
  obtain ⟨p, hp, rfl⟩ := Option.map_eq_some_iff.mp hf
  unfold PrimCall.ofName?
  rw [hp]
  cases p with
  | unary p =>
    match xs with
    | [] => simp [Primitive.arity]
    | [a] => simp [Primitive.arity]
    | a :: b :: rest => simp [Primitive.arity]
  | binary p =>
    match xs with
    | [] => simp [Primitive.arity]
    | [a] => simp [Primitive.arity]
    | [a, b] => simp [Primitive.arity]
    | a :: b :: c :: rest => simp [Primitive.arity]

namespace Lowering

variable {cs : Captures}

/-! ## Derivations have kinds -/

theorem alias?_eq_none {names : List Bytes} {e : Expr} :
    alias? names e = none ↔ ∀ y ∈ names, e ≠ .var y := by
  cases e with
  | var x =>
    simp only [alias?, List.contains_iff_mem, ite_eq_right_iff, reduceCtorEq, imp_false, ne_eq,
      Expr.var.injEq]
    constructor
    · rintro h y hy rfl
      exact h hy
    · intro h hx
      exact h x hx rfl
  | _ => simp [alias?]

/-- A binding must not be the name of its own or of a later binding. -/
theorem noAliases_cons {x : Bytes} {e : Expr} {ds : List (Bytes × Expr)} :
    NoAliases ((x, e) :: ds) ↔ alias? (x :: ds.map Prod.fst) e = none ∧ NoAliases ds := by
  rw [alias?_eq_none, List.forall_mem_cons, List.forall_mem_map]
  constructor
  · rintro ⟨hown, hahead⟩
    obtain ⟨hx, hds⟩ := List.forall_mem_cons.mp hown
    obtain ⟨hlater, hrest⟩ := List.pairwise_cons.mp hahead
    exact ⟨⟨hx, hlater⟩, hds, hrest⟩
  · rintro ⟨⟨hx, hlater⟩, hds, hrest⟩
    exact ⟨List.forall_mem_cons.mpr ⟨hx, hds⟩, List.pairwise_cons.mpr ⟨hlater, hrest⟩⟩

/-- What has code has a kind, child by child. -/
theorem LowersList.hasKind {node : Node} {i : Nat} {es : List Expr}
    (ih : ∀ e ∈ es, ∀ {node : Node} {n n' : Nat} {f : Fragment} {C : List ClassEntry} {A : List Nat},
      Lowers cs node e n f n' C A → e.HasKind f.kind)
    {n n' : Nat} {fs : List Fragment} {C : List ClassEntry} {A : List Nat}
    (h : LowersList cs node i es n fs n' C A) : ∀ e ∈ es, e.HasSomeKind := by
  induction es generalizing i n fs C A with
  | nil => exact fun e he => absurd he List.not_mem_nil
  | cons e es ihs =>
    cases h with
    | cons he hs =>
      refine List.forall_mem_cons.mpr ⟨.of (ih e List.mem_cons_self he), ?_⟩
      exact ihs (fun a ha => ih a (List.mem_cons_of_mem e ha)) hs

/-- The values of bindings that have code are values, and none of them is an early alias. -/
theorem LowersDefs.hasKind {node : Node} {i : Nat} {ds : List (Bytes × Expr)}
    (ih : ∀ d ∈ ds, ∀ {node : Node} {n n' : Nat} {f : Fragment} {C : List ClassEntry} {A : List Nat},
      Lowers cs node d.2 n f n' C A → d.2.HasKind f.kind)
    {n n' : Nat} {code : List Instr} {C : List ClassEntry} {A : List Nat}
    (h : LowersDefs cs node i ds n code n' C A) :
    (∀ d ∈ ds, d.2.HasKind .value) ∧ NoAliases ds := by
  induction ds generalizing i n code C A with
  | nil => exact ⟨fun d hd => absurd hd List.not_mem_nil, fun d hd => absurd hd List.not_mem_nil, .nil⟩
  | cons d ds ihs =>
    cases h with
    | cons hx he hk hs =>
      obtain ⟨hds, hn⟩ := ihs (fun a ha => ih a (List.mem_cons_of_mem _ ha)) hs
      refine ⟨List.forall_mem_cons.mpr ⟨?_, hds⟩, noAliases_cons.mpr ⟨hx, hn⟩⟩
      exact hk ▸ ih _ List.mem_cons_self he

/-- The kind of a tree's code is a kind of the tree. -/
theorem Lowers.hasKind {node : Node} {e : Expr} {n n' : Nat} {f : Fragment} {C : List ClassEntry}
    {A : List Nat} (h : Lowers cs node e n f n' C A) : e.HasKind f.kind := by
  induction e using Expr.induction generalizing node n f n' C A with
  | var x =>
    cases h with
    | var hx => exact .var (operandCount?_eq_none.mpr hx)
  | literal l =>
    cases h with
    | literal hl =>
      cases l with
      | integer n => exact .integer n
      | boolean b => exact .boolean b
      | string s => exact .string s
      | unspecified => cases hl
  | lambda name params body ih =>
    cases h with
    | lambda _ hb hk => exact .lambda (hk ▸ ih hb)
  | app callee args _ ihs =>
    cases h with
    | call hf hs => exact .call (operandCount?_eq_none.mpr hf) (hs.hasKind ihs)
    | operate hf hs hp =>
      obtain ⟨k, hk⟩ := Option.ne_none_iff_exists'.mp (operandCount?_ne_none.mpr hf)
      have hcount := (ofName?_isSome hk).mp (Option.isSome_of_mem hp)
      refine .operate hk (hs.hasKind ihs) ?_
      rw [← hs.length_eq, List.length_append, List.length_singleton, ← hcount, List.length_map]
  | cond test a b iht iha ihb =>
    cases h with
    | cond ht ha hb hk =>
      have hthen := iha ha
      have helse := ihb hb
      rw [← hk] at helse
      exact .cond (.of (iht ht)) hthen helse
  | letrec defs body ihs ihb =>
    cases h with
    | letrec hd hb =>
      obtain ⟨hkinds, hn⟩ := hd.hasKind ihs
      have hbody := ihb hb
      exact .letrec hkinds hn hbody
  | native uses code =>
    cases h with
    | native => exact .native uses code
  | seq exprs _ => cases h
  | assign x value _ => cases h
  | assignThen x value next _ _ => cases h

/-! ## Steps that fail -/

/-- A step and what comes behind it fail if one of the two fails. -/
theorem bind_error {α β : Type} {x : Step α} {f : α → Step β} {s s' : State} {err : CompileError} :
    (x >>= f) s = .error err s' ↔
      x s = .error err s' ∨ ∃ a s₁, x s = .ok a s₁ ∧ f a s₁ = .error err s' := by
  show EStateM.bind x f s = .error err s' ↔ _
  unfold EStateM.bind
  cases x s with
  | ok a s₁ =>
    constructor
    · intro h
      exact Or.inr ⟨a, s₁, rfl, h⟩
    · rintro (h | ⟨_, _, hx, h⟩)
      · cases h
      · cases hx
        exact h
  | error e s₁ => simp

theorem unsupported_error {α : Type} {what : Unsupported} {s s' : State} {err : CompileError}
    (h : (unsupported what : Step α) s = .error err s') : err = .unsupported what := by
  cases h
  rfl

theorem literal_error {source : Option Node} {l : Literal} {s s' : State} {err : CompileError}
    (h : literal source l s = .error err s') : l = .unspecified ∧ err = .unsupported .void := by
  cases l with
  | unspecified => exact ⟨rfl, unsupported_error h⟩
  | _ => cases h

/-- A lambda with known captures that is met for the first time fails with its body, or because its
body gives a value. -/
theorem lift_error {node : Node} {name : Bytes} {params captured : List Bytes} {body : Step Fragment}
    {s s' : State} {err : CompileError} (hc : cs.captured? node = some captured)
    (h : lift cs node name params body s = .error err s') :
    ∃ s₁, body s₁ = .error err s' ∨
      ∃ b s₂, body s₁ = .ok b s₂ ∧ b.kind ≠ .thunk ∧ err = .unsupported .lambdaBody := by
  cases hmet : s.table.index? node with
  | some i =>
    rw [lift_met hmet] at h
    cases h
  | none =>
    rw [lift_new hmet, show capturedBy cs node = pure captured by rw [capturedBy, hc]] at h
    rcases bind_error.mp h with h | ⟨_, s₁, hcap, h⟩
    · cases h
    · cases hcap
      rcases bind_error.mp h with h | ⟨b, s₂, hb, h⟩
      · exact ⟨_, Or.inl h⟩
      · unfold complete at h
        by_cases hk : b.kind = .thunk
        · rw [if_pos hk] at h
          cases h
        · rw [if_neg hk] at h
          exact ⟨_, Or.inr ⟨b, s₂, hb, hk, unsupported_error h⟩⟩

/-- Making a closure cannot fail where the captures of the lambda are known. -/
theorem closure_ne_error {node : Node} {name : Bytes} {captured : List Bytes} {s s' : State}
    {err : CompileError} (hc : cs.captured? node = some captured) :
    ¬ closure cs node name s = .error err s' := by
  intro h
  rw [closure, capturedBy, hc] at h
  cases h

/-- An operator call fails only because there is no such call with so many operands. -/
theorem operate_error {node : Node} {ret : Ident} {name : Bytes} {fs : List Fragment} {s s' : State}
    {err : CompileError} (h : operate node ret name fs s = .error err s') :
    PrimCall.ofName? name (fs.map Fragment.value).dropLast = none ∧
      err = .unknownPrimitive name (fs.length - 1) := by
  unfold operate at h
  rcases bind_error.mp h with h | ⟨_, _, _, h⟩
  · cases h
  · cases hp : PrimCall.ofName? name (fs.map Fragment.value).dropLast with
    | some prim =>
      simp only [hp] at h
      cases h
    | none =>
      simp only [hp] at h
      cases h
      rw [List.length_map]
      exact ⟨rfl, rfl⟩

/-- Putting two arms together fails only if their kinds differ. -/
theorem choose_error {node : Node} {test a b : Fragment} {s s' : State} {err : CompileError}
    (h : choose node test a b s = .error err s') :
    a.kind ≠ b.kind ∧ err = .unsupported .mixedBranches := by
  unfold choose at h
  split at h
  · cases h
  · rename_i hk
    exact ⟨hk, unsupported_error h⟩

/-! ## The kind of what was lowered

Here a lambda may have been met before, so there need not be a derivation. -/

/-- The kind of the code can be told from the tree alone. -/
theorem lower_kind {node : Node} {e : Expr} {s s' : State} {f : Fragment}
    (h : lower cs node e s = .ok f s') : f.kind = e.kind := by
  induction e using Expr.induction generalizing node s s' f with
  | var x =>
    rw [lower] at h
    split at h
    · exact absurd h unsupported_ne_ok
    · cases h
      rfl
  | literal l =>
    rw [lower] at h
    obtain ⟨_, _, _, _, rfl⟩ := literal_ok h
    rfl
  | lambda name params body _ =>
    rw [lower] at h
    obtain ⟨_, _, _, h⟩ := bind_ok.mp h
    obtain ⟨captured, _, _, h⟩ := bind_ok.mp h
    cases h
    rfl
  | app callee args _ _ =>
    by_cases hvar : ∃ g, callee = .var g
    · obtain ⟨g, rfl⟩ := hvar
      rw [lower] at h
      split at h
      · split at h
        · exact absurd h unsupported_ne_ok
        · obtain ⟨_, _, _, h⟩ := bind_ok.mp h
          obtain ⟨_, _, _, h⟩ := bind_ok.mp h
          obtain ⟨_, _, _, rfl⟩ := operate_ok h
          rfl
      · obtain ⟨_, _, _, h⟩ := bind_ok.mp h
        obtain ⟨_, _, _, h⟩ := bind_ok.mp h
        cases h
        rfl
    · rw [lower] at h
      · exact absurd h unsupported_ne_ok
      · exact fun g hg => hvar ⟨g, hg⟩
  | cond test a b _ iha _ =>
    rw [lower] at h
    obtain ⟨_, _, _, h⟩ := bind_ok.mp h
    obtain ⟨_, _, ha, h⟩ := bind_ok.mp h
    obtain ⟨_, _, _, h⟩ := bind_ok.mp h
    obtain ⟨_, _, rfl⟩ := choose_ok h
    have hkind := iha ha
    exact hkind
  | letrec defs body _ ihb =>
    rw [lower] at h
    obtain ⟨_, _, _, h⟩ := bind_ok.mp h
    obtain ⟨_, _, hb, h⟩ := bind_ok.mp h
    cases h
    have hkind := ihb hb
    exact hkind
  | native uses code =>
    rw [lower] at h
    cases h
    rfl
  | _ =>
    rw [lower] at h
    exact absurd h unsupported_ne_ok

theorem lowerList_length {node : Node} {i : Nat} {es : List Expr} {s s' : State} {fs : List Fragment}
    (h : lowerList cs node i es s = .ok fs s') : fs.length = es.length := by
  induction es generalizing i s fs with
  | nil =>
    rw [lowerList] at h
    cases h
    rfl
  | cons e es ih =>
    rw [lowerList] at h
    obtain ⟨_, _, _, h⟩ := bind_ok.mp h
    obtain ⟨_, _, hs, h⟩ := bind_ok.mp h
    cases h
    rw [List.length_cons, List.length_cons, ih hs]

/-! ## Runs that fail -/

/-- If lowering the tree fails, then the tree has no kind and the error names one of its faults. -/
def Refused (cs : Captures) (node : Node) (e : Expr) : Prop :=
  ∀ s s' err, lower cs node e s = .error err s' →
    (∀ κ, ¬ e.HasKind κ) ∧ e.Rejects err

/-- If a list cannot be lowered, one of its members is refused, with the same error. -/
theorem lowerList_error {node : Node} {es : List Expr}
    (ih : ∀ e ∈ es, ∀ node, Known cs node e → Refused cs node e) {i : Nat} {s s' : State}
    {err : CompileError} (hk : KnownFrom cs node i es) (h : lowerList cs node i es s = .error err s') :
    ∃ (j : Nat) (a : Expr), es[j]? = some a ∧ (∀ κ, ¬ a.HasKind κ) ∧ a.Rejects err := by
  induction es generalizing i s with
  | nil =>
    rw [lowerList] at h
    cases h
  | cons e es ihs =>
    rw [lowerList] at h
    rcases bind_error.mp h with h | ⟨_, _, _, h⟩
    · exact ⟨0, e, rfl, ih e List.mem_cons_self _ hk.head _ _ _ h⟩
    · rcases bind_error.mp h with h | ⟨_, _, _, h⟩
      · obtain ⟨j, a, ha, hrest⟩ :=
          ihs (fun a ha => ih a (List.mem_cons_of_mem e ha)) hk.tail h
        exact ⟨j + 1, a, ha, hrest⟩
      · cases h

/-- Definitions fail because of one of them, or because one is an alias or a tail call. -/
theorem lowerDefs_error {node : Node} {ds : List (Bytes × Expr)}
    (ih : ∀ d ∈ ds, ∀ node, Known cs node d.2 → Refused cs node d.2) {i : Nat} {s s' : State}
    {err : CompileError} (hk : KnownFrom cs node i (ds.map Prod.snd))
    (h : lowerDefs cs node i ds s = .error err s') :
    (∃ pre post x y, ds = pre ++ (x, .var y) :: post ∧ y ∈ x :: post.map Prod.fst ∧
        err = .unsupported (.alias y)) ∨
      (∃ d ∈ ds, d.2.kind = .thunk ∧ err = .unsupported .tailCallDefinition) ∨
      ∃ (j : Nat) (a : Expr), (ds.map Prod.snd)[j]? = some a ∧ (∀ κ, ¬ a.HasKind κ) ∧
        a.Rejects err := by
  induction ds generalizing i s with
  | nil =>
    rw [lowerDefs] at h
    cases h
  | cons d ds ihs =>
    obtain ⟨x, e⟩ := d
    rw [lowerDefs] at h
    cases hy : alias? (x :: ds.map Prod.fst) e with
    | some y =>
      rw [hy] at h
      left
      cases e with
      | var z =>
        simp only [alias?, List.contains_iff_mem, Option.ite_none_right_eq_some,
          Option.some.injEq] at hy
        obtain ⟨hmem, rfl⟩ := hy
        exact ⟨[], ds, x, z, rfl, hmem, unsupported_error h⟩
      | _ => cases hy
    | none =>
      rw [hy] at h
      rcases bind_error.mp h with h | ⟨v, s₁, he, h⟩
      · exact Or.inr (Or.inr ⟨0, e, rfl, ih (x, e) List.mem_cons_self _ hk.head _ _ _ h⟩)
      · split at h
        · rename_i hthunk
          refine Or.inr (Or.inl ⟨(x, e), List.mem_cons_self, ?_, unsupported_error h⟩)
          exact (lower_kind he).symm.trans hthunk
        · rcases bind_error.mp h with h | ⟨_, _, _, h⟩
          · rcases ihs (fun a ha => ih a (List.mem_cons_of_mem _ ha)) hk.tail h with
              ⟨pre, post, z, y, rfl, hy, herr⟩ | ⟨d, hd, hthunk, herr⟩ | ⟨j, a, ha, hrest⟩
            · exact Or.inl ⟨(x, e) :: pre, post, z, y, rfl, hy, herr⟩
            · exact Or.inr (Or.inl ⟨d, List.mem_cons_of_mem _ hd, hthunk, herr⟩)
            · exact Or.inr (Or.inr ⟨j + 1, a, ha, hrest⟩)
          · cases h

theorem not_mem_of_noAliases {pre post : List (Bytes × Expr)} {x y : Bytes}
    (h : NoAliases (pre ++ (x, .var y) :: post)) : y ∉ x :: post.map Prod.fst := by
  intro hy
  rcases List.mem_cons.mp hy with rfl | hy
  · exact h.own (y, .var y) (List.mem_append_right _ List.mem_cons_self) rfl
  · obtain ⟨d, hd, rfl⟩ := List.mem_map.mp hy
    have hlater := (List.pairwise_append.mp h.ahead).2.1
    exact (List.pairwise_cons.mp hlater).1 d hd rfl

/-- An application of a name fails with an argument, or because an operator is called wrongly. -/
theorem app_var_error {node : Node} {f : Bytes} {args : List Expr}
    (hk : Known cs node (.app (.var f) args))
    (ih : ∀ a ∈ args, ∀ node, Known cs node a → Refused cs node a) :
    Refused cs node (.app (.var f) args) := by
  intro s s' err h
  have hargs : ∀ {s : State}, lowerList cs node 1 args s = .error err s' →
      (∀ κ, ¬ (Expr.app (.var f) args).HasKind κ) ∧ (Expr.app (.var f) args).Rejects err := by
    intro s h
    obtain ⟨j, a, ha, hno, hrej⟩ := lowerList_error ih hk.args h
    refine ⟨fun κ hkind => ?_, hrej.of_child (i := j + 1) ha⟩
    cases hkind with
    | call _ hs =>
      obtain ⟨hκ⟩ := hs a (List.mem_of_getElem? ha)
      exact hno _ hκ
    | operate _ hs _ =>
      obtain ⟨hκ⟩ := hs a (List.mem_of_getElem? ha)
      exact hno _ hκ
  rw [lower] at h
  split at h
  · rename_i hf
    obtain ⟨k, hcount⟩ := Option.ne_none_iff_exists'.mp (operandCount?_ne_none.mpr hf)
    split at h
    · rename_i hempty
      obtain rfl := List.isEmpty_iff.mp hempty
      rw [unsupported_error h]
      refine ⟨fun κ hkind => ?_, (Lacks.noContinuation (by rw [hcount]; simp)).rejects⟩
      cases hkind with
      | call hnone _ => rw [hnone] at hcount; cases hcount
      | operate _ _ hn => cases hn
    · rename_i hne
      rcases bind_error.mp h with h | ⟨_, _, _, h⟩
      · cases h
      · rcases bind_error.mp h with h | ⟨fs, _, hs, h⟩
        · exact hargs h
        · obtain ⟨hp, rfl⟩ := operate_error h
          have hlen : fs.length = args.length := lowerList_length hs
          have hpos : args.length ≠ 0 := by
            intro h0
            exact hne (List.isEmpty_iff.mpr (List.length_eq_zero_iff.mp h0))
          -- The operands are all values but the last, and they are too many or too few.
          have hwrong : fs.length - 1 ≠ k := by
            intro heq
            have hoperands : ((fs.map Fragment.value).dropLast).length = k := by
              rw [List.length_dropLast, List.length_map, heq]
            have hsome := (ofName?_isSome hcount).mpr hoperands
            rw [hp] at hsome
            cases hsome
          refine ⟨fun κ hkind => ?_, (Miscounts.intro hcount (by omega) hwrong).rejects⟩
          cases hkind with
          | call hnone _ => rw [hnone] at hcount; cases hcount
          | operate hsome _ hn =>
            cases hcount.symm.trans hsome
            omega
  · rcases bind_error.mp h with h | ⟨_, _, _, h⟩
    · cases h
    · rcases bind_error.mp h with h | ⟨_, _, _, h⟩
      · exact hargs h
      · cases h

/-- A failing run has met a fault of the tree. -/
theorem lower_error {node : Node} {e : Expr} (hk : Known cs node e) : Refused cs node e := by
  induction e using Expr.induction generalizing node with
  | var x =>
    intro s s' err h
    rw [lower] at h
    split at h
    · rename_i hx
      rw [unsupported_error h]
      refine ⟨fun κ hkind => ?_, (Lacks.operatorValue (operandCount?_ne_none.mpr hx)).rejects⟩
      cases hkind with
      | var hnone => exact operandCount?_ne_none.mpr hx hnone
    · cases h
  | literal l =>
    intro s s' err h
    rw [lower] at h
    obtain ⟨rfl, rfl⟩ := literal_error h
    refine ⟨fun κ hkind => ?_, Lacks.void.rejects⟩
    cases hkind
  | lambda name params body ih =>
    intro s s' err h
    rw [lower] at h
    have hcap : cs.captured? node = some (Names.without body.free params) := by
      rw [← hk [] name params body rfl, Node.descend_nil]
    rcases bind_error.mp h with h | ⟨_, _, _, h⟩
    · obtain ⟨s₁, h | ⟨b, s₂, hb, hvalue, rfl⟩⟩ := lift_error hcap h
      · obtain ⟨hno, hrej⟩ := ih (hk.child (i := 0) rfl) _ _ _ h
        refine ⟨fun κ hkind => ?_, hrej.of_child (i := 0) rfl⟩
        cases hkind with
        | lambda hbody => exact hno _ hbody
      · rw [lower_kind hb] at hvalue
        refine ⟨fun κ hkind => ?_, ?_⟩
        · cases hkind with
          | lambda hbody => exact hvalue hbody.kind_eq
        · cases hkind : body.kind with
          | value => exact (Lacks.lambdaBody hkind).rejects
          | thunk => exact absurd hkind hvalue
    · exact absurd h (closure_ne_error hcap)
  | app callee args _ ihs =>
    by_cases hvar : ∃ f, callee = .var f
    · obtain ⟨f, rfl⟩ := hvar
      exact app_var_error hk fun a ha node hknown => ihs a ha hknown
    · intro s s' err h
      have hcallee : ∀ f, callee ≠ .var f := fun f hf => hvar ⟨f, hf⟩
      rw [lower] at h
      · rw [unsupported_error h]
        refine ⟨fun κ hkind => ?_, (Lacks.callee hcallee).rejects⟩
        cases hkind with
        | call _ _ => exact hcallee _ rfl
        | operate _ _ _ => exact hcallee _ rfl
      · exact hcallee
  | cond test a b iht iha ihb =>
    intro s s' err h
    rw [lower] at h
    rcases bind_error.mp h with h | ⟨_, _, _, h⟩
    · obtain ⟨hno, hrej⟩ := iht (hk.child (i := 0) rfl) _ _ _ h
      refine ⟨fun κ hkind => ?_, hrej.of_child (i := 0) rfl⟩
      cases hkind with
      | cond ht _ _ =>
        obtain ⟨ht⟩ := ht
        exact hno _ ht
    · rcases bind_error.mp h with h | ⟨fa, _, ha, h⟩
      · obtain ⟨hno, hrej⟩ := iha (hk.child (i := 1) rfl) _ _ _ h
        refine ⟨fun κ hkind => ?_, hrej.of_child (i := 1) rfl⟩
        cases hkind with
        | cond _ ha _ => exact hno _ ha
      · rcases bind_error.mp h with h | ⟨fb, _, hb, h⟩
        · obtain ⟨hno, hrej⟩ := ihb (hk.child (i := 2) rfl) _ _ _ h
          refine ⟨fun κ hkind => ?_, hrej.of_child (i := 2) rfl⟩
          cases hkind with
          | cond _ _ hb => exact hno _ hb
        · obtain ⟨hmixed, rfl⟩ := choose_error h
          rw [lower_kind ha, lower_kind hb] at hmixed
          refine ⟨fun κ hkind => ?_, (Lacks.mixedBranches hmixed).rejects⟩
          cases hkind with
          | cond _ ha hb => exact hmixed (ha.kind_eq.trans hb.kind_eq.symm)
  | letrec defs body ihs ihb =>
    intro s s' err h
    rw [lower] at h
    rcases bind_error.mp h with h | ⟨_, _, _, h⟩
    · rcases lowerDefs_error (fun d hd node hknown => ihs d hd hknown) hk.defs h with
        ⟨pre, post, x, y, rfl, hy, rfl⟩ | ⟨d, hd, hthunk, rfl⟩ | ⟨j, a, ha, hno, hrej⟩
      · refine ⟨fun κ hkind => ?_, (Lacks.alias hy).rejects⟩
        cases hkind with
        | letrec _ hn _ => exact not_mem_of_noAliases hn hy
      · refine ⟨fun κ hkind => ?_, (Lacks.tailCallDefinition hd hthunk).rejects⟩
        cases hkind with
        | letrec hds _ _ =>
          have hvalue := (hds d hd).kind_eq
          rw [hthunk] at hvalue
          cases hvalue
      · refine ⟨fun κ hkind => ?_, hrej.of_child (child?_def ha)⟩
        cases hkind with
        | letrec hds _ _ =>
          obtain ⟨d, hd, rfl⟩ := List.mem_map.mp (List.mem_of_getElem? ha)
          exact hno _ (hds d hd)
    · rcases bind_error.mp h with h | ⟨_, _, _, h⟩
      · obtain ⟨hno, hrej⟩ := ihb (hk.child (i := 0) rfl) _ _ _ h
        refine ⟨fun κ hkind => ?_, hrej.of_child (i := 0) rfl⟩
        cases hkind with
        | letrec _ _ hb => exact hno _ hb
      · cases h
  | seq exprs _ =>
    intro s s' err h
    rw [lower] at h
    rw [unsupported_error h]
    refine ⟨fun κ hkind => ?_, (Lacks.sequence exprs).rejects⟩
    cases hkind
  | assign x value _ =>
    intro s s' err h
    rw [lower] at h
    rw [unsupported_error h]
    refine ⟨fun κ hkind => ?_, (Lacks.assignment x value).rejects⟩
    cases hkind
  | assignThen x value next _ _ =>
    intro s s' err h
    rw [lower] at h
    rw [unsupported_error h]
    refine ⟨fun κ hkind => ?_, (Lacks.chainedAssignment x value next).rejects⟩
    cases hkind
  | native uses code =>
    intro s s' err h
    rw [lower] at h
    cases h

end Lowering

/-! ## Whole trees -/

/-- A tree with code has the kind of its code. -/
theorem Build.lower_hasKind {e : Expr} {next : Nat} {f : Fragment} {s : Lowering.State}
    (h : Build.lower e next = .ok f s) : e.HasKind f.kind := by
  obtain ⟨A, hL, _⟩ := Build.lower_ok h
  exact hL.hasKind

/-- A tree without code has no kind, and the error names something that is wrong with it. -/
theorem Build.lower_rejects {e : Expr} {next : Nat} {err : CompileError} {s : Lowering.State}
    (h : Build.lower e next = .error err s) : (∀ κ, ¬ e.HasKind κ) ∧ e.Rejects err :=
  Lowering.lower_error (Lowering.known_captures e) _ _ _ h

/-- A tree that has a kind has code, which is of this kind. -/
theorem Build.lower_of_hasKind {e : Expr} {κ : Kind} (next : Nat) (h : e.HasKind κ) :
    ∃ f s, Build.lower e next = .ok f s ∧ f.kind = κ := by
  cases hlower : Build.lower e next with
  | ok f s => exact ⟨f, s, rfl, (Build.lower_hasKind hlower).kind_eq.symm.trans h.kind_eq⟩
  | error err s => exact absurd h ((Build.lower_rejects hlower).1 κ)

/-- A program is refused because its tree is, or because the tree is no tail call. -/
theorem Build.program_error {e : Expr} {next next' : Nat} {err : CompileError}
    (h : Build.program e next = (.error err, next')) :
    ¬ e.HasKind .thunk ∧
      (e.Rejects err ∨ e.HasKind .value ∧ err = .unsupported .valueProgram) := by
  unfold Build.program at h
  cases hlower : Build.lower e next with
  | error err' s =>
    rw [hlower] at h
    cases h
    obtain ⟨hno, hrej⟩ := Build.lower_rejects hlower
    exact ⟨hno .thunk, Or.inl hrej⟩
  | ok f s =>
    rw [hlower] at h
    have hkind := Build.lower_hasKind hlower
    cases hk : f.kind with
    | thunk =>
      simp only [hk, if_true] at h
      cases h
    | value =>
      simp only [hk, reduceCtorEq, if_false] at h
      cases h
      rw [hk] at hkind
      refine ⟨fun hthunk => ?_, Or.inr ⟨hkind, rfl⟩⟩
      cases hkind.kind_eq.symm.trans hthunk.kind_eq

/-- The root of a program is a tail call. -/
theorem Build.program_hasKind {e : Expr} {next next' : Nat} {p : Program}
    (h : Build.program e next = (.ok p, next')) : e.HasKind .thunk := by
  unfold Build.program at h
  cases hlower : Build.lower e next with
  | error err s =>
    rw [hlower] at h
    cases h
  | ok f s =>
    rw [hlower] at h
    dsimp only at h
    split at h
    · rename_i hk
      exact hk ▸ Build.lower_hasKind hlower
    · cases h

/-- **Exact acceptance.** Lowering a tree succeeds with a kind exactly if the tree has that kind. If the
tree has none, lowering fails: either some node of the tree is a construct without code, and the error
says which, or some node calls an operator with a number of operands that it does not take. A program
is built exactly from a tail call; a tree that has code but is a value is refused for that reason. -/
theorem lower_ok_iff_hasKind (e : Expr) (next : Nat) :
    (∀ κ, (∃ f s, Build.lower e next = .ok f s ∧ f.kind = κ) ↔ e.HasKind κ) ∧
    ((∀ κ, ¬ e.HasKind κ) → ∃ err s, Build.lower e next = .error err s ∧ e.Rejects err) ∧
    ((∃ p next', Build.program e next = (.ok p, next')) ↔ e.HasKind .thunk) ∧
    (¬ e.HasKind .thunk → ∃ err next', Build.program e next = (.error err, next') ∧
      (e.Rejects err ∨ e.HasKind .value ∧ err = .unsupported .valueProgram)) := by
  refine ⟨fun κ => ⟨?_, Build.lower_of_hasKind next⟩, fun hno => ?_, ⟨?_, fun h => ?_⟩, fun hno => ?_⟩
  · rintro ⟨f, s, h, rfl⟩
    exact Build.lower_hasKind h
  · cases h : Build.lower e next with
    | ok f s => exact absurd (Build.lower_hasKind h) (hno f.kind)
    | error err s => exact ⟨err, s, rfl, (Build.lower_rejects h).2⟩
  · rintro ⟨p, next', h⟩
    exact Build.program_hasKind h
  · rcases hp : Build.program e next with ⟨err | p, next'⟩
    · exact absurd h (Build.program_error hp).1
    · exact ⟨p, next', rfl⟩
  · rcases hp : Build.program e next with ⟨err | p, next'⟩
    · exact ⟨err, next', rfl, (Build.program_error hp).2⟩
    · exact absurd (Build.program_hasKind hp) hno

/-- An addition of one operand: `(+ 1 k)`. -/
def loneOperand : Expr := .app (.var (ascii "+")) [.literal (.integer 1), .var [107]]

/-- The loop of `countdown` is a program. An addition of one operand is none, and it is the operator that
is blamed. -/
theorem lower_ok_iff_hasKind_loneOperand :
    countdown.HasKind .thunk ∧ (∀ κ, ¬ loneOperand.HasKind κ) ∧
      ∃ err s, Build.lower loneOperand 0 = .error err s ∧ loneOperand.Rejects err ∧
        err = .unknownPrimitive (ascii "+") 1 := by
  have hbuilt : ((Build.program countdown 0).1.toOption.map fun p => p.root.kind) = some .thunk := by
    decide +kernel
  obtain ⟨p, next', hp, _⟩ := Build.exists_ok hbuilt
  have hno : ∀ κ, ¬ loneOperand.HasKind κ := by
    intro κ h
    cases h with
    | call hf _ => cases hf
    | operate hf _ hn =>
      cases hf
      cases hn
  obtain ⟨err, s, h, hrej⟩ := (lower_ok_iff_hasKind loneOperand 0).2.1 hno
  refine ⟨(lower_ok_iff_hasKind countdown 0).2.2.1.mp ⟨p, next', hp⟩, hno, err, s, h, hrej, ?_⟩
  cases h
  rfl

end Trampoline

import Trampoline.Expr.Capture
import Trampoline.Proofs.Store

/-!
# Trampoline.Proofs.Source -- what a tree does when it runs

A tree is evaluated in an environment that gives every name a slot. Evaluation never calls anything:
the result is a slot, or a call that is yet to be made. A program runs by making one call after
another, each of which evaluates the body of a lambda up to the next call. So evaluation is by
recursion on the tree, and only the number of calls has no bound.

A lambda captures the slots of its free names, not what they hold, and a `letrec` fills slots that
are already there. This is how a definition can refer to a later one.
-/

namespace Trampoline.Source

/-- The slots of names, the innermost binding first. -/
abbrev Env := List (Bytes × Nat)

/-- A lambda with the slots of its free names. -/
structure Closure where
  params : List Bytes
  body : Expr
  env : Env

abbrev Slots := Store Closure

/-- What a tree evaluates to. -/
inductive Value where
  | slot (i : Nat)
  /-- a call that is yet to be made -/
  | call (c : Closure) (args : List Nat)

/-- The slot of a result that must not be a call. -/
def Value.asSlot : Value → Outcome Nat
  | .slot i => .ok i
  | .call _ _ => .error .stuck

/-- The slots of names, with the names. -/
def Env.capture (ρ : Env) : List Bytes → Outcome Env
  | [] => pure []
  | x :: xs => do
    let i ← need (ρ.lookup x)
    let env ← capture ρ xs
    pure ((x, i) :: env)

/-- Fresh bindings of names to the slots from a position on. -/
def Env.fresh (xs : List Bytes) (i : Nat) : Env := xs.zip (List.range' i xs.length)

/-- The content of a constant. -/
def constant : Literal → Outcome (Content Closure)
  | .integer n => pure (.number n)
  | .boolean b => pure (.truth b)
  | .string s => pure (.string s)
  | .unspecified => .error .stuck

/-- The contents of slots. -/
def Slots.getAll (σ : Slots) : List Nat → Outcome (List (Content Closure))
  | [] => pure []
  | i :: is => do
    let c ← σ.get i
    let cs ← getAll σ is
    pure (c :: cs)

mutual

/-- Evaluates a tree. -/
def eval (ov : Overflow) (ρ : Env) : Expr → Slots → Outcome (Value × Slots)
  | .var x, σ => do
    let i ← need (ρ.lookup x)
    pure (.slot i, σ)
  | .literal l, σ => do
    let c ← constant l
    pure (.slot σ.length, σ ++ [c])
  | .lambda _ params body, σ => do
    let env ← ρ.capture (Names.without body.free params)
    pure (.slot σ.length, σ ++ [.closure ⟨params, body, env⟩])
  | .app (.var f) args, σ => do
    let (slots, σ) ← evalList ov ρ args σ
    match Primitive.ofName? f with
    | none => do
      let i ← need (ρ.lookup f)
      let callee ← σ.get i
      let c ← callee.lam
      pure (.call c slots, σ)
    | some p => do
      -- The last argument is the continuation, which is called with the result.
      let k ← need slots.getLast?
      let operands ← σ.getAll slots.dropLast
      let r ← p.compute ov operands
      let σ' := σ ++ [r]
      let callee ← Store.get σ' k
      let c ← callee.lam
      pure (.call c [σ.length], σ')
  | .app _ _, _ => .error .stuck
  | .cond test a b, σ => do
    let (v, σ) ← eval ov ρ test σ
    let i ← v.asSlot
    let c ← σ.get i
    let n ← c.num
    if n = 0 then eval ov ρ b σ else eval ov ρ a σ
  | .letrec defs body, σ => do
    let ρ' := Env.fresh (defs.map Prod.fst) σ.length ++ ρ
    let σ ← evalDefs ov ρ' defs (σ ++ defs.map fun _ => .number 0)
    eval ov ρ' body σ
  | .seq _, _ => .error .stuck
  | .assign _ _, _ => .error .stuck
  | .assignThen _ _ _, _ => .error .stuck
  | .native _ code, σ =>
    match code.code with
    | [.halt (.named p)] => do
      let i ← need (ρ.lookup p)
      let c ← σ.get i
      .error (.ended (.printed c.printed))
    | _ => .error .stuck

/-- Evaluates trees from left to right, none of which may be a call. -/
def evalList (ov : Overflow) (ρ : Env) : List Expr → Slots → Outcome (List Nat × Slots)
  | [], σ => pure ([], σ)
  | e :: es, σ => do
    let (v, σ) ← eval ov ρ e σ
    let i ← v.asSlot
    let (is, σ) ← evalList ov ρ es σ
    pure (i :: is, σ)

/-- Evaluates definitions in order and fills the slots of their names. -/
def evalDefs (ov : Overflow) (ρ : Env) : List (Bytes × Expr) → Slots → Outcome Slots
  | [], σ => pure σ
  | (x, e) :: ds, σ => do
    let (v, σ) ← eval ov ρ e σ
    let i ← v.asSlot
    let c ← σ.get i
    let j ← need (ρ.lookup x)
    evalDefs ov ρ ds (σ.set j c)

end

/-! ## Runs -/

/-- A program between two calls: the call that is made next, and the slots. -/
structure State where
  closure : Closure
  args : List Nat
  slots : Slots

/-- A program must go on with a call. -/
def Value.toState (v : Value) (σ : Slots) : Outcome State :=
  match v with
  | .call c args => .ok ⟨c, args, σ⟩
  | .slot _ => .error .stuck

/-- Evaluates a tree up to the next call. -/
def proceed (ov : Overflow) (ρ : Env) (e : Expr) (σ : Slots) : Outcome State := do
  let (v, σ) ← eval ov ρ e σ
  v.toState σ

/-- Makes the next call. -/
def step (ov : Overflow) (s : State) : Outcome State :=
  if s.args.length = s.closure.params.length then
    proceed ov (s.closure.params.zip s.args ++ s.closure.env) s.closure.body s.slots
  else .error (.ended (.wrongArity s.closure.params.length s.args.length))

/-- A program after a number of calls. -/
def run (ov : Overflow) (e : Expr) : Nat → Outcome State
  | 0 => proceed ov [] e []
  | n + 1 => do
    let s ← run ov e n
    step ov s

end Trampoline.Source

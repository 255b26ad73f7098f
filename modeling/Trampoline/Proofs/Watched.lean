import Trampoline.Session
import Trampoline.Proofs.Derivation

/-!
# Trampoline.Proofs.Watched -- lowering that takes notes

Lowering hands lambdas over to be lifted, some of them more than once and some without success. Which ones
it handed over cannot be seen in the class table. `Watched` steps are lowering steps that also take notes
of this. They follow lowering step by step, and `erase_lower` says that the notes change nothing: without
them, a watched run has the outcome and the state of the run itself, whether it succeeds or fails.
-/

namespace Trampoline

/-! ## Steps with notes -/

/-- The state in which a step ends, whether it succeeds or fails. -/
def Lowering.after {α : Type} : EStateM.Result CompileError Lowering.State α → Lowering.State
  | .ok _ s => s
  | .error _ s => s

/-- Whether a step has succeeded. -/
def Lowering.succeeds {α : Type} : EStateM.Result CompileError Lowering.State α → Bool
  | .ok _ _ => true
  | .error _ _ => false

/-- A lambda that was handed over to be lifted, and whether that succeeded. -/
structure Call where
  node : Node
  succeeded : Bool
  deriving DecidableEq

/-- Lowering steps that also tell which lambdas they handed over, in the order in which they were done
with them. -/
def Watched (α : Type) : Type :=
  Lowering.State → EStateM.Result CompileError Lowering.State α × List Call

namespace Watched

variable {α β : Type}

/-- A step that hands nothing over. -/
def quiet (x : Lowering.Step α) : Watched α := fun s => (x s, [])

def bind (x : Watched α) (f : α → Watched β) : Watched β := fun s =>
  match x s with
  | (.ok a s, calls) => ((f a s).1, calls ++ (f a s).2)
  | (.error e s, calls) => (.error e s, calls)

instance : Monad Watched where
  pure a := quiet (pure a)
  bind := bind

/-- Notes that a lambda was handed over to a step, and what became of it. -/
def noting (node : Node) (x : Watched α) : Watched α := fun s =>
  ((x s).1, (x s).2 ++ [⟨node, Lowering.succeeds (x s).1⟩])

/-- Lifting, with a note. -/
def lift (cs : Captures) (node : Node) (name : Bytes) (params : List Bytes) (body : Watched Fragment) :
    Watched Bytes :=
  noting node do
    let s ← quiet get
    match s.table.index? node with
    | some i => quiet (pure (s.table.nameAt i))
    | none =>
      quiet (set { s with table := s.table.enter node name params.length })
      let captured ← quiet (Lowering.capturedBy cs node)
      let b ← body
      quiet (Lowering.complete s.table.size captured params b)

open Lowering (draw operate call choose alias? unsupported closure)

mutual

/-- Lowering, with notes of the lambdas that are handed over. -/
def lower (cs : Captures) (node : Node) : Expr → Watched Fragment
  | .lambda name params body => do
    let cls ← lift cs node name params (lower cs (node.child 0) body)
    quiet (closure cs node cls)
  | .app (.var f) args =>
    if Primitive.isName f then
      if args.isEmpty then quiet (unsupported .noContinuation)
      else do
        let ret ← quiet (draw .ret)
        let vals ← lowerList cs node 1 args
        quiet (operate node ret f vals)
    else do
      let ret ← quiet (draw .ret)
      let vals ← lowerList cs node 1 args
      quiet (call node ret f vals)
  | .cond test a b => do
    let test ← lower cs (node.child 0) test
    let a ← lower cs (node.child 1) a
    let b ← lower cs (node.child 2) b
    quiet (choose node test a b)
  | .letrec defs body => do
    let code ← lowerDefs cs node 1 defs
    let b ← lower cs (node.child 0) body
    quiet (pure ⟨some node, b.value, b.kind, defs.map (fun d => .slot (.named d.1)) ++ code ++ b.code⟩)
  -- What is left lowers no children.
  | e => quiet (Lowering.lower cs node e)

def lowerList (cs : Captures) (node : Node) (i : Nat) : List Expr → Watched (List Fragment)
  | [] => quiet (pure [])
  | e :: es => do
    let f ← lower cs (node.child i) e
    let fs ← lowerList cs node (i + 1) es
    quiet (pure (f :: fs))

def lowerDefs (cs : Captures) (node : Node) (i : Nat) : List (Bytes × Expr) → Watched (List Instr)
  | [] => quiet (pure [])
  | (x, e) :: ds => do
    match alias? (x :: ds.map Prod.fst) e with
    | some y => quiet (unsupported (.alias y))
    | none =>
      let v ← lower cs (node.child i) e
      if v.kind = .thunk then quiet (unsupported .tailCallDefinition)
      else
        let rest ← lowerDefs cs node (i + 1) ds
        quiet (pure (v.code ++ [.copy (.named x) v.value] ++ rest))

end

/-- Lifting of a tree that is a lambda, with notes. -/
def liftRoot (cs : Captures) (node : Node) : Expr → Watched (Option Bytes)
  | .lambda name params body => do
    let cls ← lift cs node name params (lower cs (node.child 0) body)
    quiet (pure (some (Name.ofClass cls)))
  | _ => quiet (pure none)

/-! ### The notes change nothing -/

/-- A watched step without the notes. -/
def erase (x : Watched α) : Lowering.Step α := fun s => (x s).1

@[simp]
theorem erase_quiet (x : Lowering.Step α) : erase (quiet x) = x := rfl

@[simp]
theorem erase_noting (node : Node) (x : Watched α) : erase (noting node x) = erase x := rfl

@[simp]
theorem erase_bind (x : Watched α) (f : α → Watched β) :
    erase (x >>= f) = erase x >>= fun a => erase (f a) := by
  funext s
  show (bind x f s).1 = EStateM.bind (erase x) (fun a => erase (f a)) s
  unfold bind EStateM.bind erase
  rcases x s with ⟨_ | _, _⟩ <;> rfl

@[simp]
theorem erase_ite {c : Prop} [Decidable c] (x y : Watched α) :
    erase (if c then x else y) = if c then erase x else erase y := by
  split <;> rfl

/-- Without what was noted, lifting is as before. -/
theorem erase_lift (cs : Captures) (node : Node) (name : Bytes) (params : List Bytes)
    (body : Watched Fragment) :
    erase (lift cs node name params body) = Lowering.lift cs node name params (erase body) := by
  simp only [lift, Lowering.lift, erase_noting, erase_bind, erase_quiet]
  congr 1
  funext s
  cases s.table.index? node <;> simp

/-- So is lowering a list. -/
theorem erase_lowerList {cs : Captures} {node : Node} {es : List Expr}
    (ih : ∀ e ∈ es, ∀ node, erase (lower cs node e) = Lowering.lower cs node e) (i : Nat) :
    erase (lowerList cs node i es) = Lowering.lowerList cs node i es := by
  induction es generalizing i with
  | nil => rw [lowerList, Lowering.lowerList, erase_quiet]
  | cons e es ihs =>
    obtain ⟨ihe, ihes⟩ := List.forall_mem_cons.mp ih
    simp [lowerList, Lowering.lowerList, ihe, ihs ihes]

theorem erase_lowerDefs {cs : Captures} {node : Node} {ds : List (Bytes × Expr)}
    (ih : ∀ d ∈ ds, ∀ node, erase (lower cs node d.2) = Lowering.lower cs node d.2) (i : Nat) :
    erase (lowerDefs cs node i ds) = Lowering.lowerDefs cs node i ds := by
  induction ds generalizing i with
  | nil => rw [lowerDefs, Lowering.lowerDefs, erase_quiet]
  | cons d ds ihs =>
    obtain ⟨x, e⟩ := d
    obtain ⟨ihe, ihes⟩ := List.forall_mem_cons.mp ih
    rw [lowerDefs, Lowering.lowerDefs]
    cases alias? (x :: ds.map Prod.fst) e with
    | some y => rfl
    | none => simp [ihe, ihs ihes]

/-- The notes change nothing: a watched run has the outcome and the state of the run itself. -/
theorem erase_lower (cs : Captures) (node : Node) (e : Expr) :
    erase (lower cs node e) = Lowering.lower cs node e := by
  induction e using Expr.induction generalizing node with
  | lambda name params body ih => simp [lower, Lowering.lower, erase_lift, ih]
  | app callee args _ ihs =>
    cases callee with
    | var f => simp [lower, Lowering.lower, erase_lowerList ihs]
    | _ => simp [lower, Lowering.lower]
  | cond test a b iht iha ihb => simp [lower, Lowering.lower, iht, iha, ihb]
  | letrec defs body ihs ihb => simp [lower, Lowering.lower, erase_lowerDefs ihs, ihb]
  | _ => simp [lower]

theorem erase_liftRoot (cs : Captures) (node : Node) (e : Expr) :
    erase (liftRoot cs node e) = Lowering.liftRoot cs node e := by
  cases e with
  | lambda name params body => simp [liftRoot, Lowering.liftRoot, erase_lift, erase_lower]
  | _ => rfl

/-! ### Watched runs -/

/-- Calls are noted one after the other. -/
theorem bind_run_ok {x : Watched α} {f : α → Watched β} {s s' : Lowering.State} {a : α}
    {calls : List Call} (h : x s = (.ok a s', calls)) : (x >>= f) s = ((f a s').1, calls ++ (f a s').2) := by
  show Watched.bind x f s = _
  rw [Watched.bind, h]

theorem bind_run_error {x : Watched α} {f : α → Watched β} {s s' : Lowering.State} {err : CompileError}
    {calls : List Call} (h : x s = (.error err s', calls)) : (x >>= f) s = (.error err s', calls) := by
  show Watched.bind x f s = _
  rw [Watched.bind, h]

theorem bind_quiet_ok {x : Lowering.Step α} {f : α → Watched β} {s s' : Lowering.State} {a : α}
    (h : x s = .ok a s') : (quiet x >>= f) s = f a s' := by
  have hquiet : quiet x s = (.ok a s', []) := by rw [quiet, h]
  rw [bind_run_ok hquiet]
  rfl

section

variable {cs : Captures} {node : Node} {name : Bytes} {params : List Bytes} {body : Watched Fragment}
  {s : Lowering.State}

/-- A lambda that has an index is handed over in vain. -/
theorem lift_met {i : Nat} (h : s.table.index? node = some i) :
    lift cs node name params body s = (.ok (s.table.nameAt i) s, [⟨node, true⟩]) := by
  rw [lift, noting, bind_quiet_ok (x := get) rfl, h]
  rfl

/-- A lambda that is new is entered, and what comes of it depends on its captures and its body. -/
theorem lift_new (h : s.table.index? node = none) :
    lift cs node name params body s =
      match cs.captured? node with
      | none =>
        (.error (.internal .unknownCaptures) { s with table := s.table.enter node name params.length },
          [⟨node, false⟩])
      | some captured =>
        match body { s with table := s.table.enter node name params.length } with
        | (.error err s', calls) => (.error err s', calls ++ [⟨node, false⟩])
        | (.ok b s', calls) =>
          (Lowering.complete s.table.size captured params b s',
            calls ++ [⟨node, decide (b.kind = .thunk)⟩]) := by
  rw [lift, noting, bind_quiet_ok (x := get) rfl, h]
  dsimp only
  rw [bind_quiet_ok (x := set _) rfl]
  cases hc : cs.captured? node with
  | none =>
    rw [bind_run_error (by rw [quiet, Lowering.capturedBy, hc]; rfl)]
    rfl
  | some captured =>
    rw [bind_quiet_ok (x := Lowering.capturedBy cs node) (by rw [Lowering.capturedBy, hc]; rfl)]
    rcases hb : body { s with table := s.table.enter node name params.length } with
      ⟨⟨b, s'⟩ | ⟨err, s'⟩, calls⟩
    · rw [bind_run_ok hb]
      show (_, (calls ++ []) ++ [_]) = _
      rw [List.append_nil]
      by_cases hk : b.kind = .thunk <;> simp [quiet, Lowering.complete, hk] <;> rfl
    · rw [bind_run_error hb]
      rfl

end

end Watched

end Trampoline

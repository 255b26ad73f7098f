import Trampoline.Program
import Trampoline.Proofs.Store
import Trampoline.Proofs.Variables

/-!
# Trampoline.Proofs.Emitted -- what emitted code does when it runs

A block first makes all variables that its pairs declare and then performs their operations in order.
A variable refers to a slot, or holds a thunk; a slot that is declared with a value of its own is a
new one and holds the number zero. The arms of a conditional are blocks inside the block around them:
what they declare hides what has the same name outside, until the arm ends. Declaring a variable twice
in one block has no meaning, nor has a local variable with the name of a parameter.

An object is made from the name of its lambda and the slots that the lambda captures. To run a thunk
is to call the operator of its object's class, if the numbers of parameters and arguments agree and
the base class has an operator for that number. The main function runs thunks until there is none.
-/

namespace Trampoline

namespace ClassTable

/-- The class of a lambda, by the lambda's name. -/
def classOf? (t : ClassTable) (lambda : Bytes) : Option Closure :=
  (t.defs.find? fun d => d.name == lambda).bind ClassDef.closure

end ClassTable

namespace Emitted

/-- An object of a lambda's class. -/
structure Object where
  lambda : Bytes
  fields : List Nat

/-- A call that is yet to be made. -/
structure Thunk where
  object : Object
  args : List Nat

abbrev Slots := Store Object

/-- What a variable is: a reference to a slot, a thunk, or an exit status. References and thunks are
empty until they are assigned, and a thunk is empty again after it was moved. -/
inductive Cell where
  | slot (i : Option Nat)
  | thunk (t : Option Thunk)
  | status

/-- The variables that are visible. -/
abbrev Frame := Ident → Option Cell

namespace Frame

def empty : Frame := fun _ => none

/-- Sets a variable. -/
def set (φ : Frame) (x : Ident) (c : Cell) : Frame := fun y => if y = x then some c else φ y

/-- The variables of source names, which refer to slots. -/
def ofNames (xs : List (Bytes × Nat)) : Frame
  | .named x => (xs.lookup x).map fun i => .slot (some i)
  | _ => none

@[simp]
theorem set_self (φ : Frame) (x : Ident) (c : Cell) : φ.set x c x = some c := if_pos rfl

theorem set_of_ne (φ : Frame) {x y : Ident} (c : Cell) (h : y ≠ x) : φ.set x c y = φ y := if_neg h

end Frame

/-- A running function: its variables, and all slots. -/
structure State where
  frame : Frame
  slots : Slots

namespace State

/-- The slot to which a variable refers. -/
def ref (s : State) (x : Ident) : Outcome Nat :=
  match s.frame x with
  | some (.slot (some i)) => .ok i
  | _ => .error .stuck

/-- The slots to which variables refer. -/
def refs (s : State) : List Ident → Outcome (List Nat)
  | [] => pure []
  | x :: xs => do
    let i ← s.ref x
    let is ← refs s xs
    pure (i :: is)

/-- The content of a variable's slot. -/
def load (s : State) (x : Ident) : Outcome (Content Object) := do
  let i ← s.ref x
  s.slots.get i

/-- Puts a content into a variable's slot. -/
def fill (s : State) (x : Ident) (c : Content Object) : Outcome State := do
  let i ← s.ref x
  pure { s with slots := s.slots.set i c }

/-- Assigns a thunk. -/
def make (s : State) (x : Ident) (t : Thunk) : Outcome State :=
  match s.frame x with
  | some (.thunk _) => pure { s with frame := s.frame.set x (.thunk (some t)) }
  | _ => .error .stuck

/-- Hands a result over to a variable: a reference is copied and a thunk is moved. -/
def hand (s : State) (kind : Kind) (dst value : Ident) : Outcome State :=
  match kind, s.frame dst, s.frame value with
  | .value, some (.slot _), some (.slot i) => pure { s with frame := s.frame.set dst (.slot i) }
  | .thunk, some (.thunk _), some (.thunk t) =>
    pure { s with frame := (s.frame.set value (.thunk none)).set dst (.thunk t) }
  | _, _, _ => .error .stuck

/-- The thunk that a function returns, with the slots it leaves behind. -/
def result (s : State) (value : Ident) : Outcome (Option Thunk × Slots) :=
  match s.frame value with
  | some (.thunk t) => pure (t, s.slots)
  | _ => .error .stuck

/-! ## Blocks -/

/-- Makes the variable that a pair declares. -/
def declare (s : State) : Instr → State
  | .put dst _ => ⟨s.frame.set dst (.slot (some s.slots.length)), s.slots ++ [.number 0]⟩
  | .call dst _ _ => { s with frame := s.frame.set dst (.thunk none) }
  | .branch dst .value _ _ _ _ _ => { s with frame := s.frame.set dst (.slot none) }
  | .branch dst .thunk _ _ _ _ _ => { s with frame := s.frame.set dst (.thunk none) }
  | .slot dst => ⟨s.frame.set dst (.slot (some s.slots.length)), s.slots ++ [.number 0]⟩
  | .copy _ _ => s
  | .halt _ => { s with frame := s.frame.set exitStatus .status }
  | .verbatim _ _ => s

def declareAll (s : State) (code : List Instr) : State := code.foldl declare s

end State

/-- The variables that a block declares. -/
def declared (code : List Instr) : List Ident := (Instr.declaresAll code).map Prod.fst

namespace State

/-- Starts a block in which some variables are already taken. -/
def enter (s : State) (taken : List Ident) (code : List Instr) : Outcome State :=
  if (taken ++ declared code).Nodup then .ok (s.declareAll code) else .error .stuck

/-- Ends a block: its variables are gone, and what they hid is visible again. -/
def leave (s outer : State) (code : List Instr) : State :=
  { s with frame := fun y => if y ∈ declared code then outer.frame y else s.frame y }

end State

/-! ## Operations -/

section

variable (T : ClassTable) (ov : Overflow)

/-- The content that is built for a slot. An object is built from as many slots as its class has
fields. -/
def content (s : State) : Payload → Outcome (Content Object)
  | .number n => pure (.number n)
  | .boolean b => pure (.truth b)
  | .string t => pure (.string t)
  | .closure lambda captured => do
    let clo ← need (T.classOf? lambda)
    let fields ← s.refs captured
    if fields.length = clo.captured.length then pure (.closure ⟨lambda, fields⟩)
    else .error .stuck
  | .primitive (.unary p a) => do
    let c ← s.load a
    p.compute c
  | .primitive (.binary p a b) => do
    let c ← s.load a
    let d ← s.load b
    p.compute ov c d

mutual

/-- Performs the operation of a pair. -/
def exec : Instr → State → Outcome State
  | .put dst p, s => do
    let c ← content T ov s p
    s.fill dst c
  | .call dst callee args, s => do
    let is ← s.refs args
    let c ← s.load callee
    let o ← c.lam
    s.make dst ⟨o, is⟩
  | .branch dst kind test a av b bv, s => do
    let c ← s.load test
    let n ← c.num
    if n = 0 then do
      let t ← s.enter [] b
      let t ← execAll b t
      let t ← t.hand kind dst bv
      pure (t.leave s b)
    else do
      let t ← s.enter [] a
      let t ← execAll a t
      let t ← t.hand kind dst av
      pure (t.leave s a)
  | .slot _, s => pure s
  | .copy dst src, s => do
    let c ← s.load src
    s.fill dst c
  | .halt arg, s => do
    let c ← s.load arg
    .error (.ended (.printed c.printed))
  | .verbatim _ _, _ => .error .stuck

/-- Performs the operations of pairs in order. -/
def execAll : List Instr → State → Outcome State
  | [], s => pure s
  | i :: is, s => do
    let s ← exec i s
    execAll is s

end

/-! ## Calls and runs -/

/-- Runs the code of a function: `taken` are its parameters, and `φ` has them and what else is visible
in it. -/
def runBody (taken : List Ident) (φ : Frame) (body : Fragment) (slots : Slots) :
    Outcome (Option Thunk × Slots) := do
  let s ← State.enter ⟨φ, slots⟩ taken body.code
  let s ← execAll T ov body.code s
  s.result body.value

/-- Calls the operator of a class. Parameters hide fields. -/
def invoke (clo : Closure) (fields args : List Nat) (slots : Slots) :
    Outcome (Option Thunk × Slots) :=
  runBody T ov (clo.params.map .named)
    (Frame.ofNames (clo.params.zip args ++ clo.captured.zip fields)) clo.body slots

/-- Runs a thunk, for a range of arities in use. -/
def force (range : Nat × Nat) (t : Thunk) (slots : Slots) : Outcome (Option Thunk × Slots) := do
  let clo ← need (T.classOf? t.object.lambda)
  if t.args.length = clo.params.length ∧ clo.params.length ∈ ClassTable.span range then
    invoke T ov clo t.object.fields t.args slots
  else .error (.ended (.wrongArity clo.params.length t.args.length))

end

/-- One turn of the loop in the main function. -/
def step (p : Program) (range : Nat × Nat) (ov : Overflow) :
    Option Thunk × Slots → Outcome (Option Thunk × Slots)
  | (some t, slots) => force p.table ov range t slots
  | (none, _) => .error (.ended .returned)

/-- A program after a number of turns of the loop. -/
def run (p : Program) (range : Nat × Nat) (ov : Overflow) : Nat → Outcome (Option Thunk × Slots)
  | 0 => runBody p.table ov [] Frame.empty p.root []
  | n + 1 => do
    let s ← run p range ov n
    step p range ov s

end Emitted

end Trampoline

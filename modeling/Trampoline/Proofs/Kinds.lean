import Trampoline.Proofs.Scope

/-!
# Trampoline.Proofs.Kinds -- slots where slots are wanted

Almost every operation wants slots: the callee and the arguments of a call, the operands of an
operator, the number that a conditional tests, the source of a copy, what a closure captures. The
code of a tree gives a slot or a thunk, by the tree's shape. Lowering looks at the kind of a definition,
of the body of a lambda, of the branches of a conditional and of the whole program, but not at the kind
of an argument or of a condition.

So emitted code wants a slot where a thunk is declared exactly for trees in which an argument or a
condition is a tail call. `Cps` excludes them.
-/

namespace Trampoline

namespace Expr

/-- What the code of a tree gives: an application is a tail call, and a conditional or a `letrec` is
what its branches or its body are. -/
def kind : Expr → Kind
  | .app _ _ => .thunk
  | .cond _ a _ => a.kind
  | .letrec _ body => body.kind
  | .native _ code => code.kind
  | _ => .value

/-- The arguments of an application and the condition of a conditional are no tail calls. -/
def PlainOperands : Expr → Prop
  | .app _ args => ∀ a ∈ args, a.kind = .value
  | .cond test _ _ => test.kind = .value
  | _ => True

instance : DecidablePred PlainOperands
  | .app _ args => inferInstanceAs (Decidable (∀ a ∈ args, a.kind = .value))
  | .cond test _ _ => inferInstanceAs (Decidable (test.kind = .value))
  | .var _ | .literal _ | .lambda _ _ _ | .letrec _ _ | .seq _ | .assign _ _ | .assignThen _ _ _
  | .native _ _ => isTrue trivial

/-- Nowhere in a tree is an argument or a condition a tail call. -/
def Cps (e : Expr) : Prop := ∀ path a, e.reach? path = some a → a.PlainOperands

instance (e : Expr) : Decidable e.Cps :=
  decidable_of_iff' (∀ t ∈ e.places, t.2.PlainOperands) forall_reach_iff

/-- The operands of the root are plain, and so are those of all children. -/
theorem cps_iff {e : Expr} : e.Cps ↔ e.PlainOperands ∧ ∀ i c, e.child? i = some c → c.Cps :=
  forall_reach_step

theorem Cps.child {e c : Expr} {i : Nat} (h : e.Cps) (hc : e.child? i = some c) : c.Cps :=
  (cps_iff.mp h).2 i c hc

theorem cps_lambda {name : Bytes} {params : List Bytes} {body : Expr} :
    (Expr.lambda name params body).Cps ↔ body.Cps := by
  rw [cps_iff, forall_child_lambda]
  exact ⟨fun h => h.2, fun h => ⟨trivial, h⟩⟩

/-- A node without children and operands. -/
theorem cps_of_leaf {e : Expr} (hown : e.PlainOperands) (hleaf : ∀ i, e.child? i = none) : e.Cps := by
  rw [cps_iff]
  refine ⟨hown, fun i c hc => ?_⟩
  rw [hleaf i] at hc
  cases hc

theorem cps_var (x : Bytes) : (Expr.var x).Cps :=
  cps_of_leaf trivial fun i => by cases i <;> rfl

theorem cps_literal (l : Literal) : (Expr.literal l).Cps :=
  cps_of_leaf trivial fun i => by cases i <;> rfl

theorem cps_native (uses : List Bytes) (code : Fragment) : (Expr.native uses code).Cps :=
  cps_of_leaf trivial fun i => by cases i <;> rfl

/-- The arguments of a call are values. -/
theorem cps_call {f : Bytes} {args : List Expr} :
    (Expr.app (.var f) args).Cps ↔ (∀ a ∈ args, a.kind = .value) ∧ ∀ a ∈ args, a.Cps := by
  rw [cps_iff, forall_child_app]
  exact ⟨fun h => ⟨h.1, h.2.2⟩, fun h => ⟨h.1, cps_var f, h.2⟩⟩

/-- So is the condition of a conditional. -/
theorem cps_cond {test a b : Expr} :
    (Expr.cond test a b).Cps ↔ test.kind = .value ∧ test.Cps ∧ a.Cps ∧ b.Cps := by
  rw [cps_iff, forall_child_cond]
  exact Iff.rfl

theorem cps_letrec {defs : List (Bytes × Expr)} {body : Expr} :
    (Expr.letrec defs body).Cps ↔ (∀ d ∈ defs, d.2.Cps) ∧ body.Cps := by
  rw [cps_iff, forall_child_letrec]
  exact ⟨fun h => h.2, fun h => ⟨trivial, h⟩⟩

end Expr

/-- The type with which a variable is declared, which its name tells. -/
def Ident.varType : Ident → VarType
  | .temp .ret _ => .thunk
  | .verbatim _ => .status
  | _ => .slot

namespace Instr

/-! ## Properties of all pairs at any depth -/

mutual

/-- The property holds of a pair, and of all pairs in its arms. -/
def Everywhere (P : Instr → Prop) : Instr → Prop
  | .branch dst kind test a av b bv =>
    P (.branch dst kind test a av b bv) ∧ EverywhereAll P a ∧ EverywhereAll P b
  | .put dst p => P (.put dst p)
  | .call dst callee args => P (.call dst callee args)
  | .slot dst => P (.slot dst)
  | .copy dst src => P (.copy dst src)
  | .halt arg => P (.halt arg)
  | .verbatim d o => P (.verbatim d o)

def EverywhereAll (P : Instr → Prop) : List Instr → Prop
  | [] => True
  | i :: is => i.Everywhere P ∧ EverywhereAll P is

end

variable {P : Instr → Prop}

theorem everywhereAll_append {a b : List Instr} :
    EverywhereAll P (a ++ b) ↔ EverywhereAll P a ∧ EverywhereAll P b := by
  induction a with
  | nil => simp [EverywhereAll]
  | cons i is ih => rw [List.cons_append, EverywhereAll, EverywhereAll, ih, and_assoc]

theorem everywhereAll_slots (h : ∀ x, P (.slot (.named x))) (ds : List (Bytes × Expr)) :
    EverywhereAll P (ds.map fun d => .slot (.named d.1)) := by
  induction ds with
  | nil => trivial
  | cons d ds ih => exact ⟨h d.1, ih⟩

theorem Everywhere.own {i : Instr} (h : i.Everywhere P) : P i := by
  cases i with
  | branch dst kind test a av b bv => exact h.1
  | _ => exact h

/-- What holds everywhere holds in the arms. -/
theorem Everywhere.arm {i : Instr} (h : i.Everywhere P) {arm : Block} (harm : arm ∈ i.arms) :
    EverywhereAll P arm.code := by
  obtain ⟨dst, kind, test, a, av, b, bv, rfl, rfl | rfl⟩ := mem_arms.mp harm
  · exact h.2.1
  · exact h.2.2

theorem EverywhereAll.pair {pre post : List Instr} {i : Instr}
    (h : EverywhereAll P (pre ++ i :: post)) : i.Everywhere P :=
  (everywhereAll_append.mp h).2.1

/-- All blocks at any depth have the property, pair by pair. -/
theorem EverywhereAll.nested {vis vis' : Scope} {blk blk' : Block} (h : EverywhereAll P blk.code)
    (hn : Block.Nested vis blk vis' blk') : EverywhereAll P blk'.code := by
  induction hn with
  | self => exact h
  | arm _ hcode harm ih =>
    rw [hcode] at ih
    exact ih.pair.arm harm

theorem own_of_nested {vis vis' : Scope} {blk blk' : Block} {pre post : List Instr} {i : Instr}
    (h : ∀ vis' blk', Block.Nested vis blk vis' blk' → ∀ i ∈ blk'.code, P i)
    (hn : Block.Nested vis blk vis' blk') (hcode : blk'.code = pre ++ i :: post) : P i := by
  apply h vis' blk' hn
  rw [hcode]
  exact List.mem_append_right _ List.mem_cons_self

mutual

/-- If all blocks at any depth have the property, so has all code. -/
theorem everywhere_of_nested {vis : Scope} {blk : Block}
    (h : ∀ vis' blk', Block.Nested vis blk vis' blk' → ∀ i ∈ blk'.code, P i) :
    ∀ {i : Instr} {vis' : Scope} {blk' : Block} {pre post : List Instr},
      Block.Nested vis blk vis' blk' → blk'.code = pre ++ i :: post → i.Everywhere P
  | .branch dst kind test a av b bv, _, _, _, _, hn, hcode => by
    refine ⟨own_of_nested h hn hcode, ?_, ?_⟩
    · exact everywhereAll_of_nested h (.arm hn hcode List.mem_cons_self) (List.nil_append _).symm
    · exact everywhereAll_of_nested h (.arm hn hcode (List.mem_cons_of_mem _ List.mem_cons_self))
        (List.nil_append _).symm
  | .put _ _, _, _, _, _, hn, hcode => show P _ from own_of_nested h hn hcode
  | .call _ _ _, _, _, _, _, hn, hcode => show P _ from own_of_nested h hn hcode
  | .slot _, _, _, _, _, hn, hcode => show P _ from own_of_nested h hn hcode
  | .copy _ _, _, _, _, _, hn, hcode => show P _ from own_of_nested h hn hcode
  | .halt _, _, _, _, _, hn, hcode => show P _ from own_of_nested h hn hcode
  | .verbatim _ _, _, _, _, _, hn, hcode => show P _ from own_of_nested h hn hcode

/-- What holds of the pairs of all nested blocks holds everywhere. -/
theorem everywhereAll_of_nested {vis : Scope} {blk : Block}
    (h : ∀ vis' blk', Block.Nested vis blk vis' blk' → ∀ i ∈ blk'.code, P i) :
    ∀ {is : List Instr} {vis' : Scope} {blk' : Block} {pre : List Instr},
      Block.Nested vis blk vis' blk' → blk'.code = pre ++ is → EverywhereAll P is
  | [], _, _, _, _, _ => trivial
  | i :: is, _, _, pre, hn, hcode =>
    ⟨everywhere_of_nested h hn hcode,
      everywhereAll_of_nested h hn (hcode.trans (List.append_cons pre i is))⟩

end

/-- A pair declares its variables with the types that their names tell. -/
def Typed (i : Instr) : Prop := ∀ x t, (x, t) ∈ i.declares → t = x.varType

/-- By their names, all variables that an operation reads are references to slots. -/
def ReadsSlots (i : Instr) : Prop := ∀ x ∈ i.reads, x.varType = .slot

end Instr

open Instr

/-! ## Blocks that use slots as slots -/

/-- Every variable that an operation of a block reads, the arms left out, is declared as a reference to
a slot where the operation stands, and not as a thunk. -/
def Block.KindSafe (vis : Scope) (blk : Block) : Prop :=
  ∀ pre i post, blk.code = pre ++ i :: post → ∀ x ∈ i.reads,
    (x, .slot) ∈ vis ++ declaresAll pre ∧ (x, .thunk) ∉ vis ++ declaresAll pre

/-- All blocks at any depth use slots as slots. -/
def Block.KindSafeWithin (vis : Scope) (blk : Block) : Prop :=
  ∀ vis' blk', Block.Nested vis blk vis' blk' → blk'.KindSafe vis'

/-- Variables are declared with the types that their names tell. -/
def Scope.Typed (vis : Scope) : Prop := ∀ x t, (x, t) ∈ vis → t = x.varType

/-- Names in scope are slots. -/
theorem typed_ofNames (xs : List Bytes) : (Scope.ofNames xs).Typed := by
  intro x t h
  obtain ⟨y, _, heq⟩ := List.mem_map.mp h
  cases heq
  rfl

/-- Typed code extends a typed scope to a typed scope. -/
theorem Scope.Typed.append {vis : Scope} (h : vis.Typed) {code : List Instr}
    (hcode : EverywhereAll Instr.Typed code) : (vis ++ declaresAll code : Scope).Typed := by
  intro x t hmem
  rcases List.mem_append.mp hmem with hmem | hmem
  · exact h x t hmem
  · obtain ⟨i, hi, hdecl⟩ := List.mem_flatMap.mp hmem
    obtain ⟨pre, post, rfl⟩ := List.append_of_mem hi
    exact hcode.pair.own x t hdecl

/-- In typed code the scopes of all nested blocks are typed. -/
theorem typed_nested {vis vis' : Scope} {blk blk' : Block} (hvis : vis.Typed)
    (hcode : EverywhereAll Instr.Typed blk.code) (hn : Block.Nested vis blk vis' blk') :
    vis'.Typed := by
  induction hn with
  | self => exact hvis
  | arm hn hsplit harm ih =>
    have hpre := hcode.nested hn
    rw [hsplit] at hpre
    exact ih.append (everywhereAll_append.mp hpre).1

/-- In a typed scope, where all variables are visible, only their names matter. -/
theorem kindSafe_iff {vis : Scope} {blk : Block} (hs : blk.Sound vis) (hvis : vis.Typed)
    (hcode : EverywhereAll Instr.Typed blk.code) :
    blk.KindSafe vis ↔ ∀ i ∈ blk.code, i.ReadsSlots := by
  constructor
  · intro h i hi x hx
    obtain ⟨pre, post, hsplit⟩ := List.append_of_mem hi
    rw [hsplit] at hcode
    exact (hvis.append (everywhereAll_append.mp hcode).1 x .slot (h pre i post hsplit x hx).1).symm
  · intro h pre i post hsplit x hx
    have hi : i ∈ blk.code := hsplit ▸ List.mem_append_right _ List.mem_cons_self
    have hslot : x.varType = .slot := h i hi x hx
    obtain ⟨_, hi, _⟩ := hs.pair hsplit
    obtain ⟨t, ht⟩ := Block.reads_visible hi x hx
    rw [hsplit] at hcode
    have htyped := hvis.append (everywhereAll_append.mp hcode).1
    refine ⟨?_, fun hthunk => ?_⟩
    · rw [← hslot, ← htyped x t ht]
      exact ht
    · have := htyped x .thunk hthunk
      rw [hslot] at this
      cases this

/-- Sound and typed code is safe exactly if it reads slots only. -/
theorem kindSafeWithin_iff {vis : Scope} {blk : Block} (hs : blk.Sound vis) (hvis : vis.Typed)
    (hcode : EverywhereAll Instr.Typed blk.code) :
    blk.KindSafeWithin vis ↔ EverywhereAll ReadsSlots blk.code := by
  constructor
  · intro h
    have hown : ∀ vis' blk', Block.Nested vis blk vis' blk' → ∀ i ∈ blk'.code, i.ReadsSlots := by
      intro vis' blk' hn
      exact (kindSafe_iff (hs.nested hn) (typed_nested hvis hcode hn) (hcode.nested hn)).mp
        (h vis' blk' hn)
    exact everywhereAll_of_nested hown .self (List.nil_append _).symm
  · intro h vis' blk' hn
    rw [kindSafe_iff (hs.nested hn) (typed_nested hvis hcode hn) (hcode.nested hn)]
    intro i hi
    obtain ⟨pre, post, hsplit⟩ := List.append_of_mem hi
    have hall := h.nested hn
    rw [hsplit] at hall
    exact hall.pair.own

namespace Lowering

variable {cs : Captures}

/-! ## Kinds and types in derivations -/

/-- The kind of a tree's code is the kind of the tree. -/
theorem Lowers.kind_eq {node : Node} {e : Expr} {n n' : Nat} {f : Fragment} {C : List ClassEntry}
    {A : List Nat} (h : Lowers cs node e n f n' C A) : f.kind = e.kind := by
  induction e using Expr.induction generalizing node n f n' C A with
  | cond test a b _ iha _ =>
    cases h with
    | cond _ ha _ _ =>
      have hkind := iha ha
      exact hkind
  | letrec defs body _ ihb =>
    cases h with
    | letrec _ hb =>
      have hkind := ihb hb
      exact hkind
  | _ =>
    -- Either the rule fixes the kind, or there is no rule.
    cases h <;> rfl

theorem varType_branchTemp (kind : Kind) (n : Nat) :
    (Ident.temp (branchTemp kind) n).varType = kind.varType := by
  cases kind <;> rfl

theorem constant_slot {l : Literal} {t : Temp} {p : Payload} (h : constant l = some (t, p)) (n : Nat) :
    (Ident.temp t n).varType = .slot := by
  cases l with
  | unspecified => cases h
  | _ =>
    cases h
    rfl

/-- The name of a tree's result tells the kind. -/
theorem Lowers.varType_value {node : Node} {e : Expr} {n n' : Nat} {f : Fragment}
    {C : List ClassEntry} {A : List Nat} :
    Lowers cs node e n f n' C A → e.OnlyHalts → f.value.varType = f.kind.varType
  | .var _, _ => rfl
  | .literal hl, _ => constant_slot hl _
  | .lambda _ _ _, _ => rfl
  | .call _ _, _ => rfl
  | .operate _ _ _, _ => rfl
  | .cond _ _ _ _, _ => varType_branchTemp _ _
  | .letrec _ hb, .letrec _ hhb => hb.varType_value hhb
  | .native, he => absurd he Expr.not_onlyHalts_native

/-- A result is a slot by its name exactly if the tree is no tail call. -/
theorem Lowers.value_slot_iff {node : Node} {e : Expr} {n n' : Nat} {f : Fragment}
    {C : List ClassEntry} {A : List Nat} (h : Lowers cs node e n f n' C A) (he : e.OnlyHalts) :
    f.value.varType = .slot ↔ e.kind = .value := by
  rw [h.varType_value he, h.kind_eq]
  cases e.kind <;> decide

/-- The results of a list are slots exactly if its members are values. -/
theorem LowersList.value_slot_iff {node : Node} {i : Nat} {es : List Expr} {n n' : Nat}
    {fs : List Fragment} {C : List ClassEntry} {A : List Nat}
    (h : LowersList cs node i es n fs n' C A) (hes : ∀ e ∈ es, e.OnlyHalts) :
    (∀ x ∈ fs.map Fragment.value, x.varType = .slot) ↔ ∀ e ∈ es, e.kind = .value := by
  induction es generalizing i n fs C A with
  | nil =>
    cases h
    simp
  | cons e es ih =>
    cases h with
    | cons he hs =>
      obtain ⟨hhe, hhs⟩ := List.forall_mem_cons.mp hes
      rw [List.map_cons, List.forall_mem_cons, List.forall_mem_cons, he.value_slot_iff hhe, ih hs hhs]

theorem typed_put {dst : Ident} {p : Payload} (h : dst.varType = .slot) : (Instr.put dst p).Typed := by
  intro x t hmem
  cases List.mem_singleton.mp hmem
  exact h.symm

theorem typed_call {callee : Ident} {n : Nat} {args : List Ident} :
    (Instr.call (.temp .ret n) callee args).Typed := by
  intro x t hmem
  cases List.mem_singleton.mp hmem
  rfl

theorem typed_slot (x : Bytes) : (Instr.slot (.named x)).Typed := by
  intro y t hmem
  cases List.mem_singleton.mp hmem
  rfl

mutual

/-- All variables are declared with the types that their names tell. -/
theorem Lowers.typed {node : Node} {e : Expr} {n n' : Nat} {f : Fragment} {C : List ClassEntry}
    {A : List Nat} :
    Lowers cs node e n f n' C A → e.OnlyHalts → EverywhereAll Instr.Typed f.code
  | .var _, _ => trivial
  | .literal hl, _ => ⟨typed_put (constant_slot hl _), trivial⟩
  | .lambda _ _ _, _ => ⟨typed_put rfl, trivial⟩
  | .call _ hs, he => everywhereAll_append.mpr ⟨hs.typed he.args, typed_call, trivial⟩
  | .operate _ hs _, he =>
    everywhereAll_append.mpr ⟨hs.typed he.args, typed_put rfl, typed_call, trivial⟩
  | .cond ht ha hb _, .cond hht hha hhb => by
    refine everywhereAll_append.mpr
      ⟨ht.typed hht, ⟨?_, ha.typed hha, hb.typed hhb⟩, trivial⟩
    intro x t hmem
    cases List.mem_singleton.mp hmem
    exact (varType_branchTemp _ _).symm
  | .letrec hd hb, .letrec hhd hhb =>
    everywhereAll_append.mpr
      ⟨everywhereAll_append.mpr ⟨everywhereAll_slots typed_slot _, hd.typed hhd⟩, hb.typed hhb⟩
  | .native, he => absurd he Expr.not_onlyHalts_native

/-- The code of a list is typed. -/
theorem LowersList.typed {node : Node} {i : Nat} {es : List Expr} {n n' : Nat}
    {fs : List Fragment} {C : List ClassEntry} {A : List Nat} :
    LowersList cs node i es n fs n' C A → (∀ e ∈ es, e.OnlyHalts) →
      EverywhereAll Instr.Typed (fs.flatMap Fragment.code)
  | .nil, _ => trivial
  | .cons he hs, hes => by
    obtain ⟨hhe, hhs⟩ := List.forall_mem_cons.mp hes
    rw [List.flatMap_cons]
    exact everywhereAll_append.mpr ⟨he.typed hhe, hs.typed hhs⟩

/-- So is the code of bindings. -/
theorem LowersDefs.typed {node : Node} {i : Nat} {ds : List (Bytes × Expr)} {n n' : Nat}
    {code : List Instr} {C : List ClassEntry} {A : List Nat} :
    LowersDefs cs node i ds n code n' C A → (∀ d ∈ ds, d.2.OnlyHalts) →
      EverywhereAll Instr.Typed code
  | .nil, _ => trivial
  | .cons _ he _ hs, hds => by
    obtain ⟨hhe, hhs⟩ := List.forall_mem_cons.mp hds
    refine everywhereAll_append.mpr
      ⟨everywhereAll_append.mpr ⟨he.typed hhe, ?_, trivial⟩, hs.typed hhs⟩
    intro x t hmem
    exact absurd hmem List.not_mem_nil

end

/-! ## Reads -/

/-- The operations of the classes read slots, by the names of variables. -/
def ClassesReadSlots (C : List ClassEntry) : Prop :=
  ∀ c ∈ C, ∀ clo, c.closure = some clo → EverywhereAll ReadsSlots clo.body.code

theorem classesReadSlots_append {C D : List ClassEntry} :
    ClassesReadSlots (C ++ D) ↔ ClassesReadSlots C ∧ ClassesReadSlots D :=
  List.forall_mem_append

theorem classesReadSlots_cons {node : Node} {name : Bytes} {clo : Closure} {C : List ClassEntry} :
    ClassesReadSlots (⟨node, name, some clo⟩ :: C) ↔
      EverywhereAll ReadsSlots clo.body.code ∧ ClassesReadSlots C :=
  forall_class_cons (P := fun clo => EverywhereAll ReadsSlots clo.body.code)

theorem classesReadSlots_nil : ClassesReadSlots [] := fun _ hc => absurd hc List.not_mem_nil

theorem readsSlots_slot (x : Bytes) : (Instr.slot (.named x)).ReadsSlots :=
  fun _ hy => absurd hy List.not_mem_nil

theorem readsSlots_names (xs : List Bytes) : ∀ x ∈ xs.map Ident.named, x.varType = .slot := by
  intro x hx
  obtain ⟨y, _, rfl⟩ := List.mem_map.mp hx
  rfl

theorem readsSlots_call {dst callee : Ident} {args : List Ident} :
    EverywhereAll ReadsSlots [.call dst callee args] ↔
      callee.varType = .slot ∧ ∀ x ∈ args, x.varType = .slot := by
  show (∀ x ∈ callee :: args, x.varType = .slot) ∧ True ↔ _
  rw [and_true, List.forall_mem_cons]

mutual

/-- The code of a tree and of its lambdas reads slots, by the names of variables, exactly if no
argument and no condition in the tree is a tail call. -/
theorem Lowers.readsSlots_iff {node : Node} {e : Expr} {n n' : Nat} {f : Fragment}
    {C : List ClassEntry} {A : List Nat} :
    Lowers cs node e n f n' C A → e.OnlyHalts →
      (EverywhereAll ReadsSlots f.code ∧ ClassesReadSlots C ↔ e.Cps)
  | .var _, _ => iff_of_true ⟨trivial, classesReadSlots_nil⟩ (Expr.cps_var _)
  | .literal hl, _ => by
    refine iff_of_true ⟨⟨?_, trivial⟩, classesReadSlots_nil⟩ (Expr.cps_literal _)
    intro x hx
    rw [show Instr.reads (.put _ _) = _ from constant_reads hl] at hx
    exact absurd hx List.not_mem_nil
  | .lambda _ hb _, he => by
    rw [Expr.cps_lambda, classesReadSlots_cons, and_iff_right ⟨readsSlots_names _, trivial⟩]
    rcases he.body with hbody | ⟨p, rfl, rfl⟩
    · exact hb.readsSlots_iff hbody
    · obtain ⟨rfl, rfl⟩ := lowers_native hb
      refine iff_of_true ⟨⟨?_, trivial⟩, classesReadSlots_nil⟩ (Expr.cps_native _ _)
      exact readsSlots_names [p]
  | .call _ hs, he => by
    rw [Expr.cps_call, everywhereAll_append, readsSlots_call,
      ← hs.value_slot_iff he.args, ← hs.readsSlots_iff he.args]
    constructor
    · rintro ⟨⟨hcode, _, hvals⟩, hC⟩
      exact ⟨hvals, hcode, hC⟩
    · rintro ⟨hvals, hcode, hC⟩
      exact ⟨⟨hcode, rfl, hvals⟩, hC⟩
  | .operate _ hs hp, he => by
    rw [Expr.cps_call, everywhereAll_append, ← hs.value_slot_iff he.args,
      ← hs.readsSlots_iff he.args, List.map_append, List.forall_mem_append]
    constructor
    · rintro ⟨⟨hcode, hput, hcall⟩, hC⟩
      have hops : ∀ x ∈ PrimCall.operands _, x.varType = .slot := hput
      rw [operands_of_ofName? hp] at hops
      exact ⟨⟨hops, List.forall_mem_singleton.mpr (readsSlots_call.mp hcall).1⟩, hcode, hC⟩
    · rintro ⟨⟨hops, hk⟩, hcode, hC⟩
      rw [← operands_of_ofName? hp] at hops
      refine ⟨⟨hcode, hops, readsSlots_call.mpr ⟨hk _ (List.mem_singleton_self _), ?_⟩⟩, hC⟩
      exact List.forall_mem_singleton.mpr rfl
  | .cond ht ha hb _, .cond hht hha hhb => by
    rw [Expr.cps_cond, everywhereAll_append, classesReadSlots_append, classesReadSlots_append,
      ← ht.value_slot_iff hht, ← ht.readsSlots_iff hht, ← ha.readsSlots_iff hha,
      ← hb.readsSlots_iff hhb]
    constructor
    · rintro ⟨⟨htest, ⟨hown, hacode, hbcode⟩, _⟩, ⟨hCt, hCa⟩, hCb⟩
      exact ⟨hown _ (List.mem_singleton_self _), ⟨htest, hCt⟩, ⟨hacode, hCa⟩, hbcode, hCb⟩
    · rintro ⟨hown, ⟨htest, hCt⟩, ⟨hacode, hCa⟩, hbcode, hCb⟩
      refine ⟨⟨htest, ⟨?_, hacode, hbcode⟩, trivial⟩, ⟨hCt, hCa⟩, hCb⟩
      exact List.forall_mem_singleton.mpr hown
  | .letrec hd hb, .letrec hhd hhb => by
    rw [Expr.cps_letrec, everywhereAll_append, everywhereAll_append, classesReadSlots_append,
      and_iff_right (everywhereAll_slots readsSlots_slot _), ← hd.readsSlots_iff hhd, ← hb.readsSlots_iff hhb,
      and_and_and_comm]
  | .native, he => absurd he Expr.not_onlyHalts_native

/-- The code of a list reads slots only, at any depth and in all classes, exactly if no operand of its members
is a tail call. -/
theorem LowersList.readsSlots_iff {node : Node} {i : Nat} {es : List Expr} {n n' : Nat}
    {fs : List Fragment} {C : List ClassEntry} {A : List Nat} :
    LowersList cs node i es n fs n' C A → (∀ e ∈ es, e.OnlyHalts) →
      (EverywhereAll ReadsSlots (fs.flatMap Fragment.code) ∧ ClassesReadSlots C ↔
        ∀ e ∈ es, e.Cps)
  | .nil, _ => iff_of_true ⟨trivial, classesReadSlots_nil⟩ fun _ he => absurd he List.not_mem_nil
  | .cons he hs, hes => by
    obtain ⟨hhe, hhs⟩ := List.forall_mem_cons.mp hes
    rw [List.flatMap_cons, List.forall_mem_cons, everywhereAll_append, classesReadSlots_append,
      ← he.readsSlots_iff hhe, ← hs.readsSlots_iff hhs, and_and_and_comm]

/-- The same for bindings. -/
theorem LowersDefs.readsSlots_iff {node : Node} {i : Nat} {ds : List (Bytes × Expr)} {n n' : Nat}
    {code : List Instr} {C : List ClassEntry} {A : List Nat} :
    LowersDefs cs node i ds n code n' C A → (∀ d ∈ ds, d.2.OnlyHalts) →
      (EverywhereAll ReadsSlots code ∧ ClassesReadSlots C ↔ ∀ d ∈ ds, d.2.Cps)
  | .nil, _ => iff_of_true ⟨trivial, classesReadSlots_nil⟩ fun _ hd => absurd hd List.not_mem_nil
  | .cons _ he hk hs, hds => by
    obtain ⟨hhe, hhs⟩ := List.forall_mem_cons.mp hds
    -- A definition is no tail call, or lowering would have stopped at it.
    have hval := (he.value_slot_iff hhe).mpr (he.kind_eq.symm.trans hk)
    rw [List.forall_mem_cons, everywhereAll_append, everywhereAll_append, classesReadSlots_append,
      ← he.readsSlots_iff hhe, ← hs.readsSlots_iff hhs]
    constructor
    · rintro ⟨⟨⟨hcode, _⟩, hrest⟩, hCe, hCs⟩
      exact ⟨⟨hcode, hCe⟩, hrest, hCs⟩
    · rintro ⟨⟨hcode, hCe⟩, hrest, hCs⟩
      exact ⟨⟨⟨hcode, List.forall_mem_singleton.mpr hval, trivial⟩, hrest⟩, hCe, hCs⟩

end

/-- The variables of a class are declared with the types that their names tell. -/
theorem ClassOf.typed {node : Node} {e : Expr} {c : ClassEntry} {clo : Closure}
    (h : ClassOf cs node e c) (he : e.OnlyHalts) (hclo : c.closure = some clo) :
    EverywhereAll Instr.Typed clo.body.code := by
  obtain ⟨_, _, clo', _, _, hclo', _, hbody⟩ := h.body he
  cases hclo.symm.trans hclo'
  rcases hbody with ⟨hbody, n, n', C, A, hL⟩ | ⟨p, _, hhalt⟩
  · exact hL.typed hbody
  · rw [hhalt]
    refine ⟨?_, trivial⟩
    intro x t hmem
    cases List.mem_singleton.mp hmem
    rfl

end Lowering

/-! ## The result -/

/-- In the code of a tree and in the code of all of its classes, whatever is used as a slot is declared
as one, exactly if no argument and no condition in the tree is a tail call. Lowering does not ask for
this: it succeeds on trees that do not have the property. -/
theorem kindSafe_iff_cps {e : Expr} {next : Nat} {f : Fragment} {s : Lowering.State}
    (he : e.OnlyHalts) (h : Build.lower e next = .ok f s) :
    (f.block.KindSafeWithin (Scope.ofNames e.free) ∧
      ∀ c ∈ s.table.entries, ∃ clo, c.closure = some clo ∧
        clo.body.block.KindSafeWithin (Scope.ofNames (clo.params ++ clo.captured))) ↔ e.Cps := by
  obtain ⟨A, hL, _⟩ := Build.lower_ok h
  have hk := Lowering.known_captures e
  rw [← hL.readsSlots_iff he]
  refine and_congr ?_ ?_
  · exact kindSafeWithin_iff (hL.sound he hk fun x hx => hx) (typed_ofNames _) (hL.typed he)
  · refine forall₂_congr fun c hc => ?_
    have hclass := hL.classOf c hc
    obtain ⟨_, _, clo, _, _, hclo, _, hsound⟩ := hclass.sound he hk
    have hiff := kindSafeWithin_iff hsound (typed_ofNames _) (hclass.typed he hclo)
    constructor
    · rintro ⟨clo', hclo', hsafe⟩ clo'' hclo''
      cases hclo'.symm.trans hclo
      cases hclo''.symm.trans hclo
      exact hiff.mp hsafe
    · intro hreads
      exact ⟨clo, hclo, hiff.mpr (hreads clo hclo)⟩

/-- A call of `f` whose first argument is a call of `g`. -/
def tailArgument : Expr := .app (.var [102]) [.app (.var [103]) [.var [120]], .var [107]]

/-- The thunk of the inner call is handed over as an argument, where a slot is wanted. -/
theorem tailArgument_not_kindSafe :
    tailArgument.OnlyHalts ∧ ∃ f s, Build.lower tailArgument 0 = .ok f s ∧
      ¬ (f.block.KindSafeWithin (Scope.ofNames tailArgument.free) ∧
        ∀ c ∈ s.table.entries, ∃ clo, c.closure = some clo ∧
          clo.body.block.KindSafeWithin (Scope.ofNames (clo.params ++ clo.captured))) := by
  have hinner : (Expr.app (.var [103]) [.var [120]]).OnlyHalts := by
    refine .app (.var _) ?_
    simp [Expr.OnlyHalts.var]
  have he : tailArgument.OnlyHalts := by
    refine .app (.var _) ?_
    simp [Expr.OnlyHalts.var, hinner]
  refine ⟨he, _, _, rfl, ?_⟩
  rw [kindSafe_iff_cps he rfl]
  intro hcps
  have hvalue := hcps [] tailArgument rfl _ List.mem_cons_self
  cases hvalue

end Trampoline

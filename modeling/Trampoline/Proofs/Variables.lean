import Trampoline.Code.Fragment

/-!
# Trampoline.Proofs.Variables -- the variables of emitted code

An instruction prints as a declaration and an operation, a pair. This module says which variables a
pair declares, reads and writes, and what it means that code is well scoped: whatever an operation
uses is declared by the same pair, by an earlier one, or outside. The arms of a conditional are blocks
of their own. They see what is declared before the conditional, and nobody sees what they declare.

`Instr.Scoped` is the property in the form that fits proofs, by recursion over the code. `WellScoped`
is the same property pair by pair, with what it means for temporaries: they are read only behind the
pair that declares them, and never outside the block that holds it. The names of slots are not kept
apart like this. A slot in an arm may have the name of a variable that is used elsewhere, but what is used
there is then visible without that arm. `Block.Sound` goes from one form to the other, for every block at
any depth.
-/

namespace Trampoline

/-! ## Declarations -/

/-- The type of a variable of emitted code. -/
inductive VarType where
  /-- a shared reference to a slot -/
  | slot
  | thunk
  /-- the exit status of the halt continuation -/
  | status
  deriving DecidableEq

/-- The spelling of a type in emitted code. -/
def VarType.text : VarType → Bytes
  | .slot => ascii "SCHEMETYPE_T"
  | .thunk => ascii "THUNK_T"
  | .status => ascii "int"

/-- The type of a variable that holds a result. -/
def Kind.varType : Kind → VarType
  | .value => .slot
  | .thunk => .thunk

/-- The variable in which the halt continuation keeps its exit status. -/
def exitStatus : Ident := .verbatim (ascii "retval")

/-- The result of the halt continuation, which is not a variable: a thunk that is never made. -/
def nullThunk : Ident := .verbatim (ascii "THUNK_T(nullptr)")

/-- Variables that are declared, with their types. -/
abbrev Scope := List (Ident × VarType)

namespace Scope

/-- The variable is declared. -/
def Sees (s : Scope) (x : Ident) : Prop := ∃ t, (x, t) ∈ s

/-- The variables of source names, which are references to slots. -/
def ofNames (xs : List Bytes) : Scope := xs.map fun x => (.named x, .slot)

/-- A variable is seen in one of two scopes that are put together. -/
theorem sees_append {s t : Scope} {x : Ident} : (s ++ t).Sees x ↔ s.Sees x ∨ t.Sees x := by
  simp only [Sees, List.mem_append, exists_or]

theorem sees_ofNames {xs : List Bytes} {x : Bytes} (h : x ∈ xs) : (ofNames xs).Sees (.named x) :=
  ⟨.slot, List.mem_map.mpr ⟨x, h, rfl⟩⟩

theorem not_sees_nil {x : Ident} : ¬ Sees [] x := by
  rintro ⟨t, ht⟩
  exact List.not_mem_nil ht

end Scope

namespace Instr

/-- What the declaration of a pair declares. -/
def declares : Instr → Scope
  | .put dst _ => [(dst, .slot)]
  | .call dst _ _ => [(dst, .thunk)]
  | .branch dst kind _ _ _ _ _ => [(dst, kind.varType)]
  | .slot dst => [(dst, .slot)]
  | .copy _ _ => []
  | .halt _ => [(exitStatus, .status)]
  | .verbatim _ _ => []

/-- The declaration text starts with the type and the variable. -/
theorem declares_text {i : Instr} {x : Ident} {t : VarType} (h : (x, t) ∈ i.declares) :
    t.text ++ Byte.space :: x.text <+: i.decl := by
  cases i with
  | put dst p =>
    cases List.mem_singleton.mp h
    exact ⟨ascii " = std::make_shared<schemetype_t>();", by simp [decl, declareSlot]; rfl⟩
  | call dst callee args =>
    cases List.mem_singleton.mp h
    exact ⟨ascii ";", by simp [decl, declareThunk]; rfl⟩
  | branch dst kind test a av b bv =>
    cases List.mem_singleton.mp h
    cases kind with
    | value => exact ⟨ascii ";", by simp [decl, declareResult, declareReference]; rfl⟩
    | thunk => exact ⟨ascii ";", by simp [decl, declareResult, declareThunk]; rfl⟩
  | slot dst =>
    cases List.mem_singleton.mp h
    exact ⟨ascii " = std::make_shared<schemetype_t>();", by simp [decl, declareSlot]; rfl⟩
  | copy dst src => exact absurd h List.not_mem_nil
  | halt arg =>
    cases List.mem_singleton.mp h
    exact ⟨ascii " = 0;", rfl⟩
  | verbatim d o => exact absurd h List.not_mem_nil

/-! ## Uses -/

end Instr

/-- The variables from which the content of a slot is built. -/
def Payload.reads : Payload → List Ident
  | .closure _ captured => captured
  | .primitive call => call.operands
  | _ => []

/-- Code with the variable that is its result, such as an arm, the body of a class or a whole unit. -/
structure Block where
  code : List Instr
  result : Ident

def Fragment.block (f : Fragment) : Block := ⟨f.code, f.value⟩

namespace Instr

/-- The variables that the operation of a pair reads, outside the arms of a conditional. -/
def reads : Instr → List Ident
  | .put _ p => p.reads
  | .call _ callee args => callee :: args
  | .branch _ _ test _ _ _ _ => [test]
  | .slot _ => []
  | .copy _ src => [src]
  | .halt arg => [arg]
  | .verbatim _ _ => []

/-- The variables that the operation of a pair assigns or whose slot it fills. A conditional assigns
its result at the end of either arm. -/
def writes : Instr → List Ident
  | .put dst _ => [dst]
  | .call dst _ _ => [dst]
  | .branch dst _ _ _ _ _ _ => [dst]
  | .slot _ => []
  | .copy dst _ => [dst]
  | .halt _ => [exitStatus]
  | .verbatim _ _ => []

/-- The arms of a conditional. -/
def arms : Instr → List Block
  | .branch _ _ _ a av b bv => [⟨a, av⟩, ⟨b, bv⟩]
  | _ => []

mutual

/-- Every variable in the texts of a pair, the arms of a conditional included. -/
def mentions : Instr → List Ident
  | .put dst p => dst :: p.reads
  | .call dst callee args => dst :: callee :: args
  | .branch dst _ test a av b bv =>
    dst :: test :: (mentionsAll a ++ av :: (mentionsAll b ++ [bv]))
  | .slot dst => [dst]
  | .copy dst src => [dst, src]
  | .halt arg => [exitStatus, arg]
  | .verbatim _ _ => []

def mentionsAll : List Instr → List Ident
  | [] => []
  | i :: is => i.mentions ++ mentionsAll is

end

mutual

/-- Every variable that a pair declares, the arms of a conditional included. -/
def declaresWithin : Instr → List Ident
  | .put dst _ => [dst]
  | .call dst _ _ => [dst]
  | .branch dst _ _ a _ b _ => dst :: (declaresWithinAll a ++ declaresWithinAll b)
  | .slot dst => [dst]
  | .copy _ _ => []
  | .halt _ => [exitStatus]
  | .verbatim _ _ => []

def declaresWithinAll : List Instr → List Ident
  | [] => []
  | i :: is => i.declaresWithin ++ declaresWithinAll is

end

/-- What the pairs of some code declare, the arms of conditionals left out. -/
def declaresAll (code : List Instr) : Scope := code.flatMap declares

@[simp]
theorem declaresAll_append (a b : List Instr) :
    declaresAll (a ++ b) = declaresAll a ++ declaresAll b := by
  simp [declaresAll]

@[simp]
theorem declaresAll_nil : declaresAll [] = [] := rfl

@[simp]
theorem declaresAll_cons (i : Instr) (is : List Instr) :
    declaresAll (i :: is) = i.declares ++ declaresAll is := by
  simp [declaresAll]

theorem declaresWithinAll_append (a b : List Instr) :
    declaresWithinAll (a ++ b) = declaresWithinAll a ++ declaresWithinAll b := by
  induction a with
  | nil => rfl
  | cons i is ih =>
    rw [List.cons_append, declaresWithinAll, declaresWithinAll, ih, List.append_assoc]

theorem mem_mentionsAll {code : List Instr} {x : Ident} :
    x ∈ mentionsAll code ↔ ∃ i ∈ code, x ∈ i.mentions := by
  induction code with
  | nil => simp [mentionsAll]
  | cons i is ih => simp [mentionsAll, ih]

theorem sees_declaresAll {code : List Instr} {x : Ident} :
    (declaresAll code).Sees x ↔ ∃ i ∈ code, Scope.Sees i.declares x := by
  constructor
  · rintro ⟨t, ht⟩
    obtain ⟨i, hi, hmem⟩ := List.mem_flatMap.mp ht
    exact ⟨i, hi, t, hmem⟩
  · rintro ⟨i, hi, t, hmem⟩
    exact ⟨t, List.mem_flatMap.mpr ⟨i, hi, hmem⟩⟩

theorem declaresWithin_of_declares {i : Instr} {x : Ident} {t : VarType}
    (h : (x, t) ∈ i.declares) : x ∈ i.declaresWithin := by
  cases i with
  | copy dst src => exact absurd h List.not_mem_nil
  | verbatim d o => exact absurd h List.not_mem_nil
  | _ =>
    cases List.mem_singleton.mp h
    simp [declaresWithin]

theorem declaresWithinAll_of_sees {code : List Instr} {x : Ident}
    (h : (declaresAll code).Sees x) : x ∈ declaresWithinAll code := by
  induction code with
  | nil => exact absurd h Scope.not_sees_nil
  | cons i is ih =>
    rw [declaresAll_cons] at h
    rcases Scope.sees_append.mp h with ⟨t, ht⟩ | h
    · exact List.mem_append_left _ (declaresWithin_of_declares ht)
    · exact List.mem_append_right _ (ih h)

/-! ## Scoped code -/

mutual

/-- An operation uses only what is visible, given what is visible before its pair. -/
def Scoped (vis : Scope) : Instr → Prop
  | .put _ p => ∀ x ∈ p.reads, vis.Sees x
  | .call _ callee args => ∀ x ∈ callee :: args, vis.Sees x
  | .branch _ _ test a av b bv =>
    vis.Sees test ∧ (ScopedAll vis a ∧ (vis ++ declaresAll a).Sees av) ∧
      ScopedAll vis b ∧ (vis ++ declaresAll b).Sees bv
  | .slot dst => ∃ x, dst = .named x
  | .copy dst src => vis.Sees dst ∧ vis.Sees src
  | .halt arg => vis.Sees arg
  | .verbatim _ _ => False

/-- The same for pairs in order, each of which sees what the ones before it declare. -/
def ScopedAll (vis : Scope) : List Instr → Prop
  | [] => True
  | i :: is => i.Scoped vis ∧ ScopedAll (vis ++ i.declares) is

end

/-- Code is scoped if a first part of it is and the rest is behind what the first part declares. -/
theorem scopedAll_append {vis : Scope} {a b : List Instr} :
    ScopedAll vis (a ++ b) ↔ ScopedAll vis a ∧ ScopedAll (vis ++ declaresAll a) b := by
  induction a generalizing vis with
  | nil => simp [ScopedAll]
  | cons i is ih =>
    rw [List.cons_append, ScopedAll, ScopedAll, ih, declaresAll_cons, List.append_assoc, and_assoc]

mutual

/-- Scoped code mentions what it sees and what it declares, and nothing else. -/
theorem Scoped.mentions {vis : Scope} :
    ∀ {i : Instr}, i.Scoped vis → ∀ x ∈ i.mentions, vis.Sees x ∨ x ∈ i.declaresWithin
  | .put dst p, hi, x, hx => by
    rcases List.mem_cons.mp hx with rfl | hx
    · exact Or.inr List.mem_cons_self
    · exact Or.inl (hi x hx)
  | .call dst callee args, hi, x, hx => by
    rcases List.mem_cons.mp hx with rfl | hx
    · exact Or.inr List.mem_cons_self
    · exact Or.inl (hi x hx)
  | .branch dst kind test a av b bv, ⟨ht, ⟨ha, hav⟩, hb, hbv⟩, x, hx => by
    simp only [Instr.mentions, declaresWithin, List.mem_cons, List.mem_append,
      List.not_mem_nil, or_false] at hx ⊢
    rcases hx with rfl | rfl | hx | rfl | hx | rfl
    · exact Or.inr (Or.inl rfl)
    · exact Or.inl ht
    · exact (ScopedAll.mentions ha x hx).imp_right fun h => Or.inr (Or.inl h)
    · exact (Scope.sees_append.mp hav).imp_right fun h =>
        Or.inr (Or.inl (declaresWithinAll_of_sees h))
    · exact (ScopedAll.mentions hb x hx).imp_right fun h => Or.inr (Or.inr h)
    · exact (Scope.sees_append.mp hbv).imp_right fun h =>
        Or.inr (Or.inr (declaresWithinAll_of_sees h))
  | .slot dst, _, x, hx => Or.inr hx
  | .copy dst src, ⟨hd, hs⟩, x, hx => by
    simp only [Instr.mentions, List.mem_cons, List.not_mem_nil, or_false] at hx
    rcases hx with rfl | rfl
    · exact Or.inl hd
    · exact Or.inl hs
  | .halt arg, hi, x, hx => by
    simp only [Instr.mentions, List.mem_cons, List.not_mem_nil, or_false] at hx
    rcases hx with rfl | rfl
    · exact Or.inr List.mem_cons_self
    · exact Or.inl hi

/-- Scoped code mentions what is visible or what it declares, at any depth. -/
theorem ScopedAll.mentions {vis : Scope} :
    ∀ {is : List Instr}, ScopedAll vis is → ∀ x ∈ mentionsAll is,
      vis.Sees x ∨ x ∈ declaresWithinAll is
  | i :: is, ⟨hi, his⟩, x, hx => by
    rw [declaresWithinAll, List.mem_append]
    rcases List.mem_append.mp hx with hx | hx
    · exact (Scoped.mentions hi x hx).imp_right Or.inl
    · rcases ScopedAll.mentions his x hx with h | h
      · rcases Scope.sees_append.mp h with h | ⟨t, ht⟩
        · exact Or.inl h
        · exact Or.inr (Or.inl (declaresWithin_of_declares ht))
      · exact Or.inr (Or.inr h)

end

end Instr

/-! ## Pair by pair -/

/-- Every variable in the texts of a block. -/
def Block.mentions (b : Block) : List Ident := Instr.mentionsAll b.code ++ [b.result]

/-- A block seen pair by pair, its arms left out; `vis` is what is visible where it starts. A pair with
`pre` before it and `post` behind it may use what `pre` and the pair itself declare. -/
structure Block.WellScoped (vis : Scope) (blk : Block) : Prop where
  /-- The text of a declaration starts with the type and the variable. -/
  declared : ∀ i ∈ blk.code, ∀ x t, (x, t) ∈ i.declares → t.text ++ Byte.space :: x.text <+: i.decl
  /-- An operation reads and writes only variables that are visible outside, or that an earlier pair or
  its own declares. -/
  resolved : ∀ pre i post, blk.code = pre ++ i :: post →
    ∀ x ∈ i.reads ++ i.writes, (vis ++ Instr.declaresAll (pre ++ [i])).Sees x
  /-- So is the result, unless it is the thunk that is never made. -/
  result : blk.result = nullThunk ∨ (vis ++ Instr.declaresAll blk.code).Sees blk.result
  /-- A temporary is assigned by the operation of the pair that declares it. -/
  assigned : ∀ i ∈ blk.code, ∀ t n ty, (Ident.temp t n, ty) ∈ i.declares → .temp t n ∈ i.writes
  /-- A temporary is read only behind the pair that declares it. -/
  readBehind : ∀ pre i post, blk.code = pre ++ i :: post →
    ∀ t n ty, (Ident.temp t n, ty) ∈ i.declares →
      .temp t n ∉ i.reads ∧ (∀ arm ∈ i.arms, .temp t n ∉ arm.mentions) ∧
      ∀ j ∈ pre, .temp t n ∉ j.mentions
  /-- A temporary that is declared in an arm is not used outside the arm. -/
  armLocal : ∀ pre i post, blk.code = pre ++ i :: post → ∀ arm ∈ i.arms,
    ∀ t n, .temp t n ∈ Instr.declaresWithinAll arm.code →
      .temp t n ∉ i.reads ++ i.writes ∧ (∀ j ∈ pre ++ post, .temp t n ∉ j.mentions) ∧
      (∀ other ∈ i.arms, other ≠ arm → .temp t n ∉ other.mentions) ∧ blk.result ≠ .temp t n
  /-- Any other variable that is declared in an arm is used outside the arm only where its name is visible in
  its own right: whatever a pair uses is visible before the pair or declared in it, and whatever an arm uses
  is visible before the conditional or declared in this very arm. -/
  ownRight : ∀ pre i post, blk.code = pre ++ i :: post →
    (∀ x ∈ i.mentions, (vis ++ Instr.declaresAll pre).Sees x ∨ x ∈ i.declaresWithin) ∧
    ∀ arm ∈ i.arms, ∀ x ∈ arm.mentions,
      (vis ++ Instr.declaresAll pre).Sees x ∨ x ∈ Instr.declaresWithinAll arm.code

/-- `Nested vis blk vis' blk'`: `blk'` is `blk`, or an arm at any depth of one of its conditionals, and
`vis'` is what is visible where it starts when `vis` is where `blk` starts: what the pairs before the
conditional declare is visible in its arms. -/
inductive Block.Nested (vis : Scope) (blk : Block) : Scope → Block → Prop
  | self : Nested vis blk vis blk
  | arm {vis' : Scope} {blk' arm : Block} {pre post : List Instr} {i : Instr}
      (h : Nested vis blk vis' blk') (hcode : blk'.code = pre ++ i :: post) (harm : arm ∈ i.arms) :
      Nested vis blk (vis' ++ Instr.declaresAll pre) arm

/-! ## Numbers of temporaries -/

/-- The number of a temporary. -/
def Ident.number? : Ident → Option Nat
  | .temp _ n => some n
  | _ => none

namespace Instr

/-- The numbers of the temporaries that some code declares, at any depth. -/
def numbers (code : List Instr) : List Nat := (declaresWithinAll code).filterMap Ident.number?

theorem numbers_append (a b : List Instr) : numbers (a ++ b) = numbers a ++ numbers b := by
  unfold numbers
  rw [declaresWithinAll_append, List.filterMap_append]

theorem numbers_cons (i : Instr) (is : List Instr) : numbers (i :: is) = numbers [i] ++ numbers is :=
  numbers_append [i] is

/-- The numbers of code are those of the temporaries that it declares, at any depth. -/
theorem mem_numbers {code : List Instr} {n : Nat} :
    n ∈ numbers code ↔ ∃ t, .temp t n ∈ declaresWithinAll code := by
  unfold numbers
  rw [List.mem_filterMap]
  constructor
  · rintro ⟨x, hx, hn⟩
    cases x with
    | temp t k =>
      cases hn
      exact ⟨t, hx⟩
    | named y => cases hn
    | verbatim y => cases hn
  · rintro ⟨t, ht⟩
    exact ⟨_, ht, rfl⟩

theorem numbers_branch (dst test av bv : Ident) (kind : Kind) (a b : List Instr) :
    numbers [.branch dst kind test a av b bv] =
      dst.number?.toList ++ (numbers a ++ numbers b) := by
  unfold numbers
  rw [declaresWithinAll, declaresWithinAll, declaresWithin, List.append_nil, List.filterMap_cons,
    List.filterMap_append]
  cases dst.number? <;> rfl

theorem mem_numbers_of_sees {code : List Instr} {t : Temp} {n : Nat}
    (h : (declaresAll code).Sees (.temp t n)) : n ∈ numbers code :=
  mem_numbers.mpr ⟨t, declaresWithinAll_of_sees h⟩

/-- Only a conditional has arms. -/
theorem mem_arms {i : Instr} {arm : Block} :
    arm ∈ i.arms ↔ ∃ dst kind test a av b bv, i = .branch dst kind test a av b bv ∧
      (arm = ⟨a, av⟩ ∨ arm = ⟨b, bv⟩) := by
  constructor
  · intro h
    cases i with
    | branch dst kind test a av b bv =>
      refine ⟨dst, kind, test, a, av, b, bv, rfl, ?_⟩
      simpa [arms] using h
    | _ => exact absurd h List.not_mem_nil
  · rintro ⟨dst, kind, test, a, av, b, bv, rfl, rfl | rfl⟩ <;> simp [arms]

/-- The arms of a conditional are scoped by what is visible before it. -/
theorem Scoped.arm {vis : Scope} {i : Instr} {arm : Block} (h : i.Scoped vis) (harm : arm ∈ i.arms) :
    ScopedAll vis arm.code ∧ (vis ++ declaresAll arm.code).Sees arm.result := by
  obtain ⟨dst, kind, test, a, av, b, bv, rfl, rfl | rfl⟩ := mem_arms.mp harm
  · exact h.2.1
  · exact h.2.2

/-- The numbers of an arm, and those of the rest of the pair around it. -/
theorem numbers_arm {i : Instr} {arm : Block} (h : arm ∈ i.arms) :
    ∃ l r, numbers [i] = l ++ numbers arm.code ++ r ∧
      (∀ t n ty, (Ident.temp t n, ty) ∈ i.declares → n ∈ l) ∧
      ∀ other ∈ i.arms, other ≠ arm → ∀ n ∈ numbers other.code, n ∈ l ++ r := by
  obtain ⟨dst, kind, test, a, av, b, bv, rfl, harm⟩ := mem_arms.mp h
  have hown : ∀ t n ty, (Ident.temp t n, ty) ∈ (Instr.branch dst kind test a av b bv).declares →
      n ∈ dst.number?.toList := by
    intro t n ty hmem
    cases List.mem_singleton.mp hmem
    exact List.mem_singleton_self n
  rcases harm with rfl | rfl
  · refine ⟨dst.number?.toList, numbers b, ?_, hown, ?_⟩
    · rw [numbers_branch, List.append_assoc]
    · intro other ho hne n hn
      obtain rfl | rfl : other = ⟨a, av⟩ ∨ other = ⟨b, bv⟩ := by simpa [arms] using ho
      · exact absurd rfl hne
      · exact List.mem_append_right _ hn
  · refine ⟨dst.number?.toList ++ numbers a, [], ?_, ?_, ?_⟩
    · rw [numbers_branch, List.append_nil, List.append_assoc]
    · intro t n ty hmem
      exact List.mem_append_left _ (hown t n ty hmem)
    · intro other ho hne n hn
      obtain rfl | rfl : other = ⟨a, av⟩ ∨ other = ⟨b, bv⟩ := by simpa [arms] using ho
      · exact List.mem_append_left _ (List.mem_append_right _ hn)
      · exact absurd rfl hne

end Instr

/-! ## From scoped code to all of its blocks -/

/-- Scoped code whose temporaries have different numbers, which no temporary outside has. -/
structure Block.Sound (vis : Scope) (blk : Block) : Prop where
  code : Instr.ScopedAll vis blk.code
  result : blk.result = nullThunk ∨ (vis ++ Instr.declaresAll blk.code).Sees blk.result
  distinct : (Instr.numbers blk.code).Nodup
  apart : ∀ t n, vis.Sees (.temp t n) → n ∉ Instr.numbers blk.code

namespace Block

open Instr

variable {vis : Scope} {blk : Block} {pre post : List Instr} {i : Instr}

/-- A pair of a sound block is scoped by what is visible before it. -/
theorem Sound.pair (h : blk.Sound vis) (hcode : blk.code = pre ++ i :: post) :
    ScopedAll vis pre ∧ i.Scoped (vis ++ declaresAll pre) ∧
      ScopedAll (vis ++ declaresAll (pre ++ [i])) post := by
  have hs := h.code
  rw [hcode] at hs
  obtain ⟨hpre, hi, hpost⟩ := scopedAll_append.mp hs
  refine ⟨hpre, hi, ?_⟩
  rw [declaresAll_append, declaresAll_cons, declaresAll_nil, List.append_nil, ← List.append_assoc]
  exact hpost

theorem Sound.numbers_eq (h : blk.Sound vis) (hcode : blk.code = pre ++ i :: post) :
    (numbers pre ++ (numbers [i] ++ numbers post)).Nodup ∧
      ∀ t n, vis.Sees (.temp t n) → n ∉ numbers pre ++ (numbers [i] ++ numbers post) := by
  have heq : numbers blk.code = numbers pre ++ (numbers [i] ++ numbers post) := by
    rw [hcode, numbers_append, numbers_cons]
  exact ⟨heq ▸ h.distinct, heq ▸ h.apart⟩

/-- The arms of a sound block are sound. -/
theorem Sound.arm (h : blk.Sound vis) (hcode : blk.code = pre ++ i :: post) {arm : Block}
    (harm : arm ∈ i.arms) : arm.Sound (vis ++ declaresAll pre) := by
  obtain ⟨_, hi, _⟩ := h.pair hcode
  obtain ⟨hnd, hap⟩ := h.numbers_eq hcode
  obtain ⟨l, r, heq, _, _⟩ := numbers_arm harm
  rw [heq] at hnd hap
  obtain ⟨hscoped, hresult⟩ := hi.arm harm
  refine ⟨hscoped, Or.inr hresult, ?_, ?_⟩
  · grind
  · intro t n hsees hn
    rcases Scope.sees_append.mp hsees with hsees | hsees
    · exact hap t n hsees (by grind)
    · have hpre : n ∈ numbers pre := mem_numbers_of_sees hsees
      grind

/-- A variable whose number neither the outside nor some scoped code has is not mentioned there. -/
theorem not_mentioned_of_scoped {code : List Instr} {t : Temp} {n : Nat} (hs : ScopedAll vis code)
    (hvis : ¬ vis.Sees (.temp t n)) (hn : n ∉ numbers code) : ∀ j ∈ code, .temp t n ∉ j.mentions := by
  intro j hj hm
  rcases hs.mentions _ (mem_mentionsAll.mpr ⟨j, hj, hm⟩) with h | h
  · exact hvis h
  · exact hn (mem_numbers.mpr ⟨t, h⟩)

/-- A temporary that is neither visible nor declared is not mentioned. -/
theorem Sound.not_mentioned {t : Temp} {n : Nat} (h : blk.Sound vis)
    (hvis : ¬ vis.Sees (.temp t n)) (hn : n ∉ numbers blk.code) : .temp t n ∉ blk.mentions := by
  intro hm
  rcases List.mem_append.mp hm with hm | hm
  · obtain ⟨j, hj, hm⟩ := mem_mentionsAll.mp hm
    exact not_mentioned_of_scoped h.code hvis hn j hj hm
  · have heq : .temp t n = blk.result := List.mem_singleton.mp hm
    rcases h.result with hr | hr
    · cases heq.trans hr
    · rcases Scope.sees_append.mp hr with hr | hr
      · exact hvis (heq ▸ hr)
      · exact hn (mem_numbers_of_sees (heq ▸ hr))

/-- A scoped operation reads what is visible before its pair. -/
theorem reads_visible (hi : i.Scoped vis) : ∀ x ∈ i.reads, vis.Sees x := by
  intro x hx
  cases i with
  | put dst p => exact hi x hx
  | call dst callee args => exact hi x hx
  | branch dst kind test a av b bv => exact List.mem_singleton.mp hx ▸ hi.1
  | slot dst => exact absurd hx List.not_mem_nil
  | copy dst src => exact List.mem_singleton.mp hx ▸ hi.2
  | halt arg => exact List.mem_singleton.mp hx ▸ hi
  | verbatim d o => exact absurd hx List.not_mem_nil

/-- It writes what is visible before or what its own pair declares. -/
theorem writes_visible (hi : i.Scoped vis) :
    ∀ x ∈ i.writes, vis.Sees x ∨ Scope.Sees i.declares x := by
  intro x hx
  cases i with
  | slot dst => exact absurd hx List.not_mem_nil
  | copy dst src => exact Or.inl (List.mem_singleton.mp hx ▸ hi.1)
  | verbatim d o => exact absurd hx List.not_mem_nil
  | _ => exact Or.inr ⟨_, List.mem_singleton.mpr (Prod.ext (List.mem_singleton.mp hx) rfl)⟩

/-- A pair with a temporary has an operation that fills it. -/
theorem writes_of_declares (hi : i.Scoped vis) {t : Temp} {n : Nat} {ty : VarType}
    (hd : (Ident.temp t n, ty) ∈ i.declares) : .temp t n ∈ i.writes := by
  cases i with
  | slot dst =>
    -- Only the slots of source names are declared without being filled.
    obtain ⟨x, rfl⟩ := hi
    cases List.mem_singleton.mp hd
  | halt arg => cases List.mem_singleton.mp hd
  | copy dst src => exact absurd hd List.not_mem_nil
  | verbatim d o => exact absurd hd List.not_mem_nil
  | _ =>
    cases List.mem_singleton.mp hd
    exact List.mem_singleton_self _

/-- What a pair declares at any depth is not visible before it. -/
theorem Sound.unseen (h : blk.Sound vis) (hcode : blk.code = pre ++ i :: post) {t : Temp} {n : Nat}
    (hn : n ∈ numbers [i]) : ¬ (vis ++ declaresAll pre).Sees (.temp t n) := by
  obtain ⟨hnd, hap⟩ := h.numbers_eq hcode
  intro hsees
  rcases Scope.sees_append.mp hsees with hsees | hsees
  · exact hap t n hsees (by grind)
  · have hpre : n ∈ numbers pre := mem_numbers_of_sees hsees
    grind

theorem mem_numbers_of_declares {t : Temp} {n : Nat} {ty : VarType}
    (hd : (Ident.temp t n, ty) ∈ i.declares) : n ∈ numbers [i] := by
  refine mem_numbers_of_sees (t := t) ⟨ty, ?_⟩
  rw [declaresAll_cons]
  exact List.mem_append_left _ hd

/-- Scoped code is well scoped pair by pair. -/
theorem Sound.wellScoped (h : blk.Sound vis) : blk.WellScoped vis where
  declared i _ x t hd := declares_text hd
  resolved pre i post hcode x hx := by
    obtain ⟨_, hi, _⟩ := h.pair hcode
    have hown : (vis ++ declaresAll pre).Sees x ∨ Scope.Sees i.declares x := by
      rcases List.mem_append.mp hx with hx | hx
      · exact Or.inl (reads_visible hi x hx)
      · exact writes_visible hi x hx
    rw [declaresAll_append, declaresAll_cons, declaresAll_nil, List.append_nil, ← List.append_assoc]
    exact Scope.sees_append.mpr hown
  result := h.result
  assigned i hi t n ty hd := by
    obtain ⟨pre, post, hcode⟩ := List.append_of_mem hi
    obtain ⟨_, hscoped, _⟩ := h.pair hcode
    exact writes_of_declares hscoped hd
  readBehind pre i post hcode t n ty hd := by
    obtain ⟨hpre, hi, _⟩ := h.pair hcode
    obtain ⟨hnd, _⟩ := h.numbers_eq hcode
    have hn : n ∈ numbers [i] := mem_numbers_of_declares hd
    have hunseen := h.unseen hcode (t := t) hn
    refine ⟨fun hr => hunseen (reads_visible hi _ hr), ?_, ?_⟩
    · intro arm harm
      obtain ⟨l, r, heq, hl, _⟩ := numbers_arm harm
      have hown : n ∈ l := hl t n ty hd
      rw [heq] at hnd
      exact (h.arm hcode harm).not_mentioned hunseen (by grind)
    · refine not_mentioned_of_scoped hpre (fun hs => hunseen (Scope.sees_append.mpr (Or.inl hs))) ?_
      grind
  armLocal pre i post hcode arm harm t n hmem := by
    obtain ⟨hpre, hi, hpost⟩ := h.pair hcode
    obtain ⟨hnd, _⟩ := h.numbers_eq hcode
    obtain ⟨l, r, heq, hl, hothers⟩ := numbers_arm harm
    have hn : n ∈ numbers arm.code := mem_numbers.mpr ⟨t, hmem⟩
    have hunseen : ¬ (vis ++ declaresAll pre).Sees (.temp t n) :=
      h.unseen hcode (by rw [heq]; grind)
    rw [heq] at hnd
    -- The pair itself declares no variable with this number outside the arm.
    have hown : ¬ Scope.Sees i.declares (.temp t n) := by
      rintro ⟨ty, hd⟩
      have hmeml := hl t n ty hd
      grind
    have hbehind : ¬ (vis ++ declaresAll (pre ++ [i])).Sees (.temp t n) := by
      rw [declaresAll_append, declaresAll_cons, declaresAll_nil, List.append_nil,
        ← List.append_assoc]
      intro hs
      exact (Scope.sees_append.mp hs).elim hunseen hown
    refine ⟨?_, ?_, ?_, ?_⟩
    · intro hx
      rcases List.mem_append.mp hx with hx | hx
      · exact hunseen (reads_visible hi _ hx)
      · exact (writes_visible hi _ hx).elim hunseen hown
    · intro j hj
      rcases List.mem_append.mp hj with hj | hj
      · refine not_mentioned_of_scoped hpre (fun hs => hunseen (Scope.sees_append.mpr (Or.inl hs))) ?_ j hj
        grind
      · exact not_mentioned_of_scoped hpost hbehind (by grind) j hj
    · intro other ho hne
      refine (h.arm hcode ho).not_mentioned hunseen fun hno => ?_
      have hlr := hothers other ho hne n hno
      grind
    · intro hres
      rcases h.result with hr | hr
      · cases hres.symm.trans hr
      · rw [hres, hcode, List.append_cons, declaresAll_append, ← List.append_assoc] at hr
        rcases Scope.sees_append.mp hr with hr | hr
        · exact hbehind hr
        · have hpostn : n ∈ numbers post := mem_numbers_of_sees hr
          grind
  ownRight pre i post hcode := by
    obtain ⟨_, hi, _⟩ := h.pair hcode
    refine ⟨hi.mentions, fun arm harm x hx => ?_⟩
    obtain ⟨hscoped, hresult⟩ := hi.arm harm
    rcases List.mem_append.mp hx with hx | hx
    · exact hscoped.mentions x hx
    · rw [List.mem_singleton.mp hx]
      exact (Scope.sees_append.mp hresult).imp_right declaresWithinAll_of_sees

/-- All blocks of sound code, at any depth, are well scoped. -/
theorem Sound.nested (h : blk.Sound vis) {vis' : Scope} {blk' : Block}
    (hn : Nested vis blk vis' blk') : blk'.Sound vis' := by
  induction hn with
  | self => exact h
  | arm _ hcode harm ih => exact ih.arm hcode harm

end Block

end Trampoline

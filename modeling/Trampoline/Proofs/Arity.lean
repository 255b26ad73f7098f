import Trampoline.Proofs.Classes
import Trampoline.Proofs.Sections

/-!
# Trampoline.Proofs.Arity -- a call operator for every call

A thunk calls its closure by the number of its arguments, and the base class has a call operator for each
number in a range. The range is the least that holds the parameters of all lambdas and the arguments of
all thunks.

There are two sides to this. The arities that lowering marks are counts of the tree: `Lowers.mem_arities`
finds each at a lambda or at a tail call, and `Lowers.mem_thunkCountsIn` finds the arguments of every thunk
in emitted code, at any depth and in any class, at a tail call. In the text, the call operators of the
base class and the cases of a thunk's step are picked out of the lines of the unit by the way they start.
-/

namespace Trampoline

namespace Expr

/-! ## Counts in a tree -/

/-- The number of parameters of a lambda. -/
def paramCount? : Expr → Option Nat
  | .lambda _ params _ => some params.length
  | _ => none

/-- The number of arguments that a tail call passes on. An operator calls its continuation with its one
result. -/
def argCount? : Expr → Option Nat
  | .app (.var f) args => some (if Primitive.isName f then 1 else args.length)
  | _ => none

/-- Some node of the tree has a count. -/
def HasCount (count : Expr → Option Nat) (e : Expr) (k : Nat) : Prop :=
  ∃ path a, e.reach? path = some a ∧ count a = some k

section

variable {count : Expr → Option Nat} {k : Nat}

/-- A count is found at the root or in a child. -/
theorem hasCount_iff {e : Expr} :
    e.HasCount count k ↔ count e = some k ∨ ∃ i c, e.child? i = some c ∧ c.HasCount count k :=
  exists_reach_step

theorem hasCount_leaf {e : Expr} (hleaf : ∀ i, e.child? i = none) :
    e.HasCount count k ↔ count e = some k := by
  rw [hasCount_iff]
  refine or_iff_left ?_
  rintro ⟨i, c, hc, _⟩
  rw [hleaf i] at hc
  cases hc

theorem hasCount_lambda {name : Bytes} {params : List Bytes} {body : Expr} :
    (Expr.lambda name params body).HasCount count k ↔
      count (.lambda name params body) = some k ∨ body.HasCount count k := by
  rw [hasCount_iff, exists_child_lambda (P := fun _ c => c.HasCount count k)]

/-- The name of a callee has no count of its own. -/
theorem hasCount_call {f : Bytes} {args : List Expr} (hvar : count (.var f) = none) :
    (Expr.app (.var f) args).HasCount count k ↔
      count (.app (.var f) args) = some k ∨ ∃ a ∈ args, a.HasCount count k := by
  have hcallee : ¬ (Expr.var f).HasCount count k := by
    rw [hasCount_leaf fun i => by cases i <;> rfl, hvar]
    exact nofun
  rw [hasCount_iff, exists_child_app (P := fun _ c => c.HasCount count k), or_iff_right hcallee]
  refine or_congr_right ⟨?_, ?_⟩
  · rintro ⟨i, a, ha, hk⟩
    exact ⟨a, List.mem_of_getElem? ha, hk⟩
  · rintro ⟨a, ha, hk⟩
    obtain ⟨i, hi⟩ := List.mem_iff_getElem?.mp ha
    exact ⟨i, a, hi, hk⟩

theorem hasCount_cond {test a b : Expr} (hown : count (.cond test a b) = none) :
    (Expr.cond test a b).HasCount count k ↔
      (test.HasCount count k ∨ a.HasCount count k) ∨ b.HasCount count k := by
  rw [hasCount_iff, exists_child_cond (P := fun _ c => c.HasCount count k), hown, or_assoc]
  exact or_iff_right nofun

theorem hasCount_letrec {defs : List (Bytes × Expr)} {body : Expr}
    (hown : count (.letrec defs body) = none) :
    (Expr.letrec defs body).HasCount count k ↔
      (∃ d ∈ defs, d.2.HasCount count k) ∨ body.HasCount count k := by
  rw [hasCount_iff, exists_child_letrec (P := fun _ c => c.HasCount count k), hown,
    or_iff_right nofun, or_comm]
  refine or_congr_left ⟨?_, ?_⟩
  · rintro ⟨i, a, ha, hk⟩
    obtain ⟨d, hd, rfl⟩ := List.mem_map.mp (List.mem_of_getElem? ha)
    exact ⟨d, hd, hk⟩
  · rintro ⟨d, hd, hk⟩
    obtain ⟨i, hi⟩ := List.mem_iff_getElem?.mp (List.mem_map_of_mem (f := Prod.snd) hd)
    exact ⟨i, d.2, hi, hk⟩

end

/-- The arity that a node brings into use. -/
def arity? (e : Expr) : Option Nat := e.paramCount?.or e.argCount?

theorem arity?_eq_some {e : Expr} {k : Nat} :
    e.arity? = some k ↔ e.paramCount? = some k ∨ e.argCount? = some k := by
  cases e <;> simp [arity?, paramCount?, argCount?]

/-- An arity comes from a lambda or from a tail call. -/
theorem hasCount_arity {e : Expr} {k : Nat} :
    e.HasCount arity? k ↔ e.HasCount paramCount? k ∨ e.HasCount argCount? k := by
  simp only [HasCount, arity?_eq_some, and_or_left, exists_or]

end Expr

namespace Instr

/-! ## Counts in emitted code -/

mutual

/-- The numbers of arguments of the thunks that an instruction makes, the arms of a conditional
included. -/
def thunkCounts : Instr → List Nat
  | .call _ _ args => [args.length]
  | .branch _ _ _ a _ b _ => thunkCountsAll a ++ thunkCountsAll b
  | _ => []

def thunkCountsAll : List Instr → List Nat
  | [] => []
  | i :: is => i.thunkCounts ++ thunkCountsAll is

end

theorem thunkCountsAll_append (a b : List Instr) :
    thunkCountsAll (a ++ b) = thunkCountsAll a ++ thunkCountsAll b := by
  induction a with
  | nil => rfl
  | cons i is ih => rw [List.cons_append, thunkCountsAll, thunkCountsAll, ih, List.append_assoc]

theorem thunkCountsAll_slots (ds : List (Bytes × Expr)) :
    thunkCountsAll (ds.map fun d => .slot (.named d.1)) = [] := by
  induction ds with
  | nil => rfl
  | cons d ds ih => exact ih

end Instr

/-- The numbers of arguments of the thunks that the body of a class makes. -/
def ClassEntry.thunkCounts (c : ClassEntry) : List Nat :=
  match c.closure with
  | some clo => Instr.thunkCountsAll clo.body.code
  | none => []

namespace Lowering

variable {cs : Captures} {k : Nat}

open Trampoline.Expr Instr

/-- The numbers of arguments of all thunks that code and classes make. -/
def thunkCountsIn (code : List Instr) (C : List ClassEntry) : List Nat :=
  thunkCountsAll code ++ C.flatMap ClassEntry.thunkCounts

/-- Counts in code and classes are those of their parts. -/
theorem mem_thunkCountsIn_append {a b : List Instr} {C D : List ClassEntry} :
    k ∈ thunkCountsIn (a ++ b) (C ++ D) ↔ k ∈ thunkCountsIn a C ∨ k ∈ thunkCountsIn b D := by
  simp only [thunkCountsIn, thunkCountsAll_append, List.flatMap_append, List.mem_append]
  exact or_or_or_comm

theorem mem_thunkCountsIn_code {a b : List Instr} {C : List ClassEntry} :
    k ∈ thunkCountsIn (a ++ b) C ↔ k ∈ thunkCountsIn a C ∨ k ∈ thunkCountsAll b := by
  simp only [thunkCountsIn, thunkCountsAll_append, List.mem_append]
  exact or_right_comm

/-! ## Marked arities -/

/-- The arities that a list of trees marks are the counts of its members. -/
theorem LowersList.mem_arities {node : Node} {i : Nat} {es : List Expr}
    (ih : ∀ e ∈ es, ∀ {node n f n' C A}, Lowers cs node e n f n' C A → (k ∈ A ↔ e.HasCount arity? k))
    {n n' : Nat} {fs : List Fragment} {C : List ClassEntry} {A : List Nat}
    (h : LowersList cs node i es n fs n' C A) : k ∈ A ↔ ∃ e ∈ es, e.HasCount arity? k := by
  induction es generalizing i n fs C A with
  | nil =>
    cases h
    simp
  | cons e es ihs =>
    cases h with
    | cons he hs =>
      obtain ⟨ihe, ihes⟩ := List.forall_mem_cons.mp ih
      rw [List.mem_append, ihe he, ihs ihes hs]
      simp only [List.mem_cons, exists_eq_or_imp]

/-- The same for the values of bindings. -/
theorem LowersDefs.mem_arities {node : Node} {i : Nat} {ds : List (Bytes × Expr)}
    (ih : ∀ d ∈ ds, ∀ {node n f n' C A}, Lowers cs node d.2 n f n' C A →
      (k ∈ A ↔ d.2.HasCount arity? k))
    {n n' : Nat} {code : List Instr} {C : List ClassEntry} {A : List Nat}
    (h : LowersDefs cs node i ds n code n' C A) : k ∈ A ↔ ∃ d ∈ ds, d.2.HasCount arity? k := by
  induction ds generalizing i n code C A with
  | nil =>
    cases h
    simp
  | cons d ds ihs =>
    cases h with
    | cons hx he hk hs =>
      obtain ⟨ihe, ihes⟩ := List.forall_mem_cons.mp ih
      rw [List.mem_append, ihe he, ihs ihes hs]
      simp only [List.mem_cons, exists_eq_or_imp]

/-- The arities that lowering marks are those of the lambdas and tail calls of the tree. -/
theorem Lowers.mem_arities {node : Node} {e : Expr} {n n' : Nat} {f : Fragment} {C : List ClassEntry}
    {A : List Nat} (h : Lowers cs node e n f n' C A) : k ∈ A ↔ e.HasCount arity? k := by
  induction e using Expr.induction generalizing node n f n' C A with
  | var x =>
    cases h
    rw [hasCount_leaf fun i => by cases i <;> rfl]
    simp [arity?, paramCount?, argCount?]
  | literal l =>
    cases h
    rw [hasCount_leaf fun i => by cases i <;> rfl]
    simp [arity?, paramCount?, argCount?]
  | lambda name params body ih =>
    cases h with
    | lambda hc hb hk =>
      rw [hasCount_lambda, List.mem_cons, ih hb, arity?_eq_some]
      simp [paramCount?, argCount?, eq_comm]
  | app callee args _ ihs =>
    cases h with
    | call hf hs =>
      rw [hasCount_call rfl, List.mem_append, hs.mem_arities (fun a ha => ihs a ha), hs.length_eq,
        List.mem_singleton, or_comm]
      simp [arity?, paramCount?, argCount?, hf, eq_comm]
    | operate hf hs hp =>
      rw [hasCount_call rfl, List.mem_append, hs.mem_arities (fun a ha => ihs a ha),
        List.mem_singleton, or_comm]
      simp [arity?, paramCount?, argCount?, hf, eq_comm]
  | cond test a b iht iha ihb =>
    cases h with
    | cond ht ha hb hk =>
      rw [hasCount_cond rfl, List.mem_append, List.mem_append, iht ht, iha ha, ihb hb]
  | letrec defs body ihs ihb =>
    cases h with
    | letrec hd hb =>
      rw [hasCount_letrec rfl, List.mem_append, hd.mem_arities (fun d hd => ihs d hd), ihb hb]
  | native uses code =>
    cases h
    rw [hasCount_leaf fun i => by cases i <;> rfl]
    simp [arity?, paramCount?, argCount?]
  | seq exprs _ => cases h
  | assign x value _ => cases h
  | assignThen x value next _ _ => cases h

/-! ## Thunks -/

/-- The thunks that the code of a list makes are the tail calls of its members. -/
theorem LowersList.mem_thunkCountsIn {node : Node} {i : Nat} {es : List Expr}
    (ih : ∀ e ∈ es, ∀ {node n f n' C A}, Lowers cs node e n f n' C A →
      (k ∈ thunkCountsIn f.code C ↔ e.HasCount argCount? k))
    {n n' : Nat} {fs : List Fragment} {C : List ClassEntry} {A : List Nat}
    (h : LowersList cs node i es n fs n' C A) :
    k ∈ thunkCountsIn (fs.flatMap Fragment.code) C ↔ ∃ e ∈ es, e.HasCount argCount? k := by
  induction es generalizing i n fs C A with
  | nil =>
    cases h
    simp [thunkCountsIn, thunkCountsAll]
  | cons e es ihs =>
    cases h with
    | cons he hs =>
      obtain ⟨ihe, ihes⟩ := List.forall_mem_cons.mp ih
      rw [List.flatMap_cons, mem_thunkCountsIn_append, ihe he, ihs ihes hs]
      simp only [List.mem_cons, exists_eq_or_imp]

/-- The same for the values of bindings. -/
theorem LowersDefs.mem_thunkCountsIn {node : Node} {i : Nat} {ds : List (Bytes × Expr)}
    (ih : ∀ d ∈ ds, ∀ {node n f n' C A}, Lowers cs node d.2 n f n' C A →
      (k ∈ thunkCountsIn f.code C ↔ d.2.HasCount argCount? k))
    {n n' : Nat} {code : List Instr} {C : List ClassEntry} {A : List Nat}
    (h : LowersDefs cs node i ds n code n' C A) :
    k ∈ thunkCountsIn code C ↔ ∃ d ∈ ds, d.2.HasCount argCount? k := by
  induction ds generalizing i n code C A with
  | nil =>
    cases h
    simp [thunkCountsIn, thunkCountsAll]
  | cons d ds ihs =>
    cases h with
    | cons hx he hk hs =>
      obtain ⟨ihe, ihes⟩ := List.forall_mem_cons.mp ih
      rw [mem_thunkCountsIn_append, ihs ihes hs]
      simp only [List.mem_cons, exists_eq_or_imp, ← ihe he, mem_thunkCountsIn_code]
      simp [thunkCountsAll, thunkCounts]

/-- The thunks of emitted code, in any arm and any class, are those of the tail calls of the tree. -/
theorem Lowers.mem_thunkCountsIn {node : Node} {e : Expr} {n n' : Nat} {f : Fragment}
    {C : List ClassEntry} {A : List Nat} (h : Lowers cs node e n f n' C A) (he : e.OnlyHaltCode) :
    k ∈ thunkCountsIn f.code C ↔ e.HasCount argCount? k := by
  induction e using Expr.induction generalizing node n f n' C A with
  | var x =>
    cases h
    rw [hasCount_leaf fun i => by cases i <;> rfl]
    simp [thunkCountsIn, thunkCountsAll, argCount?]
  | literal l =>
    cases h
    rw [hasCount_leaf fun i => by cases i <;> rfl]
    simp [thunkCountsIn, thunkCountsAll, thunkCounts, argCount?]
  | lambda name params body ih =>
    cases h with
    | lambda hc hb hk =>
      rw [hasCount_lambda, ← ih hb (he.child (i := 0) rfl)]
      simp [thunkCountsIn, thunkCountsAll, thunkCounts, ClassEntry.thunkCounts, argCount?]
  | app callee args _ ihs =>
    have ihargs : ∀ a ∈ args, ∀ {node n f n' C A}, Lowers cs node a n f n' C A →
        (k ∈ thunkCountsIn f.code C ↔ a.HasCount argCount? k) := by
      intro a ha _ _ _ _ _ _ h
      obtain ⟨i, hi⟩ := List.mem_iff_getElem?.mp ha
      exact ihs a ha h (he.child (i := i + 1) hi)
    cases h with
    | call hf hs =>
      rw [hasCount_call rfl, ← hs.mem_thunkCountsIn ihargs, mem_thunkCountsIn_code, or_comm]
      simp [thunkCountsAll, thunkCounts, argCount?, hf, hs.length_eq, eq_comm]
    | operate hf hs hp =>
      rw [hasCount_call rfl, ← hs.mem_thunkCountsIn ihargs, mem_thunkCountsIn_code, or_comm]
      simp [thunkCountsAll, thunkCounts, argCount?, hf, eq_comm]
  | cond test a b iht iha ihb =>
    cases h with
    | cond ht ha hb hk =>
      rw [hasCount_cond rfl, ← iht ht (he.child (i := 0) rfl), ← iha ha (he.child (i := 1) rfl),
        ← ihb hb (he.child (i := 2) rfl)]
      simp only [thunkCountsIn, thunkCountsAll_append, thunkCountsAll, thunkCounts, List.append_nil,
        List.flatMap_append, List.mem_append]
      tauto
  | letrec defs body ihs ihb =>
    cases h with
    | letrec hd hb =>
      have ihdefs : ∀ d ∈ defs, ∀ {node n f n' C A}, Lowers cs node d.2 n f n' C A →
          (k ∈ thunkCountsIn f.code C ↔ d.2.HasCount argCount? k) := by
        intro d hmem _ _ _ _ _ _ h
        obtain ⟨i, hi⟩ := List.mem_iff_getElem?.mp hmem
        exact ihs d hmem h (he.child (i := i + 1) (Option.map_eq_some_iff.mpr ⟨d, hi, rfl⟩))
      rw [hasCount_letrec rfl, ← hd.mem_thunkCountsIn ihdefs, ← ihb hb (he.child (i := 0) rfl),
        mem_thunkCountsIn_append, thunkCountsIn, thunkCountsAll_append, thunkCountsAll_slots,
        List.nil_append]
      rfl
  | native uses code =>
    cases h
    rw [hasCount_leaf fun i => by cases i <;> rfl]
    rcases he with he | ⟨p, hp⟩
    · exact absurd he not_onlyHalts_native
    · cases hp
      simp [thunkCountsIn, haltCode, thunkCountsAll, thunkCounts, argCount?]
  | seq exprs _ => cases h
  | assign x value _ => cases h
  | assignThen x value next _ _ => cases h

end Lowering

open Bytes

namespace ClassTable

/-- Both ends of the range are in use. -/
theorem mem_arities_of_range {t : ClassTable} {lo hi : Nat} (h : t.arityRange = .ok (lo, hi)) :
    lo ∈ t.arities ∧ hi ∈ t.arities := by
  unfold arityRange at h
  split at h
  · next hlo hhi =>
    cases h
    exact ⟨List.mem_of_head? hlo, List.mem_of_getLast? hhi⟩
  · cases h

theorem mem_span_iff {lo hi k : Nat} : k ∈ span (lo, hi) ↔ lo ≤ k ∧ k ≤ hi := by
  rw [span, List.mem_range'_1]
  omega

theorem nodup_span (range : Nat × Nat) : (span range).Nodup := List.nodup_range' 1

end ClassTable

/-! ## One line for every arity -/

/-- Parameters without names are their types. -/
theorem formals_nil (n : Nat) : formals n [] = commaList (List.replicate n (ascii "SCHEMETYPE_T")) := by
  simp [formals, List.map_const']

/-- Each further parameter makes the list of types fourteen bytes longer. -/
theorem length_formals (n : Nat) : (formals n []).length = 14 * n - 2 := by
  rw [formals_nil]
  have htype : (ascii "SCHEMETYPE_T").length = 12 := by decide
  have hcomma : (ascii ", ").length = 2 := by decide
  induction n with
  | zero => rfl
  | succ n ih =>
    cases n with
    | zero => exact htype
    | succ n =>
      unfold commaList at ih ⊢
      rw [List.replicate_succ, List.replicate_succ, List.intercalate_cons_cons, ← List.replicate_succ,
        List.length_append, List.length_append, ih]
      omega

/-- A line in which parameters stand between two fixed texts tells how many they are. -/
theorem formals_between_injective (front back : Bytes) :
    Function.Injective fun n => front ++ formals n [] ++ back := by
  intro m n h
  have hlength := congrArg List.length h
  simp only [List.length_append, length_formals] at hlength
  omega

theorem caseLine_injective : Function.Injective Program.caseLine := by
  intro m n h
  unfold Program.caseLine at h
  exact Bytes.decimal_injective (List.append_cancel_left (List.append_cancel_right h))

/-- Of the lines that start in a given way there is one for every arity from `lo` to `hi`, in order. There
are no others, and no two of them are equal. -/
structure OnePerArity (lo hi : Nat) (start : Bytes) (line : Nat → Bytes) (ls : List Bytes) : Prop where
  lines_eq : ls.filter (startsWith · start) = (ClassTable.span (lo, hi)).map line
  nodup : ((ClassTable.span (lo, hi)).map line).Nodup

/-- There is a line for each arity in the range. -/
theorem OnePerArity.mem {lo hi n : Nat} {start : Bytes} {line : Nat → Bytes} {ls : List Bytes}
    (h : OnePerArity lo hi start line ls) (hlo : lo ≤ n) (hhi : n ≤ hi) : line n ∈ ls := by
  have hmem : line n ∈ (ClassTable.span (lo, hi)).map line :=
    List.mem_map_of_mem (ClassTable.mem_span_iff.mpr ⟨hlo, hhi⟩)
  rw [← h.lines_eq] at hmem
  exact List.mem_of_mem_filter hmem

namespace Program

theorem span_ne_nil {lo hi : Nat} (h : lo ≤ hi) : ClassTable.span (lo, hi) ≠ [] :=
  List.ne_nil_of_mem (ClassTable.mem_span_iff.mpr ⟨Nat.le_refl lo, h⟩)

/-- The base class declares one call operator for every arity, and nothing else in the unit does. -/
theorem Printable.declared {p : Program} (h : p.Printable) {lo hi : Nat} (hle : lo ≤ hi) :
    OnePerArity lo hi ClassTable.declareStart ClassTable.declareLine (lines (p.textFor (lo, hi))) := by
  refine ⟨?_, (ClassTable.nodup_span _).map (formals_between_injective _ _)⟩
  have hhead : ∀ l ∈ ClassTable.classHead, ¬ ClassTable.declareStart <+: l := by decide
  have htail : ∀ l ∈ ClassTable.classTail, ¬ ClassTable.declareStart <+: l := by decide
  have hown : ∀ l ∈ (ClassTable.span (lo, hi)).map ClassTable.declareLine,
      ClassTable.declareStart <+: l := by
    intro l hl
    obtain ⟨n, _, rfl⟩ := List.mem_map.mp hl
    exact ⟨_, (List.append_assoc _ _ _).symm⟩
  have hops : ∀ l ∈ lines (ClassTable.baseOps (lo, hi)), ¬ ClassTable.declareStart <+: l := by
    rw [ClassTable.lines_baseOps (span_ne_nil hle)]
    intro l hl
    obtain ⟨n, _, hl⟩ := List.mem_flatMap.mp hl
    simp only [List.mem_cons, List.not_mem_nil, or_false] at hl
    rcases hl with rfl | rfl | rfl
    · exact not_prefix_of_apart ClassTable.defineStart (by decide) (by decide)
        ⟨_, (List.append_assoc _ _ _).symm⟩
    · exact not_prefix_of_apart (ascii "arity_error(arity, ") (by decide) (by decide)
        ⟨_, (List.append_assoc _ _ _).symm⟩
    · decide
  rw [h.filter_textFor _ fun l hl => hl.1, ClassTable.lines_baseDecl, List.filter_append,
    List.filter_append, filter_eq_nil hhead, filter_eq_self hown, filter_eq_nil htail, filter_eq_nil hops,
    List.nil_append, List.append_nil, List.append_nil]

/-- The call operators of the base class are defined once for every arity, and nowhere else. -/
theorem Printable.defined {p : Program} (h : p.Printable) {lo hi : Nat} (hle : lo ≤ hi) :
    OnePerArity lo hi ClassTable.defineStart ClassTable.defineLine (lines (p.textFor (lo, hi))) := by
  refine ⟨?_, (ClassTable.nodup_span _).map (formals_between_injective _ _)⟩
  have hhead : ∀ l ∈ ClassTable.classHead, ¬ ClassTable.defineStart <+: l := by decide
  have htail : ∀ l ∈ ClassTable.classTail, ¬ ClassTable.defineStart <+: l := by decide
  have hdecls : ∀ l ∈ (ClassTable.span (lo, hi)).map ClassTable.declareLine,
      ¬ ClassTable.defineStart <+: l := by
    intro l hl
    obtain ⟨n, _, rfl⟩ := List.mem_map.mp hl
    exact not_prefix_of_apart ClassTable.declareStart (by decide) (by decide)
      ⟨_, (List.append_assoc _ _ _).symm⟩
  have hown : ∀ n, [ClassTable.defineLine n, ClassTable.complainLine n, ascii "\x7d"].filter
      (startsWith · ClassTable.defineStart) = [ClassTable.defineLine n] := by
    intro n
    have hrest : ∀ l ∈ [ClassTable.complainLine n, ascii "\x7d"], ¬ ClassTable.defineStart <+: l := by
      simp only [List.forall_mem_cons, List.not_mem_nil, false_implies, implies_true, and_true]
      refine ⟨?_, by decide⟩
      exact not_prefix_of_apart (ascii "arity_error(arity, ") (by decide) (by decide)
        ⟨_, (List.append_assoc _ _ _).symm⟩
    rw [List.filter_cons_of_pos, filter_eq_nil hrest]
    exact List.isPrefixOf_iff_prefix.mpr ⟨_, (List.append_assoc _ _ _).symm⟩
  rw [h.filter_textFor _ fun l hl => hl.2, ClassTable.lines_baseDecl, List.filter_append,
    List.filter_append, filter_eq_nil hhead, filter_eq_nil hdecls, filter_eq_nil htail,
    ClassTable.lines_baseOps (span_ne_nil hle), List.filter_flatMap]
  simp only [hown, List.nil_append, ← List.map_eq_flatMap]

/-- A thunk's step has one case for every arity. -/
theorem step_cases (lo hi : Nat) :
    OnePerArity lo hi (ascii "case ") caseLine (lines (thunkStep (lo, hi))) := by
  refine ⟨?_, (ClassTable.nodup_span _).map caseLine_injective⟩
  have hhead : ∀ l ∈ stepHead, ¬ ascii "case " <+: l := by decide
  have htail : ∀ l ∈ stepTail, ¬ ascii "case " <+: l := by decide
  have hown : ∀ n, [caseLine n, callLine n].filter (startsWith · (ascii "case ")) = [caseLine n] := by
    intro n
    have hcall : ∀ l ∈ [callLine n], ¬ ascii "case " <+: l := by
      intro l hl
      rw [List.mem_singleton.mp hl]
      exact not_prefix_of_apart (ascii "return (*next)(") (by decide) (by decide)
        ⟨_, (List.append_assoc _ _ _).symm⟩
    rw [List.filter_cons_of_pos, filter_eq_nil hcall]
    exact List.isPrefixOf_iff_prefix.mpr ⟨_, (List.append_assoc _ _ _).symm⟩
  rw [lines_thunkStep, List.filter_append, List.filter_append, filter_eq_nil hhead, filter_eq_nil htail,
    List.filter_flatMap]
  simp only [hown, List.nil_append, List.append_nil, ← List.map_eq_flatMap]

/-- Each case is followed by the call that it stands for. -/
theorem case_infix_step {lo hi n : Nat} (hlo : lo ≤ n) (hhi : n ≤ hi) :
    [caseLine n, callLine n] <:+: lines (thunkStep (lo, hi)) := by
  rw [lines_thunkStep]
  have hmem : n ∈ ClassTable.span (lo, hi) := ClassTable.mem_span_iff.mpr ⟨hlo, hhi⟩
  exact ((infix_flatMap hmem fun n => [caseLine n, callLine n]).trans
    (List.prefix_append _ _).isInfix).trans (List.suffix_append _ _).isInfix

/-- A unit makes thunks and has lambdas with counts from a range, and it has what is needed to call them:
a call operator of the base class for each count, which the classes override, and a case in the step of a
thunk. -/
structure Covers (p : Program) (e : Expr) (lo hi : Nat) (text : Bytes) : Prop where
  params : ∀ n, e.HasCount Expr.paramCount? n → lo ≤ n ∧ n ≤ hi
  thunks : ∀ n ∈ Lowering.thunkCountsIn p.root.code p.table.entries, lo ≤ n ∧ n ≤ hi
  thunks_iff : ∀ n, n ∈ Lowering.thunkCountsIn p.root.code p.table.entries ↔
    e.HasCount Expr.argCount? n
  least : e.HasCount Expr.paramCount? lo ∨ lo ∈ Lowering.thunkCountsIn p.root.code p.table.entries
  greatest : e.HasCount Expr.paramCount? hi ∨ hi ∈ Lowering.thunkCountsIn p.root.code p.table.entries
  declared : OnePerArity lo hi ClassTable.declareStart ClassTable.declareLine (lines text)
  defined : OnePerArity lo hi ClassTable.defineStart ClassTable.defineLine (lines text)
  /-- a class hands the number of its parameters to the base and overrides the operator for it -/
  classes : ∀ c ∈ p.table.entries, ∃ clo path body, c.closure = some clo ∧
    e.reach? path = some (.lambda c.name clo.params body) ∧
    [clo.constructorLine c.name, ascii "using lambda_t::operator();", overrideLine clo.params.length]
      <:+: lines text ∧
    ClassTable.declareLine clo.params.length ∈ lines text
  step : lines (thunkStep (lo, hi)) <:+: lines text
  cases : OnePerArity lo hi (ascii "case ") caseLine (lines (thunkStep (lo, hi)))
  /-- a case passes the arguments on in order -/
  passes : ∀ n, lo ≤ n → n ≤ hi → [caseLine n, callLine n] <:+: lines (thunkStep (lo, hi))

end Program

/-- The arities in use are in ascending order, and they are the counts of the lambdas and tail calls. -/
theorem Build.program_arities {e : Expr} {next next' : Nat} {p : Program}
    (h : Build.program e next = (.ok p, next')) :
    p.table.Ordered ∧ ∀ k, k ∈ p.table.arities ↔ e.HasCount Expr.arity? k := by
  obtain ⟨s, hs, htable, _⟩ := Build.program_ok h
  obtain ⟨A, hL, hgrow⟩ := Build.lower_ok hs
  rw [htable, hgrow]
  refine ⟨ClassTable.Ordered.grow (t := ClassTable.empty) List.Pairwise.nil _ _, fun k => ?_⟩
  rw [ClassTable.mem_arities_grow, hL.mem_arities]
  exact or_iff_left List.not_mem_nil

/-- **Arity coverage.** For every tree whose unit can be built and whose native code is that of halt
continuations, the range of arities is the least that holds the number of parameters of every lambda and
the number of arguments of every thunk, and the unit has a call operator and a case for each arity in it
and no other. -/
theorem unit_covers {e : Expr} {next next' : Nat} {text : Bytes} (he : e.OnlyHalts)
    (h : Build.unit e next = (.ok text, next')) :
    ∃ p lo hi, Build.program e next = (.ok p, next') ∧ p.table.arityRange = .ok (lo, hi) ∧
      p.Covers e lo hi text := by
  obtain ⟨p, ⟨lo, hi⟩, hp, _, hrange, rfl⟩ := Build.unit_ok h
  obtain ⟨hordered, harities⟩ := Build.program_arities hp
  have hprint := Build.program_printable he hp
  obtain ⟨s, hs, htable, _⟩ := Build.program_ok hp
  obtain ⟨A, hL, hgrow⟩ := Build.lower_ok hs
  rw [← htable] at hL hgrow
  have hdefs := ClassTable.defs_of_eq_grow hgrow
  have hthunks : ∀ n, n ∈ Lowering.thunkCountsIn p.root.code p.table.entries ↔
      e.HasCount Expr.argCount? n := fun n => hL.mem_thunkCountsIn (Or.inl he)
  have hbounds : ∀ n, e.HasCount Expr.arity? n → lo ≤ n ∧ n ≤ hi := fun n hn =>
    ClassTable.mem_span_iff.mp (ClassTable.mem_span hordered hrange ((harities n).mpr hn))
  have hends := ClassTable.mem_arities_of_range hrange
  rw [harities, harities, Expr.hasCount_arity, Expr.hasCount_arity] at hends
  have hle : lo ≤ hi := (hbounds lo (Expr.hasCount_arity.mpr hends.1)).2
  refine ⟨p, lo, hi, hp, hrange, ?_⟩
  exact
    { params := fun n hn => hbounds n (Expr.hasCount_arity.mpr (Or.inl hn))
      thunks := fun n hn => hbounds n (Expr.hasCount_arity.mpr (Or.inr ((hthunks n).mp hn)))
      thunks_iff := hthunks
      least := hends.1.imp id (hthunks lo).mpr
      greatest := hends.2.imp id (hthunks hi).mpr
      declared := hprint.declared hle
      defined := hprint.defined hle
      classes := by
        intro c hc
        obtain ⟨path, body, clo, hreach, _, hclo, _⟩ := (hL.classOf c hc).body he
        refine ⟨clo, path, body, hclo, hreach, ?_, ?_⟩
        · have hd : c.toDef ∈ p.table.defs := hdefs ▸ List.mem_map_of_mem hc
          refine List.IsInfix.trans ?_ (Program.decl_infix (lo, hi) hd)
          rw [ClassDef.decl_filled hclo]
          exact clo.members_infix c.name
        · have hcount : e.HasCount Expr.paramCount? clo.params.length := ⟨path, _, hreach, rfl⟩
          obtain ⟨hlo, hhi⟩ := hbounds _ (Expr.hasCount_arity.mpr (Or.inl hcount))
          exact (hprint.declared hle).mem hlo hhi
      step := p.step_infix (lo, hi)
      cases := Program.step_cases lo hi
      passes := fun n hlo hhi => Program.case_infix_step hlo hhi }

/-- A call with three arguments, one of them a halt continuation with one parameter. -/
def threeArguments : Expr :=
  .app (.var [102]) [.literal (.integer 1), .literal (.integer 2), .halt [100] [104]]

/-- Nothing has arity two there, but the range has no gaps. -/
theorem unit_covers_threeArguments :
    threeArguments.OnlyHalts ∧ ∃ text next' p, Build.unit threeArguments 0 = (.ok text, next') ∧
      Build.program threeArguments 0 = (.ok p, next') ∧ p.table.arities = [1, 3] ∧
      p.Covers threeArguments 1 3 text ∧ ClassTable.declareLine 2 ∈ lines text := by
  have hhalts : threeArguments.OnlyHalts := by
    refine .app (.var _) ?_
    simp [Expr.OnlyHalts.literal, Expr.OnlyHalts.halt]
  have hbuilt : ((Build.unit threeArguments 0).1.toOption.map fun _ => ()) = some () := by decide +kernel
  have harities : ((Build.program threeArguments 0).1.toOption.map fun p => p.table.arities) = some [1, 3] := by
    decide +kernel
  obtain ⟨text, next', h, _⟩ := Build.exists_ok hbuilt
  obtain ⟨p, lo, hi, hp, hrange, hcovers⟩ := unit_covers hhalts h
  rw [hp] at harities
  replace harities : p.table.arities = [1, 3] := Option.some.inj harities
  unfold ClassTable.arityRange at hrange
  rw [harities] at hrange
  cases hrange
  exact ⟨hhalts, text, next', p, h, hp, harities, hcovers, hcovers.declared.mem (by decide) (by decide)⟩

end Trampoline

import Mathlib.Data.List.Basic
import Trampoline.Build
import Trampoline.Proofs.Tree

/-!
# Trampoline.Proofs.Derivation -- what a successful lowering has done

Lowering threads a counter and a class table through a recursion that may stop anywhere. When it does
not stop, what it did is a derivation: one rule for every kind of tree that has code, with the first
number it draws, the fragment, the number after the last one it drew, the classes it entered and the
arities it marked, both in order. `lower_ok` turns a successful run into a derivation, once; every
property of emitted code is then proved by recursion on derivations and never opens the monad.

A derivation says nothing about lambdas that were met before. The first run over a tree meets none,
because different lambdas of a tree stand at different places.
-/

namespace Trampoline

/-- Where no key comes twice, looking a key up finds what is listed with it. -/
theorem lookup_eq_some_iff_mem {α β : Type} [BEq α] [LawfulBEq α] {l : List (α × β)} {a : α} {b : β}
    (h : (l.map Prod.fst).Nodup) : l.lookup a = some b ↔ (a, b) ∈ l := by
  rw [List.lookup_eq_some_iff]
  constructor
  · rintro ⟨front, back, rfl, _⟩
    exact List.mem_append_right _ List.mem_cons_self
  · intro hmem
    obtain ⟨front, back, rfl⟩ := List.append_of_mem hmem
    refine ⟨front, back, rfl, fun p hp => ?_⟩
    rw [List.map_append, List.nodup_append] at h
    have hne := h.2.2 _ (List.mem_map_of_mem hp) a List.mem_cons_self
    simpa using hne.symm

/-! ## Growing tables -/

theorem ClassDef.decl_filled {d : ClassDef} {clo : Closure} (h : d.closure = some clo) :
    d.decl = clo.decl d.name := by
  rw [decl, h]

theorem ClassDef.op_filled {d : ClassDef} {clo : Closure} (h : d.closure = some clo) :
    d.op = clo.op d.name := by
  rw [op, h]

/-- A lambda that was met, with the class that was entered for it. -/
structure ClassEntry where
  node : Node
  name : Bytes
  closure : Option Closure

namespace ClassEntry

/-- The class alone. -/
def toDef (c : ClassEntry) : ClassDef := ⟨c.name, c.closure⟩

def decl (c : ClassEntry) : Bytes := c.toDef.decl

def op (c : ClassEntry) : Bytes := c.toDef.op

end ClassEntry

namespace ClassTable

/-- The lambdas that were met, each with the class at the index that the memo has for it. -/
def entries (t : ClassTable) : List ClassEntry :=
  t.memo.filterMap fun m => t.defs[m.2]?.map fun d => ⟨m.1, d.name, d.closure⟩

/-- A table after some classes were entered and filled and some arities were marked. -/
def grow (t : ClassTable) (classes : List ClassEntry) (arities : List Nat) : ClassTable :=
  ⟨t.memo ++ (classes.map ClassEntry.node).zipIdx t.size, t.defs ++ classes.map ClassEntry.toDef,
    arities.foldl (fun as n => Ascending.insert (fun a b => decide (a < b)) n as) t.arities⟩

@[simp]
theorem grow_nil (t : ClassTable) : t.grow [] [] = t := by
  simp [grow]

@[simp]
theorem size_grow (t : ClassTable) (C : List ClassEntry) (A : List Nat) :
    (t.grow C A).size = t.size + C.length := by
  simp [grow, size]

/-- Growing twice is growing once. -/
@[simp]
theorem grow_grow (t : ClassTable) (C D : List ClassEntry) (A B : List Nat) :
    (t.grow C A).grow D B = t.grow (C ++ D) (A ++ B) := by
  rw [grow, size_grow]
  simp [grow, List.zipIdx_append]

/-- Marking an arity grows a table by this arity. -/
theorem addArity_grow (t : ClassTable) (C : List ClassEntry) (A : List Nat) (n : Nat) :
    (t.grow C A).addArity n = t.grow C (A ++ [n]) := by
  simp [grow, addArity]

theorem enter_eq_grow (t : ClassTable) (node : Node) (name : Bytes) (k : Nat) :
    t.enter node name k = t.grow [⟨node, name, none⟩] [k] := rfl

/-- Filling at the index of a lambda reaches its class, whatever was entered behind it. -/
theorem fill_grow (t : ClassTable) (c : ClassEntry) (C : List ClassEntry) (A : List Nat) (clo : Closure) :
    (t.grow (c :: C) A).fill t.size clo = t.grow ({ c with closure := some clo } :: C) A := by
  simp [fill, grow, size, ClassEntry.toDef, List.modify_eq_take_drop]

/-- The class of a lambda that was entered has the name of the lambda. -/
theorem nameAt_grow (t : ClassTable) (c : ClassEntry) (C : List ClassEntry) (A : List Nat) :
    (t.grow (c :: C) A).nameAt t.size = c.name := by
  simp [nameAt, grow, size, ClassEntry.toDef]

/-- The index of every lambda is the number of those that were met before it. -/
def Indexed (t : ClassTable) : Prop := t.memo.map Prod.snd = List.range t.size

theorem indexed_empty : empty.Indexed := rfl

/-- A table stays indexed as it grows. -/
theorem Indexed.grow {t : ClassTable} (h : t.Indexed) (C : List ClassEntry) (A : List Nat) :
    (t.grow C A).Indexed := by
  unfold Indexed at h ⊢
  rw [size_grow, ClassTable.grow, List.map_append, h, List.zipIdx_map_snd, List.length_map,
    List.range_add, List.range'_eq_map_range]

/-- Every index in the memo has a class. -/
theorem Indexed.lt {t : ClassTable} (h : t.Indexed) {m : Node × Nat} (hm : m ∈ t.memo) :
    m.2 < t.defs.length := by
  have hmem : m.2 ∈ t.memo.map Prod.snd := List.mem_map_of_mem hm
  rw [h] at hmem
  exact List.mem_range.mp hmem

/-- What was entered stands behind what was there. -/
theorem Indexed.entries_grow {t : ClassTable} (h : t.Indexed) (C : List ClassEntry) (A : List Nat) :
    (t.grow C A).entries = t.entries ++ C := by
  induction C generalizing t with
  | nil => simp [ClassTable.grow, entries]
  | cons c C ih =>
    have hcons : t.grow (c :: C) A = (t.grow [c] []).grow C A := by simp
    have hone : (t.grow [c] []).entries = t.entries ++ [c] := by
      have hold : ∀ m ∈ t.memo, (t.defs ++ [c.toDef])[m.2]? = t.defs[m.2]? :=
        fun m hm => List.getElem?_append_left (h.lt hm)
      simp only [entries, ClassTable.grow, List.map_cons, List.map_nil, List.zipIdx_singleton,
        List.filterMap_append]
      congr 1
      · exact List.filterMap_congr fun m hm => by rw [hold m hm]
      · simp [size, ClassEntry.toDef]
    rw [hcons, ih (h.grow [c] []), hone, List.append_assoc, List.singleton_append]

/-- The classes of a table that was built from nothing. -/
@[simp]
theorem entries_empty_grow (C : List ClassEntry) (A : List Nat) : (empty.grow C A).entries = C :=
  indexed_empty.entries_grow C A

/-- The classes of such a table are those of its lambdas. -/
theorem defs_of_eq_grow {t : ClassTable} {A : List Nat} (h : t = empty.grow t.entries A) :
    t.defs = t.entries.map ClassEntry.toDef :=
  congrArg ClassTable.defs h

/-- A table that grows has met the lambdas it had met, and those that are entered. -/
theorem mem_memo_grow {t : ClassTable} {C : List ClassEntry} {A : List Nat} {node : Node} :
    node ∈ (t.grow C A).memo.map Prod.fst ↔
      node ∈ t.memo.map Prod.fst ∨ node ∈ C.map ClassEntry.node := by
  rw [grow, List.map_append, List.zipIdx_map_fst, List.mem_append]

/-- The arities of a table that grows are those it had, and those that are marked. -/
theorem mem_arities_grow {t : ClassTable} {C : List ClassEntry} {A : List Nat} {k : Nat} :
    k ∈ (t.grow C A).arities ↔ k ∈ A ∨ k ∈ t.arities := by
  induction A generalizing t with
  | nil => simp [grow]
  | cons n A ih =>
    have hstep : t.grow C (n :: A) = (t.addArity n).grow C A := rfl
    rw [hstep, ih, mem_arities_addArity, List.mem_cons, or_left_comm, or_assoc]

/-- No lambda of the table is at a node or below it. -/
def Unmet (t : ClassTable) (node : Node) : Prop := ∀ m ∈ t.memo.map Prod.fst, ¬ m.Under node

/-- If nothing was met at a place or below it, nothing was met at a child. -/
theorem Unmet.child {t : ClassTable} {node : Node} (h : t.Unmet node) (i : Nat) :
    t.Unmet (node.child i) :=
  fun m hm hu => h m hm hu.of_child

/-- Classes entered below other children leave a child unmet. -/
theorem Unmet.grow {t : ClassTable} {node : Node} {i : Nat} {C : List ClassEntry} {A : List Nat}
    (h : t.Unmet (node.child i)) (hC : ∀ c ∈ C, ∃ j, j ≠ i ∧ c.node.Under (node.child j)) :
    (t.grow C A).Unmet (node.child i) := by
  intro m hm hu
  rcases mem_memo_grow.mp hm with hm | hm
  · exact h m hm hu
  · obtain ⟨c, hc, rfl⟩ := List.mem_map.mp hm
    obtain ⟨j, hj, huj⟩ := hC c hc
    exact hj (huj.child_inj hu)

/-- A lambda without an index is not in the memo. -/
theorem index?_eq_none_iff {t : ClassTable} {node : Node} :
    t.index? node = none ↔ node ∉ t.memo.map Prod.fst := by
  rw [index?, List.lookup_eq_none_iff, List.mem_map]
  constructor
  · rintro h ⟨m, hm, rfl⟩
    simpa using h m hm
  · intro h m hm
    simpa using fun heq => h ⟨m, hm, heq.symm⟩

theorem index?_of_unmet {t : ClassTable} {node : Node} (h : t.Unmet node) : t.index? node = none :=
  index?_eq_none_iff.mpr fun hm => h node hm (Node.under_self node)

end ClassTable

namespace Lowering

/-! ## Derivations -/

/-- The temporary and the content of a constant, for those that have code. -/
def constant : Literal → Option (Temp × Payload)
  | .integer n => some (.number, .number n)
  | .boolean b => some (.boolean, .boolean b)
  | .string s => some (.string, .string s)
  | .unspecified => none

/-- The temporary of a conditional. -/
def branchTemp (kind : Kind) : Temp := if kind = .thunk then .ret else .choice

mutual

/-- `Lowers cs node e n f n' C A`: the tree `e` at `node` has the code `f`; its temporaries have the
numbers from `n` up to `n'`; the classes `C` are entered and the arities `A` are marked, in order. -/
inductive Lowers (cs : Captures) :
    Node → Expr → Nat → Fragment → Nat → List ClassEntry → List Nat → Prop
  | var {node : Node} {x : Bytes} {n : Nat} (hx : Primitive.isName x = false) :
      Lowers cs node (.var x) n ⟨some node, .named x, .value, []⟩ n [] []
  | literal {node : Node} {l : Literal} {n : Nat} {t : Temp} {p : Payload}
      (hl : constant l = some (t, p)) :
      Lowers cs node (.literal l) n ⟨some node, .temp t n, .value, [.put (.temp t n) p]⟩
        (n + 1) [] []
  | lambda {node : Node} {name : Bytes} {params : List Bytes} {body : Expr} {n n' : Nat}
      {captured : List Bytes} {b : Fragment} {C : List ClassEntry} {A : List Nat}
      (hc : cs.captured? node = some captured)
      (hb : Lowers cs (node.child 0) body n b n' C A) (hk : b.kind = .thunk) :
      Lowers cs node (.lambda name params body) n
        ⟨some node, .temp .closure n', .value,
          [.put (.temp .closure n') (.closure name (captured.map .named))]⟩
        (n' + 1) (⟨node, name, some ⟨captured, params, b⟩⟩ :: C) (params.length :: A)
  | call {node : Node} {f : Bytes} {args : List Expr} {n n' : Nat} {fs : List Fragment}
      {C : List ClassEntry} {A : List Nat} (hf : Primitive.isName f = false)
      (hs : LowersList cs node 1 args (n + 1) fs n' C A) :
      Lowers cs node (.app (.var f) args) n
        ⟨some node, .temp .ret n, .thunk,
          fs.flatMap Fragment.code ++ [.call (.temp .ret n) (.named f) (fs.map Fragment.value)]⟩
        n' C (A ++ [fs.length])
  | operate {node : Node} {f : Bytes} {args : List Expr} {n n' : Nat} {fs : List Fragment}
      {k : Fragment} {prim : PrimCall} {C : List ClassEntry} {A : List Nat}
      (hf : Primitive.isName f = true)
      (hs : LowersList cs node 1 args (n + 1) (fs ++ [k]) n' C A)
      (hp : PrimCall.ofName? f (fs.map Fragment.value) = some prim) :
      Lowers cs node (.app (.var f) args) n
        ⟨some node, .temp .ret n, .thunk,
          (fs ++ [k]).flatMap Fragment.code
            ++ [.put (.temp .primitive n') (.primitive prim),
                .call (.temp .ret n) k.value [.temp .primitive n']]⟩
        (n' + 1) C (A ++ [1])
  | cond {node : Node} {test a b : Expr} {n n₁ n₂ n₃ : Nat} {ft fa fb : Fragment}
      {Ct Ca Cb : List ClassEntry} {At Aa Ab : List Nat}
      (ht : Lowers cs (node.child 0) test n ft n₁ Ct At)
      (ha : Lowers cs (node.child 1) a n₁ fa n₂ Ca Aa)
      (hb : Lowers cs (node.child 2) b n₂ fb n₃ Cb Ab) (hk : fa.kind = fb.kind) :
      Lowers cs node (.cond test a b) n
        ⟨some node, .temp (branchTemp fa.kind) n₃, fa.kind,
          ft.code ++ [.branch (.temp (branchTemp fa.kind) n₃) fa.kind ft.value
            fa.code fa.value fb.code fb.value]⟩
        (n₃ + 1) (Ct ++ Ca ++ Cb) (At ++ Aa ++ Ab)
  | letrec {node : Node} {defs : List (Bytes × Expr)} {body : Expr} {n n₁ n₂ : Nat}
      {code : List Instr} {b : Fragment} {Cd Cb : List ClassEntry} {Ad Ab : List Nat}
      (hd : LowersDefs cs node 1 defs n code n₁ Cd Ad)
      (hb : Lowers cs (node.child 0) body n₁ b n₂ Cb Ab) :
      Lowers cs node (.letrec defs body) n
        ⟨some node, b.value, b.kind,
          defs.map (fun d => .slot (.named d.1)) ++ code ++ b.code⟩
        n₂ (Cd ++ Cb) (Ad ++ Ab)
  | native {node : Node} {uses : List Bytes} {code : Fragment} {n : Nat} :
      Lowers cs node (.native uses code) n code n [] []

/-- The same for the children of a node from a position on. -/
inductive LowersList (cs : Captures) :
    Node → Nat → List Expr → Nat → List Fragment → Nat → List ClassEntry → List Nat → Prop
  | nil {node : Node} {i n : Nat} : LowersList cs node i [] n [] n [] []
  | cons {node : Node} {i n n₁ n₂ : Nat} {e : Expr} {es : List Expr} {f : Fragment}
      {fs : List Fragment} {Ce Cs : List ClassEntry} {Ae As : List Nat}
      (he : Lowers cs (node.child i) e n f n₁ Ce Ae)
      (hs : LowersList cs node (i + 1) es n₁ fs n₂ Cs As) :
      LowersList cs node i (e :: es) n (f :: fs) n₂ (Ce ++ Cs) (Ae ++ As)

/-- The same for the definitions of a node from a position on, each with the copy into its slot. -/
inductive LowersDefs (cs : Captures) :
    Node → Nat → List (Bytes × Expr) → Nat → List Instr → Nat → List ClassEntry → List Nat → Prop
  | nil {node : Node} {i n : Nat} : LowersDefs cs node i [] n [] n [] []
  | cons {node : Node} {i n n₁ n₂ : Nat} {x : Bytes} {e : Expr} {ds : List (Bytes × Expr)}
      {v : Fragment} {code : List Instr} {Ce Cs : List ClassEntry} {Ae As : List Nat}
      (hx : alias? (x :: ds.map Prod.fst) e = none)
      (he : Lowers cs (node.child i) e n v n₁ Ce Ae) (hk : v.kind = .value)
      (hs : LowersDefs cs node (i + 1) ds n₁ code n₂ Cs As) :
      LowersDefs cs node i ((x, e) :: ds) n (v.code ++ [.copy (.named x) v.value] ++ code) n₂
        (Ce ++ Cs) (Ae ++ As)

end

/-! ## Steps that succeed -/

/-- A step and what comes behind it succeed if both do, one on the state that the other leaves. -/
theorem bind_ok {α β : Type} {x : Step α} {f : α → Step β} {s s' : State} {b : β} :
    (x >>= f) s = .ok b s' ↔ ∃ a s₁, x s = .ok a s₁ ∧ f a s₁ = .ok b s' := by
  show EStateM.bind x f s = .ok b s' ↔ _
  unfold EStateM.bind
  cases x s with
  | ok a s₁ =>
    constructor
    · intro h
      exact ⟨a, s₁, rfl, h⟩
    · rintro ⟨_, _, hx, h⟩
      cases hx
      exact h
  | error e s₁ => simp

theorem pure_ok {α : Type} {a b : α} {s s' : State} :
    (pure a : Step α) s = .ok b s' ↔ a = b ∧ s = s' := by
  show EStateM.Result.ok a s = .ok b s' ↔ _
  simp

theorem get_bind {β : Type} (f : State → Step β) (s : State) : ((get : Step State) >>= f) s = f s s := rfl

theorem unsupported_ne_ok {α : Type} {what : Unsupported} {s s' : State} {a : α} :
    ¬ unsupported what s = .ok a s' := by
  intro h
  cases h

theorem capturedBy_ok {cs : Captures} {node : Node} {s s' : State} {captured : List Bytes}
    (h : capturedBy cs node s = .ok captured s') : cs.captured? node = some captured ∧ s' = s := by
  unfold capturedBy at h
  cases hc : cs.captured? node with
  | some captured' =>
    rw [hc] at h
    cases h
    exact ⟨rfl, rfl⟩
  | none =>
    rw [hc] at h
    cases h

/-- A constant that has code takes one temporary. -/
theorem literal_ok {node : Node} {l : Literal} {s s' : State} {f : Fragment}
    (h : literal (some node) l s = .ok f s') :
    ∃ t p, constant l = some (t, p) ∧ s' = { s with next := s.next + 1 } ∧
      f = ⟨some node, .temp t s.next, .value, [.put (.temp t s.next) p]⟩ := by
  cases l with
  | integer n =>
    cases h
    exact ⟨_, _, rfl, rfl, rfl⟩
  | boolean b =>
    cases h
    exact ⟨_, _, rfl, rfl, rfl⟩
  | string t =>
    cases h
    exact ⟨_, _, rfl, rfl, rfl⟩
  | unspecified => cases h

/-- A lambda that has an index is not lowered again. -/
theorem lift_met {cs : Captures} {node : Node} {name : Bytes} {params : List Bytes}
    {body : Step Fragment} {s : State} {i : Nat} (h : s.table.index? node = some i) :
    lift cs node name params body s = .ok (s.table.nameAt i) s := by
  rw [lift, get_bind, h]
  rfl

/-- A lambda that is new is entered, and its class is completed with its captures and its body. -/
theorem lift_new {cs : Captures} {node : Node} {name : Bytes} {params : List Bytes}
    {body : Step Fragment} {s : State} (h : s.table.index? node = none) :
    lift cs node name params body s =
      (do let captured ← capturedBy cs node
          let b ← body
          complete s.table.size captured params b)
        { s with table := s.table.enter node name params.length } := by
  rw [lift, get_bind, h]
  rfl

/-- A class is completed with a body that makes a thunk. -/
theorem complete_ok {i : Nat} {captured params : List Bytes} {b : Fragment} {s s' : State} {cls : Bytes}
    (h : complete i captured params b s = .ok cls s') :
    b.kind = .thunk ∧ s' = { s with table := s.table.fill i ⟨captured, params, b⟩ } ∧
      cls = s'.table.nameAt i := by
  unfold complete at h
  by_cases hk : b.kind = .thunk
  · rw [if_pos hk] at h
    cases h
    exact ⟨hk, rfl, rfl⟩
  · rw [if_neg hk] at h
    exact absurd h unsupported_ne_ok

/-- A lambda that is met for the first time has its body lowered between its entry and its closure. -/
theorem lift_ok {cs : Captures} {node : Node} {name cls : Bytes} {params : List Bytes}
    {body : Step Fragment} {s s' : State}
    (h : lift cs node name params body s = .ok cls s') (hnew : s.table.index? node = none) :
    ∃ captured b s₁, cs.captured? node = some captured ∧
      body { s with table := s.table.enter node name params.length } = .ok b s₁ ∧
      b.kind = .thunk ∧
      s' = { s₁ with table := s₁.table.fill s.table.size ⟨captured, params, b⟩ } ∧
      cls = s'.table.nameAt s.table.size := by
  rw [lift_new hnew] at h
  obtain ⟨captured, _, hby, h⟩ := bind_ok.mp h
  obtain ⟨hcap, rfl⟩ := capturedBy_ok hby
  obtain ⟨b, s₁, hbody, h⟩ := bind_ok.mp h
  exact ⟨captured, b, s₁, hcap, hbody, complete_ok h⟩

/-- An operator call takes one temporary and marks the arity of its continuation. -/
theorem operate_ok {node : Node} {ret : Ident} {name : Bytes} {fs : List Fragment} {s s' : State}
    {f : Fragment} (h : operate node ret name fs s = .ok f s') :
    ∃ prim, PrimCall.ofName? name (fs.map Fragment.value).dropLast = some prim ∧
      s' = ⟨s.next + 1, s.table.addArity 1⟩ ∧
      f = ⟨some node, ret, .thunk, fs.flatMap Fragment.code
        ++ [.put (.temp .primitive s.next) (.primitive prim),
            .call ret ((fs.map Fragment.value).getLastD ret) [.temp .primitive s.next]]⟩ := by
  unfold operate at h
  obtain ⟨dst, _, hdraw, h⟩ := bind_ok.mp h
  cases hdraw
  cases hp : PrimCall.ofName? name (fs.map Fragment.value).dropLast with
  | some prim =>
    simp only [hp] at h
    cases h
    exact ⟨prim, rfl, rfl, rfl⟩
  | none =>
    simp only [hp] at h
    cases h

/-- The two arms of a conditional have one kind, and their result takes one temporary. -/
theorem choose_ok {node : Node} {test a b f : Fragment} {s s' : State}
    (h : choose node test a b s = .ok f s') :
    a.kind = b.kind ∧ s' = { s with next := s.next + 1 } ∧
      f = ⟨some node, .temp (branchTemp a.kind) s.next, a.kind,
        test.code ++ [.branch (.temp (branchTemp a.kind) s.next) a.kind test.value
          a.code a.value b.code b.value]⟩ := by
  unfold choose at h
  by_cases hk : a.kind = b.kind
  · rw [if_pos hk] at h
    cases h
    exact ⟨hk, rfl, rfl⟩
  · rw [if_neg hk] at h
    exact absurd h unsupported_ne_ok

/-! ## Runs are derivations -/

/-- The classes that lowering enters for a tree stand at its node or below. -/
def EntersUnder (node : Node) (C : List ClassEntry) : Prop := ∀ c ∈ C, c.node.Under node

/-- The classes that lowering enters for children stand below children from a position on. -/
def EntersFrom (node : Node) (i : Nat) (C : List ClassEntry) : Prop :=
  ∀ c ∈ C, ∃ j, i ≤ j ∧ c.node.Under (node.child j)

/-- A successful run from a state is a derivation, and the state after it is the old one, grown. -/
def Derived (cs : Captures) (node : Node) (e : Expr) : Prop :=
  ∀ {s s' : State} {f : Fragment}, lower cs node e s = .ok f s' → s.table.Unmet node →
    ∃ C A, Lowers cs node e s.next f s'.next C A ∧ s'.table = s.table.grow C A ∧ EntersUnder node C

/-- The children behind a child that was lowered are still unmet. -/
theorem unmet_after {t : ClassTable} {node : Node} {i : Nat} {C : List ClassEntry} {A : List Nat}
    (hu : ∀ j, i ≤ j → t.Unmet (node.child j)) (hC : EntersUnder (node.child i) C) :
    ∀ j, i + 1 ≤ j → (t.grow C A).Unmet (node.child j) := by
  intro j hj
  refine (hu j (by omega)).grow ?_
  intro c hc
  exact ⟨i, by omega, hC c hc⟩

theorem entersFrom_append {node : Node} {i : Nat} {C D : List ClassEntry}
    (hC : EntersUnder (node.child i) C) (hD : EntersFrom node (i + 1) D) :
    EntersFrom node i (C ++ D) := by
  intro c hc
  rcases List.mem_append.mp hc with hc | hc
  · exact ⟨i, Nat.le_refl i, hC c hc⟩
  · obtain ⟨j, hj, hu⟩ := hD c hc
    exact ⟨j, by omega, hu⟩

/-- What is entered at some children is entered under their parent. -/
theorem EntersFrom.under {node : Node} {i : Nat} {C : List ClassEntry} (h : EntersFrom node i C) :
    EntersUnder node C := by
  intro c hc
  obtain ⟨j, _, hu⟩ := h c hc
  exact hu.of_child

theorem EntersUnder.append {node : Node} {C D : List ClassEntry} (hC : EntersUnder node C)
    (hD : EntersUnder node D) : EntersUnder node (C ++ D) := by
  intro c hc
  rcases List.mem_append.mp hc with hc | hc
  · exact hC c hc
  · exact hD c hc

theorem EntersUnder.of_child {node : Node} {i : Nat} {C : List ClassEntry}
    (h : EntersUnder (node.child i) C) : EntersUnder node C :=
  fun c hc => (h c hc).of_child

/-- A list that is lowered has a derivation, if its members have. -/
theorem lowerList_ok {cs : Captures} {node : Node} {es : List Expr}
    (ih : ∀ e ∈ es, ∀ node, Derived cs node e) {i : Nat} {s s' : State} {fs : List Fragment}
    (h : lowerList cs node i es s = .ok fs s')
    (hu : ∀ j, i ≤ j → s.table.Unmet (node.child j)) :
    ∃ C A, LowersList cs node i es s.next fs s'.next C A ∧ s'.table = s.table.grow C A ∧
      EntersFrom node i C := by
  induction es generalizing i s fs with
  | nil =>
    rw [lowerList] at h
    obtain ⟨rfl, rfl⟩ := pure_ok.mp h
    exact ⟨[], [], .nil, (ClassTable.grow_nil _).symm, fun c hc => absurd hc List.not_mem_nil⟩
  | cons e es ihs =>
    rw [lowerList] at h
    obtain ⟨f, s₁, he, h⟩ := bind_ok.mp h
    obtain ⟨fs', s₂, hs, h⟩ := bind_ok.mp h
    obtain ⟨rfl, rfl⟩ := pure_ok.mp h
    obtain ⟨C, A, hL, ht, hC⟩ := ih e List.mem_cons_self _ he (hu i (Nat.le_refl i))
    have hu' : ∀ j, i + 1 ≤ j → s₁.table.Unmet (node.child j) := ht ▸ unmet_after hu hC
    obtain ⟨D, B, hLs, hts, hD⟩ := ihs (fun a ha => ih a (List.mem_cons_of_mem e ha)) hs hu'
    refine ⟨C ++ D, A ++ B, .cons hL hLs, ?_, entersFrom_append hC hD⟩
    rw [hts, ht, ClassTable.grow_grow]

/-- The same for bindings. -/
theorem lowerDefs_ok {cs : Captures} {node : Node} {ds : List (Bytes × Expr)}
    (ih : ∀ d ∈ ds, ∀ node, Derived cs node d.2) {i : Nat} {s s' : State} {code : List Instr}
    (h : lowerDefs cs node i ds s = .ok code s')
    (hu : ∀ j, i ≤ j → s.table.Unmet (node.child j)) :
    ∃ C A, LowersDefs cs node i ds s.next code s'.next C A ∧ s'.table = s.table.grow C A ∧
      EntersFrom node i C := by
  induction ds generalizing i s code with
  | nil =>
    rw [lowerDefs] at h
    obtain ⟨rfl, rfl⟩ := pure_ok.mp h
    exact ⟨[], [], .nil, (ClassTable.grow_nil _).symm, fun c hc => absurd hc List.not_mem_nil⟩
  | cons d ds ihs =>
    obtain ⟨x, e⟩ := d
    rw [lowerDefs] at h
    cases hx : alias? (x :: ds.map Prod.fst) e with
    | some y =>
      rw [hx] at h
      exact absurd h unsupported_ne_ok
    | none =>
      rw [hx] at h
      obtain ⟨v, s₁, he, h⟩ := bind_ok.mp h
      by_cases hk : v.kind = .thunk
      · rw [if_pos hk] at h
        exact absurd h unsupported_ne_ok
      · rw [if_neg hk] at h
        obtain ⟨rest, s₂, hs, h⟩ := bind_ok.mp h
        obtain ⟨rfl, rfl⟩ := pure_ok.mp h
        have hv : v.kind = .value := by
          cases hkind : v.kind with
          | value => rfl
          | thunk => exact absurd hkind hk
        obtain ⟨C, A, hL, ht, hC⟩ := ih (x, e) List.mem_cons_self _ he (hu i (Nat.le_refl i))
        have hu' : ∀ j, i + 1 ≤ j → s₁.table.Unmet (node.child j) := ht ▸ unmet_after hu hC
        obtain ⟨D, B, hLs, hts, hD⟩ := ihs (fun a ha => ih a (List.mem_cons_of_mem _ ha)) hs hu'
        refine ⟨C ++ D, A ++ B, .cons hx hL hv hLs, ?_, entersFrom_append hC hD⟩
        rw [hts, ht, ClassTable.grow_grow]

/-- An application of a name, whether it is a variable or an operator. -/
theorem app_var_ok {cs : Captures} {node : Node} {f : Bytes} {args : List Expr}
    (ih : ∀ a ∈ args, ∀ node, Derived cs node a) : Derived cs node (.app (.var f) args) := by
  intro s s' frag h hu
  have hargs : ∀ j, 1 ≤ j → s.table.Unmet (node.child j) := fun j _ => hu.child j
  rw [lower] at h
  cases hf : Primitive.isName f with
  | false =>
    rw [hf] at h
    obtain ⟨ret, _, hdraw, h⟩ := bind_ok.mp h
    cases hdraw
    obtain ⟨fs, s₁, hs, h⟩ := bind_ok.mp h
    obtain ⟨C, A, hL, ht, hC⟩ := lowerList_ok ih hs hargs
    cases h
    refine ⟨C, A ++ [fs.length], .call hf hL, ?_, hC.under⟩
    show s₁.table.addArity fs.length = _
    rw [ht, ClassTable.addArity_grow]
  | true =>
    rw [hf, if_pos rfl] at h
    cases args with
    | nil => exact absurd h unsupported_ne_ok
    | cons a as =>
      obtain ⟨ret, _, hdraw, h⟩ := bind_ok.mp h
      cases hdraw
      obtain ⟨fs, s₁, hs, h⟩ := bind_ok.mp h
      obtain ⟨C, A, hL, ht, hC⟩ := lowerList_ok ih hs hargs
      obtain ⟨prim, hp, rfl, rfl⟩ := operate_ok h
      -- There is a last argument, the continuation.
      rcases List.eq_nil_or_concat fs with rfl | ⟨init, k, rfl⟩
      · cases hL
      · rw [List.concat_eq_append] at *
        refine ⟨C, A ++ [1], ?_, ?_, hC.under⟩
        · have hp' : PrimCall.ofName? f (init.map Fragment.value) = some prim := by
            simpa using hp
          simpa using Lowers.operate hf hL hp'
        · show s₁.table.addArity 1 = _
          rw [ht, ClassTable.addArity_grow]

/-- Every successful lowering of a tree of which no lambda was met before has a derivation. -/
theorem lower_ok (cs : Captures) (node : Node) (e : Expr) : Derived cs node e := by
  induction e using Expr.induction generalizing node with
  | var x =>
    intro s s' f h hu
    rw [lower] at h
    cases hx : Primitive.isName x with
    | true =>
      rw [hx, if_pos rfl] at h
      exact absurd h unsupported_ne_ok
    | false =>
      rw [hx] at h
      cases h
      exact ⟨[], [], .var hx, (ClassTable.grow_nil _).symm, fun c hc => absurd hc List.not_mem_nil⟩
  | literal l =>
    intro s s' f h hu
    rw [lower] at h
    obtain ⟨t, p, hl, rfl, rfl⟩ := literal_ok h
    exact ⟨[], [], .literal hl, (ClassTable.grow_nil _).symm, fun c hc => absurd hc List.not_mem_nil⟩
  | lambda name params body ih =>
    intro s s' f h hu
    rw [lower] at h
    obtain ⟨cls, s₁, hlift, h⟩ := bind_ok.mp h
    obtain ⟨captured, b, s₂, hc, hb, hk, rfl, rfl⟩ := lift_ok hlift (ClassTable.index?_of_unmet hu)
    -- The entry of the lambda itself is not below its body.
    have hub : (s.table.enter node name params.length).Unmet (node.child 0) := by
      intro m hmem hunder
      rw [ClassTable.enter_eq_grow, ClassTable.mem_memo_grow] at hmem
      rcases hmem with hmem | hmem
      · exact hu m hmem hunder.of_child
      · rw [List.mem_singleton.mp hmem] at hunder
        exact Node.ne_of_under_child hunder rfl
    obtain ⟨C, A, hL, ht, hC⟩ := ih _ hb hub
    have hfill : s₂.table.fill s.table.size ⟨captured, params, b⟩ =
        s.table.grow (⟨node, name, some ⟨captured, params, b⟩⟩ :: C) (params.length :: A) := by
      rw [ht, ClassTable.enter_eq_grow, ClassTable.grow_grow, List.singleton_append,
        List.singleton_append, ClassTable.fill_grow]
    obtain ⟨captured', _, hby, h⟩ := bind_ok.mp h
    obtain ⟨hc', rfl⟩ := capturedBy_ok hby
    rw [hc] at hc'
    cases hc'
    rw [hfill, ClassTable.nameAt_grow] at h
    cases h
    refine ⟨_, _, .lambda hc hL hk, rfl, ?_⟩
    · intro c hmem
      rcases List.mem_cons.mp hmem with rfl | hmem
      · exact Node.under_self node
      · exact (hC c hmem).of_child
  | app callee args _ ihs =>
    intro s s' f h hu
    by_cases hvar : ∃ x, callee = .var x
    · obtain ⟨x, rfl⟩ := hvar
      exact app_var_ok ihs h hu
    · rw [lower] at h
      · exact absurd h unsupported_ne_ok
      · intro x hx
        exact hvar ⟨x, hx⟩
  | cond test a b iht iha ihb =>
    intro s s' f h hu
    rw [lower] at h
    obtain ⟨ft, s₁, ht, h⟩ := bind_ok.mp h
    obtain ⟨fa, s₂, ha, h⟩ := bind_ok.mp h
    obtain ⟨fb, s₃, hb, h⟩ := bind_ok.mp h
    obtain ⟨hk, rfl, rfl⟩ := choose_ok h
    have hu₀ : ∀ j, 0 ≤ j → s.table.Unmet (node.child j) := fun j _ => hu.child j
    obtain ⟨Ct, At, hLt, htt, hCt⟩ := iht _ ht (hu₀ 0 (Nat.le_refl 0))
    have hu₁ : ∀ j, 1 ≤ j → s₁.table.Unmet (node.child j) := htt ▸ unmet_after hu₀ hCt
    obtain ⟨Ca, Aa, hLa, hta, hCa⟩ := iha _ ha (hu₁ 1 (Nat.le_refl 1))
    have hu₂ : ∀ j, 2 ≤ j → s₂.table.Unmet (node.child j) := hta ▸ unmet_after hu₁ hCa
    obtain ⟨Cb, Ab, hLb, htb, hCb⟩ := ihb _ hb (hu₂ 2 (Nat.le_refl 2))
    refine ⟨Ct ++ Ca ++ Cb, At ++ Aa ++ Ab, .cond hLt hLa hLb hk, ?_, ?_⟩
    · show s₃.table = _
      rw [htb, hta, htt, ClassTable.grow_grow, ClassTable.grow_grow, List.append_assoc,
        List.append_assoc]
    · exact (hCt.of_child.append hCa.of_child).append hCb.of_child
  | letrec defs body ihs ihb =>
    intro s s' f h hu
    rw [lower] at h
    obtain ⟨code, s₁, hd, h⟩ := bind_ok.mp h
    obtain ⟨b, s₂, hb, h⟩ := bind_ok.mp h
    obtain ⟨rfl, rfl⟩ := pure_ok.mp h
    obtain ⟨Cd, Ad, hLd, htd, hCd⟩ := lowerDefs_ok ihs hd fun j _ => hu.child j
    have hub : s₁.table.Unmet (node.child 0) := by
      rw [htd]
      refine (hu.child 0).grow ?_
      intro c hc
      obtain ⟨j, hj, hunder⟩ := hCd c hc
      exact ⟨j, by omega, hunder⟩
    obtain ⟨Cb, Ab, hLb, htb, hCb⟩ := ihb _ hb hub
    refine ⟨Cd ++ Cb, Ad ++ Ab, .letrec hLd hLb, ?_, hCd.under.append hCb.of_child⟩
    rw [htb, htd, ClassTable.grow_grow]
  | seq exprs _ =>
    intro s s' f h hu
    rw [lower] at h
    exact absurd h unsupported_ne_ok
  | assign x value _ =>
    intro s s' f h hu
    rw [lower] at h
    exact absurd h unsupported_ne_ok
  | assignThen x value next _ _ =>
    intro s s' f h hu
    rw [lower] at h
    exact absurd h unsupported_ne_ok
  | native uses code =>
    intro s s' f h hu
    rw [lower] at h
    cases h
    exact ⟨[], [], .native, (ClassTable.grow_nil _).symm, fun c hc => absurd hc List.not_mem_nil⟩

end Lowering

end Trampoline

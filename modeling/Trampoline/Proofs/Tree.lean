import Trampoline.Expr

/-!
# Trampoline.Proofs.Tree -- induction on trees, and walks down a tree

An expression holds lists of expressions, so the induction that comes with the type has four
motives. Every later proof wants one: `Expr.induction` has a single motive and hands the children
that sit in a list over by membership.

A place is a list of child positions, the innermost first. A walk is taken apart at its outer end,
where it leaves the root, and that end is the last element of the list.
-/

namespace Trampoline

namespace Expr

/-! ## Induction -/

/-- Induction on a tree. Children in a list are reached by membership. -/
@[elab_as_elim]
theorem induction {motive : Expr → Prop}
    (var : ∀ name, motive (.var name))
    (literal : ∀ l, motive (.literal l))
    (lambda : ∀ name params body, motive body → motive (.lambda name params body))
    (app : ∀ callee args, motive callee → (∀ a ∈ args, motive a) → motive (.app callee args))
    (cond : ∀ test a b, motive test → motive a → motive b → motive (.cond test a b))
    (letrec : ∀ defs body, (∀ d ∈ defs, motive d.2) → motive body → motive (.letrec defs body))
    (seq : ∀ exprs, (∀ a ∈ exprs, motive a) → motive (.seq exprs))
    (assign : ∀ name value, motive value → motive (.assign name value))
    (assignThen : ∀ name value next, motive value → motive next →
      motive (.assignThen name value next))
    (native : ∀ uses code, motive (.native uses code)) : ∀ e, motive e := by
  intro e
  -- The motives of the recursor: a tree, a list of trees, a list of definitions, one definition.
  refine @Expr.rec motive (fun es => ∀ a ∈ es, motive a) (fun ds => ∀ d ∈ ds, motive d.2)
    (fun d => motive d.2)
    var literal lambda app cond letrec seq assign assignThen native ?_ ?_ ?_ ?_ ?_ e
  · intro a ha
    exact absurd ha List.not_mem_nil
  · intro a as ha has
    exact List.forall_mem_cons.mpr ⟨ha, has⟩
  · intro d hd
    exact absurd hd List.not_mem_nil
  · intro d ds hd hds
    exact List.forall_mem_cons.mpr ⟨hd, hds⟩
  · intro x e he
    exact he

/-! ## Children

What holds of some child of a node at its position, node by node. -/

section

variable {P : Nat → Expr → Prop}

theorem exists_child_lambda {name : Bytes} {params : List Bytes} {body : Expr} :
    (∃ i c, (Expr.lambda name params body).child? i = some c ∧ P i c) ↔ P 0 body := by
  constructor
  · rintro ⟨i, c, hc, hp⟩
    match i, hc with
    | 0, rfl => exact hp
  · intro hp
    exact ⟨0, body, rfl, hp⟩

theorem exists_child_app {callee : Expr} {args : List Expr} :
    (∃ i c, (Expr.app callee args).child? i = some c ∧ P i c) ↔
      P 0 callee ∨ ∃ i a, args[i]? = some a ∧ P (i + 1) a := by
  constructor
  · rintro ⟨i, c, hc, hp⟩
    match i, hc with
    | 0, rfl => exact Or.inl hp
    | i + 1, hc => exact Or.inr ⟨i, c, hc, hp⟩
  · rintro (hp | ⟨i, a, ha, hp⟩)
    · exact ⟨0, callee, rfl, hp⟩
    · exact ⟨i + 1, a, ha, hp⟩

theorem exists_child_cond {test a b : Expr} :
    (∃ i c, (Expr.cond test a b).child? i = some c ∧ P i c) ↔ P 0 test ∨ P 1 a ∨ P 2 b := by
  constructor
  · rintro ⟨i, c, hc, hp⟩
    match i, hc with
    | 0, rfl => exact Or.inl hp
    | 1, rfl => exact Or.inr (Or.inl hp)
    | 2, rfl => exact Or.inr (Or.inr hp)
  · rintro (hp | hp | hp)
    · exact ⟨0, test, rfl, hp⟩
    · exact ⟨1, a, rfl, hp⟩
    · exact ⟨2, b, rfl, hp⟩

theorem exists_child_letrec {defs : List (Bytes × Expr)} {body : Expr} :
    (∃ i c, (Expr.letrec defs body).child? i = some c ∧ P i c) ↔
      P 0 body ∨ ∃ i a, (defs.map Prod.snd)[i]? = some a ∧ P (i + 1) a := by
  constructor
  · rintro ⟨i, c, hc, hp⟩
    match i, hc with
    | 0, rfl => exact Or.inl hp
    | i + 1, hc => exact Or.inr ⟨i, c, List.getElem?_map.trans hc, hp⟩
  · rintro (hp | ⟨i, a, ha, hp⟩)
    · exact ⟨0, body, rfl, hp⟩
    · exact ⟨i + 1, a, List.getElem?_map.symm.trans ha, hp⟩

theorem exists_child_seq {exprs : List Expr} :
    (∃ i c, (Expr.seq exprs).child? i = some c ∧ P i c) ↔
      ∃ i a, exprs[i]? = some a ∧ P (i + 1) a := by
  constructor
  · rintro ⟨i, c, hc, hp⟩
    match i, hc with
    | i + 1, hc => exact ⟨i, c, hc, hp⟩
  · rintro ⟨i, a, ha, hp⟩
    exact ⟨i + 1, a, ha, hp⟩

theorem exists_child_assign {name : Bytes} {value : Expr} :
    (∃ i c, (Expr.assign name value).child? i = some c ∧ P i c) ↔ P 0 value := by
  constructor
  · rintro ⟨i, c, hc, hp⟩
    match i, hc with
    | 0, rfl => exact hp
  · intro hp
    exact ⟨0, value, rfl, hp⟩

theorem exists_child_assignThen {name : Bytes} {value next : Expr} :
    (∃ i c, (Expr.assignThen name value next).child? i = some c ∧ P i c) ↔
      P 0 value ∨ P 1 next := by
  constructor
  · rintro ⟨i, c, hc, hp⟩
    match i, hc with
    | 0, rfl => exact Or.inl hp
    | 1, rfl => exact Or.inr hp
  · rintro (hp | hp)
    · exact ⟨0, value, rfl, hp⟩
    · exact ⟨1, next, rfl, hp⟩

end

/-- Definitions are children behind the body. -/
theorem child?_def {defs : List (Bytes × Expr)} {body a : Expr} {i : Nat}
    (h : (defs.map Prod.snd)[i]? = some a) : (Expr.letrec defs body).child? (i + 1) = some a :=
  List.getElem?_map.symm.trans h

/-! What holds of all children of a node, for the nodes that have code. -/

section

variable {P : Expr → Prop}

theorem forall_child_lambda {name : Bytes} {params : List Bytes} {body : Expr} :
    (∀ i c, (Expr.lambda name params body).child? i = some c → P c) ↔ P body := by
  constructor
  · intro h
    exact h 0 body rfl
  · intro hp i c hc
    match i, hc with
    | 0, rfl => exact hp

theorem forall_child_app {callee : Expr} {args : List Expr} :
    (∀ i c, (Expr.app callee args).child? i = some c → P c) ↔ P callee ∧ ∀ a ∈ args, P a := by
  constructor
  · intro h
    refine ⟨h 0 callee rfl, fun a ha => ?_⟩
    obtain ⟨i, hi⟩ := List.mem_iff_getElem?.mp ha
    exact h (i + 1) a hi
  · rintro ⟨hp, hs⟩ i c hc
    match i, hc with
    | 0, rfl => exact hp
    | i + 1, hc => exact hs c (List.mem_of_getElem? hc)

theorem forall_child_cond {test a b : Expr} :
    (∀ i c, (Expr.cond test a b).child? i = some c → P c) ↔ P test ∧ P a ∧ P b := by
  constructor
  · intro h
    exact ⟨h 0 test rfl, h 1 a rfl, h 2 b rfl⟩
  · rintro ⟨ht, ha, hb⟩ i c hc
    match i, hc with
    | 0, rfl => exact ht
    | 1, rfl => exact ha
    | 2, rfl => exact hb

theorem forall_child_letrec {defs : List (Bytes × Expr)} {body : Expr} :
    (∀ i c, (Expr.letrec defs body).child? i = some c → P c) ↔ (∀ d ∈ defs, P d.2) ∧ P body := by
  constructor
  · intro h
    refine ⟨fun d hd => ?_, h 0 body rfl⟩
    obtain ⟨i, hi⟩ := List.mem_iff_getElem?.mp hd
    exact h (i + 1) d.2 (Option.map_eq_some_iff.mpr ⟨d, hi, rfl⟩)
  · rintro ⟨hs, hb⟩ i c hc
    match i, hc with
    | 0, rfl => exact hb
    | i + 1, hc =>
      obtain ⟨d, hd, rfl⟩ := Option.map_eq_some_iff.mp hc
      exact hs d (List.mem_of_getElem? hd)

end

/-- A child is a smaller tree. -/
theorem sizeOf_child {e c : Expr} {i : Nat} (h : e.child? i = some c) : sizeOf c < sizeOf e := by
  have hlist {es : List Expr} {j : Nat} (hj : es[j]? = some c) : sizeOf c < sizeOf es :=
    List.sizeOf_lt_of_mem (List.mem_of_getElem? hj)
  cases e with
  | var x => cases i <;> cases h
  | literal l => cases i <;> cases h
  | lambda name params body =>
    rw [lambda.sizeOf_spec]
    match i, h with
    | 0, rfl => omega
  | app callee args =>
    rw [app.sizeOf_spec]
    match i, h with
    | 0, rfl => omega
    | i + 1, h =>
      have := hlist h
      omega
  | cond test a b =>
    rw [cond.sizeOf_spec]
    match i, h with
    | 0, rfl => omega
    | 1, rfl => omega
    | 2, rfl => omega
  | letrec defs body =>
    rw [letrec.sizeOf_spec]
    match i, h with
    | 0, rfl => omega
    | i + 1, h =>
      obtain ⟨⟨x, c⟩, hd, rfl⟩ := Option.map_eq_some_iff.mp h
      have hmem := List.sizeOf_lt_of_mem (List.mem_of_getElem? hd)
      rw [Prod.mk.sizeOf_spec] at hmem
      show sizeOf c < _
      omega
  | seq exprs =>
    rw [seq.sizeOf_spec]
    match i, h with
    | i + 1, h =>
      have := hlist h
      omega
  | assign x value =>
    rw [assign.sizeOf_spec]
    match i, h with
    | 0, rfl => omega
  | assignThen x value next =>
    rw [assignThen.sizeOf_spec]
    match i, h with
    | 0, rfl => omega
    | 1, rfl => omega
  | native uses code => cases i <;> cases h

/-- Induction on a tree by its children at their positions. -/
@[elab_as_elim]
theorem child_induction {motive : Expr → Prop}
    (step : ∀ e, (∀ i c, e.child? i = some c → motive c) → motive e) (e : Expr) : motive e :=
  step e fun _ c _ => child_induction step c
termination_by sizeOf e
decreasing_by exact sizeOf_child ‹_›

/-! ## Walks -/

/-- A walk in two parts: the outer part first, the inner part from where it ends. -/
theorem reach?_append (e : Expr) (inner outer : List Nat) :
    e.reach? (inner ++ outer) = (e.reach? outer).bind (·.reach? inner) := by
  induction inner with
  | nil =>
    rw [List.nil_append]
    cases e.reach? outer <;> rfl
  | cons i inner ih =>
    rw [List.cons_append, reach?, ih]
    cases e.reach? outer <;> rfl

/-- The first step of a walk, as seen from the root. -/
theorem reach?_concat (e : Expr) (path : List Nat) (i : Nat) :
    e.reach? (path ++ [i]) = (e.child? i).bind (·.reach? path) := by
  rw [reach?_append]
  rfl

/-- A walk that starts at a child. -/
theorem reach?_of_child {e c : Expr} {i : Nat} (hc : e.child? i = some c) (path : List Nat) :
    e.reach? (path ++ [i]) = c.reach? path := by
  rw [reach?_concat, hc]
  rfl

/-- A walk stays where it is, or goes on from a child. -/
theorem reach?_cases {e a : Expr} {path : List Nat} (h : e.reach? path = some a) :
    (path = [] ∧ a = e) ∨
      ∃ inner i c, path = inner ++ [i] ∧ e.child? i = some c ∧ c.reach? inner = some a := by
  rcases List.eq_nil_or_concat path with rfl | ⟨inner, i, rfl⟩
  · cases h
    exact Or.inl ⟨rfl, rfl⟩
  · rw [List.concat_eq_append, reach?_concat] at h
    obtain ⟨c, hc, ha⟩ := Option.bind_eq_some_iff.mp h
    exact Or.inr ⟨inner, i, c, List.concat_eq_append, hc, ha⟩

section

variable {e : Expr} {P : Expr → Prop}

/-- What holds of all of a tree holds of the tree itself and of all of its children. -/
theorem forall_reach_step :
    (∀ path a, e.reach? path = some a → P a) ↔
      P e ∧ ∀ i c, e.child? i = some c → ∀ path a, c.reach? path = some a → P a := by
  constructor
  · intro h
    refine ⟨h [] e rfl, fun i c hc path a ha => ?_⟩
    exact h (path ++ [i]) a ((reach?_of_child hc path).trans ha)
  · rintro ⟨hown, hchild⟩ path a h
    rcases reach?_cases h with ⟨_, rfl⟩ | ⟨inner, i, c, _, hc, ha⟩
    · exact hown
    · exact hchild i c hc inner a ha

/-- A node is the root or lies in a child. -/
theorem exists_reach_step :
    (∃ path a, e.reach? path = some a ∧ P a) ↔
      P e ∨ ∃ i c, e.child? i = some c ∧ ∃ path a, c.reach? path = some a ∧ P a := by
  constructor
  · rintro ⟨path, a, h, hp⟩
    rcases reach?_cases h with ⟨_, rfl⟩ | ⟨inner, i, c, _, hc, ha⟩
    · exact Or.inl hp
    · exact Or.inr ⟨i, c, hc, inner, a, ha, hp⟩
  · rintro (hp | ⟨i, c, hc, path, a, ha, hp⟩)
    · exact ⟨[], e, rfl, hp⟩
    · exact ⟨path ++ [i], a, (reach?_of_child hc path).trans ha, hp⟩

end

/-! ## All places

There are finitely many walks down a tree, so what is said of all of them can be decided. -/

/-- Places below a child, as seen from the node. -/
def under (i : Nat) (ts : List (List Nat × Expr)) : List (List Nat × Expr) :=
  ts.map fun t => (t.1 ++ [i], t.2)

mutual

/-- The places of a tree with what stands there. -/
def places : Expr → List (List Nat × Expr)
  | .var x => [([], .var x)]
  | .literal l => [([], .literal l)]
  | .lambda name params body => ([], .lambda name params body) :: under 0 body.places
  | .app callee args => ([], .app callee args) :: (under 0 callee.places ++ placesList 1 args)
  | .cond test a b =>
    ([], .cond test a b) :: (under 0 test.places ++ (under 1 a.places ++ under 2 b.places))
  | .letrec defs body => ([], .letrec defs body) :: (under 0 body.places ++ placesDefs 1 defs)
  | .seq exprs => ([], .seq exprs) :: placesList 1 exprs
  | .assign x value => ([], .assign x value) :: under 0 value.places
  | .assignThen x value next =>
    ([], .assignThen x value next) :: (under 0 value.places ++ under 1 next.places)
  | .native uses code => [([], .native uses code)]

/-- The same for the children of a node from a position on. -/
def placesList (k : Nat) : List Expr → List (List Nat × Expr)
  | [] => []
  | e :: es => under k e.places ++ placesList (k + 1) es

/-- The same for the definitions of a node from a position on. -/
def placesDefs (k : Nat) : List (Bytes × Expr) → List (List Nat × Expr)
  | [] => []
  | (_, e) :: ds => under k e.places ++ placesDefs (k + 1) ds

end

theorem mem_under {i : Nat} {ts : List (List Nat × Expr)} {path : List Nat} {a : Expr} :
    (path, a) ∈ under i ts ↔ ∃ p, path = p ++ [i] ∧ (p, a) ∈ ts := by
  rw [under, List.mem_map]
  constructor
  · rintro ⟨⟨p, c⟩, hmem, heq⟩
    cases heq
    exact ⟨p, rfl, hmem⟩
  · rintro ⟨p, rfl, hmem⟩
    exact ⟨(p, a), hmem, rfl⟩

theorem mem_placesList {k : Nat} {es : List Expr} {t : List Nat × Expr} :
    t ∈ placesList k es ↔ ∃ (i : Nat) (c : Expr), es[i]? = some c ∧ t ∈ under (i + k) c.places := by
  induction es generalizing k with
  | nil => simp [placesList]
  | cons e es ih =>
    rw [placesList, List.mem_append, ih]
    constructor
    · rintro (h | ⟨i, c, hc, h⟩)
      · exact ⟨0, e, rfl, by rw [Nat.zero_add]; exact h⟩
      · exact ⟨i + 1, c, hc, by rw [Nat.add_right_comm]; exact h⟩
    · rintro ⟨i, c, hc, h⟩
      cases i with
      | zero =>
        cases hc
        rw [Nat.zero_add] at h
        exact Or.inl h
      | succ i =>
        rw [Nat.add_right_comm] at h
        exact Or.inr ⟨i, c, hc, h⟩

theorem placesDefs_eq (k : Nat) (ds : List (Bytes × Expr)) :
    placesDefs k ds = placesList k (ds.map Prod.snd) := by
  induction ds generalizing k with
  | nil => rfl
  | cons d ds ih => rw [List.map_cons, placesDefs, placesList, ih]

/-- A place is that of the tree itself, or is below a child. -/
theorem mem_places_step {e : Expr} {t : List Nat × Expr} :
    t ∈ e.places ↔ t = ([], e) ∨ ∃ i c, e.child? i = some c ∧ t ∈ under i c.places := by
  cases e with
  | var x => simp [places, child?]
  | literal l => simp [places, child?]
  | lambda name params body => rw [exists_child_lambda, places, List.mem_cons]
  | app callee args =>
    rw [exists_child_app, places, List.mem_cons, List.mem_append, mem_placesList]
  | cond test a b =>
    rw [exists_child_cond, places, List.mem_cons, List.mem_append, List.mem_append]
  | letrec defs body =>
    rw [exists_child_letrec, places, List.mem_cons, List.mem_append, placesDefs_eq, mem_placesList]
  | seq exprs => rw [exists_child_seq, places, List.mem_cons, mem_placesList]
  | assign x value => rw [exists_child_assign, places, List.mem_cons]
  | assignThen x value next =>
    rw [exists_child_assignThen, places, List.mem_cons, List.mem_append]
  | native uses code => simp [places, child?]

/-- The places of a tree are those that can be reached. -/
theorem mem_places {e a : Expr} {path : List Nat} :
    (path, a) ∈ e.places ↔ e.reach? path = some a := by
  induction e using child_induction generalizing path with
  | step e ih =>
    rw [mem_places_step]
    constructor
    · rintro (heq | ⟨i, c, hc, hmem⟩)
      · cases heq
        rfl
      · obtain ⟨p, rfl, hp⟩ := mem_under.mp hmem
        rw [reach?_of_child hc]
        exact (ih i c hc).mp hp
    · intro h
      rcases reach?_cases h with ⟨rfl, rfl⟩ | ⟨p, i, c, rfl, hc, ha⟩
      · exact Or.inl rfl
      · exact Or.inr ⟨i, c, hc, mem_under.mpr ⟨p, rfl, (ih i c hc).mpr ha⟩⟩

/-- What is to hold at all places can be checked place by place. -/
theorem forall_reach_iff {e : Expr} {P : List Nat → Expr → Prop} :
    (∀ path a, e.reach? path = some a → P path a) ↔ ∀ t ∈ e.places, P t.1 t.2 :=
  ⟨fun h t ht => h t.1 t.2 (mem_places.mp ht), fun h path a ha => h (path, a) (mem_places.mpr ha)⟩

end Expr

/-! ## Places below a node -/

namespace Node

theorem descend_nil (n : Node) : n.descend [] = n := by
  simp [descend]

theorem descend_concat (n : Node) (path : List Nat) (i : Nat) :
    n.descend (path ++ [i]) = (n.child i).descend path := by
  simp only [descend, child, List.length_append, List.length_singleton, List.append_assoc,
    List.singleton_append, mk.injEq, and_true]
  omega

/-- Places below different children of a node differ. -/
theorem child_descend_inj {n : Node} {i j : Nat} {p q : List Nat}
    (h : (n.child i).descend p = (n.child j).descend q) : i = j := by
  simp only [descend, child, mk.injEq] at h
  obtain ⟨hd, hp⟩ := h
  have hlen : p.length = q.length := by omega
  have htail := (List.append_inj hp hlen).2
  exact (List.cons.inj htail).1

/-- A place is at a node or below it. -/
def Under (m n : Node) : Prop := ∃ path, m = n.descend path

theorem under_self (n : Node) : n.Under n := ⟨[], (descend_nil n).symm⟩

theorem Under.of_child {m n : Node} {i : Nat} (h : m.Under (n.child i)) : m.Under n := by
  obtain ⟨path, rfl⟩ := h
  exact ⟨path ++ [i], (descend_concat n path i).symm⟩

/-- Nothing lies under two children. -/
theorem Under.child_inj {m n : Node} {i j : Nat} (hi : m.Under (n.child i))
    (hj : m.Under (n.child j)) : i = j := by
  obtain ⟨p, rfl⟩ := hi
  obtain ⟨q, hq⟩ := hj
  exact child_descend_inj hq

/-- No place lies under its own child. -/
theorem ne_of_under_child {m n : Node} {i : Nat} (h : m.Under (n.child i)) : m ≠ n := by
  obtain ⟨path, rfl⟩ := h
  intro heq
  have hdepth := congrArg Node.depth heq
  simp only [descend, child] at hdepth
  omega

end Node

end Trampoline

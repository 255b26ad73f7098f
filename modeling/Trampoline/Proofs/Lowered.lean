import Trampoline.Proofs.Capture
import Trampoline.Proofs.Derivation

/-!
# Trampoline.Proofs.Lowered -- what every derivation says

Facts about derivations that all properties of emitted code start from: the counter only grows, every
class comes from a lambda of the tree together with a derivation for the lambda's body, and the
captures that a lambda finds are its free names. `Build.lower_ok` puts them together for a whole tree.

Native code may say anything, so most properties hold only of trees whose native nodes are the bodies
of halt continuations. `OnlyHalts` says so.
-/

namespace Trampoline

/-! ## Trees whose native code only halts -/

/-- Native nodes stand nowhere but in halt continuations. -/
inductive Expr.OnlyHalts : Expr → Prop
  | var (x : Bytes) : OnlyHalts (.var x)
  | literal (l : Literal) : OnlyHalts (.literal l)
  | halt (name param : Bytes) : OnlyHalts (.halt name param)
  | lambda (name : Bytes) (params : List Bytes) {body : Expr} (hb : body.OnlyHalts) :
      OnlyHalts (.lambda name params body)
  | app {callee : Expr} {args : List Expr} (hc : callee.OnlyHalts)
      (hs : ∀ a ∈ args, a.OnlyHalts) : OnlyHalts (.app callee args)
  | cond {test a b : Expr} (ht : test.OnlyHalts) (ha : a.OnlyHalts) (hb : b.OnlyHalts) :
      OnlyHalts (.cond test a b)
  | letrec {defs : List (Bytes × Expr)} {body : Expr} (hd : ∀ d ∈ defs, d.2.OnlyHalts)
      (hb : body.OnlyHalts) : OnlyHalts (.letrec defs body)
  | seq {exprs : List Expr} (hs : ∀ a ∈ exprs, a.OnlyHalts) : OnlyHalts (.seq exprs)
  | assign (x : Bytes) {value : Expr} (hv : value.OnlyHalts) : OnlyHalts (.assign x value)
  | assignThen (x : Bytes) {value next : Expr} (hv : value.OnlyHalts) (hn : next.OnlyHalts) :
      OnlyHalts (.assignThen x value next)

namespace Expr

theorem not_onlyHalts_native {uses : List Bytes} {code : Fragment} :
    ¬ (Expr.native uses code).OnlyHalts := by
  intro h
  cases h

/-- The body of a lambda either has the property again or is the code of a halt continuation. -/
theorem OnlyHalts.body {name : Bytes} {params : List Bytes} {body : Expr}
    (h : (Expr.lambda name params body).OnlyHalts) :
    body.OnlyHalts ∨ ∃ p, params = [p] ∧ body = .native [p] (haltCode p) := by
  cases h with
  | halt name p => exact Or.inr ⟨p, rfl, rfl⟩
  | lambda name params hb => exact Or.inl hb

theorem OnlyHalts.args {callee : Expr} {args : List Expr} (h : (Expr.app callee args).OnlyHalts) :
    ∀ a ∈ args, a.OnlyHalts := by
  cases h with
  | app _ hs => exact hs

/-- A child of such a tree is such a tree, except for the body of a halt continuation. -/
theorem OnlyHalts.child {e c : Expr} {i : Nat} (h : e.OnlyHalts) (hc : e.child? i = some c) :
    c.OnlyHalts ∨ ∃ p, c = .native [p] (haltCode p) := by
  cases h with
  | var x => cases i <;> cases hc
  | literal l => cases i <;> cases hc
  | halt name p =>
    match i, hc with
    | 0, rfl => exact Or.inr ⟨p, rfl⟩
  | lambda name params hb =>
    match i, hc with
    | 0, rfl => exact Or.inl hb
  | app hf hs =>
    match i, hc with
    | 0, rfl => exact Or.inl hf
    | i + 1, hc => exact Or.inl (hs c (List.mem_of_getElem? hc))
  | cond ht ha hb =>
    match i, hc with
    | 0, rfl => exact Or.inl ht
    | 1, rfl => exact Or.inl ha
    | 2, rfl => exact Or.inl hb
  | letrec hd hb =>
    match i, hc with
    | 0, rfl => exact Or.inl hb
    | i + 1, hc =>
      obtain ⟨d, hmem, rfl⟩ := Option.map_eq_some_iff.mp hc
      exact Or.inl (hd d (List.mem_of_getElem? hmem))
  | seq hs =>
    match i, hc with
    | i + 1, hc => exact Or.inl (hs c (List.mem_of_getElem? hc))
  | assign x hv =>
    match i, hc with
    | 0, rfl => exact Or.inl hv
  | assignThen x hv hn =>
    match i, hc with
    | 0, rfl => exact Or.inl hv
    | 1, rfl => exact Or.inl hn

/-- The tree is the code of a halt continuation, or its native nodes are nowhere else. -/
def OnlyHaltCode (e : Expr) : Prop := e.OnlyHalts ∨ ∃ p, e = .native [p] (haltCode p)

/-- The property goes on to children. -/
theorem OnlyHaltCode.child {e c : Expr} {i : Nat} (h : e.OnlyHaltCode) (hc : e.child? i = some c) :
    c.OnlyHaltCode := by
  rcases h with h | ⟨p, rfl⟩
  · exact h.child hc
  · cases i <;> cases hc

/-- Every node of such a tree has the property or is the code of a halt continuation. -/
theorem OnlyHalts.reach {e a : Expr} {path : List Nat} (h : e.OnlyHalts)
    (hr : e.reach? path = some a) : a.OnlyHalts ∨ ∃ p, a = .native [p] (haltCode p) := by
  induction path generalizing a with
  | nil =>
    cases hr
    exact Or.inl h
  | cons i path ih =>
    obtain ⟨b, hb, hc⟩ := Option.bind_eq_some_iff.mp hr
    rcases ih hb with hb | ⟨p, rfl⟩
    · exact hb.child hc
    · cases i <;> cases hc

/-- The same for the bodies of all lambdas in the tree. -/
theorem OnlyHalts.body_of_reach {e body : Expr} {path : List Nat} {name : Bytes} {params : List Bytes}
    (h : e.OnlyHalts) (hr : e.reach? path = some (.lambda name params body)) :
    body.OnlyHalts ∨ ∃ p, params = [p] ∧ body = .native [p] (haltCode p) := by
  rcases h.reach hr with hlambda | ⟨p, heq⟩
  · exact hlambda.body
  · cases heq

end Expr

/-- Where a lambda stands, and its name. -/
def ClassEntry.place (c : ClassEntry) : Node × Bytes := (c.node, c.name)

@[inherit_doc ClassEntry.place]
def Capture.place (c : Capture) : Node × Bytes := (c.node, c.name)

namespace Lowering

/-! ## Captures -/

/-- The captures of all lambdas of a tree are known, and they are the free names. -/
def Known (cs : Captures) (node : Node) (e : Expr) : Prop :=
  ∀ path name params body, e.reach? path = some (.lambda name params body) →
    cs.captured? (node.descend path) = some (Names.without body.free params)

/-- Captures that are known for a tree are known for its children. -/
theorem Known.child {cs : Captures} {node : Node} {e c : Expr} {i : Nat} (h : Known cs node e)
    (hc : e.child? i = some c) : Known cs (node.child i) c := by
  intro path name params body hr
  rw [← Node.descend_concat]
  exact h (path ++ [i]) name params body ((Expr.reach?_of_child hc path).trans hr)

theorem Known.reach {cs : Captures} {node : Node} {e a : Expr} {path : List Nat}
    (h : Known cs node e) (ha : e.reach? path = some a) : Known cs (node.descend path) a := by
  induction path generalizing a with
  | nil =>
    cases ha
    rwa [Node.descend_nil]
  | cons i path ih =>
    obtain ⟨b, hb, hc⟩ := Option.bind_eq_some_iff.mp ha
    exact (ih hb).child hc

/-- The lambda at the node itself finds its free names. -/
theorem Known.captured_eq {cs : Captures} {node : Node} {name : Bytes} {params captured : List Bytes}
    {body : Expr} (h : Known cs node (.lambda name params body))
    (hc : cs.captured? node = some captured) : captured = Names.without body.free params := by
  have hown := h [] name params body rfl
  rw [Node.descend_nil, hc] at hown
  exact Option.some.inj hown

/-- The analysis of a tree knows all of its lambdas. -/
theorem known_captures (e : Expr) : Known (e.captures .root) .root e := by
  intro path name params body hr
  have hmem : (⟨Node.root.descend path, name, params, Names.without body.free params⟩ : Capture) ∈
      e.captures .root := Expr.mem_captures_iff.mpr ⟨path, body, hr, rfl, rfl⟩
  exact Captures.captured?_of_mem (Expr.onePerPlace_captures e .root) hmem

/-! ## Native code -/

/-- A native node is its own code and has no classes. -/
theorem lowers_native {cs : Captures} {node : Node} {uses : List Bytes} {code f : Fragment}
    {n n' : Nat} {C : List ClassEntry} {A : List Nat}
    (h : Lowers cs node (.native uses code) n f n' C A) : f = code ∧ C = [] := by
  cases h
  exact ⟨rfl, rfl⟩

/-! ## The counter -/

mutual

/-- Drawing temporaries never sets the counter back. -/
theorem Lowers.le {cs : Captures} {node : Node} {e : Expr} {n n' : Nat} {f : Fragment}
    {C : List ClassEntry} {A : List Nat} : Lowers cs node e n f n' C A → n ≤ n'
  | .var _ => Nat.le_refl _
  | .literal _ => Nat.le_succ _
  | .lambda _ hb _ => Nat.le_succ_of_le hb.le
  | .call _ hs => Nat.le_of_succ_le hs.le
  | .operate _ hs _ => Nat.le_succ_of_le (Nat.le_of_succ_le hs.le)
  | .cond ht ha hb _ => Nat.le_succ_of_le (Nat.le_trans ht.le (Nat.le_trans ha.le hb.le))
  | .letrec hd hb => Nat.le_trans hd.le hb.le
  | .native => Nat.le_refl _

/-- Numbers are only drawn, never given back. -/
theorem LowersList.le {cs : Captures} {node : Node} {i : Nat} {es : List Expr} {n n' : Nat}
    {fs : List Fragment} {C : List ClassEntry} {A : List Nat} :
    LowersList cs node i es n fs n' C A → n ≤ n'
  | .nil => Nat.le_refl _
  | .cons he hs => Nat.le_trans he.le hs.le

theorem LowersDefs.le {cs : Captures} {node : Node} {i : Nat} {ds : List (Bytes × Expr)}
    {n n' : Nat} {code : List Instr} {C : List ClassEntry} {A : List Nat} :
    LowersDefs cs node i ds n code n' C A → n ≤ n'
  | .nil => Nat.le_refl _
  | .cons _ he _ hs => Nat.le_trans he.le hs.le

end

/-- Every child has a fragment. -/
theorem LowersList.length_eq {cs : Captures} {node : Node} {i : Nat} {es : List Expr}
    {n n' : Nat} {fs : List Fragment} {C : List ClassEntry} {A : List Nat}
    (h : LowersList cs node i es n fs n' C A) : fs.length = es.length := by
  induction es generalizing i n fs C A with
  | nil =>
    cases h
    rfl
  | cons e es ih =>
    cases h with
    | cons _ hs => rw [List.length_cons, List.length_cons, ih hs]

/-! ## Classes -/

/-- What holds of all classes, where the first one is filled. -/
theorem forall_class_cons {P : Closure → Prop} {node : Node} {name : Bytes} {clo : Closure}
    {C : List ClassEntry} :
    (∀ c ∈ (⟨node, name, some clo⟩ : ClassEntry) :: C, ∀ clo', c.closure = some clo' → P clo') ↔
      P clo ∧ ∀ c ∈ C, ∀ clo', c.closure = some clo' → P clo' := by
  rw [List.forall_mem_cons]
  refine and_congr_left fun _ => ?_
  constructor
  · intro h
    exact h clo rfl
  · intro h clo' heq
    cases heq
    exact h

/-- A class comes from a lambda below a node: it has the lambda's place, name, parameters and captures,
and its code is that of the lambda's body, which is a tail call. -/
def ClassOf (cs : Captures) (node : Node) (e : Expr) (c : ClassEntry) : Prop :=
  ∃ path body clo n n' C A, e.reach? path = some (.lambda c.name clo.params body) ∧
    c.node = node.descend path ∧ c.closure = some clo ∧ cs.captured? c.node = some clo.captured ∧
    clo.body.kind = .thunk ∧ Lowers cs (c.node.child 0) body n clo.body n' C A

/-- A class of a child is a class of the tree. -/
theorem ClassOf.of_child {cs : Captures} {node : Node} {e a : Expr} {i : Nat} {c : ClassEntry}
    (ha : e.child? i = some a) (h : ClassOf cs (node.child i) a c) : ClassOf cs node e c := by
  obtain ⟨path, body, clo, n, n', C, A, hr, hnode, hrest⟩ := h
  refine ⟨path ++ [i], body, clo, n, n', C, A, (Expr.reach?_of_child ha path).trans hr, ?_, hrest⟩
  rw [Node.descend_concat]
  exact hnode

/-- In a tree whose native code only halts, the code of a class either has a derivation with this
property or is that of a halt continuation. -/
theorem ClassOf.body {cs : Captures} {node : Node} {e : Expr} {c : ClassEntry}
    (h : ClassOf cs node e c) (he : e.OnlyHalts) :
    ∃ path body clo, e.reach? path = some (.lambda c.name clo.params body) ∧
      c.node = node.descend path ∧ c.closure = some clo ∧ cs.captured? c.node = some clo.captured ∧
      ((body.OnlyHalts ∧ ∃ n n' C A, Lowers cs (c.node.child 0) body n clo.body n' C A) ∨
        ∃ p, clo.params = [p] ∧ clo.body = Expr.haltCode p) := by
  obtain ⟨path, body, clo, n, n', C, A, hr, hnode, hclo, hcap, _, hL⟩ := h
  refine ⟨path, body, clo, hr, hnode, hclo, hcap, ?_⟩
  rcases he.body_of_reach hr with hbody | ⟨p, hp, rfl⟩
  · exact Or.inl ⟨hbody, n, n', C, A, hL⟩
  · exact Or.inr ⟨p, hp, (lowers_native hL).1⟩

mutual

/-- Every class that lowering enters comes from a lambda of the tree. -/
theorem Lowers.classOf {cs : Captures} {node : Node} {e : Expr} {n n' : Nat} {f : Fragment}
    {C : List ClassEntry} {A : List Nat} :
    Lowers cs node e n f n' C A → ∀ c ∈ C, ClassOf cs node e c
  | .var _, c, hc => absurd hc List.not_mem_nil
  | .literal _, c, hc => absurd hc List.not_mem_nil
  | .lambda hcap hb hk, c, hc => by
    rcases List.mem_cons.mp hc with rfl | hc
    · exact ⟨[], _, _, _, _, _, _, rfl, (Node.descend_nil _).symm, rfl, hcap, hk, hb⟩
    · exact .of_child (i := 0) rfl (hb.classOf c hc)
  | .call _ hs, c, hc => by
    obtain ⟨j, a, ha, h⟩ := hs.classOf c hc
    exact .of_child (i := j + 1) ha (Nat.add_comm 1 j ▸ h)
  | .operate _ hs _, c, hc => by
    obtain ⟨j, a, ha, h⟩ := hs.classOf c hc
    exact .of_child (i := j + 1) ha (Nat.add_comm 1 j ▸ h)
  | .cond ht ha hb _, c, hc => by
    rcases List.mem_append.mp hc with hc | hc
    · rcases List.mem_append.mp hc with hc | hc
      · exact .of_child (i := 0) rfl (ht.classOf c hc)
      · exact .of_child (i := 1) rfl (ha.classOf c hc)
    · exact .of_child (i := 2) rfl (hb.classOf c hc)
  | .letrec hd hb, c, hc => by
    rcases List.mem_append.mp hc with hc | hc
    · obtain ⟨j, d, hd, h⟩ := hd.classOf c hc
      exact .of_child (i := j + 1) (Option.map_eq_some_iff.mpr ⟨d, hd, rfl⟩) (Nat.add_comm 1 j ▸ h)
    · exact .of_child (i := 0) rfl (hb.classOf c hc)
  | .native, c, hc => absurd hc List.not_mem_nil

/-- Every class that a list enters is one of a member. -/
theorem LowersList.classOf {cs : Captures} {node : Node} {i : Nat} {es : List Expr} {n n' : Nat}
    {fs : List Fragment} {C : List ClassEntry} {A : List Nat} :
    LowersList cs node i es n fs n' C A →
      ∀ c ∈ C, ∃ (j : Nat) (a : Expr), es[j]? = some a ∧ ClassOf cs (node.child (i + j)) a c
  | .nil, c, hc => absurd hc List.not_mem_nil
  | .cons he hs, c, hc => by
    rcases List.mem_append.mp hc with hc | hc
    · exact ⟨0, _, rfl, he.classOf c hc⟩
    · obtain ⟨j, a, ha, h⟩ := hs.classOf c hc
      have hj : i + 1 + j = i + (j + 1) := by omega
      exact ⟨j + 1, a, ha, hj ▸ h⟩

/-- Every class that bindings enter is one of a value. -/
theorem LowersDefs.classOf {cs : Captures} {node : Node} {i : Nat} {ds : List (Bytes × Expr)}
    {n n' : Nat} {code : List Instr} {C : List ClassEntry} {A : List Nat} :
    LowersDefs cs node i ds n code n' C A →
      ∀ c ∈ C, ∃ (j : Nat) (d : Bytes × Expr), ds[j]? = some d ∧
        ClassOf cs (node.child (i + j)) d.2 c
  | .nil, c, hc => absurd hc List.not_mem_nil
  | .cons _ he _ hs, c, hc => by
    rcases List.mem_append.mp hc with hc | hc
    · exact ⟨0, _, rfl, he.classOf c hc⟩
    · obtain ⟨j, d, hd, h⟩ := hs.classOf c hc
      have hj : i + 1 + j = i + (j + 1) := by omega
      exact ⟨j + 1, d, hd, hj ▸ h⟩

end

/-! ## Places, names and arities of classes -/

mutual

/-- The lambdas of a tree are entered one after the other, in the order in which they are analysed. -/
theorem Lowers.places {cs : Captures} {node : Node} {e : Expr} {n n' : Nat} {f : Fragment}
    {C : List ClassEntry} {A : List Nat} :
    Lowers cs node e n f n' C A → C.map ClassEntry.place = (e.captures node).map Capture.place
  | .var _ => rfl
  | .literal _ => rfl
  | .lambda _ hb _ => congrArg (_ :: ·) hb.places
  | .call _ hs => hs.places
  | .operate _ hs _ => hs.places
  | .cond ht ha hb _ => by
    rw [Expr.captures, List.map_append, List.map_append, List.map_append, List.map_append, ht.places,
      ha.places, hb.places]
  | .letrec hd hb => by
    rw [Expr.captures, List.map_append, List.map_append, hd.places, hb.places]
  | .native => rfl

/-- A list enters classes for the lambdas that have captures, in the same order. -/
theorem LowersList.places {cs : Captures} {node : Node} {i : Nat} {es : List Expr} {n n' : Nat}
    {fs : List Fragment} {C : List ClassEntry} {A : List Nat} :
    LowersList cs node i es n fs n' C A →
      C.map ClassEntry.place = (Expr.capturesList node i es).map Capture.place
  | .nil => rfl
  | .cons he hs => by
    rw [Expr.capturesList, List.map_append, List.map_append, he.places, hs.places]

theorem LowersDefs.places {cs : Captures} {node : Node} {i : Nat} {ds : List (Bytes × Expr)}
    {n n' : Nat} {code : List Instr} {C : List ClassEntry} {A : List Nat} :
    LowersDefs cs node i ds n code n' C A →
      C.map ClassEntry.place = (Expr.capturesDefs node i ds).map Capture.place
  | .nil => rfl
  | .cons _ he _ hs => by
    rw [Expr.capturesDefs, List.map_append, List.map_append, he.places, hs.places]

end

/-- Classes have the names of the lambdas of a tree, in order. -/
theorem Lowers.names {cs : Captures} {node : Node} {e : Expr} {n n' : Nat} {f : Fragment}
    {C : List ClassEntry} {A : List Nat} (h : Lowers cs node e n f n' C A) :
    C.map ClassEntry.name = (e.captures node).map Capture.name := by
  have hsnd := congrArg (List.map Prod.snd) h.places
  rwa [List.map_map, List.map_map] at hsnd

/-- Classes stand where the lambdas of a tree stand, in order. -/
theorem Lowers.nodes {cs : Captures} {node : Node} {e : Expr} {n n' : Nat} {f : Fragment}
    {C : List ClassEntry} {A : List Nat} (h : Lowers cs node e n f n' C A) :
    C.map ClassEntry.node = (e.captures node).map Capture.node := by
  have hfst := congrArg (List.map Prod.fst) h.places
  rwa [List.map_map, List.map_map] at hfst

mutual

/-- The number of parameters of every class is marked. -/
theorem Lowers.marked {cs : Captures} {node : Node} {e : Expr} {n n' : Nat} {f : Fragment}
    {C : List ClassEntry} {A : List Nat} :
    Lowers cs node e n f n' C A →
      ∀ c ∈ C, ∀ clo, c.closure = some clo → clo.params.length ∈ A
  | .var _ => fun _ hc => absurd hc List.not_mem_nil
  | .literal _ => fun _ hc => absurd hc List.not_mem_nil
  | .lambda _ hb _ => by
    intro c hc clo hclo
    rcases List.mem_cons.mp hc with rfl | hc
    · cases hclo
      exact List.mem_cons_self
    · exact List.mem_cons_of_mem _ (hb.marked c hc clo hclo)
  | .call _ hs => fun c hc clo hclo => List.mem_append_left _ (hs.marked c hc clo hclo)
  | .operate _ hs _ => fun c hc clo hclo => List.mem_append_left _ (hs.marked c hc clo hclo)
  | .cond ht ha hb _ => by
    intro c hc clo hclo
    rw [List.mem_append, List.mem_append] at hc ⊢
    rcases hc with (hc | hc) | hc
    · exact Or.inl (Or.inl (ht.marked c hc clo hclo))
    · exact Or.inl (Or.inr (ha.marked c hc clo hclo))
    · exact Or.inr (hb.marked c hc clo hclo)
  | .letrec hd hb => by
    intro c hc clo hclo
    rw [List.mem_append] at hc ⊢
    rcases hc with hc | hc
    · exact Or.inl (hd.marked c hc clo hclo)
    · exact Or.inr (hb.marked c hc clo hclo)
  | .native => fun _ hc => absurd hc List.not_mem_nil

/-- The parameter count of each class is marked. -/
theorem LowersList.marked {cs : Captures} {node : Node} {i : Nat} {es : List Expr} {n n' : Nat}
    {fs : List Fragment} {C : List ClassEntry} {A : List Nat} :
    LowersList cs node i es n fs n' C A →
      ∀ c ∈ C, ∀ clo, c.closure = some clo → clo.params.length ∈ A
  | .nil => fun _ hc => absurd hc List.not_mem_nil
  | .cons he hs => by
    intro c hc clo hclo
    rw [List.mem_append] at hc ⊢
    rcases hc with hc | hc
    · exact Or.inl (he.marked c hc clo hclo)
    · exact Or.inr (hs.marked c hc clo hclo)

theorem LowersDefs.marked {cs : Captures} {node : Node} {i : Nat} {ds : List (Bytes × Expr)}
    {n n' : Nat} {code : List Instr} {C : List ClassEntry} {A : List Nat} :
    LowersDefs cs node i ds n code n' C A →
      ∀ c ∈ C, ∀ clo, c.closure = some clo → clo.params.length ∈ A
  | .nil => fun _ hc => absurd hc List.not_mem_nil
  | .cons _ he _ hs => by
    intro c hc clo hclo
    rw [List.mem_append] at hc ⊢
    rcases hc with hc | hc
    · exact Or.inl (he.marked c hc clo hclo)
    · exact Or.inr (hs.marked c hc clo hclo)

end

end Lowering

/-! ## Whole trees -/

/-- Lowering a whole tree is a derivation that starts with an empty table. -/
theorem Build.lower_ok {e : Expr} {next : Nat} {f : Fragment} {s : Lowering.State}
    (h : Build.lower e next = .ok f s) :
    ∃ A, Lowering.Lowers (e.captures .root) .root e next f s.next s.table.entries A ∧
      s.table = ClassTable.empty.grow s.table.entries A := by
  have hempty : ClassTable.empty.Unmet .root := fun c hc => absurd hc List.not_mem_nil
  obtain ⟨C, A, hL, ht, _⟩ := Lowering.lower_ok _ _ e h hempty
  have hC : s.table.entries = C := by
    rw [ht]
    exact ClassTable.entries_empty_grow C A
  exact ⟨A, hC ▸ hL, hC ▸ ht⟩

/-- A program is a lowered tree. -/
theorem Build.program_ok {e : Expr} {next next' : Nat} {p : Program}
    (h : Build.program e next = (.ok p, next')) :
    ∃ s, Build.lower e next = .ok p.root s ∧ p.table = s.table ∧ next' = s.next := by
  unfold Build.program at h
  cases hlower : Build.lower e next with
  | error err s =>
    rw [hlower] at h
    cases h
  | ok f s =>
    rw [hlower] at h
    dsimp only at h
    split at h
    · cases h
      exact ⟨s, rfl, rfl, rfl⟩
    · cases h

/-- What a unit has come from. -/
theorem Build.unit_ok {e : Expr} {next next' : Nat} {text : Bytes}
    (h : Build.unit e next = (.ok text, next')) :
    ∃ p range, Build.program e next = (.ok p, next') ∧ p.root.kind = .thunk ∧
      p.table.arityRange = .ok range ∧ text = p.textFor range := by
  have hunit : Build.unit e next =
      ((Build.program e next).1.bind Program.text, (Build.program e next).2) := rfl
  rw [hunit, Prod.mk.injEq] at h
  obtain ⟨htext, hnext⟩ := h
  cases hp : (Build.program e next).1 with
  | error err =>
    rw [hp] at htext
    cases htext
  | ok p =>
    rw [hp] at htext
    change p.text = .ok text at htext
    unfold Program.text at htext
    split at htext
    · next hk =>
      cases hrange : p.table.arityRange with
      | error err =>
        rw [hrange] at htext
        cases htext
      | ok range =>
        rw [hrange] at htext
        cases htext
        exact ⟨p, range, Prod.ext hp hnext, hk, hrange, rfl⟩
    · cases htext

/-- A stage of which something has been computed has succeeded. -/
theorem Build.exists_ok {ε α β σ : Type} {x : Except ε α × σ} {f : α → β} {b : β}
    (h : x.1.toOption.map f = some b) : ∃ a s, x = (.ok a, s) ∧ f a = b := by
  obtain ⟨r, s⟩ := x
  cases r with
  | error err => cases h
  | ok a =>
    cases h
    exact ⟨a, s, rfl, rfl⟩

end Trampoline

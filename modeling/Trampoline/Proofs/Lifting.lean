import Mathlib.Data.List.Nodup
import Trampoline.Proofs.Watched

/-!
# Trampoline.Proofs.Lifting -- what lowering does to the class table

A lambda is entered in the class table before its body is lowered. Lowering the body may enter further
lambdas and may stop anywhere, and what was entered by then stays. A derivation, which describes a run that
succeeds, is therefore not enough: here every run is followed up to wherever it ends.

`Gains` says what a run adds to a table, in terms of the lambdas that it handed over. It goes through
sequences of runs, so it holds of lowering once it holds of lifting. There the class of the lambda stands
open while its body is lowered. It is completed at the index that it was given when it was entered, in
front of what the body has added, or is left empty.
-/

namespace Trampoline

/-! ## What a run does to the table -/

namespace ClassTable

/-- The memo gives every lambda one index, in the order in which they were met, and each lambda is known
under the name of its class and with a number of parameters that is marked. -/
structure Registers (t : ClassTable) (known : Node → Bytes → Nat → Prop) : Prop where
  indexed : t.Indexed
  apart : (t.memo.map Prod.fst).Nodup
  known : ∀ c ∈ t.entries, ∃ k ∈ t.arities, known c.node c.name k

/-- `t.Gains new calls t'`: a run that handed over the lambdas `calls` added the lambdas `new` to the
table `t`, behind those that were there. A class is left empty exactly if its lambda failed, and a lambda
can only fail when it is new. -/
structure Gains (t : ClassTable) (new : List ClassEntry) (calls : List Call) (t' : ClassTable) : Prop where
  grown : ∃ A, t' = t.grow new A
  met : ∀ call ∈ calls, call.node ∈ t'.memo.map Prod.fst
  called : ∀ c ∈ new, ∃ call ∈ calls, call.node = c.node
  empty : ∀ c ∈ new, c.closure = none ↔ ⟨c.node, false⟩ ∈ calls
  failed : ∀ call ∈ calls, call.succeeded = false → ∃ c ∈ new, c.node = call.node

variable {t t' t'' : ClassTable} {new new' : List ClassEntry} {calls calls' : List Call}
  {known : Node → Bytes → Nat → Prop} {A : List Nat}

/-- The empty table is in order, whatever is known. -/
theorem registers_empty : empty.Registers known :=
  ⟨indexed_empty, List.nodup_nil, fun _ hc => absurd hc List.not_mem_nil⟩

theorem addArity_eq_grow (t : ClassTable) (n : Nat) : t.addArity n = t.grow [] [n] := by
  simpa using addArity_grow t [] [] n

theorem gains_grow (t : ClassTable) (A : List Nat) : t.Gains [] [] (t.grow [] A) where
  grown := ⟨A, rfl⟩
  met := by simp
  called := by simp
  empty := by simp
  failed := by simp

/-- Doing nothing gains nothing. -/
theorem gains_refl (t : ClassTable) : t.Gains [] [] t := by
  simpa using t.gains_grow []

/-- Entering lambdas that are new and known, and marking arities, keeps a table in order. -/
theorem Registers.grow (h : t.Registers known)
    (hnew : (new.map ClassEntry.node).Nodup ∧ ∀ c ∈ new, c.node ∉ t.memo.map Prod.fst)
    (hknown : ∀ c ∈ new, ∃ k ∈ A, known c.node c.name k) : (t.grow new A).Registers known where
  indexed := h.indexed.grow new A
  apart := by
    rw [ClassTable.grow, List.map_append, List.zipIdx_map_fst]
    refine h.apart.append hnew.1 fun node hold hmem => ?_
    obtain ⟨c, hc, rfl⟩ := List.mem_map.mp hmem
    exact hnew.2 c hc hold
  known c hc := by
    rw [h.indexed.entries_grow, List.mem_append] at hc
    rcases hc with hc | hc
    · obtain ⟨k, hk, hknown⟩ := h.known c hc
      exact ⟨k, mem_arities_grow.mpr (Or.inr hk), hknown⟩
    · obtain ⟨k, hk, hknown⟩ := hknown c hc
      exact ⟨k, mem_arities_grow.mpr (Or.inl hk), hknown⟩

/-- Marking arities keeps a table in order. -/
theorem Registers.mark (h : t.Registers known) (A : List Nat) : (t.grow [] A).Registers known :=
  h.grow ⟨List.nodup_nil, fun _ hc => absurd hc List.not_mem_nil⟩ fun _ hc => absurd hc List.not_mem_nil

/-- What was added to a table was not there before. -/
theorem Registers.not_mem (h : (t.grow new A).Registers known) {c : ClassEntry} (hc : c ∈ new) :
    c.node ∉ t.memo.map Prod.fst := by
  have hapart := h.apart
  rw [ClassTable.grow, List.map_append, List.zipIdx_map_fst, List.nodup_append] at hapart
  exact fun hold => hapart.2.2 _ hold _ (List.mem_map_of_mem hc) rfl

/-- One run after another. -/
theorem Gains.trans (h : t.Gains new calls t') (h' : t'.Gains new' calls' t'') (ht : t''.Registers known) :
    t.Gains (new ++ new') (calls ++ calls') t'' := by
  obtain ⟨A, rfl⟩ := h.grown
  obtain ⟨B, rfl⟩ := h'.grown
  have hne : ∀ d ∈ new, ∀ d' ∈ new', d.node ≠ d'.node := by
    intro d hd d' hd' heq
    exact ht.not_mem hd' (heq ▸ mem_memo_grow.mpr (Or.inr (List.mem_map_of_mem hd)))
  refine ⟨⟨A ++ B, grow_grow t new new' A B⟩, ?_, ?_, ?_, ?_⟩
  · intro call hcall
    rcases List.mem_append.mp hcall with hcall | hcall
    · exact mem_memo_grow.mpr (Or.inl (h.met call hcall))
    · exact h'.met call hcall
  · intro c hc
    rcases List.mem_append.mp hc with hc | hc
    · obtain ⟨call, hcall, hnode⟩ := h.called c hc
      exact ⟨call, List.mem_append_left _ hcall, hnode⟩
    · obtain ⟨call, hcall, hnode⟩ := h'.called c hc
      exact ⟨call, List.mem_append_right _ hcall, hnode⟩
  · -- A lambda that fails in one of the runs is new in it, so it is not new in the other.
    intro c hc
    rw [List.mem_append]
    rcases List.mem_append.mp hc with hc | hc
    · rw [h.empty c hc]
      refine ⟨Or.inl, ?_⟩
      rintro (hcall | hcall)
      · exact hcall
      · obtain ⟨d, hd, hnode⟩ := h'.failed _ hcall rfl
        exact absurd hnode.symm (hne c hc d hd)
    · rw [h'.empty c hc]
      refine ⟨Or.inr, ?_⟩
      rintro (hcall | hcall)
      · obtain ⟨d, hd, hnode⟩ := h.failed _ hcall rfl
        exact absurd hnode (hne d hd c hc)
      · exact hcall
  · intro call hcall hfail
    rcases List.mem_append.mp hcall with hcall | hcall
    · obtain ⟨c, hc, hnode⟩ := h.failed call hcall hfail
      exact ⟨c, List.mem_append_left _ hc, hnode⟩
    · obtain ⟨c, hc, hnode⟩ := h'.failed call hcall hfail
      exact ⟨c, List.mem_append_right _ hc, hnode⟩

/-! ### A lambda that is new -/

section

variable {node : Node} {name : Bytes} {k : Nat}

/-- Entering a lambda that was not met keeps a table in order. -/
theorem Registers.enter (h : t.Registers known) (hnew : t.index? node = none)
    (hknown : known node name k) : (t.enter node name k).Registers known := by
  rw [enter_eq_grow]
  refine h.grow ⟨List.nodup_singleton node, ?_⟩ ?_
  · intro c hc
    rw [List.mem_singleton.mp hc]
    exact index?_eq_none_iff.mp hnew
  · intro c hc
    rw [List.mem_singleton.mp hc]
    exact ⟨k, List.mem_singleton_self k, hknown⟩

/-- The class of a lambda that is being lifted stands in front of those that were added meanwhile. -/
theorem Gains.entered (h : (t.enter node name k).Gains new calls t') :
    ∃ A, t' = t.grow (⟨node, name, none⟩ :: new) A := by
  obtain ⟨A, rfl⟩ := h.grown
  rw [enter_eq_grow, grow_grow, List.singleton_append]
  exact ⟨_, rfl⟩

/-- What is added while a lambda is being lifted is not for this lambda. -/
theorem Gains.inner_ne (h : (t.enter node name k).Gains new calls t') (ht : t'.Registers known) :
    ∀ c ∈ new, c.node ≠ node := by
  obtain ⟨A, rfl⟩ := h.grown
  rintro c hc rfl
  refine ht.not_mem hc ?_
  rw [enter_eq_grow]
  exact mem_memo_grow.mpr (Or.inr (List.mem_singleton_self c.node))

/-- Completing a class changes neither its name nor an index. -/
theorem Registers.completed (ht : t.Indexed) {c : ClassEntry} (h : (t.grow (c :: new) A).Registers known)
    (clo : Closure) : (t.grow ({ c with closure := some clo } :: new) A).Registers known where
  indexed := ht.grow _ A
  apart := h.apart
  known d hd := by
    have hold : ∀ e ∈ t.entries ++ c :: new, ∃ k ∈ (t.grow (c :: new) A).arities, known e.node e.name k := by
      rw [← ht.entries_grow (c :: new) A]
      exact h.known
    rw [ht.entries_grow, List.mem_append, List.mem_cons] at hd
    rcases hd with hd | rfl | hd
    · exact hold d (List.mem_append_left _ hd)
    · exact hold c (List.mem_append_right _ List.mem_cons_self)
    · exact hold d (List.mem_append_right _ (List.mem_cons_of_mem c hd))

/-- A lambda that is lifted for the first time: its class comes first, and it is empty exactly if the run
stopped before it was completed. -/
theorem Gains.lifted (h : (t.enter node name k).Gains new calls t') (ht : t'.Registers known)
    {clo : Option Closure} (hgrown : ∃ A, t'' = t.grow (⟨node, name, clo⟩ :: new) A) :
    t.Gains (⟨node, name, clo⟩ :: new) (calls ++ [⟨node, clo.isSome⟩]) t'' where
  grown := hgrown
  met call hcall := by
    obtain ⟨A, rfl⟩ := h.entered
    obtain ⟨B, rfl⟩ := hgrown
    rcases List.mem_append.mp hcall with hcall | hcall
    · exact h.met call hcall
    · rw [List.mem_singleton.mp hcall]
      exact mem_memo_grow.mpr (Or.inr List.mem_cons_self)
  called c hc := by
    rcases List.mem_cons.mp hc with rfl | hc
    · exact ⟨⟨node, clo.isSome⟩, by simp, rfl⟩
    · obtain ⟨call, hcall, hnode⟩ := h.called c hc
      exact ⟨call, by simp [hcall], hnode⟩
  empty c hc := by
    have hne := h.inner_ne ht
    rcases List.mem_cons.mp hc with rfl | hc
    · -- The lambda itself is not handed over a second time while it is being lifted.
      have hnot : (⟨node, false⟩ : Call) ∉ calls := by
        intro hcall
        obtain ⟨d, hd, hnode⟩ := h.failed _ hcall rfl
        exact hne d hd hnode
      cases clo <;> simp [hnot]
    · rw [h.empty c hc]
      simp [hne c hc]
  failed call hcall hfail := by
    rcases List.mem_append.mp hcall with hcall | hcall
    · obtain ⟨c, hc, hnode⟩ := h.failed call hcall hfail
      exact ⟨c, List.mem_cons_of_mem _ hc, hnode⟩
    · rw [List.mem_singleton.mp hcall]
      exact ⟨⟨node, name, clo⟩, List.mem_cons_self, rfl⟩

end

end ClassTable

/-! ## Runs -/

namespace Watched

variable {α β : Type} {known : Node → Bytes → Nat → Prop}

open Lowering (draw operate call choose alias? unsupported closure)

/-- From every table that holds known lambdas only, the step leads to such a table, which has gained an
entry for every lambda that was handed over and had none. -/
def Keeps (known : Node → Bytes → Nat → Prop) (x : Watched α) : Prop :=
  ∀ s, s.table.Registers known → (Lowering.after (x s).1).table.Registers known ∧
    ∃ new, s.table.Gains new (x s).2 (Lowering.after (x s).1).table

/-- The step only marks arities. -/
def OnlyMarks (x : Lowering.Step α) : Prop := ∀ s, ∃ A, (Lowering.after (x s)).table = s.table.grow [] A

theorem OnlyMarks.of_eq {x : Lowering.Step α} (h : ∀ s, (Lowering.after (x s)).table = s.table) :
    OnlyMarks x := by
  intro s
  refine ⟨[], ?_⟩
  rw [h s, ClassTable.grow_nil]

/-- Whatever only marks arities keeps a table in order. -/
theorem OnlyMarks.keeps {x : Lowering.Step α} (h : OnlyMarks x) : Keeps known (quiet x) := by
  intro s hs
  obtain ⟨A, hA⟩ := h s
  show (Lowering.after (x s)).table.Registers known ∧
    ∃ new, s.table.Gains new [] (Lowering.after (x s)).table
  rw [hA]
  exact ⟨hs.mark A, [], ClassTable.gains_grow s.table A⟩

/-- Steps that only mark can be put together. -/
theorem OnlyMarks.bind {x : Lowering.Step α} {f : α → Lowering.Step β} (hx : OnlyMarks x)
    (hf : ∀ a, OnlyMarks (f a)) : OnlyMarks (x >>= f) := by
  intro s
  obtain ⟨A, hA⟩ := hx s
  show ∃ A, (Lowering.after (EStateM.bind x f s)).table = s.table.grow [] A
  unfold EStateM.bind
  cases hxs : x s with
  | ok a s' =>
    rw [hxs] at hA
    obtain ⟨B, hB⟩ := hf a s'
    refine ⟨A ++ B, ?_⟩
    show (Lowering.after (f a s')).table = _
    have hA : s'.table = s.table.grow [] A := hA
    rw [hB, hA, ClassTable.grow_grow, List.append_nil]
  | error err s' =>
    rw [hxs] at hA
    exact ⟨A, hA⟩

theorem onlyMarks_pure (a : α) : OnlyMarks (pure a) := .of_eq fun _ => rfl

theorem onlyMarks_unsupported (what : Unsupported) : OnlyMarks (α := α) (unsupported what) :=
  .of_eq fun _ => rfl

theorem onlyMarks_draw (t : Temp) : OnlyMarks (draw t) := .of_eq fun _ => rfl

theorem onlyMarks_put (source : Option Node) (t : Temp) (p : Payload) :
    OnlyMarks (Lowering.put source t p) := .of_eq fun _ => rfl

theorem onlyMarks_addArity (n : Nat) : OnlyMarks (Lowering.addArity n) :=
  fun s => ⟨[n], s.table.addArity_eq_grow n⟩

theorem onlyMarks_literal (source : Option Node) (l : Literal) : OnlyMarks (Lowering.literal source l) := by
  cases l with
  | unspecified => exact onlyMarks_unsupported _
  | _ => exact onlyMarks_put _ _ _

theorem onlyMarks_closure (cs : Captures) (node : Node) (cls : Bytes) :
    OnlyMarks (closure cs node cls) := by
  refine OnlyMarks.bind ?_ fun _ => onlyMarks_put _ _ _
  unfold Lowering.capturedBy
  cases cs.captured? node with
  | none => exact .of_eq fun _ => rfl
  | some captured => exact onlyMarks_pure captured

theorem onlyMarks_call (node : Node) (ret : Ident) (f : Bytes) (fs : List Fragment) :
    OnlyMarks (call node ret f fs) :=
  (onlyMarks_addArity _).bind fun _ => onlyMarks_pure _

theorem onlyMarks_operate (node : Node) (ret : Ident) (f : Bytes) (fs : List Fragment) :
    OnlyMarks (operate node ret f fs) := by
  refine (onlyMarks_draw .primitive).bind fun dst => ?_
  dsimp only
  split
  · exact .of_eq fun _ => rfl
  · exact (onlyMarks_addArity 1).bind fun _ => onlyMarks_pure _

theorem onlyMarks_choose (node : Node) (test a b : Fragment) : OnlyMarks (choose node test a b) := by
  unfold choose
  split
  · exact (onlyMarks_draw _).bind fun _ => onlyMarks_pure _
  · exact onlyMarks_unsupported _

/-- One step after another. -/
theorem Keeps.bind {x : Watched α} {f : α → Watched β} (hx : Keeps known x)
    (hf : ∀ a, Keeps known (f a)) : Keeps known (x >>= f) := by
  intro s hs
  obtain ⟨ht, new, hgains⟩ := hx s hs
  show (Lowering.after (Watched.bind x f s).1).table.Registers known ∧
    ∃ new, s.table.Gains new (Watched.bind x f s).2 (Lowering.after (Watched.bind x f s).1).table
  unfold Watched.bind
  rcases hxs : x s with ⟨⟨a, s'⟩ | ⟨err, s'⟩, calls⟩
  · rw [hxs] at ht hgains
    obtain ⟨ht', new', hgains'⟩ := hf a s' ht
    exact ⟨ht', new ++ new', hgains.trans hgains' ht'⟩
  · rw [hxs] at ht hgains
    exact ⟨ht, new, hgains⟩

/-- Lifting a lambda that is known. -/
theorem keeps_lift {cs : Captures} {node : Node} {name : Bytes} {params : List Bytes}
    {body : Watched Fragment} (hknown : known node name params.length) (hbody : Keeps known body) :
    Keeps known (lift cs node name params body) := by
  intro s hs
  cases hmet : s.table.index? node with
  | some i =>
    rw [lift_met hmet]
    have hmem : node ∈ s.table.memo.map Prod.fst := by
      by_contra hnone
      rw [ClassTable.index?_eq_none_iff.mpr hnone] at hmet
      cases hmet
    refine ⟨hs, [], ⟨[], (ClassTable.grow_nil s.table).symm⟩, ?_, ?_, ?_, ?_⟩
    · intro call hcall
      rw [List.mem_singleton.mp hcall]
      exact hmem
    all_goals simp
  | none =>
    rw [lift_new hmet]
    have hentered := hs.enter hmet hknown
    cases hc : cs.captured? node with
    | none =>
      have hsame := (s.table.enter node name params.length).gains_refl
      exact ⟨hentered, _, hsame.lifted hentered hsame.entered⟩
    | some captured =>
      obtain ⟨ht, new, hgains⟩ := hbody { s with table := s.table.enter node name params.length } hentered
      rcases hb : body { s with table := s.table.enter node name params.length } with
        ⟨⟨b, s'⟩ | ⟨err, s'⟩, calls⟩
      · rw [hb] at ht hgains
        dsimp only
        unfold Lowering.complete
        by_cases hk : b.kind = .thunk
        · obtain ⟨A, hA⟩ := hgains.entered
          have hfill : s'.table.fill s.table.size ⟨captured, params, b⟩ =
              s.table.grow (⟨node, name, some ⟨captured, params, b⟩⟩ :: new) A := by
            have hA : s'.table = _ := hA
            rw [hA, ClassTable.fill_grow]
          have hdone : (s'.table.fill s.table.size ⟨captured, params, b⟩).Registers known := by
            rw [hfill]
            rw [hA] at ht
            exact ht.completed hs.indexed ⟨captured, params, b⟩
          rw [if_pos hk, decide_eq_true hk]
          exact ⟨hdone, _, hgains.lifted ht ⟨A, hfill⟩⟩
        · rw [if_neg hk, decide_eq_false hk]
          exact ⟨ht, _, hgains.lifted ht hgains.entered⟩
      · rw [hb] at ht hgains
        exact ⟨ht, _, hgains.lifted ht hgains.entered⟩

/-- Every lambda of a tree that stands at a node is known at its place. -/
def AllKnown (known : Node → Bytes → Nat → Prop) (node : Node) (e : Expr) : Prop :=
  ∀ path name params body, e.reach? path = some (.lambda name params body) →
    known (node.descend path) name params.length

/-- What is known of all lambdas of a tree is known of those of a child. -/
theorem AllKnown.child {node : Node} {e c : Expr} {i : Nat} (h : AllKnown known node e)
    (hc : e.child? i = some c) : AllKnown known (node.child i) c := by
  intro path name params body hr
  rw [← Node.descend_concat]
  exact h (path ++ [i]) name params body ((Expr.reach?_of_child hc path).trans hr)

/-- The lambda at the node itself. -/
theorem AllKnown.own {node : Node} {name : Bytes} {params : List Bytes} {body : Expr}
    (h : AllKnown known node (.lambda name params body)) : known node name params.length := by
  have hown := h [] name params body rfl
  rwa [Node.descend_nil] at hown

/-- Lowering a list keeps a table in order, if lowering its members does. -/
theorem keeps_lowerList {cs : Captures} {node : Node} {es : List Expr} {i : Nat}
    (h : ∀ (j : Nat) (e : Expr), es[j]? = some e → Keeps known (lower cs (node.child (i + j)) e)) :
    Keeps known (lowerList cs node i es) := by
  induction es generalizing i with
  | nil =>
    rw [lowerList]
    exact (onlyMarks_pure []).keeps
  | cons e es ih =>
    rw [lowerList]
    refine (h 0 e rfl).bind fun f => Keeps.bind ?_ fun fs => (onlyMarks_pure (f :: fs)).keeps
    apply ih
    intro j a ha
    rw [show i + 1 + j = i + (j + 1) by omega]
    exact h (j + 1) a ha

/-- So does lowering bindings. -/
theorem keeps_lowerDefs {cs : Captures} {node : Node} {ds : List (Bytes × Expr)} {i : Nat}
    (h : ∀ (j : Nat) (d : Bytes × Expr), ds[j]? = some d →
      Keeps known (lower cs (node.child (i + j)) d.2)) :
    Keeps known (lowerDefs cs node i ds) := by
  induction ds generalizing i with
  | nil =>
    rw [lowerDefs]
    exact (onlyMarks_pure []).keeps
  | cons d ds ih =>
    obtain ⟨x, e⟩ := d
    rw [lowerDefs]
    cases alias? (x :: ds.map Prod.fst) e with
    | some y => exact (onlyMarks_unsupported _).keeps
    | none =>
      refine (h 0 (x, e) rfl).bind fun v => ?_
      split
      · exact (onlyMarks_unsupported _).keeps
      · refine Keeps.bind ?_ fun rest => (onlyMarks_pure _).keeps
        apply ih
        intro j a ha
        rw [show i + 1 + j = i + (j + 1) by omega]
        exact h (j + 1) a ha

/-- Lowering keeps the table in order, whether it succeeds or fails. -/
theorem keeps_lower (cs : Captures) {node : Node} {e : Expr} (h : AllKnown known node e) :
    Keeps known (lower cs node e) := by
  induction e using Expr.induction generalizing node with
  | lambda name params body ih =>
    rw [lower]
    have hbody : Keeps known (lower cs (node.child 0) body) := ih (h.child (i := 0) rfl)
    exact (keeps_lift h.own hbody).bind fun cls => (onlyMarks_closure cs node cls).keeps
  | app callee args _ ihs =>
    have hargs : Keeps known (lowerList cs node 1 args) := by
      apply keeps_lowerList
      intro j a ha
      rw [Nat.add_comm]
      exact ihs a (List.mem_of_getElem? ha) (h.child (i := j + 1) ha)
    cases callee with
    | var f =>
      rw [lower]
      split
      · split
        · exact (onlyMarks_unsupported _).keeps
        · exact (onlyMarks_draw .ret).keeps.bind fun ret => hargs.bind fun vals =>
            (onlyMarks_operate _ _ _ _).keeps
      · exact (onlyMarks_draw .ret).keeps.bind fun ret => hargs.bind fun vals =>
          (onlyMarks_call _ _ _ _).keeps
    | _ => exact (onlyMarks_unsupported _).keeps
  | cond test a b iht iha ihb =>
    rw [lower]
    exact (iht (h.child (i := 0) rfl)).bind fun _ => (iha (h.child (i := 1) rfl)).bind fun _ =>
      (ihb (h.child (i := 2) rfl)).bind fun _ => (onlyMarks_choose _ _ _ _).keeps
  | letrec defs body ihs ihb =>
    rw [lower]
    refine Keeps.bind ?_ fun code => (ihb (h.child (i := 0) rfl)).bind fun b => (onlyMarks_pure _).keeps
    apply keeps_lowerDefs
    intro j d hd
    rw [Nat.add_comm]
    exact ihs d (List.mem_of_getElem? hd) (h.child (i := j + 1) (Option.map_eq_some_iff.mpr ⟨d, hd, rfl⟩))
  | var x =>
    show Keeps known (quiet (Lowering.lower cs node (.var x)))
    rw [Lowering.lower]
    split
    · exact (onlyMarks_unsupported _).keeps
    · exact (onlyMarks_pure _).keeps
  | literal l => exact (onlyMarks_literal _ l).keeps
  | native uses code => exact (onlyMarks_pure code).keeps
  | _ => exact (onlyMarks_unsupported _).keeps

/-- So does lifting a lambda. -/
theorem keeps_liftRoot (cs : Captures) {node : Node} {e : Expr} (h : AllKnown known node e) :
    Keeps known (liftRoot cs node e) := by
  cases e with
  | lambda name params body =>
    rw [liftRoot]
    have hbody : Keeps known (lower cs (node.child 0) body) := keeps_lower cs (h.child (i := 0) rfl)
    exact (keeps_lift h.own hbody).bind fun _ => (onlyMarks_pure _).keeps
  | _ => exact (onlyMarks_pure none).keeps

/-- What is known of a watched run is known of the run itself. -/
theorem Keeps.outcome {x : Watched α} {y : Lowering.Step α} (h : Keeps known x) (hy : erase x = y)
    {s : Lowering.State} (hs : s.table.Registers known) :
    (Lowering.after (y s)).table.Registers known ∧
      ∃ new, s.table.Gains new (x s).2 (Lowering.after (y s)).table := by
  rw [← hy]
  exact h s hs

end Watched

end Trampoline

import Mathlib.Data.Set.Function
import Trampoline.Proofs.Lifting

/-!
# Trampoline.Proofs.Sessions -- the class table of a session

The steps of a session share one class table, and any of them may fail. What one step does to the table is
known from lowering; what a sequence of steps does follows by induction. The table is then described by the
lambdas that were handed over since the session started.
-/

namespace Trampoline

/-! ## Subtrees -/

namespace Subtree

/-- Different subtrees stand at different nodes. -/
theorem node_injective : Function.Injective node := by
  rintro ⟨i, p⟩ ⟨j, q⟩ h
  have hpath : p ++ [i] = q ++ [j] := congrArg Node.path h
  obtain ⟨rfl, htree⟩ := List.append_inj' hpath rfl
  rw [List.singleton_inj.mp htree]

/-- A subtree of a subtree. -/
def below (p : Subtree) (path : List Nat) : Subtree := ⟨p.tree, path ++ p.path⟩

theorem node_below (p : Subtree) (path : List Nat) : (p.below path).node = p.node.descend path := by
  simp only [node, below, Node.descend, List.length_append, List.append_assoc, Node.mk.injEq, and_true]
  omega

end Subtree

/-! ## Steps in order -/

namespace Session

/-- What stands below a subtree is found from the subtree. -/
theorem at?_below {s : Session} {p : Subtree} {e : Expr} (h : s.at? p = some e) (path : List Nat) :
    s.at? (p.below path) = e.reach? path := by
  obtain ⟨tree, htree, he⟩ := Option.bind_eq_some_iff.mp h
  show s.programs[p.tree]?.bind (·.reach? (path ++ p.path)) = _
  rw [htree, Option.bind_some, Expr.reach?_append, he, Option.bind_some]

/-- An expression stands at a node in one of the trees of a session. -/
def Holds (s : Session) (node : Node) (e : Expr) : Prop := ∃ p, s.at? p = some e ∧ p.node = node

/-- One place of a session holds one tree. -/
theorem Holds.unique {s : Session} {node : Node} {e e' : Expr} (h : s.Holds node e) (h' : s.Holds node e') :
    e = e' := by
  obtain ⟨p, hp, hnode⟩ := h
  obtain ⟨q, hq, hnode'⟩ := h'
  have hsame : p = q := Subtree.node_injective (hnode.trans hnode'.symm)
  rw [hsame, hq] at hp
  exact (Option.some.inj hp).symm

/-- The lambdas that are handed over in a step. -/
def stepCalls (s : Session) : Step → List Call
  | .lower p =>
    match s.at? p with
    | none => []
    | some e => (Watched.lower s.captures p.node e s.state).2
  | .lift p =>
    match s.at? p with
    | none => []
    | some e => (Watched.liftRoot s.captures p.node e s.state).2
  | _ => []

/-- The lambdas that are handed over while steps are done in order. -/
def calls (s : Session) : List Step → List Call
  | [] => []
  | st :: sts => s.stepCalls st ++ (s.step st).2.calls sts

/-- A lambda with a name and a number of parameters stands at a node. -/
def Known (s : Session) (node : Node) (name : Bytes) (k : Nat) : Prop :=
  ∃ params body, s.Holds node (.lambda name params body) ∧ params.length = k

theorem allKnown {s : Session} {p : Subtree} {e : Expr} (h : s.at? p = some e) :
    Watched.AllKnown s.Known p.node e := by
  intro path name params body hr
  exact ⟨params, body, ⟨p.below path, (at?_below h path).trans hr, p.node_below path⟩, rfl⟩

theorem programs_step (s : Session) (st : Step) : (s.step st).2.programs = s.programs := by
  cases st with
  | lower p =>
    simp only [step]
    split
    · rfl
    · split <;> rfl
  | lift p =>
    simp only [step]
    split
    · rfl
    · split <;> rfl
  | capture p =>
    simp only [step]
    split <;> rfl
  | emit p =>
    simp only [step]
    split <;> rfl
  | _ => rfl

/-- The trees stay the same, and so do the lambdas that are known. -/
theorem known_step (s : Session) (st : Step) : (s.step st).2.Known = s.Known := by
  unfold Known Holds at?
  rw [programs_step]

theorem known_run (s : Session) (sts : List Step) : (s.run sts).2.Known = s.Known := by
  induction sts generalizing s with
  | nil => rfl
  | cons st sts ih => exact (ih (s.step st).2).trans (s.known_step st)

/-- What a step does to the table, whether it succeeds or fails. -/
theorem step_gains (s : Session) (st : Step) (hs : s.state.table.Registers s.Known) :
    (s.step st).2.state.table.Registers s.Known ∧
      ∃ new, s.state.table.Gains new (s.stepCalls st) (s.step st).2.state.table := by
  have hsame : s.state.table.Registers s.Known ∧ ∃ new, s.state.table.Gains new [] s.state.table :=
    ⟨hs, [], s.state.table.gains_refl⟩
  cases st with
  | lower p =>
    cases he : s.at? p with
    | none =>
      simp only [step, stepCalls, he]
      exact hsame
    | some e =>
      have hrun := (Watched.keeps_lower s.captures (allKnown he)).outcome (Watched.erase_lower _ _ e) hs
      simp only [step, stepCalls, he]
      cases hlower : Lowering.lower s.captures p.node e s.state with
      | ok f state =>
        rw [hlower] at hrun
        exact hrun
      | error err state =>
        rw [hlower] at hrun
        exact hrun
  | lift p =>
    cases he : s.at? p with
    | none =>
      simp only [step, stepCalls, he]
      exact hsame
    | some e =>
      have hrun := (Watched.keeps_liftRoot s.captures (allKnown he)).outcome (Watched.erase_liftRoot _ _ e) hs
      simp only [step, stepCalls, he]
      cases hlift : Lowering.liftRoot s.captures p.node e s.state with
      | ok name state =>
        rw [hlift] at hrun
        cases name with
        | some name => exact hrun
        | none =>
          -- Only a lambda is lifted; anything else is refused at once.
          cases e with
          | lambda name params body =>
            obtain ⟨_, _, _, hname⟩ := Lowering.bind_ok.mp hlift
            cases hname
          | _ => exact hsame
      | error err state =>
        rw [hlift] at hrun
        exact hrun
  | addArity n =>
    show (s.state.table.addArity n).Registers s.Known ∧
      ∃ new, s.state.table.Gains new [] (s.state.table.addArity n)
    rw [s.state.table.addArity_eq_grow n]
    exact ⟨hs.mark [n], [], ClassTable.gains_grow s.state.table [n]⟩
  | capture p =>
    simp only [step]
    split <;> exact hsame
  | emit p =>
    simp only [step]
    split <;> exact hsame
  | _ => exact hsame

/-- The same for steps in order. -/
theorem run_gains (s : Session) (sts : List Step) (hs : s.state.table.Registers s.Known) :
    (s.run sts).2.state.table.Registers s.Known ∧
      ∃ new, s.state.table.Gains new (s.calls sts) (s.run sts).2.state.table := by
  induction sts generalizing s with
  | nil => exact ⟨hs, [], s.state.table.gains_refl⟩
  | cons st sts ih =>
    obtain ⟨ht, new, hgains⟩ := s.step_gains st hs
    obtain ⟨ht', new', hgains'⟩ := ih (s.step st).2 (by rwa [known_step])
    rw [known_step] at ht'
    exact ⟨ht', new ++ new', hgains.trans hgains' ht'⟩

/-- Steps can be done in two stages. -/
theorem run_append (s : Session) (sts sts' : List Step) :
    (s.run (sts ++ sts')).2 = ((s.run sts).2.run sts').2 := by
  induction sts generalizing s with
  | nil => rfl
  | cons st sts ih => exact ih (s.step st).2

end Session

/-! ## The result -/

/-- The name of a class in emitted code. -/
def ClassDef.className (d : ClassDef) : Bytes := Name.ofClass d.name

/-- The class has a name in emitted code. If it was completed, its texts define this class and its call
operator; otherwise both are empty. -/
structure ClassDef.Defines (d : ClassDef) (cls : Bytes) (completed : Prop) : Prop where
  className : d.className = cls
  texts : completed → ascii "class " ++ cls ++ ascii " : public lambda_t \x7b" <+: d.decl ∧
    ascii "THUNK_T " ++ cls ++ ascii "::operator()(" <+: d.op
  empty : ¬ completed → d.decl = [] ∧ d.op = []

/-- Nothing is ever taken away from a table: every lambda keeps its index, the class at an index stays as it
is, whether it was completed or left empty, and arities stay marked. -/
structure ClassTable.Grows (t t' : ClassTable) : Prop where
  size : t.size ≤ t'.size
  index : ∀ node i, t.index? node = some i → t'.index? node = some i
  defs : ∀ (i : Nat) (d : ClassDef), t.defs[i]? = some d → t'.defs[i]? = some d
  arities : ∀ n ∈ t.arities, n ∈ t'.arities

/-- The class table of a session in terms of the lambdas that were handed over so far. -/
structure Session.Consistent (s : Session) (calls : List Call) : Prop where
  /-- the memo pairs off the lambdas that were handed over with the indexes of the table -/
  bijective : Set.BijOn s.state.table.index? {node | ∃ call ∈ calls, call.node = node}
    (some '' {i | i < s.state.table.size})
  /-- no other lambda is in the memo -/
  met : ∀ node, s.state.table.index? node ≠ none ↔ ∃ call ∈ calls, call.node = node
  /-- indexes are given out in order, each of them once -/
  indexes : s.state.table.memo.map Prod.snd = List.range s.state.table.size
  /-- at the index of a lambda is its class, which is empty exactly if lifting the lambda has failed -/
  defined : ∀ call ∈ calls, ∃ name params body i d, s.Holds call.node (.lambda name params body) ∧
    s.state.table.index? call.node = some i ∧ s.state.table.defs[i]? = some d ∧
    d.Defines (Name.mangle (ascii "c_") name) (⟨call.node, false⟩ ∉ calls) ∧
    params.length ∈ s.state.table.arities
  /-- lifting a lambda again gives the name of its class and changes nothing, whatever captures are known -/
  again : ∀ call ∈ calls, ∀ cs name params body, s.Holds call.node (.lambda name params body) →
    Lowering.liftRoot cs call.node (.lambda name params body) s.state =
      .ok (some (Name.mangle (ascii "c_") name)) s.state
  /-- the same for a whole step -/
  stepAgain : ∀ p name params body, s.at? p = some (.lambda name params body) →
    (∃ call ∈ calls, call.node = p.node) →
      s.step (.lift p) = (.ok (.text (Name.mangle (ascii "c_") name)), s)

namespace ClassTable

variable {t t' : ClassTable} {known : Node → Bytes → Nat → Prop}

/-- What gains classes grows. -/
theorem Gains.grows {new : List ClassEntry} {calls : List Call} (h : t.Gains new calls t') : t.Grows t' := by
  obtain ⟨A, rfl⟩ := h.grown
  refine ⟨?_, ?_, ?_, ?_⟩
  · rw [size_grow]
    omega
  · intro node i hi
    have hi : t.memo.lookup node = some i := hi
    rw [index?, grow, List.lookup_append, hi, Option.some_or]
  · intro i d hd
    have hi : i < t.defs.length := (List.getElem?_eq_some_iff.mp hd).1
    rw [grow, List.getElem?_append_left hi, hd]
  · exact fun n hn => mem_arities_grow.mpr (Or.inr hn)

/-- The entries of a table are its memo, with the class at each index. -/
theorem mem_entries {c : ClassEntry} :
    c ∈ t.entries ↔ ∃ i, (c.node, i) ∈ t.memo ∧ t.defs[i]? = some c.toDef := by
  rw [entries, List.mem_filterMap]
  constructor
  · rintro ⟨⟨node, i⟩, hm, hd⟩
    obtain ⟨d, hget, rfl⟩ := Option.map_eq_some_iff.mp hd
    exact ⟨i, hm, hget⟩
  · rintro ⟨i, hm, hd⟩
    exact ⟨(c.node, i), hm, by rw [hd]; rfl⟩

/-- The memo has one index for each of its lambdas. -/
theorem Registers.index?_eq_some_iff (h : t.Registers known) {node : Node} {i : Nat} :
    t.index? node = some i ↔ (node, i) ∈ t.memo :=
  lookup_eq_some_iff_mem h.apart

/-- The class at an index is the one of the lambda that has this index. -/
theorem Registers.exists_entry (h : t.Registers known) {node : Node} (hnode : node ∈ t.memo.map Prod.fst) :
    ∃ i d, t.index? node = some i ∧ t.defs[i]? = some d ∧ ⟨node, d.name, d.closure⟩ ∈ t.entries := by
  obtain ⟨⟨_, i⟩, hm, rfl⟩ := List.mem_map.mp hnode
  have hd := List.getElem?_eq_getElem (h.indexed.lt hm)
  exact ⟨i, _, h.index?_eq_some_iff.mpr hm, hd, mem_entries.mpr ⟨i, hm, hd⟩⟩

/-- The memo is a bijection between its lambdas and the indexes of the table. -/
theorem Registers.bijOn (h : t.Registers known) :
    Set.BijOn t.index? {node | node ∈ t.memo.map Prod.fst} (some '' {i | i < t.size}) := by
  refine ⟨?_, ?_, ?_⟩
  · intro node hnode
    obtain ⟨⟨_, i⟩, hm, rfl⟩ := List.mem_map.mp hnode
    exact ⟨i, h.indexed.lt hm, (h.index?_eq_some_iff.mpr hm).symm⟩
  · intro node hnode node' _ heq
    obtain ⟨⟨_, i⟩, hm, rfl⟩ := List.mem_map.mp hnode
    have hi := h.index?_eq_some_iff.mpr hm
    have hm' := h.index?_eq_some_iff.mp (heq.symm.trans hi)
    have hnodup : (t.memo.map Prod.snd).Nodup := by
      rw [h.indexed]
      exact List.nodup_range
    exact congrArg Prod.fst (List.inj_on_of_nodup_map hnodup hm hm' rfl)
  · rintro _ ⟨i, hi, rfl⟩
    have hmem : i ∈ t.memo.map Prod.snd := by
      rw [h.indexed]
      exact List.mem_range.mpr hi
    obtain ⟨⟨node, _⟩, hm, rfl⟩ := List.mem_map.mp hmem
    exact ⟨node, List.mem_map.mpr ⟨_, hm, rfl⟩, h.index?_eq_some_iff.mpr hm⟩

end ClassTable

theorem ClassDef.defines (d : ClassDef) : d.Defines (Name.ofClass d.name) (d.closure ≠ none) where
  className := rfl
  texts hd := by
    obtain ⟨clo, hclo⟩ := Option.ne_none_iff_exists'.mp hd
    have hhead : ascii " : public lambda_t \x7b\npublic:\n" =
        ascii " : public lambda_t \x7b" ++ ascii "\npublic:\n" := by decide
    rw [decl_filled hclo, op_filled hclo, Closure.decl, Closure.op, hhead]
    simp only [List.append_assoc, List.prefix_append_right_inj]
    exact ⟨List.prefix_append _ _, List.prefix_append _ _⟩
  empty hd := by
    rw [decl, op, not_not.mp hd]
    exact ⟨rfl, rfl⟩

/-- Lifting a lambda that was met gives the name of its class and changes nothing. -/
theorem Lowering.liftRoot_met {cs : Captures} {node : Node} {name : Bytes} {params : List Bytes}
    {body : Expr} {s : Lowering.State} {i : Nat} (h : s.table.index? node = some i) :
    Lowering.liftRoot cs node (.lambda name params body) s = .ok (some (Name.ofClass (s.table.nameAt i))) s :=
  bind_ok.mpr ⟨_, _, lift_met h, rfl⟩

/-- A table that was empty when the session started. -/
theorem Session.consistent_of_gains {s : Session} {calls : List Call}
    (hs : s.state.table.Registers s.Known)
    (h : ClassTable.empty.Gains s.state.table.entries calls s.state.table) : s.Consistent calls := by
  have hmem : ∀ node, node ∈ s.state.table.memo.map Prod.fst ↔ ∃ call ∈ calls, call.node = node := by
    intro node
    constructor
    · intro hnode
      obtain ⟨_, _, _, _, hentry⟩ := hs.exists_entry hnode
      exact h.called _ hentry
    · rintro ⟨call, hcall, rfl⟩
      exact h.met call hcall
  have hset : {node | ∃ call ∈ calls, call.node = node} = {node | node ∈ s.state.table.memo.map Prod.fst} :=
    Set.ext fun node => (hmem node).symm
  -- The name of the class at the index of a lambda is that of the lambda.
  have hagain : ∀ node, (∃ call ∈ calls, call.node = node) → ∀ cs name params body,
      s.Holds node (.lambda name params body) →
      Lowering.liftRoot cs node (.lambda name params body) s.state =
        .ok (some (Name.mangle (ascii "c_") name)) s.state := by
    intro node hnode cs name params body hholds
    obtain ⟨i, d, hi, hd, hentry⟩ := hs.exists_entry ((hmem node).mpr hnode)
    obtain ⟨_, _, _, _, hholds', _⟩ := hs.known _ hentry
    have hname : s.state.table.nameAt i = name := by
      rw [ClassTable.nameAt, hd]
      exact (Expr.lambda.inj (hholds'.unique hholds)).1
    rw [Lowering.liftRoot_met hi, hname]
    rfl
  refine ⟨?_, ?_, hs.indexed, ?_, ?_, ?_⟩
  · rw [hset]
    exact hs.bijOn
  · intro node
    rw [ne_eq, ClassTable.index?_eq_none_iff, not_not, hmem]
  · intro call hcall
    obtain ⟨i, d, hi, hd, hentry⟩ := hs.exists_entry ((hmem _).mpr ⟨call, hcall, rfl⟩)
    obtain ⟨k, hk, params, body, hholds, rfl⟩ := hs.known _ hentry
    have hcompleted : (⟨call.node, false⟩ : Call) ∉ calls ↔ d.closure ≠ none := by
      rw [ne_eq, h.empty _ hentry]
    refine ⟨d.name, params, body, i, d, hholds, hi, hd, ?_, hk⟩
    rw [propext hcompleted]
    exact d.defines
  · intro call hcall cs name params body hholds
    exact hagain call.node ⟨call, hcall, rfl⟩ cs name params body hholds
  · intro p name params body he hcall
    simp only [Session.step, he, hagain p.node hcall s.captures name params body ⟨p, he, rfl⟩]

/-- **The class table of a session stays consistent.** Do any steps in a session that starts with an empty
class table, whether they succeed or fail. Then the memo pairs off the lambdas that were handed over to be
lifted with the indexes of the table; the class at the index of a lambda has its name, is empty exactly if the
lambda was handed over without success, and the number of its parameters is marked; and handing a lambda
over once more gives the name of its class and changes nothing. Whatever is done after that, the table only
grows. -/
theorem session_consistent (programs : List Expr) (next : Nat) (steps more : List Session.Step) :
    ((Session.start programs next).run steps).2.Consistent ((Session.start programs next).calls steps) ∧
      ((Session.start programs next).run steps).2.state.table.Grows
        ((Session.start programs next).run (steps ++ more)).2.state.table := by
  have hempty : (Session.start programs next).state.table.Registers (Session.start programs next).Known :=
    ClassTable.registers_empty
  obtain ⟨hs, new, hgains⟩ := (Session.start programs next).run_gains steps hempty
  rw [← Session.known_run _ steps] at hs
  have hnew : ((Session.start programs next).run steps).2.state.table.entries = new := by
    obtain ⟨A, hA⟩ := hgains.grown
    rw [hA]
    exact ClassTable.entries_empty_grow new A
  rw [← hnew] at hgains
  refine ⟨Session.consistent_of_gains hs hgains, ?_⟩
  obtain ⟨_, new', hmore⟩ := ((Session.start programs next).run steps).2.run_gains more hs
  rw [Session.run_append]
  exact hmore.grows

end Trampoline

import Trampoline.Proofs.Progress
import Trampoline.Proofs.Renumbering
import Trampoline.Proofs.Scope

/-!
# Trampoline.Proofs.Repetition -- lowering a tree once more

A tree that was lowered has all of its lambdas in the class table. When it is lowered again, in the same session,
each lambda is found there and its body is passed over. So the second run draws fewer numbers than the first, and
the distance between a number and the one that stands for it changes along the tree: which number stands for
which is a relation that is put together from the relations of the subtrees.

What happens in the meantime does not matter, because nothing that a session does takes a class out of the table,
an arity out of their order, or a capture back.
-/

namespace Trampoline

open CodeToken

/-! ## Pairs of numbers -/

/-- Some of the numbers from `m` up to `m'` are paired off with some of those from `n` up to `n'`. -/
structure Pairing (R : Nat → Nat → Prop) (m m' n n' : Nat) : Prop where
  old_le : m ≤ m'
  new_le : n ≤ n'
  old : ∀ {k k' : Nat}, R k k' → m ≤ k ∧ k < m'
  new : ∀ {k k' : Nat}, R k k' → n ≤ k' ∧ k' < n'
  unique : ∀ {k k' j j' : Nat}, R k k' → R j j' → (k = j ↔ k' = j')

section

variable {R S : Nat → Nat → Prop} {l m m₁ m₂ n n₁ n₂ : Nat}

theorem pairing_none (m n : Nat) : Pairing (fun _ _ => False) m m n n :=
  ⟨Nat.le_refl m, Nat.le_refl n, False.elim, False.elim, fun h => h.elim⟩

theorem pairing_one (m n : Nat) : Pairing (fun k k' => k = m ∧ k' = n) m (m + 1) n (n + 1) where
  old_le := Nat.le_succ m
  new_le := Nat.le_succ n
  old := by omega
  new := by omega
  unique := by omega

/-- Numbers that are paired in two stages are paired. -/
theorem Pairing.append (h : Pairing R m m₁ n n₁) (h' : Pairing S m₁ m₂ n₁ n₂) :
    Pairing (fun k k' => R k k' ∨ S k k') m m₂ n n₂ where
  old_le := h.old_le.trans h'.old_le
  new_le := h.new_le.trans h'.new_le
  old {k k'} hk := by
    have hle := h.old_le
    have hle' := h'.old_le
    rcases hk with hk | hk
    · have := h.old hk
      omega
    · have := h'.old hk
      omega
  new {k k'} hk := by
    have hle := h.new_le
    have hle' := h'.new_le
    rcases hk with hk | hk
    · have := h.new hk
      omega
    · have := h'.new hk
      omega
  unique {k k' j j'} hk hj := by
    -- Numbers of different parts differ on both sides.
    rcases hk with hk | hk <;> rcases hj with hj | hj
    · exact h.unique hk hj
    · have := h.old hk
      have := h.new hk
      have := h'.old hj
      have := h'.new hj
      omega
    · have := h'.old hk
      have := h'.new hk
      have := h.old hj
      have := h.new hj
      omega
    · exact h'.unique hk hj

theorem Pairing.widen (h : Pairing R m m₁ n n₁) (hl : l ≤ m) : Pairing R l m₁ n n₁ where
  old_le := hl.trans h.old_le
  new_le := h.new_le
  old hk := ⟨hl.trans (h.old hk).1, (h.old hk).2⟩
  new := h.new
  unique := h.unique

/-- The pairs are those of an injective function. All other numbers can be sent as far away as one likes. -/
theorem Pairing.exists_injective (h : Pairing R m m₁ n n₁) {c : Nat} (hc : n₁ ≤ c) :
    ∃ φ : Nat → Nat, Function.Injective φ ∧ (∀ k k', R k k' → φ k = k') ∧
      ∀ k, (¬ ∃ k', R k k') → φ k = c + k := by
  classical
  let φ (k : Nat) : Nat := if hk : ∃ k', R k k' then hk.choose else c + k
  have hpaired (k k' : Nat) (hk : R k k') : φ k = k' := by
    have hex : ∃ k', R k k' := ⟨k', hk⟩
    show (if hk : ∃ k', R k k' then hk.choose else c + k) = k'
    rw [dif_pos hex]
    exact (h.unique hex.choose_spec hk).mp rfl
  have hother (k : Nat) (hk : ¬ ∃ k', R k k') : φ k = c + k := dif_neg hk
  refine ⟨φ, ?_, hpaired, hother⟩
  intro k j heq
  -- Partners stay below `n₁`, and all that have none go beyond it.
  by_cases hk : ∃ k', R k k' <;> by_cases hj : ∃ j', R j j'
  · obtain ⟨k', hk⟩ := hk
    obtain ⟨j', hj⟩ := hj
    rw [hpaired k k' hk, hpaired j j' hj] at heq
    exact (h.unique hk hj).mpr heq
  · obtain ⟨k', hk⟩ := hk
    have := (h.new hk).2
    rw [hpaired k k' hk, hother j hj] at heq
    omega
  · obtain ⟨j', hj⟩ := hj
    have := (h.new hj).2
    rw [hother k hk, hpaired j j' hj] at heq
    omega
  · rw [hother k hk, hother j hj] at heq
    omega

end

/-! ## The second run -/

/-- A table that has some lambdas and some arities already. -/
structure ClassTable.Knows (t : ClassTable) (C : List ClassEntry) (A : List Nat) : Prop where
  met : ∀ c ∈ C, ∃ i, t.index? c.node = some i ∧ t.nameAt i = c.name
  marked : ∀ k ∈ A, k ∈ t.arities
  ordered : t.Ordered

section

variable {t : ClassTable} {C D : List ClassEntry} {A B : List Nat}

/-- A table that knows some classes and arities knows fewer as well. -/
theorem ClassTable.Knows.mono (h : t.Knows C A) (hC : D ⊆ C) (hA : B ⊆ A) : t.Knows D B :=
  ⟨fun c hc => h.met c (hC hc), fun k hk => h.marked k (hA hk), h.ordered⟩

theorem ClassTable.Knows.left (h : t.Knows (C ++ D) (A ++ B)) : t.Knows C A :=
  h.mono (List.subset_append_left C D) (List.subset_append_left A B)

theorem ClassTable.Knows.right (h : t.Knows (C ++ D) (A ++ B)) : t.Knows D B :=
  h.mono (List.subset_append_right C D) (List.subset_append_right A B)

/-- Inserting what is there changes nothing, because there is only one place for it. -/
theorem Ascending.insert_of_mem {x : Nat} {ys : List Nat}
    (h : Strict (fun a b => decide (a < b)) ys) (hx : x ∈ ys) :
    insert (fun a b => decide (a < b)) x ys = ys := by
  induction ys with
  | nil => cases hx
  | cons y ys ih =>
    obtain ⟨hy, hys⟩ := List.pairwise_cons.mp h
    rw [insert]
    split
    · rfl
    · rename_i hne
      have hmem : x ∈ ys := (List.mem_cons.mp hx).resolve_left hne
      have hlt : y < x := of_decide_eq_true (hy x hmem)
      rw [if_neg (by simp; omega), ih hys hmem]

/-- Marking an arity again changes nothing. -/
theorem ClassTable.addArity_of_mem {k : Nat} (h : t.Ordered) (hk : k ∈ t.arities) : t.addArity k = t := by
  rw [addArity, Ascending.insert_of_mem h hk]

end

namespace Lowering

/-- A step that had the result `a` and drew the numbers from `m` up to `m'` is done once more, from any number
on: it has a result that is related to the old one, and leaves the table as it is. -/
def Repeats (t : ClassTable) {α : Type} (r : (Nat → Nat → Prop) → α → α → Prop) (x : Step α) (a : α)
    (m m' : Nat) : Prop :=
  ∀ n, ∃ a' n' R, x ⟨n, t⟩ = .ok a' ⟨n', t⟩ ∧ r R a a' ∧ Pairing R m m' n n'

section

variable {t : ClassTable} {α β : Type} {r : (Nat → Nat → Prop) → α → α → Prop}
  {q : (Nat → Nat → Prop) → β → β → Prop} {l m m₁ m₂ : Nat}

theorem repeats_pure {a a' : α} (h : r (fun _ _ => False) a a') : Repeats t r (pure a') a m m :=
  fun n => ⟨a', n, _, rfl, h, pairing_none m n⟩

/-- A step and what comes behind it are repeated if both are. -/
theorem Repeats.bind {x : Step α} {f : α → Step β} {a : α} {b : β} (hx : Repeats t r x a m m₁)
    (hf : ∀ R a', r R a a' →
      Repeats t (fun S b b' => q (fun k k' => R k k' ∨ S k k') b b') (f a') b m₁ m₂) :
    Repeats t q (x >>= f) b m m₂ := by
  intro n
  obtain ⟨a', n₁, R, hx, ha, hR⟩ := hx n
  obtain ⟨b', n₂, S, hf, hb, hS⟩ := hf R a' ha n₁
  exact ⟨b', n₂, _, bind_ok.mpr ⟨a', _, hx, hf⟩, hb, hR.append hS⟩

/-- A step that has nothing to do comes first. -/
theorem Repeats.after {x : Step α} {f : α → Step β} {a : α} {b : β} (hf : Repeats t q (f a) b m m₁)
    (hx : ∀ n, x ⟨n, t⟩ = .ok a ⟨n, t⟩) : Repeats t q (x >>= f) b m m₁ := by
  intro n
  obtain ⟨b', n', R, hf, hb, hR⟩ := hf n
  exact ⟨b', n', R, bind_ok.mpr ⟨a, _, hx n, hf⟩, hb, hR⟩

theorem Repeats.widen {x : Step α} {a : α} (h : Repeats t r x a m m₁) (hl : l ≤ m) : Repeats t r x a l m₁ := by
  intro n
  obtain ⟨a', n', R, hx, ha, hR⟩ := h n
  exact ⟨a', n', R, hx, ha, hR.widen hl⟩

/-- Relations may be put together in another order, or made weaker. -/
theorem Repeats.weaken {U V : (Nat → Nat → Prop) → Nat → Nat → Prop} {x : Step Fragment} {f : Fragment}
    (h : Repeats t (fun S f f' => f.Alike (U S) f') x f m m₁) (hUV : ∀ S k k', U S k k' → V S k k') :
    Repeats t (fun S f f' => f.Alike (V S) f') x f m m₁ := by
  intro n
  obtain ⟨f', n', R, hx, hf, hR⟩ := h n
  exact ⟨f', n', R, hx, hf.mono (hUV R), hR⟩

theorem repeats_draw (temp : Temp) : Repeats t Ident.Alike (draw temp) (.temp temp m) m (m + 1) :=
  fun n => ⟨.temp temp n, n + 1, _, rfl, .temp temp ⟨rfl, rfl⟩, pairing_one m n⟩

theorem repeats_put (source : Option Node) (temp : Temp) {p : Payload} (hp : ∀ R, p.Alike R p) :
    Repeats t Fragment.Alike (put source temp p) ⟨source, .temp temp m, .value, [.put (.temp temp m) p]⟩
      m (m + 1) := by
  refine (repeats_draw temp).bind fun R dst hdst => repeats_pure ?_
  have hdst := hdst.mono (S := fun k k' => R k k' ∨ False) fun _ _ h => Or.inl h
  exact ⟨rfl, rfl, hdst, .cons (.put hdst (hp _)) .nil⟩

theorem repeats_literal (source : Option Node) {l : Literal} {temp : Temp} {p : Payload}
    (h : constant l = some (temp, p)) :
    Repeats t Fragment.Alike (literal source l) ⟨source, .temp temp m, .value, [.put (.temp temp m) p]⟩
      m (m + 1) := by
  cases l with
  | integer n =>
    cases h
    exact repeats_put source .number fun _ => .number n
  | boolean b =>
    cases h
    exact repeats_put source .boolean fun _ => .boolean b
  | string s =>
    cases h
    exact repeats_put source .string fun _ => .string s
  | unspecified => cases h

theorem addArity_marked {k : Nat} (h : t.Ordered) (hk : k ∈ t.arities) (n : Nat) :
    Lowering.addArity k ⟨n, t⟩ = .ok ⟨⟩ ⟨n, t⟩ := by
  show EStateM.Result.ok PUnit.unit (⟨n, t.addArity k⟩ : State) = _
  rw [ClassTable.addArity_of_mem h hk]

theorem capturedBy_known {cs : Captures} {node : Node} {captured : List Bytes}
    (h : cs.captured? node = some captured) (n : Nat) : capturedBy cs node ⟨n, t⟩ = .ok captured ⟨n, t⟩ := by
  unfold capturedBy
  rw [h]
  rfl

theorem repeats_closure {cs : Captures} {node : Node} {name : Bytes} {captured : List Bytes}
    (h : cs.captured? node = some captured) :
    Repeats t Fragment.Alike (closure cs node name)
      ⟨some node, .temp .closure m, .value, [.put (.temp .closure m) (.closure name (captured.map .named))]⟩
      m (m + 1) :=
  Repeats.after (repeats_put (some node) .closure fun _ => .closure name captured) (capturedBy_known h)

/-- The call itself, when the arguments are related already. -/
theorem repeats_call {R : Nat → Nat → Prop} (node : Node) {ret ret' : Ident} (hret : ret.Alike R ret') (f : Bytes)
    {fs fs' : List Fragment} (hfs : List.Forall₂ (Fragment.Alike R) fs fs') (ht : t.Ordered)
    (hk : fs.length ∈ t.arities) :
    Repeats t (fun S f f' => f.Alike (fun k k' => R k k' ∨ S k k') f') (call node ret' f fs')
      ⟨some node, ret, .thunk,
        fs.flatMap Fragment.code ++ [.call ret (.named f) (fs.map Fragment.value)]⟩ m m := by
  rw [hfs.length_eq] at hk
  refine Repeats.after (repeats_pure (Fragment.Alike.mono (fun _ _ h => Or.inl h) ?_)) (addArity_marked ht hk)
  exact ⟨rfl, rfl, hret, (Instr.alikeAll_flatMap hfs).append
    (.cons (.call hret (.named f) (Fragment.values_alike hfs)) .nil)⟩

/-- The operation itself, when the arguments are related already. -/
theorem repeats_operate {R : Nat → Nat → Prop} (node : Node) {ret ret' : Ident} (hret : ret.Alike R ret')
    {name : Bytes} {fs fs' : List Fragment} (hfs : List.Forall₂ (Fragment.Alike R) fs fs') {prim : PrimCall}
    (hp : PrimCall.ofName? name (fs.map Fragment.value).dropLast = some prim) (ht : t.Ordered)
    (hk : 1 ∈ t.arities) :
    Repeats t (fun S f f' => f.Alike (fun k k' => R k k' ∨ S k k') f') (operate node ret' name fs')
      ⟨some node, ret, .thunk, fs.flatMap Fragment.code
        ++ [.put (.temp .primitive m) (.primitive prim),
            .call ret ((fs.map Fragment.value).getLastD ret) [.temp .primitive m]]⟩ m (m + 1) := by
  refine (repeats_draw .primitive).bind fun S dst hdst => ?_
  have hvalues := Fragment.values_alike hfs
  -- The operator is found again, as it is told by its name and the number of operands.
  have hprim := PrimCall.ofName?_alike name (Ident.dropLast_alike hvalues)
  rw [hp] at hprim
  dsimp only
  generalize PrimCall.ofName? name (fs'.map Fragment.value).dropLast = u at hprim ⊢
  cases hprim with
  | @some _ prim' hprim =>
    have hR : ∀ k k', R k k' → R k k' ∨ (S k k' ∨ False) := fun _ _ h => Or.inl h
    have hS : ∀ k k', S k k' → R k k' ∨ (S k k' ∨ False) := fun _ _ h => Or.inr (Or.inl h)
    have hdst := hdst.mono hS
    have hcode := (Instr.alikeAll_flatMap hfs).mono hR
    have hlast := (Ident.getLastD_alike hvalues hret).mono hR
    have hpayload := (Payload.Alike.primitive hprim).mono hR
    refine Repeats.after (repeats_pure ⟨rfl, rfl, hret.mono hR, ?_⟩) (addArity_marked ht hk)
    exact hcode.append (.cons (.put hdst hpayload) (.cons (.call (hret.mono hR) hlast (.cons hdst .nil)) .nil))

theorem repeats_choose {R : Nat → Nat → Prop} (node : Node) {test test' a a' b b' : Fragment}
    (ht : test.Alike R test') (ha : a.Alike R a') (hb : b.Alike R b') (hk : a.kind = b.kind) :
    Repeats t (fun S f f' => f.Alike (fun k k' => R k k' ∨ S k k') f') (choose node test' a' b')
      ⟨some node, .temp (branchTemp a.kind) m, a.kind,
        test.code ++ [.branch (.temp (branchTemp a.kind) m) a.kind test.value a.code a.value b.code b.value]⟩
      m (m + 1) := by
  unfold choose
  rw [← ha.kind, ← hb.kind, if_pos hk]
  refine (repeats_draw (branchTemp a.kind)).bind fun S dst hdst => ?_
  have hR : ∀ k k', R k k' → R k k' ∨ (S k k' ∨ False) := fun _ _ h => Or.inl h
  have hdst := hdst.mono (S := fun k k' => R k k' ∨ (S k k' ∨ False)) fun _ _ h => Or.inr (Or.inl h)
  have ht := ht.mono hR
  have ha := ha.mono hR
  have hb := hb.mono hR
  exact repeats_pure ⟨rfl, rfl, hdst,
    ht.code.append (.cons (.branch _ hdst ht.value ha.code ha.value hb.code hb.value) .nil)⟩

end

section

variable {cs cs' : Captures} {t : ClassTable}

/-- A tree that was lowered with some captures is lowered again with others, on a table that has its lambdas. -/
def TreeRepeats (cs cs' : Captures) (t : ClassTable) (e : Expr) : Prop :=
  ∀ {node m m' f C A}, Lowers cs node e m f m' C A → t.Knows C A →
    Repeats t Fragment.Alike (lower cs' node e) f m m'

/-- A list is repeated if its members are. -/
theorem repeats_lowerList {es : List Expr} (ih : ∀ e ∈ es, TreeRepeats cs cs' t e) {node : Node} {i m m' : Nat}
    {fs : List Fragment} {C : List ClassEntry} {A : List Nat} (h : LowersList cs node i es m fs m' C A)
    (ht : t.Knows C A) :
    Repeats t (fun R => List.Forall₂ (Fragment.Alike R)) (lowerList cs' node i es) fs m m' := by
  induction es generalizing i m fs C A with
  | nil =>
    cases h
    rw [lowerList]
    exact repeats_pure .nil
  | cons e es ihs =>
    rw [List.forall_mem_cons] at ih
    cases h with
    | cons he hs =>
      rw [lowerList]
      refine (ih.1 he ht.left).bind fun R f' hf => (ihs ih.2 hs ht.right).bind fun S fs' hfs => repeats_pure ?_
      refine .cons (hf.mono fun _ _ h => Or.inl h) (hfs.imp fun _ _ h => ?_)
      exact h.mono fun _ _ h => Or.inr (Or.inl h)

/-- So are bindings. -/
theorem repeats_lowerDefs {ds : List (Bytes × Expr)} (ih : ∀ d ∈ ds, TreeRepeats cs cs' t d.2) {node : Node}
    {i m m' : Nat} {code : List Instr} {C : List ClassEntry} {A : List Nat}
    (h : LowersDefs cs node i ds m code m' C A) (ht : t.Knows C A) :
    Repeats t Instr.AlikeAll (lowerDefs cs' node i ds) code m m' := by
  induction ds generalizing i m code C A with
  | nil =>
    cases h
    rw [lowerDefs]
    exact repeats_pure .nil
  | cons d ds ihs =>
    obtain ⟨x, e⟩ := d
    rw [List.forall_mem_cons] at ih
    cases h with
    | cons hx he hk hs =>
      rw [lowerDefs, hx]
      refine (ih.1 he ht.left).bind fun R v' hv => ?_
      rw [if_neg (by rw [← hv.kind, hk]; decide)]
      refine (ihs ih.2 hs ht.right).bind fun S rest hrest => repeats_pure ?_
      have hv := hv.mono (S := fun k k' => R k k' ∨ (S k k' ∨ False)) fun _ _ h => Or.inl h
      exact (hv.code.append (.cons (.copy x hv.value) .nil)).append (hrest.mono fun _ _ h => Or.inr (Or.inl h))

/-- An application draws the number of its thunk, and goes on with its arguments. -/
theorem Repeats.args {es : List Expr} (ih : ∀ e ∈ es, TreeRepeats cs cs' t e) {node : Node} {m m₁ m₂ : Nat}
    {fs : List Fragment} {C : List ClassEntry} {A B : List Nat} (h : LowersList cs node 1 es (m + 1) fs m₁ C A)
    (ht : t.Knows C (A ++ B)) {g : Ident → List Fragment → Step Fragment} {f : Fragment}
    (hg : ∀ R ret fs', Ident.Alike R (.temp .ret m) ret → List.Forall₂ (Fragment.Alike R) fs fs' →
      Repeats t (fun S f f' => f.Alike (fun k k' => R k k' ∨ S k k') f') (g ret fs') f m₁ m₂) :
    Repeats t Fragment.Alike (do let ret ← draw .ret; let vals ← lowerList cs' node 1 es; g ret vals) f m m₂ := by
  have hknows : t.Knows C A := ht.mono (List.Subset.refl C) (List.subset_append_left A B)
  refine (repeats_draw .ret).bind fun R ret hret => (repeats_lowerList ih h hknows).bind fun S fs' hfs => ?_
  let U (k k' : Nat) : Prop := R k k' ∨ S k k'
  have hret : Ident.Alike U (.temp .ret m) ret := hret.mono fun _ _ h => Or.inl h
  have hfs : List.Forall₂ (Fragment.Alike U) fs fs' := hfs.imp fun _ _ h => h.mono fun _ _ h => Or.inr h
  exact (hg U ret fs' hret hfs).weaken fun _ _ _ h => or_assoc.mp h

/-- Lowering a tree again succeeds, adds nothing to the table, and gives the same code but for numbers. -/
theorem treeRepeats (hcs : cs.Extends cs') {e : Expr} (he : e.OnlyHalts) : TreeRepeats cs cs' t e := by
  induction e using Expr.induction with
  | var x =>
    intro node m m' f C A h ht
    cases h with
    | var hx =>
      rw [lower, if_neg (by rw [hx]; decide)]
      exact repeats_pure ⟨rfl, rfl, .named x, .nil⟩
  | literal l =>
    intro node m m' f C A h ht
    cases h with
    | literal hl =>
      rw [lower]
      exact repeats_literal (some node) hl
  | lambda name params body _ =>
    intro node m m' f C A h ht
    cases h with
    | lambda hc hb _ =>
      -- The numbers of the body have no counterparts.
      obtain ⟨i, hi, hname⟩ := ht.met _ List.mem_cons_self
      rw [lower]
      refine Repeats.after (a := t.nameAt i) ?_ fun n => lift_met (s := ⟨n, t⟩) hi
      rw [hname]
      exact (repeats_closure (hcs _ _ hc)).widen hb.le
  | app callee args _ ihs =>
    intro node m m' f C A h ht
    have ihs : ∀ a ∈ args, TreeRepeats cs cs' t a := fun a ha => ihs a ha (he.args a ha)
    cases h with
    | call hf hs =>
      have hmarked := ht.marked _ (List.mem_append_right _ (List.mem_singleton_self _))
      rw [lower, if_neg (by rw [hf]; decide)]
      exact Repeats.args ihs hs ht fun R ret fs' hret hfs => repeats_call node hret _ hfs ht.ordered hmarked
    | @operate _ f _ _ _ fs k prim _ _ hf hs hp =>
      have hmarked := ht.marked _ (List.mem_append_right _ (List.mem_singleton_self _))
      -- There is a last argument, the continuation.
      have hargs : args.isEmpty = false := by
        cases args with
        | nil =>
          generalize hfs : fs ++ [k] = all at hs
          cases hs
          exact absurd hfs (by simp)
        | cons a as => rfl
      have hp' : PrimCall.ofName? f ((fs ++ [k]).map Fragment.value).dropLast = some prim := by simpa using hp
      rw [lower, if_pos hf, if_neg (by rw [hargs]; decide)]
      refine Repeats.args ihs hs ht fun R ret fs' hret hfs => ?_
      simpa using repeats_operate node hret hfs hp' ht.ordered hmarked
  | cond test a b iht iha ihb =>
    intro node m m' f C A h ht
    cases he with
    | cond het hea heb =>
      cases h with
      | cond hLt hLa hLb hk =>
        rw [lower]
        refine (iht het hLt ht.left.left).bind fun Rt ft hft => (iha hea hLa ht.left.right).bind fun Ra fa hfa =>
          (ihb heb hLb ht.right).bind fun Rb fb hfb => ?_
        -- The branch holds the code of all three, so it takes the three relations together.
        let R (k k' : Nat) : Prop := Rt k k' ∨ Ra k k' ∨ Rb k k'
        refine (repeats_choose (R := R) node (hft.mono ?_) (hfa.mono ?_) (hfb.mono ?_) hk).weaken ?_
        · exact fun _ _ h => Or.inl h
        · exact fun _ _ h => Or.inr (Or.inl h)
        · exact fun _ _ h => Or.inr (Or.inr h)
        · intro S k k' h
          simpa only [R, or_assoc] using h
  | letrec defs body ihs ihb =>
    intro node m m' f C A h ht
    cases he with
    | letrec hd hb =>
      cases h with
      | letrec hLd hLb =>
        rw [lower]
        refine (repeats_lowerDefs (fun d hmem => ihs d hmem (hd d hmem)) hLd ht.left).bind fun R code hcode =>
          (ihb hb hLb ht.right).bind fun S b hb => repeats_pure ?_
        have hcode := hcode.mono (S := fun k k' => R k k' ∨ (S k k' ∨ False)) fun _ _ h => Or.inl h
        have hb := hb.mono (S := fun k k' => R k k' ∨ (S k k' ∨ False)) fun _ _ h => Or.inr (Or.inl h)
        exact ⟨rfl, hb.kind, hb.value, ((Instr.alikeAll_slots defs).append hcode).append hb.code⟩
  | native uses code => exact absurd he Expr.not_onlyHalts_native
  | _ =>
    intro node m m' f C A h ht
    cases h

end

end Lowering

/-! ## The temporaries of code that is alike -/

/-- A word stands in the code of a fragment, or is its result. -/
def Fragment.HasWord (f : Fragment) (w : Bytes) : Prop :=
  f.value.text = w ∨ ∃ p ∈ f.pairs, .word w ∈ tokens p.1 ∨ .word w ∈ tokens p.2

section

variable {R : Nat → Nat → Prop} {m m' n n' : Nat}

/-- One text becomes the other by every renumbering that takes numbers to those that stand for them. -/
def Renumbers (R : Nat → Nat → Prop) (t t' : Bytes) : Prop :=
  ∀ φ, (∀ k k', R k k' → φ k = k') → Respells (renumberWord φ) .clean t t' .clean

/-- The spelling of a temporary tells its number. -/
theorem Temp.text_inj {t t' : Temp} {k k' : Nat} (h : Ident.text (.temp t k) = Ident.text (.temp t' k')) :
    k = k' := by
  cases Ident.Spelled.text_inj (x := .temp t k) (y := .temp t' k') trivial trivial h
  rfl

theorem exists_of_mem {α β : Type} {r : α → β → Prop} {xs : List α} {ys : List β} (h : List.Forall₂ r xs ys) :
    ∀ x ∈ xs, ∃ y ∈ ys, r x y := by
  induction h with
  | nil => exact fun x hx => absurd hx List.not_mem_nil
  | cons hr _ ih =>
    rw [List.forall_mem_cons]
    refine ⟨⟨_, List.mem_cons_self, hr⟩, fun x hx => ?_⟩
    obtain ⟨y, hy, hxy⟩ := ih x hx
    exact ⟨y, List.mem_cons_of_mem _ hy, hxy⟩

/-- A temporary that nothing stands for could be renumbered in two ways, but there is only one text. -/
theorem Renumbers.exists_new {t t' : Bytes} (h : Renumbers R t t') (hR : Pairing R m m' n n') {temp : Temp}
    {k : Nat} (hw : .word (Ident.text (.temp temp k)) ∈ atoms t) : ∃ k', R k k' := by
  by_contra hnone
  obtain ⟨φ, -, hφ, hfar⟩ := hR.exists_injective (c := n') (Nat.le_refl n')
  obtain ⟨ψ, -, hψ, hfarther⟩ := hR.exists_injective (c := n' + 1) (Nat.le_succ n')
  have hagree := (h φ hφ).word_agree (h ψ hψ) hw
  rw [renumberWord_temp, renumberWord_temp] at hagree
  have hsame := Temp.text_inj hagree
  rw [hfar k hnone, hfarther k hnone] at hsame
  omega

/-- A temporary of the new text stands for one of the old text. -/
theorem Renumbers.exists_old {t t' : Bytes} (h : Renumbers R t t') (hR : Pairing R m m' n n') {temp : Temp}
    {k' : Nat} (hw : .word (Ident.text (.temp temp k')) ∈ tokens t') : ∃ k, R k k' := by
  obtain ⟨φ, -, hφ, -⟩ := hR.exists_injective (c := n') (Nat.le_refl n')
  obtain ⟨v, hv, hnew⟩ := (h φ hφ).exists_word hw
  by_cases htemp : ∃ t k, v = Ident.text (.temp t k)
  · obtain ⟨t, k, rfl⟩ := htemp
    obtain ⟨j, hj⟩ := h.exists_new hR hv
    rw [renumberWord_temp, hφ k j hj] at hnew
    exact ⟨k, Temp.text_inj hnew ▸ hj⟩
  · -- A word that is no temporary would have stayed as it is.
    have hsame : renumberWord φ v = v := renumberWord_of_ne fun t k hv => htemp ⟨t, k, hv⟩
    exact absurd ⟨temp, k', hsame.symm.trans hnew⟩ htemp

theorem Instr.Alike.renumbers_decl {i i' : Instr} (h : i.Alike R i') : Renumbers R i.decl i'.decl :=
  fun _ hφ => h.respells_decl (renames_renumberWord hφ)

theorem Instr.Alike.renumbers_op {i i' : Instr} (h : i.Alike R i') : Renumbers R i.op i'.op :=
  fun _ hφ => h.respells_op (renames_renumberWord hφ)

theorem Ident.Alike.exists_new {x x' : Ident} (h : x.Alike R x') {temp : Temp} {k : Nat}
    (hx : x.text = Ident.text (.temp temp k)) : ∃ k', R k k' := by
  cases h with
  | named y => exact absurd hx (Ident.text_named_ne y temp k)
  | temp t hk => exact ⟨_, Temp.text_inj hx ▸ hk⟩

theorem Ident.Alike.exists_old {x x' : Ident} (h : x.Alike R x') {temp : Temp} {k' : Nat}
    (hx : x'.text = Ident.text (.temp temp k')) : ∃ k, R k k' := by
  cases h with
  | named y => exact absurd hx (Ident.text_named_ne y temp k')
  | temp t hk => exact ⟨_, Temp.text_inj hx ▸ hk⟩

theorem Ident.Alike.renumber {x x' : Ident} (h : x.Alike R x') {φ : Nat → Nat} (hφ : ∀ k k', R k k' → φ k = k') :
    x'.text = renumberWord φ x.text := by
  cases h with
  | named y => exact ((renames_renumberWord hφ).names y).symm
  | temp t hk => exact ((renames_renumberWord hφ).temps t _ _ hk).symm

namespace Fragment.Alike

variable {f f' : Fragment} (h : f.Alike R f')

include h

theorem pairs : List.Forall₂ (fun p p' => Renumbers R p.1 p'.1 ∧ Renumbers R p.2 p'.2) f.pairs f'.pairs :=
  List.forall₂_map_left_iff.mpr (List.forall₂_map_right_iff.mpr
    (h.code.forall₂.imp fun _ _ hi => ⟨hi.renumbers_decl, hi.renumbers_op⟩))

/-- The pairs of the second run are those of the first with other numbers. -/
theorem pairs_eq {φ : Nat → Nat} (hφ : ∀ k k', R k k' → φ k = k') :
    f'.pairs = f.pairs.map fun p => (renumberText φ p.1, renumberText φ p.2) := by
  symm
  rw [← List.forall₂_eq_eq_eq, List.forall₂_map_left_iff]
  exact h.pairs.imp fun p p' hp => Prod.ext (hp.1 φ hφ).replaceWords_eq (hp.2 φ hφ).replaceWords_eq

theorem exists_new (hR : Pairing R m m' n n') {temp : Temp} {k : Nat} (hw : f.HasWord (Ident.text (.temp temp k))) :
    ∃ k', R k k' := by
  rcases hw with hvalue | ⟨p, hp, hw⟩
  · exact h.value.exists_new hvalue
  · obtain ⟨p', -, hdecl, hop⟩ := exists_of_mem h.pairs p hp
    rcases hw with hw | hw
    · exact hdecl.exists_new hR (word_mem_lexAtoms hw)
    · exact hop.exists_new hR (word_mem_lexAtoms hw)

theorem exists_old (hR : Pairing R m m' n n') {temp : Temp} {k' : Nat}
    (hw : f'.HasWord (Ident.text (.temp temp k'))) : ∃ k, R k k' := by
  rcases hw with hvalue | ⟨p', hp', hw⟩
  · exact h.value.exists_old hvalue
  · obtain ⟨p, -, hdecl, hop⟩ := exists_of_mem h.pairs.flip p' hp'
    rcases hw with hw | hw
    · exact hdecl.exists_old hR hw
    · exact hop.exists_old hR hw

end Fragment.Alike

end

/-! ## The result -/

namespace Session

theorem step_lower_ok {s s₁ : Session} {p : Subtree} {e : Expr} {f : Fragment} (he : s.at? p = some e)
    (h : s.step (.lower p) = (.ok (.fragment f), s₁)) :
    Lowering.lower s.captures p.node e s.state = .ok f s₁.state ∧ s₁.captures = s.captures := by
  simp only [step, he] at h
  cases hlower : Lowering.lower s.captures p.node e s.state with
  | ok f' state =>
    rw [hlower] at h
    cases h
    exact ⟨rfl, rfl⟩
  | error err state =>
    rw [hlower] at h
    cases h

/-- A lowering that succeeds answers with a fragment. -/
theorem exists_step_lower {s : Session} {p : Subtree} {e : Expr} (he : s.at? p = some e)
    (h : Lowering.succeeds (Lowering.lower s.captures p.node e s.state) = true) :
    ∃ f s₁, s.step (.lower p) = (.ok (.fragment f), s₁) := by
  simp only [step, he]
  cases hlower : Lowering.lower s.captures p.node e s.state with
  | ok f state => exact ⟨f, _, rfl⟩
  | error err state =>
    rw [hlower] at h
    cases h

/-- After a tree was lowered on an empty table, its classes and arities are known for good. -/
theorem knows_run {s s₁ : Session} {p : Subtree} {e : Expr} {f : Fragment} (he : s.at? p = some e)
    (hempty : s.state.table = ClassTable.empty) (h : s.step (.lower p) = (.ok (.fragment f), s₁))
    (between : List Step) :
    ∃ C A, Lowering.Lowers s.captures p.node e s.state.next f s₁.state.next C A ∧
      (s₁.run between).2.state.table.Knows C A := by
  have hunmet : s.state.table.Unmet p.node := by
    rw [hempty]
    exact fun c hc => absurd hc List.not_mem_nil
  obtain ⟨C, A, hL, htable, -⟩ := Lowering.lower_ok s.captures p.node e (step_lower_ok he h).1 hunmet
  rw [hempty] at htable
  -- The table after the first run, and what is added to it.
  have hregisters : s.state.table.Registers s.Known := by
    rw [hempty]
    exact ClassTable.registers_empty
  have hregisters₁ := (s.step_gains (.lower p) hregisters).1
  rw [← s.known_step (.lower p), h] at hregisters₁
  obtain ⟨-, new, hgains⟩ := s₁.run_gains between hregisters₁
  have hgrows := hgains.grows
  refine ⟨C, A, hL, ?_, ?_, ?_⟩
  · intro c hc
    have hentry : c ∈ s₁.state.table.entries := by
      rw [htable, ClassTable.entries_empty_grow]
      exact hc
    obtain ⟨i, hm, hd⟩ := ClassTable.mem_entries.mp hentry
    refine ⟨i, hgrows.index _ i (hregisters₁.index?_eq_some_iff.mpr hm), ?_⟩
    rw [ClassTable.nameAt, hgrows.defs i _ hd]
    rfl
  · intro k hk
    refine hgrows.arities k ?_
    rw [htable]
    exact ClassTable.mem_arities_grow.mpr (Or.inl hk)
  · refine (s₁.precedes_run between).state.ordered ?_
    rw [htable]
    exact ClassTable.Ordered.grow (t := ClassTable.empty) List.Pairwise.nil C A

end Session

/-- **Lowering a tree again changes nothing but temporaries.** A tree was lowered in a session with an empty class
table; then anything was done in this session. Lowering the tree again succeeds and leaves the class table as it
is. The code is the one that was there before, with the numbers of temporaries changed by an injective function,
and none of its temporaries occurs in the old code. -/
theorem lower_again {s s₁ : Session} {p : Subtree} {e : Expr} {f : Fragment} (he : s.at? p = some e)
    (hhalts : e.OnlyHalts) (hempty : s.state.table = ClassTable.empty)
    (h : s.step (.lower p) = (.ok (.fragment f), s₁)) (between : List Session.Step) :
    ∃ f' s₂, (s₁.run between).2.step (.lower p) = (.ok (.fragment f'), s₂) ∧
      s₂.state.table = (s₁.run between).2.state.table ∧ f'.kind = f.kind ∧ f'.source = f.source ∧
      (∃ φ : Nat → Nat, Function.Injective φ ∧ f'.value.text = renumberWord φ f.value.text ∧
        f'.pairs = f.pairs.map fun p => (renumberText φ p.1, renumberText φ p.2)) ∧
      ∀ t k, f'.HasWord (Ident.text (.temp t k)) → ¬ f.HasWord (Ident.text (.temp t k)) := by
  obtain ⟨C, A, hL, hknows⟩ := Session.knows_run he hempty h between
  have hafter := s₁.precedes_run between
  have hprogram : (s₁.run between).2.at? p = some e := by
    have hstep := s.programs_step (.lower p)
    rw [h] at hstep
    rw [Session.at?, Session.programs_run, hstep]
    exact he
  have hcaptures : s.captures.Extends (s₁.run between).2.captures := by
    rw [← (Session.step_lower_ok he h).2]
    exact hafter.captures
  generalize (s₁.run between).2 = s' at *
  obtain ⟨f', n', R, hrun, halike, hR⟩ := Lowering.treeRepeats hcaptures hhalts hL hknows s'.state.next
  obtain ⟨φ, hinj, hφ, -⟩ := hR.exists_injective (Nat.le_refl n')
  have hstep : s'.step (.lower p) =
      (.ok (.fragment f'), { s' with state := ⟨n', s'.state.table⟩, lowered := (p, f') :: s'.lowered }) := by
    simp only [Session.step, hprogram, hrun]
  refine ⟨f', _, hstep, rfl, halike.kind.symm, halike.source.symm,
    ⟨φ, hinj, halike.value.renumber hφ, halike.pairs_eq hφ⟩, ?_⟩
  -- The numbers of the first run were drawn before those of the second.
  intro t k hnew hold
  obtain ⟨j, hj⟩ := halike.exists_old hR hnew
  obtain ⟨j', hj'⟩ := halike.exists_new hR hold
  have hlt := (hR.old hj').2
  have hge := (hR.new hj).1
  have hnext := hafter.state.next
  omega

/-- A loop that counts down and a halt continuation, with all captures known. -/
def countdownSession : Session :=
  ((Session.start [countdown, .halt [100] [104]] 0).run [.capture ⟨0, []⟩, .capture ⟨1, []⟩]).2

/-- The loop is lowered twice. In between, the other tree is lowered, the first lambda of the loop is lifted and
a name is drawn. -/
theorem lower_again_countdown :
    countdown.OnlyHalts ∧ ∃ f s₁ f' s₂, countdownSession.step (.lower ⟨0, []⟩) = (.ok (.fragment f), s₁) ∧
      (s₁.run [.lower ⟨1, []⟩, .lift ⟨0, [1]⟩, .fresh [103]]).2.step (.lower ⟨0, []⟩) =
        (.ok (.fragment f'), s₂) ∧
      s₂.state.table = (s₁.run [.lower ⟨1, []⟩, .lift ⟨0, [1]⟩, .fresh [103]]).2.state.table ∧
      ∃ φ : Nat → Nat, Function.Injective φ ∧
        f'.pairs = f.pairs.map fun p => (renumberText φ p.1, renumberText φ p.2) := by
  obtain ⟨f, s₁, h⟩ : ∃ f s₁, countdownSession.step (.lower ⟨0, []⟩) = (.ok (.fragment f), s₁) :=
    Session.exists_step_lower (e := countdown) rfl (by decide +kernel)
  obtain ⟨f', s₂, hagain, htable, -, -, ⟨φ, hφ, -, hpairs⟩, -⟩ :=
    lower_again (e := countdown) rfl onlyHalts_countdown rfl h [.lower ⟨1, []⟩, .lift ⟨0, [1]⟩, .fresh [103]]
  exact ⟨onlyHalts_countdown, f, s₁, f', s₂, h, hagain, htable, φ, hφ, hpairs⟩

end Trampoline

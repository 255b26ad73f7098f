import Trampoline.Proofs.Binders
import Trampoline.Proofs.Emitted
import Trampoline.Proofs.Kinds

/-!
# Trampoline.Proofs.Hygiene -- the variables of a block are different

A block makes all of its variables before it does anything. That this does no harm is not a matter of
how it runs, and it is settled here: if binders are apart, the variables of a block are different from
each other and from all variables that its code expects to find.

`Static` collects what a tree must satisfy where its free names are the names `Γ` of visible
variables. It is what the meaning of emitted code depends on, and it goes down to subtrees.
-/

namespace Trampoline

open Instr Emitted

/-! ## Variables of a block -/

/-- Different variables: temporaries from a range of the counter, and names with a property. -/
structure Owned (n n' : Nat) (P : Bytes → Prop) (xs : List Ident) : Prop where
  distinct : xs.Nodup
  origin : ∀ y ∈ xs, (∃ t k, y = .temp t k ∧ n ≤ k ∧ k < n') ∨ ∃ x, y = .named x ∧ P x

namespace Owned

variable {n m n' : Nat} {P Q R : Bytes → Prop} {xs ys : List Ident}

theorem nil : Owned n n' P [] := ⟨List.nodup_nil, fun _ hy => absurd hy List.not_mem_nil⟩

/-- What is owned is owned in a wider range, with more names. -/
theorem mono (h : Owned n m P xs) {l l' : Nat} (hl : l ≤ n) (hl' : m ≤ l')
    (hPQ : ∀ x, P x → Q x) : Owned l l' Q xs := by
  refine ⟨h.distinct, fun y hy => ?_⟩
  rcases h.origin y hy with ⟨t, k, rfl, hk⟩ | ⟨x, rfl, hx⟩
  · exact Or.inl ⟨t, k, rfl, by omega, by omega⟩
  · exact Or.inr ⟨x, rfl, hPQ x hx⟩

/-- Variables that were made one after the other. -/
theorem append (hx : Owned n m P xs) (hy : Owned m n' Q ys) (hn : n ≤ m) (hm : m ≤ n')
    (hPQ : ∀ x, P x → ¬ Q x) (hP : ∀ x, P x → R x) (hQ : ∀ x, Q x → R x) :
    Owned n n' R (xs ++ ys) := by
  refine ⟨List.nodup_append.mpr ⟨hx.distinct, hy.distinct, ?_⟩, ?_⟩
  · rintro y hyx z hzy rfl
    rcases hx.origin y hyx with ⟨t, k, rfl, hk⟩ | ⟨x, rfl, hpx⟩
    · rcases hy.origin _ hzy with ⟨t', k', heq, hk'⟩ | ⟨x, heq, _⟩
      · cases heq
        omega
      · cases heq
    · rcases hy.origin _ hzy with ⟨t', k', heq, _⟩ | ⟨x', heq, hqx⟩
      · cases heq
      · cases heq
        exact hPQ x hpx hqx
  · intro y hmem
    rcases List.mem_append.mp hmem with hmem | hmem
    · exact (hx.mono (Nat.le_refl n) hm hP).origin y hmem
    · exact (hy.mono hn (Nat.le_refl n') hQ).origin y hmem

theorem temp (t : Temp) (n : Nat) : Owned n (n + 1) P [.temp t n] := by
  refine ⟨List.pairwise_singleton _ _, fun y hy => ?_⟩
  exact Or.inl ⟨t, n, List.mem_singleton.mp hy, by omega, by omega⟩

/-- Distinct names are owned without any numbers. -/
theorem names {xs : List Bytes} (h : xs.Nodup) : Owned n n (· ∈ xs) (xs.map .named) := by
  refine ⟨h.map fun x y heq => Ident.named.inj heq, fun y hy => ?_⟩
  obtain ⟨x, hx, rfl⟩ := List.mem_map.mp hy
  exact Or.inr ⟨x, rfl, hx⟩

/-- A temporary that was made first. -/
theorem concat_temp (h : Owned (n + 1) n' P xs) (t : Temp) (hn : n + 1 ≤ n') :
    Owned n n' P (xs ++ [.temp t n]) := by
  refine ⟨List.nodup_append.mpr ⟨h.distinct, List.pairwise_singleton _ _, ?_⟩, ?_⟩
  · rintro y hy z hz rfl
    rcases h.origin y hy with ⟨t', k, rfl, hk⟩ | ⟨x, rfl, _⟩
    · cases List.mem_singleton.mp hz
      omega
    · cases List.mem_singleton.mp hz
  · intro y hmem
    rcases List.mem_append.mp hmem with hmem | hmem
    · exact (h.mono (Nat.le_succ n) (Nat.le_refl n') fun _ hx => hx).origin y hmem
    · exact Or.inl ⟨t, n, List.mem_singleton.mp hmem, by omega, by omega⟩

/-- A temporary that was made last. -/
theorem cons_temp (h : Owned n n' P xs) (t : Temp) (hn : n ≤ n') :
    Owned n (n' + 1) P (.temp t n' :: xs) := by
  refine ⟨List.nodup_cons.mpr ⟨?_, h.distinct⟩, ?_⟩
  · intro hmem
    rcases h.origin _ hmem with ⟨t', k, heq, hk⟩ | ⟨x, heq, _⟩
    · cases heq
      omega
    · cases heq
  · intro y hmem
    rcases List.mem_cons.mp hmem with rfl | hmem
    · exact Or.inl ⟨t, n', rfl, by omega, by omega⟩
    · exact (h.mono (Nat.le_refl n) (Nat.le_succ n') fun _ hx => hx).origin y hmem

theorem sublist (h : Owned n n' P xs) (hsub : ys.Sublist xs) : Owned n n' P ys :=
  ⟨h.distinct.sublist hsub, fun y hy => h.origin y (hsub.mem hy)⟩

end Owned

theorem declared_append (a b : List Instr) : declared (a ++ b) = declared a ++ declared b := by
  simp [declared]

theorem declaresWithinAll_slots (defs : List (Bytes × Expr)) :
    declaresWithinAll (defs.map fun d => .slot (.named d.1)) = (defs.map Prod.fst).map .named := by
  induction defs with
  | nil => rfl
  | cons d ds ih =>
    rw [List.map_cons, List.map_cons, List.map_cons, ← ih]
    rfl

theorem declaresWithinAll_branch (dst test av bv : Ident) (kind : Kind) (a b : List Instr) :
    declaresWithinAll [.branch dst kind test a av b bv] =
      dst :: (declaresWithinAll a ++ declaresWithinAll b) := by
  rw [declaresWithinAll, declaresWithinAll, List.append_nil, declaresWithin]

/-- What a block declares itself is among what it declares at any depth. -/
theorem declared_sublist (code : List Instr) : (declared code).Sublist (declaresWithinAll code) := by
  induction code with
  | nil => exact List.Sublist.slnil
  | cons i is ih =>
    have hown : (i.declares.map Prod.fst).Sublist i.declaresWithin := by
      cases i <;> simp [declares, declaresWithin]
    have hsplit : declared (i :: is) = i.declares.map Prod.fst ++ declared is := by
      simp [declared]
    rw [hsplit, declaresWithinAll]
    exact hown.append ih

/-! ## Children side by side -/

/-- Names are bound apart in each of some trees, and what is bound in one of them outside of lambdas is
not bound in another. -/
structure Expr.Siblings (es : List Expr) : Prop where
  each : ∀ e ∈ es, e.BindersApart
  across : ∀ (j k : Nat) (a b : Expr) (x : Bytes), es[j]? = some a → es[k]? = some b → j ≠ k →
    a.Hoists x → ¬ b.BindsWithin x

namespace Expr

theorem Siblings.tail {e : Expr} {es : List Expr} (h : Siblings (e :: es)) : Siblings es := by
  refine ⟨fun a ha => h.each a (List.mem_cons_of_mem e ha), ?_⟩
  intro j k a b x ha hb hjk
  exact h.across (j + 1) (k + 1) a b x ha hb (by omega)

theorem BindersApart.args {callee : Expr} {args : List Expr}
    (h : (Expr.app callee args).BindersApart) : Siblings args := by
  constructor
  · intro a ha
    obtain ⟨i, hi⟩ := List.mem_iff_getElem?.mp ha
    exact h.child (i := i + 1) hi
  · intro j k a b x ha hb hjk
    exact h.siblings (i := j + 1) (j := k + 1) ha hb (by omega)

theorem BindersApart.defs {defs : List (Bytes × Expr)} {body : Expr}
    (h : (Expr.letrec defs body).BindersApart) : Siblings (defs.map Prod.snd) := by
  constructor
  · intro a ha
    obtain ⟨i, hi⟩ := List.mem_iff_getElem?.mp ha
    exact h.child (child?_def hi)
  · intro j k a b x ha hb hjk
    exact h.siblings (child?_def ha) (child?_def hb) (by omega)

/-- Names that some of the trees bind outside of lambdas. -/
def HoistsAny (es : List Expr) (x : Bytes) : Prop := ∃ a ∈ es, a.Hoists x

theorem HoistsAny.of_args {callee : Expr} {args : List Expr} {x : Bytes} (h : HoistsAny args x) :
    (Expr.app callee args).Hoists x := by
  obtain ⟨a, ha, hx⟩ := h
  obtain ⟨i, hi⟩ := List.mem_iff_getElem?.mp ha
  exact hx.of_child (i := i + 1) (fun h => h) hi

theorem HoistsAny.of_defs {defs : List (Bytes × Expr)} {body : Expr} {x : Bytes}
    (h : HoistsAny (defs.map Prod.snd) x) : (Expr.letrec defs body).Hoists x := by
  obtain ⟨a, ha, hx⟩ := h
  obtain ⟨i, hi⟩ := List.mem_iff_getElem?.mp ha
  exact hx.of_child (i := i + 1) (fun h => h) (child?_def hi)

/-- What some trees bind outside of lambdas is apart, in each of them and across them. -/
structure Peers (es : List Expr) : Prop where
  each : ∀ e ∈ es, e.HoistsApart
  across : ∀ (j k : Nat) (a b : Expr) (x : Bytes), es[j]? = some a → es[k]? = some b → j ≠ k →
    a.Hoists x → ¬ b.Hoists x

theorem Siblings.peers {es : List Expr} (h : Siblings es) : Peers es := by
  refine ⟨fun e he => (h.each e he).hoistsApart, ?_⟩
  intro j k a b x ha hb hjk hax hbx
  exact h.across j k a b x ha hb hjk hax hbx.bindsWithin

theorem Peers.tail {e : Expr} {es : List Expr} (h : Peers (e :: es)) : Peers es := by
  refine ⟨fun a ha => h.each a (List.mem_cons_of_mem e ha), ?_⟩
  intro j k a b x ha hb hjk
  exact h.across (j + 1) (k + 1) a b x ha hb (by omega)

/-- What the first of some peers hoists none of the others hoists. -/
theorem Peers.head_apart {e : Expr} {es : List Expr} {x : Bytes} (h : Peers (e :: es))
    (hx : e.Hoists x) : ¬ HoistsAny es x := by
  rintro ⟨a, ha, hax⟩
  obtain ⟨k, hk⟩ := List.mem_iff_getElem?.mp ha
  exact h.across 0 (k + 1) e a x rfl hk (by omega) hx hax

namespace HoistsApart

theorem args {callee : Expr} {args : List Expr} (h : (Expr.app callee args).HoistsApart) :
    Peers args := by
  constructor
  · intro a ha
    obtain ⟨i, hi⟩ := List.mem_iff_getElem?.mp ha
    exact h.child (i := i + 1) not_isLambda_app hi
  · intro j k a b x ha hb hjk
    exact h.siblings (i := j + 1) (j := k + 1) not_isLambda_app ha hb (by omega)

theorem defs {defs : List (Bytes × Expr)} {body : Expr}
    (h : (Expr.letrec defs body).HoistsApart) : Peers (defs.map Prod.snd) := by
  constructor
  · intro a ha
    obtain ⟨i, hi⟩ := List.mem_iff_getElem?.mp ha
    exact h.child not_isLambda_letrec (child?_def hi)
  · intro j k a b x ha hb hjk
    exact h.siblings not_isLambda_letrec (child?_def ha) (child?_def hb) (by omega)

variable {defs : List (Bytes × Expr)} {body : Expr} {x : Bytes}

/-- No binding hoists a name of its own letrec. -/
theorem name_not_in_defs (h : (Expr.letrec defs body).HoistsApart) (hx : x ∈ defs.map Prod.fst) :
    ¬ HoistsAny (defs.map Prod.snd) x := by
  rintro ⟨a, ha, hax⟩
  obtain ⟨i, hi⟩ := List.mem_iff_getElem?.mp ha
  exact h.below not_isLambda_letrec hx (child?_def hi) hax

/-- What a binding hoists the body does not hoist. -/
theorem def_not_in_body (h : (Expr.letrec defs body).HoistsApart)
    (hx : HoistsAny (defs.map Prod.snd) x) : ¬ body.Hoists x := by
  obtain ⟨a, ha, hax⟩ := hx
  obtain ⟨i, hi⟩ := List.mem_iff_getElem?.mp ha
  exact h.siblings (j := 0) not_isLambda_letrec (child?_def hi) rfl (by omega) hax

end HoistsApart

end Expr

namespace Lowering

variable {cs : Captures}

mutual

/-- A tree's code declares different variables, the arms of its conditionals included: temporaries that
were drawn for it, and the names that the tree binds outside of lambdas. -/
theorem Lowers.ownedWithin {node : Node} {e : Expr} {n n' : Nat} {f : Fragment} {C : List ClassEntry}
    {A : List Nat} :
    Lowers cs node e n f n' C A → e.OnlyHalts → e.HoistsApart →
      Owned n n' e.Hoists (declaresWithinAll f.code)
  | .var _, _, _ => .nil
  | .literal _, _, _ => .temp _ _
  | .lambda _ hb _, _, _ => (Owned.temp _ _).mono hb.le (Nat.le_refl _) fun _ hx => hx
  | .call _ hs, he, ha => by
    rw [declaresWithinAll_append]
    refine ((hs.ownedWithin he.args ha.args).mono (Nat.le_refl _) (Nat.le_refl _) ?_).concat_temp _ hs.le
    exact fun x hx => hx.of_args
  | .operate _ hs _, he, ha => by
    have hle := hs.le
    rw [List.append_cons, declaresWithinAll_append, declaresWithinAll_append]
    have hput : Owned _ _ _ _ := (hs.ownedWithin he.args ha.args).append (Owned.temp .primitive _) hle
      (Nat.le_succ _) (fun _ _ hfalse => hfalse) (fun _ hx => hx) fun _ hfalse => hfalse.elim
    refine (hput.mono (Nat.le_refl _) (Nat.le_refl _) ?_).concat_temp _ (Nat.le_succ_of_le hle)
    exact fun x hx => hx.of_args
  | .cond ht hA hB _, .cond hht hhA hhB, ha => by
    have hleA := hA.le
    have hleB := hB.le
    have hT : Owned _ _ _ _ := ht.ownedWithin hht (ha.child Expr.not_isLambda_cond (i := 0) rfl)
    have harms : Owned _ _ _ _ := (hA.ownedWithin hhA (ha.child Expr.not_isLambda_cond (i := 1) rfl)).append
      (hB.ownedWithin hhB (ha.child Expr.not_isLambda_cond (i := 2) rfl)) hleA hleB
      (fun x => ha.siblings Expr.not_isLambda_cond (i := 1) (j := 2) rfl rfl (by omega))
      (fun x => Or.inl) fun x => Or.inr
    rw [declaresWithinAll_append, declaresWithinAll_branch]
    refine hT.append (harms.cons_temp _ (by omega)) ht.le (by omega) (fun x hx harm => ?_) ?_ ?_
    · rcases harm with harm | harm
      · exact ha.siblings Expr.not_isLambda_cond (i := 0) (j := 1) rfl rfl (by omega) hx harm
      · exact ha.siblings Expr.not_isLambda_cond (i := 0) (j := 2) rfl rfl (by omega) hx harm
    · exact fun x hx => hx.of_child (i := 0) Expr.not_isLambda_cond rfl
    · rintro x (hx | hx)
      · exact hx.of_child (i := 1) Expr.not_isLambda_cond rfl
      · exact hx.of_child (i := 2) Expr.not_isLambda_cond rfl
  | .letrec hd hb, .letrec hhd hhb, ha => by
    rw [declaresWithinAll_append, declaresWithinAll_append, declaresWithinAll_slots]
    have hdefs : Owned _ _ _ _ :=
      (Owned.names (ha.nodup Expr.not_isLambda_letrec)).append (hd.ownedWithin hhd ha.defs)
      (Nat.le_refl _) hd.le (fun x => ha.name_not_in_defs) (fun x hx => Or.inl hx) fun x => Or.inr
    refine hdefs.append (hb.ownedWithin hhb (ha.child Expr.not_isLambda_letrec (i := 0) rfl)) hd.le hb.le
      (fun x hx hbx => ?_) ?_ ?_
    · rcases hx with hx | hx
      · exact ha.below Expr.not_isLambda_letrec (i := 0) hx rfl hbx
      · exact ha.def_not_in_body hx hbx
    · rintro x (hx | hx)
      · exact Expr.hoists_of_bound Expr.not_isLambda_letrec hx
      · exact hx.of_defs
    · exact fun x hx => hx.of_child (i := 0) Expr.not_isLambda_letrec rfl
  | .native, he, _ => absurd he Expr.not_onlyHalts_native

/-- The code of a list declares each of its variables once, at any depth. -/
theorem LowersList.ownedWithin {node : Node} {i : Nat} {es : List Expr} {n n' : Nat}
    {fs : List Fragment} {C : List ClassEntry} {A : List Nat} :
    LowersList cs node i es n fs n' C A → (∀ e ∈ es, e.OnlyHalts) → Expr.Peers es →
      Owned n n' (Expr.HoistsAny es) (declaresWithinAll (fs.flatMap Fragment.code))
  | .nil, _, _ => .nil
  | .cons he hs, hes, ha => by
    obtain ⟨hhe, hhs⟩ := List.forall_mem_cons.mp hes
    rw [List.flatMap_cons, declaresWithinAll_append]
    refine (he.ownedWithin hhe (ha.each _ List.mem_cons_self)).append (hs.ownedWithin hhs ha.tail) he.le
      hs.le (fun x => ha.head_apart) (fun x hx => ⟨_, List.mem_cons_self, hx⟩) ?_
    rintro x ⟨a, hmem, hx⟩
    exact ⟨a, List.mem_cons_of_mem _ hmem, hx⟩

/-- So does the code of bindings. -/
theorem LowersDefs.ownedWithin {node : Node} {i : Nat} {ds : List (Bytes × Expr)} {n n' : Nat}
    {code : List Instr} {C : List ClassEntry} {A : List Nat} :
    LowersDefs cs node i ds n code n' C A → (∀ d ∈ ds, d.2.OnlyHalts) → Expr.Peers (ds.map Prod.snd) →
      Owned n n' (Expr.HoistsAny (ds.map Prod.snd)) (declaresWithinAll code)
  | .nil, _, _ => .nil
  | .cons _ he _ hs, hds, ha => by
    obtain ⟨hhe, hhs⟩ := List.forall_mem_cons.mp hds
    have hcopy : ∀ x v, declaresWithinAll [.copy x v] = [] := fun _ _ => rfl
    rw [declaresWithinAll_append, declaresWithinAll_append, hcopy, List.append_nil]
    refine (he.ownedWithin hhe (ha.each _ List.mem_cons_self)).append (hs.ownedWithin hhs ha.tail) he.le
      hs.le (fun x => ha.head_apart) (fun x hx => ⟨_, List.mem_cons_self, hx⟩) ?_
    rintro x ⟨a, hmem, hx⟩
    exact ⟨a, List.mem_cons_of_mem _ hmem, hx⟩

end

/-- The same for what the code declares outside of arms. -/
theorem Lowers.owned {node : Node} {e : Expr} {n n' : Nat} {f : Fragment} {C : List ClassEntry}
    {A : List Nat} (h : Lowers cs node e n f n' C A) (he : e.OnlyHalts) (ha : e.BindersApart) :
    Owned n n' e.Hoists (declared f.code) :=
  (h.ownedWithin he ha.hoistsApart).sublist (declared_sublist f.code)

/-- The same for the variables that are declared outside of arms. -/
theorem LowersList.owned {node : Node} {i : Nat} {es : List Expr} {n n' : Nat}
    {fs : List Fragment} {C : List ClassEntry} {A : List Nat}
    (h : LowersList cs node i es n fs n' C A) (he : ∀ e ∈ es, e.OnlyHalts) (ha : Expr.Siblings es) :
    Owned n n' (Expr.HoistsAny es) (declared (fs.flatMap Fragment.code)) :=
  (h.ownedWithin he ha.peers).sublist (declared_sublist _)

theorem LowersDefs.owned {node : Node} {i : Nat} {ds : List (Bytes × Expr)} {n n' : Nat}
    {code : List Instr} {C : List ClassEntry} {A : List Nat}
    (h : LowersDefs cs node i ds n code n' C A) (he : ∀ d ∈ ds, d.2.OnlyHalts)
    (ha : Expr.Siblings (ds.map Prod.snd)) :
    Owned n n' (Expr.HoistsAny (ds.map Prod.snd)) (declared code) :=
  (h.ownedWithin he ha.peers).sublist (declared_sublist code)

theorem mem_declared_last {code : List Instr} {i : Instr} {x : Ident} (h : x ∈ declared [i]) :
    x ∈ declared (code ++ [i]) := by
  rw [declared_append]
  exact List.mem_append_right _ h

/-- A thunk is one of the variables that its own code declares. -/
theorem Lowers.value_declared {node : Node} {e : Expr} {n n' : Nat} {f : Fragment}
    {C : List ClassEntry} {A : List Nat} :
    Lowers cs node e n f n' C A → e.OnlyHalts → f.kind = .thunk → f.value ∈ declared f.code
  | .var _, _, hk => nomatch hk
  | .literal _, _, hk => nomatch hk
  | .lambda _ _ _, _, hk => nomatch hk
  | .call _ _, _, _ => mem_declared_last (List.mem_singleton_self _)
  | .operate _ _ _, _, _ => by
    rw [List.append_cons]
    exact mem_declared_last (List.mem_singleton_self _)
  | .cond _ _ _ _, _, _ => mem_declared_last (List.mem_singleton_self _)
  | .letrec _ hb, .letrec _ hhb, hk => by
    rw [declared_append]
    exact List.mem_append_right _ (hb.value_declared hhb hk)
  | .native, he, _ => absurd he Expr.not_onlyHalts_native

/-! ## What a tree must satisfy -/

/-- What the meaning of a tree's code depends on, where the names `Γ` are those of visible variables. -/
structure Static (cs : Captures) (node : Node) (Γ : List Bytes) (e : Expr) : Prop where
  halts : e.OnlyHalts
  cps : e.Cps
  known : Known cs node e
  apart : e.BindersApart
  free : ∀ x ∈ e.free, x ∈ Γ
  outer : ∀ x ∈ Γ, ¬ e.BindsWithin x

/-- The same for children of a node from a position on. -/
structure StaticList (cs : Captures) (node : Node) (i : Nat) (Γ : List Bytes) (es : List Expr) :
    Prop where
  halts : ∀ e ∈ es, e.OnlyHalts
  cps : ∀ e ∈ es, e.Cps
  known : KnownFrom cs node i es
  apart : Expr.Siblings es
  free : ∀ x ∈ Expr.freeList es, x ∈ Γ
  outer : ∀ e ∈ es, ∀ x ∈ Γ, ¬ e.BindsWithin x

namespace Static

variable {node : Node} {Γ : List Bytes} {e : Expr}

/-- Fewer names do, if the free ones are among them. -/
theorem restrict (h : Static cs node Γ e) {Δ : List Bytes} (hsub : ∀ x ∈ Δ, x ∈ Γ)
    (hfree : ∀ x ∈ e.free, x ∈ Δ) : Static cs node Δ e :=
  { h with free := hfree, outer := fun x hx => h.outer x (hsub x hx) }

/-- Down to a child, in which names that the node binds are visible too. -/
theorem child (h : Static cs node Γ e) {i : Nat} {c : Expr} {Δ : List Bytes}
    (hc : e.child? i = some c) (hhalts : c.OnlyHalts) (hbound : ∀ x ∈ Δ, x ∈ e.bound)
    (hfree : ∀ x ∈ c.free, x ∈ Δ ++ Γ) : Static cs (node.child i) (Δ ++ Γ) c where
  halts := hhalts
  cps := h.cps.child hc
  known := h.known.child hc
  apart := h.apart.child hc
  free := hfree
  outer x hx hw := by
    rcases List.mem_append.mp hx with hx | hx
    · exact h.apart.below (hbound x hx) hc hw
    · exact h.outer x hx (hw.of_child hc)

theorem args {f : Bytes} {args : List Expr} (h : Static cs node Γ (.app (.var f) args)) :
    StaticList cs node 1 Γ args where
  halts := h.halts.args
  cps := (Expr.cps_call.mp h.cps).2
  known := h.known.args
  apart := h.apart.args
  free x hx := h.free x (Names.mem_union.mpr (Or.inr hx))
  outer a ha x hx hw := by
    obtain ⟨i, hi⟩ := List.mem_iff_getElem?.mp ha
    exact h.outer x hx (hw.of_child (i := i + 1) hi)

theorem callee {f : Bytes} {args : List Expr} (h : Static cs node Γ (.app (.var f) args))
    (hf : Primitive.isName f = false) : f ∈ Γ :=
  h.free f (Names.mem_union.mpr (Or.inl (Expr.mem_occurrence.mpr ⟨rfl, hf⟩)))

/-- The parts of a conditional are in the scope of the whole. -/
theorem cond {test a b : Expr} (h : Static cs node Γ (.cond test a b)) :
    Static cs (node.child 0) Γ test ∧ Static cs (node.child 1) Γ a ∧
      Static cs (node.child 2) Γ b := by
  have hnone : ∀ x ∈ ([] : List Bytes), x ∈ (Expr.cond test a b).bound := fun x hx =>
    absurd hx List.not_mem_nil
  have harms : ∀ x ∈ Names.union a.free b.free, x ∈ Γ := fun x hx =>
    h.free x (Names.mem_union.mpr (Or.inr hx))
  cases h.halts with
  | cond ht ha hb =>
    refine ⟨h.child (i := 0) rfl ht hnone fun x hx => ?_, h.child (i := 1) rfl ha hnone fun x hx => ?_,
      h.child (i := 2) rfl hb hnone fun x hx => ?_⟩
    · exact h.free x (Names.mem_union.mpr (Or.inl hx))
    · exact harms x (Names.mem_union.mpr (Or.inl hx))
    · exact harms x (Names.mem_union.mpr (Or.inr hx))

theorem defs {defs : List (Bytes × Expr)} {body : Expr} (h : Static cs node Γ (.letrec defs body)) :
    StaticList cs node 1 (defs.map Prod.fst ++ Γ) (defs.map Prod.snd) where
  halts := by
    cases h.halts with
    | letrec hd _ => exact List.forall_mem_map.mpr hd
  cps := List.forall_mem_map.mpr (Expr.cps_letrec.mp h.cps).1
  known := h.known.defs
  apart := h.apart.defs
  free x hx := by
    rw [List.mem_append]
    by_cases hname : x ∈ defs.map Prod.fst
    · exact Or.inl hname
    · refine Or.inr (h.free x (Names.mem_without.mpr ⟨Names.mem_union.mpr (Or.inl ?_), hname⟩))
      rw [Expr.freeDefs_eq]
      exact hx
  outer a ha x hx hw := by
    obtain ⟨i, hi⟩ := List.mem_iff_getElem?.mp ha
    rcases List.mem_append.mp hx with hx | hx
    · exact h.apart.below hx (Expr.child?_def hi) hw
    · exact h.outer x hx (hw.of_child (Expr.child?_def hi))

/-- The body of a letrec is in the scope of its names. -/
theorem body {defs : List (Bytes × Expr)} {body : Expr} (h : Static cs node Γ (.letrec defs body)) :
    Static cs (node.child 0) (defs.map Prod.fst ++ Γ) body := by
  have hhalts : body.OnlyHalts := by
    cases h.halts with
    | letrec _ hb => exact hb
  refine h.child rfl hhalts (fun x hx => hx) fun x hx => ?_
  rw [List.mem_append]
  by_cases hname : x ∈ defs.map Prod.fst
  · exact Or.inl hname
  · exact Or.inr (h.free x (Names.mem_without.mpr ⟨Names.mem_union.mpr (Or.inr hx), hname⟩))

/-- The body of a lambda sees parameters and what the lambda captures, and nothing else. -/
theorem lambda_body {name : Bytes} {params : List Bytes} {body : Expr}
    (h : Static cs node Γ (.lambda name params body)) (hbody : body.OnlyHalts) :
    Static cs (node.child 0) (params ++ Names.without body.free params) body := by
  have hfree : ∀ x ∈ body.free, x ∈ params ++ Names.without body.free params := by
    intro x hx
    rw [List.mem_append, Names.mem_without]
    by_cases hp : x ∈ params
    · exact Or.inl hp
    · exact Or.inr ⟨hx, hp⟩
  have hsub : ∀ x ∈ params ++ Names.without body.free params, x ∈ params ++ Γ := by
    intro x hx
    rcases List.mem_append.mp hx with hx | hx
    · exact List.mem_append_left _ hx
    · exact List.mem_append_right _ (h.free x hx)
  have hwide : Static cs (node.child 0) (params ++ Γ) body :=
    h.child rfl hbody (fun x hx => hx) fun x hx => hsub x (hfree x hx)
  exact hwide.restrict hsub hfree

end Static

namespace StaticList

variable {node : Node} {i : Nat} {Γ : List Bytes} {e : Expr} {es : List Expr}

theorem head (h : StaticList cs node i Γ (e :: es)) : Static cs (node.child i) Γ e where
  halts := h.halts e List.mem_cons_self
  cps := h.cps e List.mem_cons_self
  known := h.known.head
  apart := h.apart.each e List.mem_cons_self
  free x hx := h.free x (Names.mem_union.mpr (Or.inl hx))
  outer := h.outer e List.mem_cons_self

theorem tail (h : StaticList cs node i Γ (e :: es)) : StaticList cs node (i + 1) Γ es where
  halts a ha := h.halts a (List.mem_cons_of_mem e ha)
  cps a ha := h.cps a (List.mem_cons_of_mem e ha)
  known := h.known.tail
  apart := h.apart.tail
  free x hx := h.free x (Names.mem_union.mpr (Or.inr hx))
  outer a ha := h.outer a (List.mem_cons_of_mem e ha)

end StaticList

end Lowering

end Trampoline

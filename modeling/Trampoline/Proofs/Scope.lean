import Trampoline.Proofs.Lowered
import Trampoline.Proofs.Variables

/-!
# Trampoline.Proofs.Scope -- emitted code is well scoped

Three walks over a tree have to agree for emitted code to be scoped: the one that computes free names,
the one that emits code, and the one that gives lambdas classes. Where they meet is the lambda. Its
closure is built from the slots of the names that it captures, which have to be visible around it, and
its body sees these names and its parameters and nothing else.

`Lowers.scoped` carries one invariant through a derivation: if the free names of a tree are visible,
the tree's code is scoped and its result is visible behind it. `Lowers.fresh` says that temporaries
have numbers of their own. Together they make every block sound.
-/

namespace Trampoline

open Instr

/-! ## Fresh numbers -/

/-- Different numbers from a range of the counter. -/
structure Fresh (n n' : Nat) (ns : List Nat) : Prop where
  distinct : ns.Nodup
  range : ∀ k ∈ ns, n ≤ k ∧ k < n'

namespace Fresh

variable {n m n' : Nat} {as bs : List Nat}

theorem nil : Fresh n n' [] := ⟨List.nodup_nil, fun _ hk => absurd hk List.not_mem_nil⟩

theorem mono (h : Fresh n n' as) {l l' : Nat} (hl : l ≤ n) (hl' : n' ≤ l') : Fresh l l' as := by
  refine ⟨h.distinct, fun k hk => ?_⟩
  have := h.range k hk
  omega

/-- Ranges one after the other. -/
theorem append (ha : Fresh n m as) (hb : Fresh m n' bs) (hn : n ≤ m) (hm : m ≤ n') :
    Fresh n n' (as ++ bs) := by
  refine ⟨List.nodup_append.mpr ⟨ha.distinct, hb.distinct, ?_⟩, ?_⟩
  · intro k hk l hl
    have hlt := (ha.range k hk).2
    have hle := (hb.range l hl).1
    omega
  · intro k hk
    rcases List.mem_append.mp hk with hk | hk
    · have := ha.range k hk
      omega
    · have := hb.range k hk
      omega

/-- A number below the range. -/
theorem concat_below (h : Fresh (n + 1) n' as) (hn : n + 1 ≤ n') : Fresh n n' (as ++ [n]) := by
  refine ⟨List.nodup_append.mpr ⟨h.distinct, List.pairwise_singleton _ n, ?_⟩, ?_⟩
  · intro k hk l hl
    have hle := (h.range k hk).1
    have heq := List.mem_singleton.mp hl
    omega
  · intro k hk
    rcases List.mem_append.mp hk with hk | hk
    · have := h.range k hk
      omega
    · have := List.mem_singleton.mp hk
      omega

/-- The last number of the range. -/
theorem cons_last (h : Fresh n n' as) (hn : n ≤ n') : Fresh n (n' + 1) (n' :: as) := by
  refine ⟨List.nodup_cons.mpr ⟨?_, h.distinct⟩, ?_⟩
  · intro hmem
    have := h.range n' hmem
    omega
  · intro k hk
    rcases List.mem_cons.mp hk with rfl | hk
    · omega
    · have := h.range k hk
      omega

theorem perm (h : Fresh n n' as) (hp : as.Perm bs) : Fresh n n' bs :=
  ⟨hp.nodup_iff.mp h.distinct, fun k hk => h.range k (hp.mem_iff.mpr hk)⟩

theorem singleton (n : Nat) : Fresh n (n + 1) [n] := by
  refine ⟨List.pairwise_singleton _ n, fun k hk => ?_⟩
  have := List.mem_singleton.mp hk
  omega

end Fresh

/-- The slots of source names are no temporaries. -/
theorem numbers_slots (xs : List (Bytes × Expr)) :
    numbers (xs.map fun d => .slot (.named d.1)) = [] := by
  induction xs with
  | nil => rfl
  | cons d ds ih =>
    rw [List.map_cons, numbers_cons, ih]
    rfl

/-- The code of the bodies of some classes. -/
def classCode (C : List ClassEntry) : List (List Instr) :=
  C.filterMap fun c => c.closure.map fun clo => clo.body.code

/-- The numbers of the temporaries that the bodies of some classes declare. -/
def classNumbers (C : List ClassEntry) : List Nat := (classCode C).flatMap numbers

theorem classNumbers_append (C D : List ClassEntry) :
    classNumbers (C ++ D) = classNumbers C ++ classNumbers D := by
  unfold classNumbers classCode
  rw [List.filterMap_append, List.flatMap_append]

theorem classNumbers_cons (node : Node) (name : Bytes) (clo : Closure) (C : List ClassEntry) :
    classNumbers (⟨node, name, some clo⟩ :: C) = numbers clo.body.code ++ classNumbers C := rfl

namespace Lowering

variable {cs : Captures}

mutual

/-- The temporaries of a tree's code and of the classes of its lambdas have different numbers, drawn while
the tree was lowered. -/
theorem Lowers.fresh {node : Node} {e : Expr} {n n' : Nat} {f : Fragment} {C : List ClassEntry}
    {A : List Nat} :
    Lowers cs node e n f n' C A → e.OnlyHalts → Fresh n n' (numbers f.code ++ classNumbers C)
  | .var _, _ => .nil
  | .literal _, _ => .singleton _
  | .lambda _ hb _, he => by
    rw [classNumbers_cons]
    refine Fresh.cons_last ?_ hb.le
    rcases he.body with hbody | ⟨p, _, rfl⟩
    · exact hb.fresh hbody
    · -- The halt continuation draws nothing.
      obtain ⟨rfl, rfl⟩ := lowers_native hb
      exact .nil
  | .call _ hs, he => by
    refine ((hs.fresh he.args).concat_below hs.le).perm (List.perm_iff_count.mpr fun k => ?_)
    simp only [numbers_append, List.count_append]
    have hcall : ∀ t m callee args, numbers [.call (.temp t m) callee args] = [m] := fun _ _ _ _ => rfl
    rw [hcall]
    omega
  | .operate _ hs _, he => by
    have hput := (hs.fresh he.args).cons_last hs.le
    -- The number of the call was drawn first and the number of the operation last.
    refine (hput.concat_below (Nat.le_succ_of_le hs.le)).perm (List.perm_iff_count.mpr fun k => ?_)
    have hpair : ∀ t m t' m' p callee args,
        numbers [.put (.temp t m) p, .call (.temp t' m') callee args] = [m, m'] :=
      fun _ _ _ _ _ _ _ => rfl
    rw [numbers_append, hpair]
    simp only [List.count_append, List.count_cons, List.count_nil]
    omega
  | .cond ht ha hb _, .cond hht hha hhb => by
    have hlet := ht.le
    have hlea := ha.le
    have hleb := hb.le
    have harms := (ha.fresh hha).append (hb.fresh hhb) hlea hleb
    have hall := ((ht.fresh hht).append harms hlet (by omega)).cons_last (by omega)
    refine hall.perm (List.perm_iff_count.mpr fun k => ?_)
    simp only [numbers_append, numbers_branch, classNumbers_append, Ident.number?, Option.toList,
      List.count_append, List.count_cons, List.count_nil]
    omega
  | .letrec hd hb, .letrec hhd hhb => by
    have hall := (hd.fresh hhd).append (hb.fresh hhb) hd.le hb.le
    refine hall.perm (List.perm_iff_count.mpr fun k => ?_)
    simp only [numbers_append, numbers_slots, classNumbers_append, List.count_append, List.count_nil]
    omega
  | .native, he => absurd he Expr.not_onlyHalts_native

/-- The numbers in the code of a list and in its classes are drawn once each. -/
theorem LowersList.fresh {node : Node} {i : Nat} {es : List Expr} {n n' : Nat} {fs : List Fragment}
    {C : List ClassEntry} {A : List Nat} :
    LowersList cs node i es n fs n' C A → (∀ e ∈ es, e.OnlyHalts) →
      Fresh n n' (numbers (fs.flatMap Fragment.code) ++ classNumbers C)
  | .nil, _ => .nil
  | .cons he hs, hes => by
    obtain ⟨hhe, hhs⟩ := List.forall_mem_cons.mp hes
    have hall := (he.fresh hhe).append (hs.fresh hhs) he.le hs.le
    refine hall.perm (List.perm_iff_count.mpr fun k => ?_)
    simp only [List.flatMap_cons, numbers_append, classNumbers_append, List.count_append]
    omega

/-- So are those of bindings. -/
theorem LowersDefs.fresh {node : Node} {i : Nat} {ds : List (Bytes × Expr)} {n n' : Nat}
    {code : List Instr} {C : List ClassEntry} {A : List Nat} :
    LowersDefs cs node i ds n code n' C A → (∀ d ∈ ds, d.2.OnlyHalts) →
      Fresh n n' (numbers code ++ classNumbers C)
  | .nil, _ => .nil
  | .cons _ he _ hs, hds => by
    obtain ⟨hhe, hhs⟩ := List.forall_mem_cons.mp hds
    -- The copy into the slot declares nothing.
    have hcopy : ∀ x v, numbers [.copy x v] = [] := fun _ _ => rfl
    have hall := (he.fresh hhe).append (hs.fresh hhs) he.le hs.le
    refine hall.perm (List.perm_iff_count.mpr fun k => ?_)
    simp only [numbers_append, hcopy, classNumbers_append, List.count_append, List.count_nil]
    omega

end

/-! ## Scoped code -/

/-- The captures of the lambdas of some children are known, from a position on. -/
def KnownFrom (cs : Captures) (node : Node) (i : Nat) (es : List Expr) : Prop :=
  ∀ (j : Nat) (a : Expr), es[j]? = some a → Known cs (node.child (i + j)) a

theorem KnownFrom.head {node : Node} {i : Nat} {e : Expr} {es : List Expr}
    (h : KnownFrom cs node i (e :: es)) : Known cs (node.child i) e := h 0 e rfl

theorem KnownFrom.tail {node : Node} {i : Nat} {e : Expr} {es : List Expr}
    (h : KnownFrom cs node i (e :: es)) : KnownFrom cs node (i + 1) es := by
  intro j a ha
  have hj : i + (j + 1) = i + 1 + j := by omega
  exact hj ▸ h (j + 1) a ha

theorem Known.args {node : Node} {callee : Expr} {args : List Expr}
    (h : Known cs node (.app callee args)) : KnownFrom cs node 1 args := by
  intro j a ha
  have hj : j + 1 = 1 + j := by omega
  exact hj ▸ h.child (i := j + 1) ha

theorem Known.defs {node : Node} {defs : List (Bytes × Expr)} {body : Expr}
    (h : Known cs node (.letrec defs body)) : KnownFrom cs node 1 (defs.map Prod.snd) := by
  intro j a ha
  have hj : j + 1 = 1 + j := by omega
  exact hj ▸ h.child (Expr.child?_def ha)

/-- What the last pair declares is visible behind it. -/
theorem sees_last {vis : Scope} (code : List Instr) {i : Instr} {x : Ident} {t : VarType}
    (h : (x, t) ∈ i.declares) : (vis ++ declaresAll (code ++ [i])).Sees x := by
  refine ⟨t, ?_⟩
  rw [declaresAll_append, declaresAll_cons]
  exact List.mem_append_right _ (List.mem_append_right _ (List.mem_append_left _ h))

/-- More code behind a variable keeps it visible. -/
theorem sees_more {vis more : Scope} {x : Ident} (h : vis.Sees x) : (vis ++ more).Sees x :=
  Scope.sees_append.mpr (Or.inl h)

theorem sees_slots {vis : Scope} {defs : List (Bytes × Expr)} {x : Bytes}
    (h : x ∈ defs.map Prod.fst) :
    (vis ++ declaresAll (defs.map fun d => .slot (.named d.1))).Sees (.named x) := by
  obtain ⟨d, hd, rfl⟩ := List.mem_map.mp h
  refine ⟨.slot, List.mem_append_right _ ?_⟩
  exact List.mem_flatMap.mpr ⟨_, List.mem_map.mpr ⟨d, hd, rfl⟩, List.mem_singleton_self _⟩

/-- Behind its declarations, the names of a `letrec` and all of its other free names are visible. -/
theorem sees_letrec {vis : Scope} {defs : List (Bytes × Expr)} {body : Expr} {x : Bytes}
    (hfree : ∀ x ∈ (Expr.letrec defs body).free, vis.Sees (.named x))
    (hx : x ∈ Expr.freeDefs defs ∨ x ∈ body.free) :
    (vis ++ declaresAll (defs.map fun d => .slot (.named d.1))).Sees (.named x) := by
  by_cases hname : x ∈ defs.map Prod.fst
  · exact sees_slots hname
  · exact sees_more (hfree x (Names.mem_without.mpr ⟨Names.mem_union.mpr hx, hname⟩))

theorem scoped_slots (vis : Scope) (defs : List (Bytes × Expr)) :
    ScopedAll vis (defs.map fun d => .slot (.named d.1)) := by
  induction defs generalizing vis with
  | nil => trivial
  | cons d ds ih => exact ⟨⟨d.1, rfl⟩, ih _⟩

/-- A constant is built from no variable. -/
theorem constant_reads {l : Literal} {t : Temp} {p : Payload} (h : constant l = some (t, p)) :
    p.reads = [] := by
  cases l with
  | unspecified => cases h
  | _ =>
    cases h
    rfl

/-- A call has the operands that it was made from. -/
theorem operands_of_ofName? {f : Bytes} {xs : List Ident} {prim : PrimCall}
    (h : PrimCall.ofName? f xs = some prim) : prim.operands = xs := by
  unfold PrimCall.ofName? at h
  split at h
  · cases h
    rfl
  · cases h
    rfl
  · cases h

mutual

/-- If the free names of a tree are visible, its code is scoped and its result is visible behind it. -/
theorem Lowers.scoped {node : Node} {e : Expr} {n n' : Nat} {f : Fragment} {C : List ClassEntry}
    {A : List Nat} {vis : Scope} :
    Lowers cs node e n f n' C A → e.OnlyHalts → Known cs node e →
      (∀ x ∈ e.free, vis.Sees (.named x)) →
      ScopedAll vis f.code ∧ (vis ++ declaresAll f.code).Sees f.value
  | .var hx, _, _, hfree =>
    ⟨trivial, sees_more (hfree _ (Expr.mem_occurrence.mpr ⟨rfl, hx⟩))⟩
  | .literal hl, _, _, _ => by
    refine ⟨⟨?_, trivial⟩, sees_last [] (List.mem_singleton_self _)⟩
    intro x hx
    rw [constant_reads hl] at hx
    exact absurd hx List.not_mem_nil
  | .lambda hc _ _, _, hk, hfree => by
    refine ⟨⟨?_, trivial⟩, sees_last [] (List.mem_singleton_self _)⟩
    intro x hx
    obtain ⟨y, hy, rfl⟩ := List.mem_map.mp hx
    -- What the lambda captures is what occurs free in it.
    rw [hk.captured_eq hc] at hy
    exact hfree y hy
  | .call hf hs, he, hk, hfree => by
    have hcallee := hfree _ (Names.mem_union.mpr (Or.inl (Expr.mem_occurrence.mpr ⟨rfl, hf⟩)))
    obtain ⟨hcode, hvals⟩ :=
      hs.scoped he.args hk.args fun x hx => hfree x (Names.mem_union.mpr (Or.inr hx))
    refine ⟨scopedAll_append.mpr ⟨hcode, ?_, trivial⟩, sees_last _ (List.mem_singleton_self _)⟩
    intro x hx
    rcases List.mem_cons.mp hx with rfl | hx
    · exact sees_more hcallee
    · obtain ⟨g, hg, rfl⟩ := List.mem_map.mp hx
      exact hvals g hg
  | .operate _ hs hp, he, hk, hfree => by
    obtain ⟨hcode, hvals⟩ :=
      hs.scoped he.args hk.args fun x hx => hfree x (Names.mem_union.mpr (Or.inr hx))
    refine ⟨scopedAll_append.mpr ⟨hcode, ?_, ?_, trivial⟩, ?_⟩
    · intro x hx
      rw [show Payload.reads (.primitive _) = _ from operands_of_ofName? hp] at hx
      obtain ⟨g, hg, rfl⟩ := List.mem_map.mp hx
      exact hvals g (List.mem_append_left _ hg)
    · intro x hx
      rcases List.mem_cons.mp hx with rfl | hx
      · exact sees_more (hvals _ (List.mem_append_right _ (List.mem_singleton_self _)))
      · rw [List.mem_singleton.mp hx]
        exact ⟨.slot, List.mem_append_right _ (List.mem_singleton_self _)⟩
    · rw [List.append_cons]
      exact sees_last _ (List.mem_singleton_self _)
  | .cond ht ha hb _, .cond hht hha hhb, hk, hfree => by
    obtain ⟨htcode, htval⟩ := ht.scoped hht (hk.child (i := 0) rfl) fun x hx =>
      hfree x (Names.mem_union.mpr (Or.inl hx))
    refine ⟨scopedAll_append.mpr ⟨htcode, ⟨htval, ?_, ?_⟩, trivial⟩, ?_⟩
    · exact ha.scoped hha (hk.child (i := 1) rfl) fun x hx =>
        sees_more (hfree x (Names.mem_union.mpr (Or.inr (Names.mem_union.mpr (Or.inl hx)))))
    · exact hb.scoped hhb (hk.child (i := 2) rfl) fun x hx =>
        sees_more (hfree x (Names.mem_union.mpr (Or.inr (Names.mem_union.mpr (Or.inr hx)))))
    · exact sees_last _ (List.mem_singleton_self _)
  | @Lowers.letrec _ _ defs body _ _ _ code b _ _ _ _ hd hb, .letrec hhd hhb, hk, hfree => by
    have hdcode := hd.scoped hhd hk.defs (fun x hx => sees_letrec hfree (Or.inl hx)) fun x =>
      sees_slots
    have hbody : ∀ x ∈ body.free,
        (vis ++ declaresAll (defs.map (fun d => .slot (.named d.1)) ++ code)).Sees (.named x) := by
      intro x hx
      rw [declaresAll_append, ← List.append_assoc]
      exact sees_more (sees_letrec hfree (Or.inr hx))
    obtain ⟨hbcode, hbval⟩ := hb.scoped hhb (hk.child (i := 0) rfl) hbody
    refine ⟨?_, ?_⟩
    · exact scopedAll_append.mpr ⟨scopedAll_append.mpr ⟨scoped_slots vis defs, hdcode⟩, hbcode⟩
    · rw [declaresAll_append, ← List.append_assoc]
      exact hbval
  | .native, he, _, _ => absurd he Expr.not_onlyHalts_native

/-- The code of a list is scoped where the free names of its members are visible. -/
theorem LowersList.scoped {node : Node} {i : Nat} {es : List Expr} {n n' : Nat} {fs : List Fragment}
    {C : List ClassEntry} {A : List Nat} {vis : Scope} :
    LowersList cs node i es n fs n' C A → (∀ e ∈ es, e.OnlyHalts) → KnownFrom cs node i es →
      (∀ x ∈ Expr.freeList es, vis.Sees (.named x)) →
      ScopedAll vis (fs.flatMap Fragment.code) ∧
        ∀ f ∈ fs, (vis ++ declaresAll (fs.flatMap Fragment.code)).Sees f.value
  | .nil, _, _, _ => ⟨trivial, fun f hf => absurd hf List.not_mem_nil⟩
  | .cons he hs, hes, hk, hfree => by
    obtain ⟨hhe, hhs⟩ := List.forall_mem_cons.mp hes
    obtain ⟨hcode, hval⟩ := he.scoped hhe hk.head fun x hx =>
      hfree x (Names.mem_union.mpr (Or.inl hx))
    obtain ⟨hcodes, hvals⟩ := hs.scoped hhs hk.tail fun x hx =>
      sees_more (hfree x (Names.mem_union.mpr (Or.inr hx)))
    rw [List.flatMap_cons]
    refine ⟨scopedAll_append.mpr ⟨hcode, hcodes⟩, ?_⟩
    rw [declaresAll_append, ← List.append_assoc]
    exact List.forall_mem_cons.mpr ⟨sees_more hval, hvals⟩

/-- So is the code of bindings. -/
theorem LowersDefs.scoped {node : Node} {i : Nat} {ds : List (Bytes × Expr)} {n n' : Nat}
    {code : List Instr} {C : List ClassEntry} {A : List Nat} {vis : Scope} :
    LowersDefs cs node i ds n code n' C A → (∀ d ∈ ds, d.2.OnlyHalts) →
      KnownFrom cs node i (ds.map Prod.snd) →
      (∀ x ∈ Expr.freeDefs ds, vis.Sees (.named x)) →
      (∀ x ∈ ds.map Prod.fst, vis.Sees (.named x)) → ScopedAll vis code
  | .nil, _, _, _, _ => trivial
  | .cons _ he _ hs, hds, hk, hfree, hslots => by
    obtain ⟨hhe, hhs⟩ := List.forall_mem_cons.mp hds
    obtain ⟨hx, hxs⟩ := List.forall_mem_cons.mp hslots
    obtain ⟨hcode, hval⟩ := he.scoped hhe hk.head fun y hy =>
      hfree y (Names.mem_union.mpr (Or.inl hy))
    refine scopedAll_append.mpr ⟨scopedAll_append.mpr ⟨hcode, ⟨sees_more hx, hval⟩, trivial⟩, ?_⟩
    exact hs.scoped hhs hk.tail
      (fun y hy => sees_more (hfree y (Names.mem_union.mpr (Or.inr hy))))
      fun y hy => sees_more (hxs y hy)

end

/-! ## Sound blocks -/

theorem not_sees_temp {xs : List Bytes} {t : Temp} {n : Nat} :
    ¬ (Scope.ofNames xs).Sees (.temp t n) := by
  rintro ⟨ty, hmem⟩
  obtain ⟨x, _, heq⟩ := List.mem_map.mp hmem
  cases heq

/-- Code is sound wherever the free names of its tree are the names of variables. -/
theorem Lowers.sound {node : Node} {e : Expr} {n n' : Nat} {f : Fragment} {C : List ClassEntry}
    {A : List Nat} {xs : List Bytes} (h : Lowers cs node e n f n' C A) (he : e.OnlyHalts)
    (hk : Known cs node e) (hfree : ∀ x ∈ e.free, x ∈ xs) : f.block.Sound (Scope.ofNames xs) := by
  obtain ⟨hcode, hval⟩ := h.scoped he hk fun x hx => Scope.sees_ofNames (hfree x hx)
  exact ⟨hcode, Or.inr hval, (List.nodup_append.mp (h.fresh he).distinct).1, fun t n hs => absurd hs not_sees_temp⟩

/-- The code of a halt continuation reads its parameter and has no temporaries. -/
theorem sound_haltCode (p : Bytes) (xs : List Bytes) (h : p ∈ xs) :
    (Expr.haltCode p).block.Sound (Scope.ofNames xs) := by
  refine ⟨⟨Scope.sees_ofNames h, trivial⟩, Or.inl rfl, List.nodup_nil, ?_⟩
  intro t n hs
  exact absurd hs not_sees_temp

/-- The code of a class is sound if its parameters and what it captures are visible. -/
theorem ClassOf.sound {node : Node} {e : Expr} {c : ClassEntry} (h : ClassOf cs node e c)
    (he : e.OnlyHalts) (hk : Known cs node e) :
    ∃ path body clo, e.reach? path = some (.lambda c.name clo.params body) ∧
      c.node = node.descend path ∧ c.closure = some clo ∧ cs.captured? c.node = some clo.captured ∧
      clo.body.block.Sound (Scope.ofNames (clo.params ++ clo.captured)) := by
  obtain ⟨path, body, clo, hr, hnode, hclo, hcap, hbody⟩ := h.body he
  refine ⟨path, body, clo, hr, hnode, hclo, hcap, ?_⟩
  rcases hbody with ⟨hbody, n, n', C, A, hL⟩ | ⟨p, hp, hhalt⟩
  · have hkbody : Known cs (c.node.child 0) body := hnode ▸ (hk.reach hr).child (i := 0) rfl
    have hcaptured : clo.captured = Names.without body.free clo.params := by
      have := hk path _ _ _ hr
      rw [← hnode, hcap] at this
      exact Option.some.inj this
    refine hL.sound hbody hkbody fun x hx => ?_
    rw [List.mem_append, hcaptured, Names.mem_without]
    by_cases hx' : x ∈ clo.params
    · exact Or.inl hx'
    · exact Or.inr ⟨hx, hx'⟩
  · rw [hhalt, hp]
    exact sound_haltCode p _ List.mem_cons_self

end Lowering

/-! ## The result -/

/-- **Scope soundness.** Emitted code is well scoped, in every block at any depth: the code of the tree itself
where the tree's free names are visible, and the code of every class where the parameters of its lambda and the
names that the lambda captures are. So the code of a tree without free names uses no variable but its own. -/
theorem lower_wellScoped {e : Expr} {next : Nat} {f : Fragment} {s : Lowering.State}
    (he : e.OnlyHalts) (h : Build.lower e next = .ok f s) :
    (∀ vis blk, Block.Nested (Scope.ofNames e.free) f.block vis blk → blk.WellScoped vis) ∧
    (∀ c ∈ s.table.entries, ∃ clo body, c.closure = some clo ∧
      e.at? c.node = some (.lambda c.name clo.params body) ∧
      Captures.captured? (e.captures .root) c.node = some clo.captured ∧
      ∀ vis blk, Block.Nested (Scope.ofNames (clo.params ++ clo.captured)) clo.body.block vis blk →
        blk.WellScoped vis) ∧
    (e.free = [] →
      (∀ pre i post, f.code = pre ++ i :: post → ∀ x ∈ i.reads ++ i.writes,
        ∃ j ∈ pre ++ [i], Scope.Sees j.declares x) ∧
      ∀ x ∈ f.block.mentions, x ∈ Instr.declaresWithinAll f.code) := by
  obtain ⟨A, hL, _⟩ := Build.lower_ok h
  have hk := Lowering.known_captures e
  have hroot := hL.sound he hk fun x hx => hx
  refine ⟨fun vis blk hn => (hroot.nested hn).wellScoped, ?_, ?_⟩
  · intro c hc
    obtain ⟨path, body, clo, hr, hnode, hclo, hcap, hsound⟩ := (hL.classOf c hc).sound he hk
    refine ⟨clo, body, hclo, ?_, hcap, fun vis blk hn => (hsound.nested hn).wellScoped⟩
    rw [Expr.at?, hnode]
    show e.reach? (path ++ []) = _
    rw [List.append_nil]
    exact hr
  · intro hfree
    have hnone : ∀ x ∈ e.free, Scope.Sees [] (.named x) := by
      intro x hx
      rw [hfree] at hx
      exact absurd hx List.not_mem_nil
    obtain ⟨hcode, hval⟩ := hL.scoped he hk hnone
    rw [hfree] at hroot
    refine ⟨?_, ?_⟩
    · intro pre i post hpair x hx
      exact sees_declaresAll.mp (hroot.wellScoped.resolved pre i post hpair x hx)
    · intro x hx
      rcases List.mem_append.mp hx with hx | hx
      · exact (hcode.mentions x hx).resolve_left Scope.not_sees_nil
      · rw [List.mem_singleton.mp hx]
        exact declaresWithinAll_of_sees hval

/-- Counts down from three: a loop `f` that captures itself, tests its argument, and calls either its
continuation or, through a subtraction, itself. -/
def countdown : Expr :=
  .letrec [([102], .lambda [97] [[110], [107]] (.app (.var (ascii "zero?")) [.var [110],
      .lambda [98] [[122]] (.cond (.var [122]) (.app (.var [107]) [.var [110]])
        (.app (.var (ascii "-")) [.var [110], .literal (.integer 1),
          .lambda [99] [[109]] (.app (.var [102]) [.var [109], .var [107]])]))]))]
    (.app (.var [102]) [.literal (.integer 3), .halt [100] [104]])

theorem onlyHalts_countdown : countdown.OnlyHalts := by
  have hagain : (Expr.lambda [99] [[109]] (.app (.var [102]) [.var [109], .var [107]])).OnlyHalts := by
    refine .lambda _ _ (.app (.var _) ?_)
    simp [Expr.OnlyHalts.var]
  have hstep : (Expr.app (.var (ascii "-")) [.var [110], .literal (.integer 1),
      .lambda [99] [[109]] (.app (.var [102]) [.var [109], .var [107]])]).OnlyHalts := by
    refine .app (.var _) ?_
    simp [Expr.OnlyHalts.var, Expr.OnlyHalts.literal, hagain]
  have hdone : (Expr.app (.var [107]) [.var [110]]).OnlyHalts := by
    refine .app (.var _) ?_
    simp [Expr.OnlyHalts.var]
  refine .letrec ?_ (.app (.var _) ?_)
  · refine List.forall_mem_singleton.mpr (.lambda _ _ (.app (.var _) ?_))
    simp [Expr.OnlyHalts.var, Expr.OnlyHalts.lambda, Expr.OnlyHalts.cond, hdone, hstep]
  · simp [Expr.OnlyHalts.literal, Expr.OnlyHalts.halt]

/-- All four lambdas of the loop become classes. -/
theorem lower_countdown : ∃ f s, Build.lower countdown 0 = .ok f s ∧
    s.table.entries.map ClassEntry.name = [[97], [98], [99], [100]] := by
  have hnames : ((Build.program countdown 0).1.toOption.map fun p =>
      p.table.entries.map ClassEntry.name) = some [[97], [98], [99], [100]] := by decide +kernel
  obtain ⟨p, n, hp, hnames⟩ := Build.exists_ok hnames
  obtain ⟨s, h, htable, _⟩ := Build.program_ok hp
  exact ⟨p.root, s, h, htable ▸ hnames⟩

/-- A loop whose lambdas capture what is bound around them. -/
theorem lower_wellScoped_countdown :
    countdown.OnlyHalts ∧ countdown.free = [] ∧ ∃ f s, Build.lower countdown 0 = .ok f s ∧
      s.table.entries.length = 4 ∧
      (∀ vis blk, Block.Nested [] f.block vis blk → blk.WellScoped vis) ∧
      (∀ c ∈ s.table.entries, ∃ clo, c.closure = some clo ∧
        ∀ vis blk, Block.Nested (Scope.ofNames (clo.params ++ clo.captured)) clo.body.block vis blk →
          blk.WellScoped vis) ∧
      ∀ x ∈ f.block.mentions, x ∈ Instr.declaresWithinAll f.code := by
  have hfree : countdown.free = [] := by decide
  obtain ⟨f, s, h, hnames⟩ := lower_countdown
  obtain ⟨hroot, hclasses, hclosed⟩ := lower_wellScoped onlyHalts_countdown h
  rw [hfree] at hroot
  refine ⟨onlyHalts_countdown, hfree, f, s, h, ?_, hroot, ?_, (hclosed hfree).2⟩
  · rw [← List.length_map (f := ClassEntry.name), hnames]
    rfl
  · intro c hc
    obtain ⟨clo, _, hclo, _, _, hblocks⟩ := hclasses c hc
    exact ⟨clo, hclo, hblocks⟩

/-- A name that is bound in one branch and free in the other: `(if c (letrec ((x 1)) (k x)) (k x))`. -/
def boundInOneBranch : Expr :=
  .cond (.var [99]) (.letrec [([120], .literal (.integer 1))] (.app (.var [107]) [.var [120]]))
    (.app (.var [107]) [.var [120]])

/-- A slot that is declared in an arm may have a name that is used outside this arm. Here the other arm uses it
for the free name, which is visible in both. -/
theorem boundInOneBranch_usesName :
    boundInOneBranch.OnlyHalts ∧ ∃ f s, Build.lower boundInOneBranch 0 = .ok f s ∧
      ∃ i ∈ f.code, ∃ arm ∈ i.arms, ∃ other ∈ i.arms, other ≠ arm ∧
        .named [120] ∈ Instr.declaresWithinAll arm.code ∧ .named [120] ∈ other.mentions := by
  have hcall : (Expr.app (.var [107]) [.var [120]]).OnlyHalts := by
    refine .app (.var _) ?_
    simp [Expr.OnlyHalts.var]
  have hslot : (Expr.letrec [([120], .literal (.integer 1))] (.app (.var [107]) [.var [120]])).OnlyHalts :=
    .letrec (List.forall_mem_singleton.mpr (.literal _)) hcall
  refine ⟨.cond (.var _) hslot hcall, _, _, rfl, _, List.mem_singleton_self _, _, List.mem_cons_self, _,
    List.mem_cons_of_mem _ List.mem_cons_self, ?_, List.mem_cons_self, ?_⟩
  · intro heq
    cases congrArg (fun blk => blk.code.length) heq
  · exact List.mem_append_left _ (by simp [Instr.mentionsAll, Instr.mentions])

end Trampoline

import Mathlib.Data.List.Infix
import Mathlib.Data.List.Nodup
import Trampoline.Proofs.Tree

/-!
# Trampoline.Proofs.Binders -- names that are bound apart

The slots of a `letrec` are declared at the start of the function that its code is part of, whatever
comes before it there. So a name that is bound twice within one function, or in a function and again
in one nested in it, would be one variable for two slots. Programs must not bind names so: no two
binders of one name lie in the same lambda or in nested ones. The program itself counts as the
outermost lambda, because its code is the main function.

A binder lies in a lambda if no other lambda is between them. `BindersApart` says that the name of a
binder that lies in a lambda is the name of no other binder in it, nested lambdas included. It says so
of every subtree, which is the same: what lies in a subtree lies in the lambda around it.
-/

namespace Trampoline.Expr

/-- The names that a node binds, one for every binder. -/
def bound : Expr → List Bytes
  | .lambda _ params _ => params
  | .letrec defs _ => defs.map Prod.fst
  | _ => []

def IsLambda : Expr → Prop
  | .lambda _ _ _ => True
  | _ => False

instance : DecidablePred IsLambda
  | .lambda _ _ _ => isTrue trivial
  | .var _ | .literal _ | .app _ _ | .cond _ _ _ | .letrec _ _ | .seq _ | .assign _ _
  | .assignThen _ _ _ | .native _ _ => isFalse id

theorem not_isLambda_app {callee : Expr} {args : List Expr} : ¬ (app callee args).IsLambda := id

theorem not_isLambda_cond {test a b : Expr} : ¬ (cond test a b).IsLambda := id

theorem not_isLambda_letrec {defs : List (Bytes × Expr)} {body : Expr} : ¬ (letrec defs body).IsLambda := id

/-- A walk meets no lambda behind its first node. -/
def Outside (e : Expr) (path : List Nat) : Prop :=
  ∀ s, s <:+ path → s ≠ [] → ∀ l, e.reach? s = some l → ¬ l.IsLambda

instance (e : Expr) (path : List Nat) : Decidable (e.Outside path) :=
  decidable_of_iff (∀ s ∈ path.tails, s ≠ [] → ∀ l ∈ e.reach? s, ¬ l.IsLambda)
    ⟨fun h s hs => h s ((List.mem_tails s path).mpr hs),
      fun h s hs => h s ((List.mem_tails s path).mp hs)⟩

theorem outside_nil (e : Expr) : e.Outside [] := by
  intro s hs hne
  exact absurd (List.suffix_nil.mp hs) hne

/-- A binder that lies in the tree outside of its lambdas has a name that no other binder in the tree
has. -/
def OwnNamesApart (e : Expr) : Prop :=
  ∀ (p q : List Nat) (a b : Expr) (i j : Nat) (x : Bytes),
    e.reach? p = some a → e.reach? q = some b → e.Outside p →
    a.bound[i]? = some x → b.bound[j]? = some x → p = q ∧ i = j

/-- The same, as a check over all places. -/
theorem ownNamesApart_iff {e : Expr} :
    e.OwnNamesApart ↔ ∀ t ∈ e.places, e.Outside t.1 → ∀ u ∈ e.places, ∀ i < t.2.bound.length,
      ∀ j < u.2.bound.length, t.2.bound[i]? = u.2.bound[j]? → t.1 = u.1 ∧ i = j := by
  constructor
  · intro h t ht hout u hu i hi j _ heq
    have hx : t.2.bound[i]? = some t.2.bound[i] := List.getElem?_eq_getElem hi
    exact h t.1 u.1 t.2 u.2 i j _ (mem_places.mp ht) (mem_places.mp hu) hout hx (heq.symm.trans hx)
  · intro h p q a b i j x ha hb hout hi hj
    exact h (p, a) (mem_places.mpr ha) hout (q, b) (mem_places.mpr hb)
      i (List.getElem?_eq_some_iff.mp hi).1 j (List.getElem?_eq_some_iff.mp hj).1 (hi.trans hj.symm)

instance (e : Expr) : Decidable e.OwnNamesApart := decidable_of_iff' _ ownNamesApart_iff

/-- No two binders of one name lie in the same lambda or in nested ones. -/
def BindersApart (e : Expr) : Prop := ∀ path h, e.reach? path = some h → h.OwnNamesApart

instance (e : Expr) : Decidable e.BindersApart :=
  decidable_of_iff' (∀ t ∈ e.places, t.2.OwnNamesApart) forall_reach_iff

/-! ## Names bound in a tree -/

/-- The name is bound somewhere in the tree. -/
def BindsWithin (e : Expr) (x : Bytes) : Prop := ∃ path a, e.reach? path = some a ∧ x ∈ a.bound

/-- The name is bound in the tree and not inside a lambda, so its slot is declared where the code of
the tree is. -/
def Hoists (e : Expr) (x : Bytes) : Prop :=
  ∃ path a, e.reach? path = some a ∧ x ∈ a.bound ∧
    ∀ s, s <:+ path → ∀ l, e.reach? s = some l → ¬ l.IsLambda

/-- What is hoisted is bound somewhere within. -/
theorem Hoists.bindsWithin {e : Expr} {x : Bytes} (h : e.Hoists x) : e.BindsWithin x := by
  obtain ⟨path, a, ha, hx, _⟩ := h
  exact ⟨path, a, ha, hx⟩

theorem BindsWithin.of_child {e c : Expr} {i : Nat} {x : Bytes} (hc : e.child? i = some c)
    (h : c.BindsWithin x) : e.BindsWithin x := by
  obtain ⟨path, a, ha, hx⟩ := h
  exact ⟨path ++ [i], a, (reach?_of_child hc path).trans ha, hx⟩

/-- The walks to the places above one that is below a child. -/
theorem suffix_child_cases {s path : List Nat} {i : Nat} (h : s <:+ path ++ [i]) :
    s = [] ∨ ∃ s', s = s' ++ [i] ∧ s' <:+ path := by
  rcases List.suffix_concat_iff.mp h with rfl | ⟨s', rfl, hs⟩
  · exact Or.inl rfl
  · exact Or.inr ⟨s', rfl, hs⟩

/-- Outside of lambdas, what a child hoists its parent hoists. -/
theorem Hoists.of_child {e c : Expr} {i : Nat} {x : Bytes} (he : ¬ e.IsLambda)
    (hc : e.child? i = some c) (h : c.Hoists x) : e.Hoists x := by
  obtain ⟨path, a, ha, hx, hout⟩ := h
  refine ⟨path ++ [i], a, (reach?_of_child hc path).trans ha, hx, ?_⟩
  intro s hs l hl
  rcases suffix_child_cases hs with rfl | ⟨s', rfl, hs'⟩
  · cases hl
    exact he
  · exact hout s' hs' l ((reach?_of_child hc s').symm.trans hl)

theorem hoists_of_bound {e : Expr} {x : Bytes} (he : ¬ e.IsLambda) (hx : x ∈ e.bound) :
    e.Hoists x := by
  refine ⟨[], e, rfl, hx, ?_⟩
  intro s hs l hl
  rw [List.suffix_nil.mp hs] at hl
  cases hl
  exact he

/-! ## Names that are hoisted apart -/

/-- The binder at a place, by its position there, has the name and is not inside a lambda. -/
def HoistsAt (e : Expr) (path : List Nat) (i : Nat) (x : Bytes) : Prop :=
  ∃ a, e.reach? path = some a ∧ a.bound[i]? = some x ∧
    ∀ s, s <:+ path → ∀ l, e.reach? s = some l → ¬ l.IsLambda

/-- Whatever is hoisted is hoisted from some place. -/
theorem Hoists.exists_at {e : Expr} {x : Bytes} (h : e.Hoists x) : ∃ path i, e.HoistsAt path i x := by
  obtain ⟨path, a, ha, hx, hout⟩ := h
  obtain ⟨i, hi⟩ := List.mem_iff_getElem?.mp hx
  exact ⟨path, i, a, ha, hi, hout⟩

theorem hoistsAt_of_bound {e : Expr} {i : Nat} {x : Bytes} (he : ¬ e.IsLambda)
    (hx : e.bound[i]? = some x) : e.HoistsAt [] i x := by
  refine ⟨e, rfl, hx, ?_⟩
  intro s hs l hl
  rw [List.suffix_nil.mp hs] at hl
  cases hl
  exact he

theorem HoistsAt.of_child {e c : Expr} {k i : Nat} {path : List Nat} {x : Bytes} (he : ¬ e.IsLambda)
    (hc : e.child? k = some c) (h : c.HoistsAt path i x) : e.HoistsAt (path ++ [k]) i x := by
  obtain ⟨a, ha, hx, hout⟩ := h
  refine ⟨a, (reach?_of_child hc path).trans ha, hx, ?_⟩
  intro s hs l hl
  rcases suffix_child_cases hs with rfl | ⟨s', rfl, hs'⟩
  · cases hl
    exact he
  · exact hout s' hs' l ((reach?_of_child hc s').symm.trans hl)

/-- No two binders outside of lambdas have one name. -/
def HoistsApart (e : Expr) : Prop :=
  ∀ (p q : List Nat) (i j : Nat) (x : Bytes), e.HoistsAt p i x → e.HoistsAt q j x → p = q ∧ i = j

namespace HoistsApart

variable {e c d : Expr} {i j : Nat} {x : Bytes}

theorem child (h : e.HoistsApart) (he : ¬ e.IsLambda) (hc : e.child? i = some c) : c.HoistsApart := by
  intro p q k l y hp hq
  obtain ⟨hpath, hkl⟩ := h _ _ k l y (hp.of_child he hc) (hq.of_child he hc)
  exact ⟨List.append_cancel_right hpath, hkl⟩

/-- The names of one binder are distinct. -/
theorem nodup (h : e.HoistsApart) (he : ¬ e.IsLambda) : e.bound.Nodup := by
  rw [List.nodup_iff_getElem?_ne_getElem?]
  intro i j hij hj heq
  have hx : e.bound[j]? = some e.bound[j] := List.getElem?_eq_getElem hj
  have := h [] [] i j _ (hoistsAt_of_bound he (heq.trans hx)) (hoistsAt_of_bound he hx)
  omega

/-- A name is not hoisted again below its binder. -/
theorem below (h : e.HoistsApart) (he : ¬ e.IsLambda) (hx : x ∈ e.bound) (hc : e.child? i = some c) :
    ¬ c.Hoists x := by
  intro hcx
  obtain ⟨k, hk⟩ := List.mem_iff_getElem?.mp hx
  obtain ⟨q, l, hq⟩ := hcx.exists_at
  have := h _ _ k l x (hoistsAt_of_bound he hk) (hq.of_child he hc)
  exact absurd this.1 (by simp)

/-- No two children hoist the same name. -/
theorem siblings (h : e.HoistsApart) (he : ¬ e.IsLambda) (hc : e.child? i = some c)
    (hd : e.child? j = some d) (hij : i ≠ j) (hx : c.Hoists x) : ¬ d.Hoists x := by
  intro hdx
  obtain ⟨p, k, hp⟩ := hx.exists_at
  obtain ⟨q, l, hq⟩ := hdx.exists_at
  have := h _ _ k l x (hp.of_child he hc) (hq.of_child he hd)
  exact hij (List.cons.inj (List.append_inj_right' this.1 rfl)).1

end HoistsApart

/-! ## What it means for a tree and its children -/

namespace BindersApart

variable {e c d : Expr} {i j : Nat} {x : Bytes}

theorem child (h : e.BindersApart) (hc : e.child? i = some c) : c.BindersApart := by
  intro path a ha
  exact h (path ++ [i]) a ((reach?_of_child hc path).trans ha)

theorem reach {path : List Nat} (h : e.BindersApart) (hc : e.reach? path = some c) :
    c.BindersApart := by
  intro inner a ha
  apply h (inner ++ path)
  rw [reach?_append, hc]
  exact ha

/-- A node binds different names. -/
theorem nodup (h : e.BindersApart) : e.bound.Nodup := by
  rw [List.nodup_iff_getElem?_ne_getElem?]
  intro i j hij hj heq
  have hx : e.bound[j]? = some e.bound[j] := List.getElem?_eq_getElem hj
  have := h [] e rfl [] [] e e i j _ rfl rfl (outside_nil e) (heq.trans hx) hx
  omega

/-- What a node binds is bound nowhere below it. -/
theorem below (h : e.BindersApart) (hx : x ∈ e.bound) (hc : e.child? i = some c) :
    ¬ c.BindsWithin x := by
  rintro ⟨path, a, ha, hxa⟩
  obtain ⟨k, hk⟩ := List.mem_iff_getElem?.mp hx
  obtain ⟨l, hl⟩ := List.mem_iff_getElem?.mp hxa
  have := h [] e rfl [] (path ++ [i]) e a k l x rfl ((reach?_of_child hc path).trans ha)
    (outside_nil e) hk hl
  exact absurd this.1 (by simp)

/-- What is bound in one child outside of lambdas is not bound in another. -/
theorem siblings (h : e.BindersApart) (hc : e.child? i = some c) (hd : e.child? j = some d)
    (hij : i ≠ j) (hx : c.Hoists x) : ¬ d.BindsWithin x := by
  rintro ⟨q, b, hb, hxb⟩
  obtain ⟨p, a, ha, hxa, hout⟩ := hx
  have hout' : e.Outside (p ++ [i]) := by
    intro s hs hne l hl
    rcases suffix_child_cases hs with rfl | ⟨s', rfl, hs'⟩
    · exact absurd rfl hne
    · exact hout s' hs' l ((reach?_of_child hc s').symm.trans hl)
  obtain ⟨k, hk⟩ := List.mem_iff_getElem?.mp hxa
  obtain ⟨l, hl⟩ := List.mem_iff_getElem?.mp hxb
  have := h [] e rfl (p ++ [i]) (q ++ [j]) a b k l x ((reach?_of_child hc p).trans ha)
    ((reach?_of_child hd q).trans hb) hout' hk hl
  have hlast := List.append_inj_right' this.1 rfl
  exact hij (List.cons.inj hlast).1

/-- If all binders of a tree are apart, so are those that are hoisted to one block. -/
theorem hoistsApart (h : e.BindersApart) : e.HoistsApart := by
  rintro p q i j x ⟨a, ha, hx, hout⟩ ⟨b, hb, hy, _⟩
  exact h [] e rfl p q a b i j x ha hb (fun s hs _ => hout s hs) hx hy

end BindersApart

end Trampoline.Expr

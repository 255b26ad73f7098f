import Trampoline.Proofs.Binders
import Trampoline.Proofs.Lowered

/-!
# Trampoline.Proofs.Homes -- binders and the lambdas that they belong to

A binder belongs to a lambda: a parameter to its own, and a name of a `letrec` to the innermost lambda around
it, or to the program if there is none. `WrittenApart` says that binders of one name belong to lambdas that
are not nested, as far as source text goes: the parameter of a halt continuation is made by the reader and
hides nothing, so it may have any name.

Three things follow. The slots that the code of a function declares are different, they are different from
the parameters, and in a closed program none of them has the name of something that the function captures: a
captured name is bound around the lambda, by a binder that belongs to a lambda further out.
-/

namespace Trampoline.Expr

/-- The names that source text binds at a node, one for every binder. -/
def written : Expr → List Bytes
  | .lambda _ _ (.native _ _) => []
  | .lambda _ params _ => params
  | .letrec defs _ => defs.map Prod.fst
  | _ => []

/-- The place of the lambda that a place belongs to: the innermost at the place or above it, and the root if
there is none. -/
def home (e : Expr) : List Nat → List Nat
  | [] => []
  | i :: path => if ∀ l ∈ e.reach? (i :: path), ¬ l.IsLambda then e.home path else i :: path

/-- Neither of two places is at the other or below it. -/
def Separate (p q : List Nat) : Prop := ¬ p <:+ q ∧ ¬ q <:+ p

instance (p q : List Nat) : Decidable (Separate p q) := inferInstanceAs (Decidable (_ ∧ _))

/-- Two binders of one name are the same, or they belong to different lambdas, neither of which encloses the
other. -/
def WrittenApart (e : Expr) : Prop :=
  ∀ (p q : List Nat) (a b : Expr) (i j : Nat) (x : Bytes),
    e.reach? p = some a → e.reach? q = some b → a.written[i]? = some x → b.written[j]? = some x →
    (p = q ∧ i = j) ∨ Separate (e.home p) (e.home q)

/-- The check for the binders at two places. -/
def ApartAt (e : Expr) (t u : List Nat × Expr) : Prop :=
  ∀ i < t.2.written.length, ∀ j < u.2.written.length, t.2.written[i]? = u.2.written[j]? →
    (t.1 = u.1 ∧ i = j) ∨ Separate (e.home t.1) (e.home u.1)

instance (e : Expr) (t u : List Nat × Expr) : Decidable (e.ApartAt t u) :=
  inferInstanceAs (Decidable (∀ i < t.2.written.length, _))

/-- It is enough to look at the places of the tree. -/
theorem writtenApart_iff {e : Expr} : e.WrittenApart ↔ ∀ t ∈ e.places, ∀ u ∈ e.places, e.ApartAt t u := by
  constructor
  · intro h t ht u hu i hi j _ heq
    have hx : t.2.written[i]? = some t.2.written[i] := List.getElem?_eq_getElem hi
    exact h t.1 u.1 t.2 u.2 i j _ (mem_places.mp ht) (mem_places.mp hu) hx (heq.symm.trans hx)
  · intro h p q a b i j x ha hb hi hj
    exact h (p, a) (mem_places.mpr ha) (q, b) (mem_places.mpr hb)
      i (List.getElem?_eq_some_iff.mp hi).1 j (List.getElem?_eq_some_iff.mp hj).1 (hi.trans hj.symm)

instance (e : Expr) : Decidable e.WrittenApart := decidable_of_iff' _ writtenApart_iff

/-! ## Homes -/

section

variable {e : Expr}

theorem home_suffix (e : Expr) (path : List Nat) : e.home path <:+ path := by
  induction path with
  | nil => exact List.suffix_refl []
  | cons i path ih =>
    unfold home
    split
    · exact ih.trans (List.suffix_cons i path)
    · exact List.suffix_refl _

/-- A lambda is its own home. -/
theorem home_of_lambda {path : List Nat} {l : Expr} (h : e.reach? path = some l) (hl : l.IsLambda) :
    e.home path = path := by
  cases path with
  | nil => rfl
  | cons i path => exact if_neg fun hno => hno l h hl

/-- Anything else has the home of its parent. -/
theorem home_cons {path : List Nat} {i : Nat} {a : Expr} (h : e.reach? (i :: path) = some a)
    (ha : ¬ a.IsLambda) : e.home (i :: path) = e.home path := by
  refine if_pos fun l hl => ?_
  rw [Option.mem_def, h] at hl
  cases hl
  exact ha

/-- A walk that meets no lambda leaves the home as it is. -/
theorem home_append {outer path : List Nat} {t : Expr} (ht : e.reach? outer = some t)
    (hout : ∀ s, s <:+ path → ∀ l, t.reach? s = some l → ¬ l.IsLambda) {a : Expr}
    (ha : t.reach? path = some a) : e.home (path ++ outer) = e.home outer := by
  induction path generalizing a with
  | nil => rfl
  | cons i path ih =>
    obtain ⟨b, hb, _⟩ := Option.bind_eq_some_iff.mp ha
    have hreach : e.reach? (i :: (path ++ outer)) = some a := by
      rw [← List.cons_append, reach?_append, ht]
      exact ha
    rw [List.cons_append, home_cons hreach (hout _ (List.suffix_refl _) a ha)]
    exact ih (fun s hs => hout s (hs.trans (List.suffix_cons i path))) hb

end

/-- Outside of lambdas all binders are written. -/
theorem written_eq_bound {a : Expr} (h : ¬ a.IsLambda) : a.written = a.bound := by
  cases a with
  | lambda name params body => exact absurd trivial h
  | _ => rfl

theorem written_lambda {name : Bytes} {params : List Bytes} {body : Expr} (hb : body.OnlyHalts) :
    (Expr.lambda name params body).written = params := by
  cases hb <;> rfl

/-- What is hoisted is written at the place that it is hoisted from. -/
theorem HoistsAt.written {t : Expr} {path : List Nat} {i : Nat} {x : Bytes} (h : t.HoistsAt path i x) :
    ∃ a, t.reach? path = some a ∧ a.written[i]? = some x := by
  obtain ⟨a, ha, hx, hout⟩ := h
  refine ⟨a, ha, ?_⟩
  rw [written_eq_bound (hout path (List.suffix_refl path) a ha)]
  exact hx

/-- Hoisting does not leave the home. -/
theorem HoistsAt.home_eq {e t : Expr} {outer path : List Nat} {i : Nat} {x : Bytes}
    (ht : e.reach? outer = some t) (h : t.HoistsAt path i x) : e.home (path ++ outer) = e.home outer := by
  obtain ⟨a, ha, _, hout⟩ := h
  exact home_append ht hout ha

/-- What the body of a lambda hoists belongs to the lambda. -/
theorem HoistsAt.home_body {e body : Expr} {outer path : List Nat} {i : Nat} {name x : Bytes}
    {params : List Bytes} (hl : e.reach? outer = some (.lambda name params body))
    (h : body.HoistsAt path i x) : e.home (path ++ 0 :: outer) = outer := by
  have hbody : e.reach? (0 :: outer) = some body := by
    rw [reach?, hl]
    rfl
  obtain ⟨a, ha, hx, hout⟩ := h
  rw [home_append hbody hout ha, home_cons hbody (hout [] (List.nil_suffix) body rfl),
    home_of_lambda hl trivial]

/-! ## Different names -/

namespace WrittenApart

variable {e t body : Expr} {outer : List Nat} {name x : Bytes} {params : List Bytes}

/-- Where names are written apart, no name is written twice in homes of which one contains the other. -/
theorem eq_of_home {p q : List Nat} {a b : Expr} {i j : Nat} (h : e.WrittenApart)
    (ha : e.reach? p = some a) (hb : e.reach? q = some b) (hi : a.written[i]? = some x)
    (hj : b.written[j]? = some x) (hhome : e.home p <:+ e.home q) : p = q ∧ i = j := by
  rcases h p q a b i j x ha hb hi hj with heq | hseparate
  · exact heq
  · exact absurd hhome hseparate.1

/-- Every tree of the program hoists different names. -/
theorem hoistsApart (h : e.WrittenApart) (ht : e.reach? outer = some t) : t.HoistsApart := by
  intro p q i j y hp hq
  obtain ⟨a, ha, hi⟩ := hp.written
  obtain ⟨b, hb, hj⟩ := hq.written
  have hreach : ∀ path, e.reach? (path ++ outer) = t.reach? path := by
    intro path
    rw [reach?_append, ht]
    rfl
  have hhome : e.home (p ++ outer) <:+ e.home (q ++ outer) := by
    rw [hp.home_eq ht, hq.home_eq ht]
  obtain ⟨hpath, hij⟩ := h.eq_of_home ((hreach p).trans ha) ((hreach q).trans hb) hi hj hhome
  exact ⟨List.append_cancel_right hpath, hij⟩

/-- The parameters of a lambda are distinct. -/
theorem params_nodup (h : e.WrittenApart) (hl : e.reach? outer = some (.lambda name params body))
    (hb : body.OnlyHalts) : params.Nodup := by
  rw [List.nodup_iff_getElem?_ne_getElem?]
  intro i j hij hj heq
  have hx : params[j]? = some params[j] := List.getElem?_eq_getElem hj
  have hwritten (k : Nat) : (Expr.lambda name params body).written[k]? = params[k]? := by
    rw [written_lambda hb]
  have := h.eq_of_home hl hl ((hwritten i).trans (heq.trans hx)) ((hwritten j).trans hx)
    (List.suffix_refl _)
  omega

/-- A name that is bound at a lambda or around it is not hoisted by its body. -/
theorem not_hoisted (h : e.WrittenApart) (hl : e.reach? outer = some (.lambda name params body))
    {p : List Nat} {a : Expr} (hp : p <:+ outer) (ha : e.reach? p = some a) (hx : x ∈ a.written) :
    ¬ body.Hoists x := by
  intro hhoists
  obtain ⟨q, j, hq⟩ := hhoists.exists_at
  obtain ⟨b, hb, hj⟩ := hq.written
  obtain ⟨i, hi⟩ := List.mem_iff_getElem?.mp hx
  have hreach : e.reach? (q ++ 0 :: outer) = some b := by
    rw [reach?_append, reach?, hl]
    exact hb
  have hhome : e.home p <:+ e.home (q ++ 0 :: outer) := by
    rw [hq.home_body hl]
    exact (home_suffix e p).trans hp
  -- The binder in the body is below the lambda, and the other one is not.
  have hplace := (h.eq_of_home ha hreach hi hj hhome).1
  have hlength := hp.length_le
  rw [hplace, List.length_append, List.length_cons] at hlength
  omega

end WrittenApart

/-! ## Captured names of closed programs -/

/-- A binder that has a lambda below it is written. -/
theorem mem_written_of_binds {a l : Expr} {path : List Nat} {x : Bytes} (h : a.Binds x)
    (hl : a.reach? path = some l) (hlambda : l.IsLambda) (hpath : path ≠ []) : x ∈ a.written := by
  cases a with
  | letrec defs body => exact h
  | lambda name params body =>
    cases body with
    | native uses code =>
      -- There is no lambda in native code.
      rcases reach?_cases hl with ⟨hnil, _⟩ | ⟨inner, i, c, _, hc, hinner⟩
      · exact absurd hnil hpath
      · have hnative : (native uses code).reach? inner = some l := by
          cases i with
          | zero =>
            cases hc
            exact hinner
          | succ i => cases hc
        rcases reach?_cases hnative with ⟨_, rfl⟩ | ⟨_, j, _, _, hchild, _⟩
        · exact absurd hlambda not_false
        · cases j <;> cases hchild
    | _ => exact h
  | _ => exact absurd h not_false

/-- In a closed program, what is free in a lambda is written around it. -/
theorem exists_written_above {e l : Expr} {path : List Nat} {x : Bytes} (hclosed : e.free = [])
    (hl : e.reach? path = some l) (hlambda : l.IsLambda) (hx : x ∈ l.free) :
    ∃ p a, p <:+ path ∧ e.reach? p = some a ∧ x ∈ a.written := by
  obtain ⟨inner, target, htarget, hm, hunbound⟩ := mem_free_iff.mp hx
  -- Something on the whole walk to the occurrence binds the name.
  have hbound : ∃ above a, above <:+ inner ++ path ∧ e.reach? above = some a ∧ a.Binds x := by
    by_contra hno
    have hfree : x ∈ e.free := by
      refine mem_free_iff.mpr ⟨inner ++ path, target, ?_, hm, fun above habove a ha hb => ?_⟩
      · rw [reach?_append, hl]
        exact htarget
      · exact hno ⟨above, a, habove, ha, hb⟩
    rw [hclosed] at hfree
    exact List.not_mem_nil hfree
  obtain ⟨above, a, habove, ha, hb⟩ := hbound
  -- From the lambda on nothing does, so it is a node above.
  rcases List.suffix_or_suffix_of_suffix habove (List.suffix_append inner path) with hle | hle
  · obtain ⟨between, rfl⟩ := hle
    have hbelow : a.reach? between = some l := by
      rw [reach?_append, ha] at hl
      exact hl
    refine ⟨above, a, List.suffix_append between above, ha, mem_written_of_binds hb hbelow hlambda ?_⟩
    rintro rfl
    cases hbelow
    exact hunbound [] List.nil_suffix l rfl hb
  · obtain ⟨below, rfl⟩ := hle
    have hreach : l.reach? below = some a := by
      rw [reach?_append, hl] at ha
      exact ha
    have hsuffix : below <:+ inner := ((List.suffix_append_inj_of_length_eq rfl).mp habove).1
    exact absurd hb (hunbound below hsuffix a hreach)

/-- In a closed program, the body of a lambda hoists nothing that the lambda captures. -/
theorem WrittenApart.captured_not_hoisted {e body : Expr} {outer : List Nat} {name x : Bytes}
    {params : List Bytes} (h : e.WrittenApart) (hclosed : e.free = [])
    (hl : e.reach? outer = some (.lambda name params body)) (hx : x ∈ Names.without body.free params) :
    ¬ body.Hoists x := by
  obtain ⟨p, a, hp, ha, hwritten⟩ := exists_written_above hclosed hl trivial hx
  exact h.not_hoisted hl hp ha hwritten

end Trampoline.Expr

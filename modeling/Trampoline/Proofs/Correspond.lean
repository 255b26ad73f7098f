import Mathlib.Data.List.Forall2
import Trampoline.Proofs.Hygiene
import Trampoline.Proofs.Source

/-!
# Trampoline.Proofs.Correspond -- slots and variables that correspond

A tree makes a slot when it needs one. Its code makes slots earlier, where a block starts, and more of
them. A placement says for every slot of the tree's store which slot of the code's store stands for it.
It is a list, because slots are numbered in the order in which they are made, and it only grows.

Contents correspond if they are the same number or string, or if the object is of a class whose code
was derived from the closure's body, with fields that stand for the slots that the closure captured.

`Ready` says that the variables of some code have been made and not been used: their slots stand for
nothing yet and hold zero. `Evolves` says all that running some code may change. A sequence of code is
ready, is run in part, and its rest is still ready: that is `Ready.after`.
-/

namespace Trampoline.Simulation

open Instr Emitted
open Lowering (Lowers LowersList LowersDefs Static StaticList)

/-! ## Slots -/

/-- The slots of the code's store that stand for the slots of the tree's store, in order. -/
abbrev Placement := List Nat

/-- Slots that stand for slots, one for one. -/
def Placed (β : Placement) (is ls : List Nat) : Prop :=
  List.Forall₂ (fun i l => β[i]? = some l) is ls

theorem placed_mono {β : Placement} {i l : Nat} (γ : Placement) (h : β[i]? = some l) :
    (β ++ γ)[i]? = some l := by
  obtain ⟨hlt, _⟩ := List.getElem?_eq_some_iff.mp h
  rw [List.getElem?_append_left hlt]
  exact h

/-- Slots that are placed stay so when more slots are placed. -/
theorem Placed.mono {β : Placement} {is ls : List Nat} (γ : Placement) (h : Placed β is ls) :
    Placed (β ++ γ) is ls :=
  h.imp fun _ _ => placed_mono γ

theorem Placed.length_eq {β : Placement} {is ls : List Nat} (h : Placed β is ls) :
    is.length = ls.length :=
  List.Forall₂.length_eq h

/-- Names that are given slots correspond if the slots do. -/
theorem Placed.lookup {β : Placement} {xs : List Bytes} {is ls : List Nat} (h : Placed β is ls)
    (hlen : is.length = xs.length) {x : Bytes} (hx : x ∈ xs) :
    ∃ i l, (xs.zip is).lookup x = some i ∧ (xs.zip ls).lookup x = some l ∧ β[i]? = some l := by
  induction xs generalizing is ls with
  | nil => exact absurd hx List.not_mem_nil
  | cons y xs ih =>
    cases h with
    | nil => cases hlen
    | @cons i l is ls hil hs =>
      rw [List.zip_cons_cons, List.zip_cons_cons, List.lookup_cons, List.lookup_cons]
      by_cases heq : x = y
      · subst heq
        simp only [BEq.rfl]
        exact ⟨i, l, rfl, rfl, hil⟩
      · rw [beq_eq_false_iff_ne.mpr heq]
        exact ih hs (Nat.succ.inj hlen) ((List.mem_cons.mp hx).resolve_left heq)

theorem lookup_zip_none {xs : List Bytes} {is : List Nat} {x : Bytes} (hx : x ∉ xs) :
    (xs.zip is).lookup x = none := by
  induction xs generalizing is with
  | nil => rfl
  | cons y xs ih =>
    obtain ⟨hne, hx⟩ := not_or.mp (mt List.mem_cons.mpr hx)
    cases is with
    | nil => rfl
    | cons i is =>
      rw [List.zip_cons_cons, List.lookup_cons, beq_eq_false_iff_ne.mpr hne]
      exact ih hx

/-! ## Contents -/

/-- The classes are those that the table has under their names. -/
def Registered (T : ClassTable) (C : List ClassEntry) : Prop :=
  ∀ c ∈ C, T.classOf? c.name = c.closure

/-- Code for the body of a lambda in which the names `Γ` are visible. -/
inductive CodeFor (T : ClassTable) (cs : Captures) (Γ : List Bytes) (body : Expr) (code : Fragment) :
    Prop
  | lowered {node : Node} {n n' : Nat} {C : List ClassEntry} {A : List Nat}
      (h : Lowers cs node body n code n' C A) (hk : code.kind = .thunk)
      (hs : Static cs node Γ body) (hr : Registered T C)
  | halt (p : Bytes) (hbody : body = .native [p] (Expr.haltCode p)) (hcode : code = Expr.haltCode p)
      (hp : p ∈ Γ)

variable (T : ClassTable) (cs : Captures)

/-- An object stands for a closure. -/
def ClosureRel (β : Placement) (c : Source.Closure) (o : Object) : Prop :=
  ∃ clo, T.classOf? o.lambda = some clo ∧ clo.params = c.params ∧ c.params.Nodup ∧
    o.fields.length = clo.captured.length ∧
    (∀ x ∈ clo.captured, ∃ i l, c.env.lookup x = some i ∧
      (clo.captured.zip o.fields).lookup x = some l ∧ β[i]? = some l) ∧
    CodeFor T cs (c.params ++ clo.captured) c.body clo.body

inductive ContentRel (β : Placement) : Content Source.Closure → Content Object → Prop
  | number (n : Int64) : ContentRel β (.number n) (.number n)
  | closure {c : Source.Closure} {o : Object} (h : ClosureRel T cs β c o) :
      ContentRel β (.closure c) (.closure o)
  | string (s : Bytes) : ContentRel β (.string s) (.string s)

variable {T cs}

/-- Related closures stay related when more slots are placed. -/
theorem ClosureRel.mono {β : Placement} {c : Source.Closure} {o : Object} (γ : Placement)
    (h : ClosureRel T cs β c o) : ClosureRel T cs (β ++ γ) c o := by
  obtain ⟨clo, hclo, hparams, hnodup, hlen, hfields, hcode⟩ := h
  refine ⟨clo, hclo, hparams, hnodup, hlen, fun x hx => ?_, hcode⟩
  obtain ⟨i, l, hi, hl, hil⟩ := hfields x hx
  exact ⟨i, l, hi, hl, placed_mono γ hil⟩

/-- So do related contents. -/
theorem ContentRel.mono {β : Placement} {c : Content Source.Closure} {d : Content Object}
    (γ : Placement) (h : ContentRel T cs β c d) : ContentRel T cs (β ++ γ) c d := by
  cases h with
  | number n => exact .number n
  | closure h => exact .closure (h.mono γ)
  | string s => exact .string s

section

variable {β : Placement} {c : Content Source.Closure} {d : Content Object}

theorem ContentRel.num (h : ContentRel T cs β c d) : Matches Eq c.num d.num := by
  cases h <;> rfl

theorem ContentRel.lam (h : ContentRel T cs β c d) : Matches (ClosureRel T cs β) c.lam d.lam := by
  cases h with
  | number n => rfl
  | closure h => exact h
  | string s => rfl

theorem ContentRel.str (h : ContentRel T cs β c d) : Matches Eq c.str d.str := by
  cases h <;> rfl

theorem ContentRel.truth (b : Bool) : ContentRel T cs β (.truth b) (.truth b) := .number _

/-- Related contents are printed alike. -/
theorem ContentRel.printed (h : ContentRel T cs β c d) : c.printed = d.printed := by
  cases h <;> rfl

/-- Operators compute the same from operands that correspond. -/
theorem unary_matches (p : Unary) (h : ContentRel T cs β c d) :
    Matches (ContentRel T cs β) (p.compute c) (p.compute d) := by
  cases p with
  | isZero =>
    refine h.num.bind ?_
    rintro m _ rfl
    exact ContentRel.truth _

theorem fit_matches (ov : Overflow) (z : Int) :
    Matches (ContentRel T cs β) (ov.fit z >>= fun r => pure (.number r))
      (ov.fit z >>= fun r => pure (.number r)) := by
  unfold Overflow.fit
  split
  · exact ContentRel.number _
  · cases ov z with
    | none => rfl
    | some n => exact ContentRel.number n

/-- An operator computes related results from related operands, or fails on both. -/
theorem binary_matches (ov : Overflow) (p : Binary) {c' : Content Source.Closure}
    {d' : Content Object} (h : ContentRel T cs β c d) (h' : ContentRel T cs β c' d') :
    Matches (ContentRel T cs β) (p.compute ov c c') (p.compute ov d d') := by
  cases p with
  | add => exact h.num.bind₂ h'.num fun m n => fit_matches ov _
  | sub => exact h.num.bind₂ h'.num fun m n => fit_matches ov _
  | mul => exact h.num.bind₂ h'.num fun m n => fit_matches ov _
  | equal => exact h.num.bind₂ h'.num fun m n => ContentRel.truth _
  | append => exact h.str.bind₂ h'.str fun s t => ContentRel.string _
  | differ => exact h.str.bind₂ h'.str fun s t => ContentRel.truth _

end

/-! ## Stores -/

variable (T cs) in
/-- Every slot of the tree's store has a slot of its own that stands for it and holds what
corresponds. -/
structure Heap (β : Placement) (σ : Source.Slots) (τ : Emitted.Slots) : Prop where
  length : β.length = σ.length
  distinct : β.Nodup
  contents : ∀ i l : Nat, β[i]? = some l →
    ∃ c d, σ[i]? = some c ∧ τ[l]? = some d ∧ ContentRel T cs β c d

namespace Heap

variable {β : Placement} {σ : Source.Slots} {τ : Emitted.Slots} {i l : Nat}

/-- Reading a slot and the one that stands for it. -/
theorem get (h : Heap T cs β σ τ) (hil : β[i]? = some l) :
    ∃ c d, σ.get i = .ok c ∧ Store.get τ l = .ok d ∧ ContentRel T cs β c d := by
  obtain ⟨c, d, hc, hd, hcd⟩ := h.contents i l hil
  refine ⟨c, d, ?_, ?_, hcd⟩
  · rw [Store.get, hc]
    rfl
  · rw [Store.get, hd]
    rfl

/-- A placed slot exists. -/
theorem placed_lt (h : Heap T cs β σ τ) (hil : β[i]? = some l) : l < τ.length := by
  obtain ⟨_, d, _, hd, _⟩ := h.contents i l hil
  exact (List.getElem?_eq_some_iff.mp hd).1

/-- More slots on the side of the code. -/
theorem extend (h : Heap T cs β σ τ) (more : Emitted.Slots) : Heap T cs β σ (τ ++ more) := by
  refine ⟨h.length, h.distinct, fun i l hil => ?_⟩
  obtain ⟨c, d, hc, hd, hcd⟩ := h.contents i l hil
  refine ⟨c, d, hc, ?_, hcd⟩
  rw [List.getElem?_append_left (h.placed_lt hil)]
  exact hd

/-- A new slot, for which a slot stands that did not stand for any. -/
theorem alloc (h : Heap T cs β σ τ) (hl : l ∉ β) {c : Content Source.Closure} {d : Content Object}
    (hd : τ[l]? = some d) (hcd : ContentRel T cs (β ++ [l]) c d) :
    Heap T cs (β ++ [l]) (σ ++ [c]) τ := by
  refine ⟨?_, ?_, ?_⟩
  · simp [h.length]
  · exact List.nodup_append.mpr ⟨h.distinct, List.pairwise_singleton _ _,
      fun a ha b hb => List.mem_singleton.mp hb ▸ fun heq => hl (heq ▸ ha)⟩
  · intro j k hjk
    rcases Nat.lt_or_ge j β.length with hj | hj
    · rw [List.getElem?_append_left hj] at hjk
      obtain ⟨c', d', hc', hd', hcd'⟩ := h.contents j k hjk
      refine ⟨c', d', ?_, hd', hcd'.mono _⟩
      rw [List.getElem?_append_left (h.length ▸ hj)]
      exact hc'
    · rw [List.getElem?_append_right hj] at hjk
      obtain ⟨hj', rfl⟩ := List.getElem?_eq_some_iff.mp hjk
      have heq : j = β.length := by
        simp only [List.length_singleton] at hj'
        omega
      subst heq
      refine ⟨c, d, ?_, ?_, hcd⟩
      · rw [h.length, List.getElem?_concat_length]
      · simpa using hd

/-- Filling a slot that stands for nothing. -/
theorem set_unplaced (h : Heap T cs β σ τ) (hl : l ∉ β) (d : Content Object) :
    Heap T cs β σ (τ.set l d) := by
  refine ⟨h.length, h.distinct, fun j k hjk => ?_⟩
  obtain ⟨c', d', hc', hd', hcd'⟩ := h.contents j k hjk
  have hne : l ≠ k := by
    rintro rfl
    exact hl (List.mem_of_getElem? hjk)
  exact ⟨c', d', hc', (List.getElem?_set_ne hne).trans hd', hcd'⟩

/-- Filling a slot and the one that stands for it. -/
theorem fill (h : Heap T cs β σ τ) (hil : β[i]? = some l) {c : Content Source.Closure}
    {d : Content Object} (hcd : ContentRel T cs β c d) :
    Heap T cs β (σ.set i c) (τ.set l d) := by
  refine ⟨by rw [h.length, List.length_set], h.distinct, fun j k hjk => ?_⟩
  by_cases hij : i = j
  · subst hij
    rw [hil] at hjk
    cases hjk
    have hi : i < σ.length := h.length ▸ (List.getElem?_eq_some_iff.mp hil).1
    exact ⟨c, d, List.getElem?_set_self hi, List.getElem?_set_self (h.placed_lt hil), hcd⟩
  · obtain ⟨c', d', hc', hd', hcd'⟩ := h.contents j k hjk
    -- Different slots have different slots that stand for them.
    have hne : l ≠ k := by
      rintro rfl
      have hi := (List.getElem?_eq_some_iff.mp hil).1
      exact hij ((List.getElem?_inj hi h.distinct).mp (hil.trans hjk.symm))
    exact ⟨c', d', (List.getElem?_set_ne hij).trans hc', (List.getElem?_set_ne hne).trans hd', hcd'⟩

end Heap

/-! ## Variables that have been made -/

/-- The variable of a pair has been made and not been used. A slot stands for nothing yet and holds
zero, a reference and a thunk are empty or about to be assigned. -/
def Opened (β : Placement) (s : State) : Instr → Prop
  | .put dst _ => ∃ l, s.frame dst = some (.slot (some l)) ∧ l ∉ β ∧ s.slots[l]? = some (.number 0)
  | .slot dst => ∃ l, s.frame dst = some (.slot (some l)) ∧ l ∉ β ∧ s.slots[l]? = some (.number 0)
  | .call dst _ _ => ∃ t, s.frame dst = some (.thunk t)
  | .branch dst .value _ _ _ _ _ => s.frame dst = some (.slot none)
  | .branch dst .thunk _ _ _ _ _ => ∃ t, s.frame dst = some (.thunk t)
  | _ => True

/-- The variables of some code have been made, with different slots, and have not been used. -/
structure Ready (β : Placement) (s : State) (code : List Instr) : Prop where
  opened : ∀ i ∈ code, Opened β s i
  distinct : ∀ y ∈ declared code, ∀ z ∈ declared code, ∀ l, s.frame y = some (.slot (some l)) →
    s.frame z = some (.slot (some l)) → y = z

/-- All that running some code may change, when `γ` are the slots that newly stand for slots: they are
slots of its own variables or new ones; it assigns its own variables only, and no reference that is not
empty; and it fills only slots that stand for slots. -/
structure Evolves (β γ : Placement) (code : List Instr) (s s' : State) : Prop where
  own : ∀ l ∈ γ, (∃ y ∈ declared code, s.frame y = some (.slot (some l))) ∨ s.slots.length ≤ l
  frame : ∀ y, y ∉ declared code → s'.frame y = s.frame y
  refs : ∀ y l, s.frame y = some (.slot (some l)) → s'.frame y = some (.slot (some l))
  slots : ∀ l, l < s.slots.length → l ∉ β → l ∉ γ → s'.slots[l]? = s.slots[l]?
  grows : s.slots.length ≤ s'.slots.length

theorem declared_cons (i : Instr) (is : List Instr) :
    declared (i :: is) = declared [i] ++ declared is :=
  declared_append [i] is

theorem mem_declared {code : List Instr} {i : Instr} {y : Ident} (hi : i ∈ code)
    (hy : y ∈ declared [i]) : y ∈ declared code := by
  obtain ⟨pre, post, rfl⟩ := List.append_of_mem hi
  rw [declared_append, declared_cons]
  exact List.mem_append_right _ (List.mem_append_left _ hy)

/-- A variable stays unused where nothing happens to it. -/
theorem Opened.transfer {β β' : Placement} {s s' : State} {i : Instr} (h : Opened β s i)
    (hframe : ∀ y ∈ declared [i], s'.frame y = s.frame y)
    (hslots : ∀ y ∈ declared [i], ∀ l, s.frame y = some (.slot (some l)) → l ∉ β →
      s.slots[l]? = some (.number 0) → l ∉ β' ∧ s'.slots[l]? = some (.number 0)) :
    Opened β' s' i := by
  have hmem : ∀ y : Ident, y ∈ [y] := List.mem_singleton_self
  cases i with
  | put dst p =>
    obtain ⟨l, hl, hβ, h0⟩ := h
    exact ⟨l, (hframe dst (hmem dst)).trans hl, hslots dst (hmem dst) l hl hβ h0⟩
  | slot dst =>
    obtain ⟨l, hl, hβ, h0⟩ := h
    exact ⟨l, (hframe dst (hmem dst)).trans hl, hslots dst (hmem dst) l hl hβ h0⟩
  | call dst callee args =>
    obtain ⟨t, ht⟩ := h
    exact ⟨t, (hframe dst (hmem dst)).trans ht⟩
  | branch dst kind test a av b bv =>
    cases kind with
    | value => exact (hframe dst (hmem dst)).trans h
    | thunk =>
      obtain ⟨t, ht⟩ := h
      exact ⟨t, (hframe dst (hmem dst)).trans ht⟩
  | copy dst src => trivial
  | halt arg => trivial
  | verbatim d o => trivial

namespace Evolves

variable {β γ δ : Placement} {a b : List Instr} {s s₁ s₂ : State}

theorem refl (β : Placement) (s : State) : Evolves β [] [] s s where
  own _ hl := absurd hl List.not_mem_nil
  frame _ _ := rfl
  refs _ _ h := h
  slots _ _ _ _ := rfl
  grows := Nat.le_refl _

/-- Code that runs one part after the other. -/
theorem trans (h₁ : Evolves β γ a s s₁) (h₂ : Evolves (β ++ γ) δ b s₁ s₂)
    (hnodup : (declared (a ++ b)).Nodup) : Evolves β (γ ++ δ) (a ++ b) s s₂ := by
  rw [declared_append] at hnodup
  obtain ⟨_, _, hapart⟩ := List.nodup_append.mp hnodup
  have hgrows₁ := h₁.grows
  refine ⟨?_, ?_, ?_, ?_, Nat.le_trans h₁.grows h₂.grows⟩
  · intro l hl
    rw [declared_append]
    rcases List.mem_append.mp hl with hl | hl
    · rcases h₁.own l hl with ⟨y, hy, hly⟩ | hge
      · exact Or.inl ⟨y, List.mem_append_left _ hy, hly⟩
      · exact Or.inr hge
    · rcases h₂.own l hl with ⟨y, hy, hly⟩ | hge
      · have hya : y ∉ declared a := fun hya => hapart y hya y hy rfl
        exact Or.inl ⟨y, List.mem_append_right _ hy, (h₁.frame y hya).symm.trans hly⟩
      · exact Or.inr (by omega)
  · intro y hy
    rw [declared_append] at hy
    obtain ⟨hya, hyb⟩ := not_or.mp (mt List.mem_append.mpr hy)
    exact (h₂.frame y hyb).trans (h₁.frame y hya)
  · intro y l hl
    exact h₂.refs y l (h₁.refs y l hl)
  · intro l hlt hβ hγδ
    obtain ⟨hγ, hδ⟩ := not_or.mp (mt List.mem_append.mpr hγδ)
    have hβγ : l ∉ β ++ γ := fun hmem => (List.mem_append.mp hmem).elim hβ hγ
    exact (h₂.slots l (by omega) hβγ hδ).trans (h₁.slots l hlt hβ hγ)

end Evolves

namespace Ready

variable {β γ : Placement} {a b : List Instr} {s s' : State}

theorem left (h : Ready β s (a ++ b)) : Ready β s a where
  opened i hi := h.opened i (List.mem_append_left _ hi)
  distinct y hy z hz := by
    have hdis := h.distinct
    rw [declared_append] at hdis
    exact hdis y (List.mem_append_left _ hy) z (List.mem_append_left _ hz)

/-- When the first part of some code has run, the rest is still ready. -/
theorem after (h : Ready β s (a ++ b)) (hnodup : (declared (a ++ b)).Nodup)
    (he : Evolves β γ a s s') : Ready (β ++ γ) s' b := by
  have hdis := h.distinct
  rw [declared_append] at hnodup hdis
  obtain ⟨_, _, hapart⟩ := List.nodup_append.mp hnodup
  have hsame : ∀ y ∈ declared b, s'.frame y = s.frame y := fun y hy =>
    he.frame y fun hya => hapart y hya y hy rfl
  refine ⟨fun i hi => ?_, fun y hy z hz l hly hlz => ?_⟩
  · refine (h.opened i (List.mem_append_right _ hi)).transfer
      (fun y hy => hsame y (mem_declared hi hy)) fun y hy l hly hβ h0 => ?_
    have hlt : l < s.slots.length := (List.getElem?_eq_some_iff.mp h0).1
    have hyb : y ∈ declared b := mem_declared hi hy
    -- The slot is not one of those that the first part has used.
    have hγ : l ∉ γ := by
      intro hmem
      rcases he.own l hmem with ⟨z, hz, hlz⟩ | hge
      · have heq := hdis z (List.mem_append_left _ hz) y (List.mem_append_right _ hyb) l hlz hly
        exact hapart z hz y hyb heq
      · omega
    refine ⟨fun hmem => (List.mem_append.mp hmem).elim hβ hγ, ?_⟩
    rw [he.slots l hlt hβ hγ]
    exact h0
  · rw [hsame y hy] at hly
    rw [hsame z hz] at hlz
    exact hdis y (List.mem_append_right _ hy) z (List.mem_append_right _ hz) l hly hlz

end Ready

/-! ## Entering a block -/

section

variable {s : State} {i : Instr} {y : Ident}

/-- A declaration changes no other variable. -/
theorem declare_frame (hy : y ∉ declared [i]) : (s.declare i).frame y = s.frame y := by
  have hne : ∀ x : Ident, y ∉ [x] → y ≠ x := fun x h heq => h (List.mem_singleton.mpr heq)
  cases i with
  | put dst p => exact s.frame.set_of_ne _ (hne dst hy)
  | call dst callee args => exact s.frame.set_of_ne _ (hne dst hy)
  | branch dst kind test a av b bv =>
    cases kind with
    | value => exact s.frame.set_of_ne _ (hne dst hy)
    | thunk => exact s.frame.set_of_ne _ (hne dst hy)
  | slot dst => exact s.frame.set_of_ne _ (hne dst hy)
  | copy dst src => rfl
  | halt arg => exact s.frame.set_of_ne _ (hne exitStatus hy)
  | verbatim d o => rfl

/-- A declaration only adds slots. -/
theorem declare_slots (s : State) (i : Instr) : ∃ more, (s.declare i).slots = s.slots ++ more := by
  cases i with
  | put dst p => exact ⟨_, rfl⟩
  | slot dst => exact ⟨_, rfl⟩
  | branch dst kind test a av b bv => cases kind <;> exact ⟨[], (List.append_nil _).symm⟩
  | _ => exact ⟨[], (List.append_nil _).symm⟩

/-- If the new variable refers to a slot, the slot is new, too. -/
theorem declare_new {l : Nat} (hy : y ∈ declared [i])
    (hl : (s.declare i).frame y = some (.slot (some l))) :
    s.slots.length = l ∧ l < (s.declare i).slots.length := by
  cases i with
  | put dst p =>
    cases List.mem_singleton.mp hy
    cases (s.frame.set_self dst _).symm.trans hl
    exact ⟨rfl, by simp [State.declare]⟩
  | slot dst =>
    cases List.mem_singleton.mp hy
    cases (s.frame.set_self dst _).symm.trans hl
    exact ⟨rfl, by simp [State.declare]⟩
  | call dst callee args =>
    cases List.mem_singleton.mp hy
    cases (s.frame.set_self dst _).symm.trans hl
  | branch dst kind test a av b bv =>
    cases List.mem_singleton.mp hy
    cases kind with
    | value => cases (s.frame.set_self dst _).symm.trans hl
    | thunk => cases (s.frame.set_self dst _).symm.trans hl
  | copy dst src => exact absurd hy List.not_mem_nil
  | halt arg =>
    cases List.mem_singleton.mp hy
    cases (s.frame.set_self exitStatus _).symm.trans hl
  | verbatim d o => exact absurd hy List.not_mem_nil

/-- A pair declares one variable at most. -/
theorem declared_unique {z : Ident} (hy : y ∈ declared [i]) (hz : z ∈ declared [i]) : y = z := by
  cases i with
  | copy dst src => exact absurd hy List.not_mem_nil
  | verbatim d o => exact absurd hy List.not_mem_nil
  | _ => exact (List.mem_singleton.mp hy).trans (List.mem_singleton.mp hz).symm

/-- Behind a declaration its variables are open, and stand apart from all slots that are placed. -/
theorem declare_opened {β : Placement} (hβ : ∀ l ∈ β, l < s.slots.length) (i : Instr) :
    Opened β (s.declare i) i := by
  have hnew : s.slots.length ∉ β := fun hmem => Nat.lt_irrefl _ (hβ _ hmem)
  cases i with
  | put dst p =>
    exact ⟨s.slots.length, s.frame.set_self dst _, hnew, List.getElem?_concat_length⟩
  | slot dst =>
    exact ⟨s.slots.length, s.frame.set_self dst _, hnew, List.getElem?_concat_length⟩
  | call dst callee args => exact ⟨none, s.frame.set_self dst _⟩
  | branch dst kind test a av b bv =>
    cases kind with
    | value => exact s.frame.set_self dst _
    | thunk => exact ⟨none, s.frame.set_self dst _⟩
  | copy dst src => trivial
  | halt arg => trivial
  | verbatim d o => trivial

end

/-- A block has been entered: its variables have been made, the others are what they were, and so are
all slots that were there. -/
structure Entered (β : Placement) (code : List Instr) (s s' : State) : Prop where
  frame : ∀ y, y ∉ declared code → s'.frame y = s.frame y
  slots : ∃ more, s'.slots = s.slots ++ more
  own : ∀ y ∈ declared code, ∀ l, s'.frame y = some (.slot (some l)) →
    s.slots.length ≤ l ∧ l < s'.slots.length
  ready : Ready β s' code

/-- Declaring all variables of a block leads into the block: its variables are open, distinct and apart from
what was there, and nothing else has changed. -/
theorem entered_declareAll {β : Placement} {code : List Instr} {s : State}
    (hnodup : (declared code).Nodup) (hβ : ∀ l ∈ β, l < s.slots.length) :
    Entered β code s (s.declareAll code) := by
  induction code generalizing s with
  | nil =>
    refine ⟨fun y _ => rfl, ⟨[], (List.append_nil _).symm⟩, ?_, ?_, ?_⟩
    · exact fun y hy => absurd hy List.not_mem_nil
    · exact fun i hi => absurd hi List.not_mem_nil
    · exact fun y hy => absurd hy List.not_mem_nil
  | cons i is ih =>
    rw [declared_cons] at hnodup
    obtain ⟨_, hnodup', hapart⟩ := List.nodup_append.mp hnodup
    obtain ⟨more, hmore⟩ := declare_slots s i
    have hlen : s.slots.length ≤ (s.declare i).slots.length := by
      rw [hmore, List.length_append]
      omega
    have hrest : Entered β is (s.declare i) (s.declareAll (i :: is)) :=
      ih hnodup' fun l hl => Nat.lt_of_lt_of_le (hβ l hl) hlen
    obtain ⟨more', hmore'⟩ := hrest.slots
    have hlen' : (s.declare i).slots.length ≤ (s.declareAll (i :: is)).slots.length := by
      rw [hmore', List.length_append]
      omega
    -- What the first pair declares is not touched by the others.
    have hfirst : ∀ y ∈ declared [i],
        (s.declareAll (i :: is)).frame y = (s.declare i).frame y := fun y hy =>
      hrest.frame y fun hyis => hapart y hy y hyis rfl
    have hfirstNew : ∀ y ∈ declared [i], ∀ l,
        (s.declareAll (i :: is)).frame y = some (.slot (some l)) →
          s.slots.length = l ∧ l < (s.declare i).slots.length := fun y hy l hl =>
      declare_new hy ((hfirst y hy).symm.trans hl)
    refine ⟨?_, ⟨more ++ more', ?_⟩, ?_, ⟨?_, ?_⟩⟩
    · intro y hy
      rw [declared_cons] at hy
      obtain ⟨hyi, hyis⟩ := not_or.mp (mt List.mem_append.mpr hy)
      exact (hrest.frame y hyis).trans (declare_frame hyi)
    · rw [hmore', hmore, List.append_assoc]
    · intro y hy l hl
      rw [declared_cons] at hy
      rcases List.mem_append.mp hy with hy | hy
      · have := hfirstNew y hy l hl
        omega
      · have := hrest.own y hy l hl
        omega
    · intro j hj
      rcases List.mem_cons.mp hj with rfl | hj
      · refine (declare_opened hβ j).transfer hfirst fun y _ l _ hl h0 => ⟨hl, ?_⟩
        rw [hmore', List.getElem?_append_left (List.getElem?_eq_some_iff.mp h0).1]
        exact h0
      · exact hrest.ready.opened j hj
    · intro y hy z hz l hly hlz
      rw [declared_cons] at hy hz
      rcases List.mem_append.mp hy with hy | hy <;> rcases List.mem_append.mp hz with hz | hz
      · exact declared_unique hy hz
      · have := hfirstNew y hy l hly
        have := hrest.own z hz l hlz
        omega
      · have := hfirstNew z hz l hlz
        have := hrest.own y hy l hly
        omega
      · exact hrest.ready.distinct y hy z hz l hly hlz

/-- Entering a block in corresponding stores. -/
theorem Heap.entered {β : Placement} {σ : Source.Slots} {s : State} {code : List Instr}
    (h : Heap T cs β σ s.slots) (hnodup : (declared code).Nodup) :
    Entered β code s (s.declareAll code) ∧ Heap T cs β σ (s.declareAll code).slots := by
  have hentered : Entered β code s (s.declareAll code) := by
    refine entered_declareAll hnodup fun l hl => ?_
    obtain ⟨i, hi⟩ := List.mem_iff_getElem?.mp hl
    exact h.placed_lt hi
  obtain ⟨more, hmore⟩ := hentered.slots
  refine ⟨hentered, ?_⟩
  rw [hmore]
  exact h.extend more

end Trampoline.Simulation

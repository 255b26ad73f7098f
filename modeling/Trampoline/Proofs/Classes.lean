import Mathlib.Data.List.Nodup
import Trampoline.Proofs.Emitted
import Trampoline.Proofs.Lowered

/-!
# Trampoline.Proofs.Classes -- finding the classes of a lowered tree

Lowering enters one class for every lambda, in the order in which the lambdas are met, and marks the
number of its parameters as in use. If lambdas have names of their own, then a class is found by the
name of its lambda, and the base class has a call operator for it.
-/

namespace Trampoline

/-! ## Names of classes -/

/-- Lambdas at different places have different names. -/
def Expr.LambdasNamedApart (e : Expr) : Prop :=
  ∀ (p q : List Nat) (name : Bytes) (ps qs : List Bytes) (a b : Expr),
    e.reach? p = some (.lambda name ps a) → e.reach? q = some (.lambda name qs b) → p = q

/-- Every lambda is captured once, so its name is listed once. -/
theorem Expr.lambdasNamedApart_iff {e : Expr} :
    e.LambdasNamedApart ↔ ((e.captures .root).map Capture.name).Nodup := by
  constructor
  · intro h
    rw [List.Nodup, List.pairwise_map]
    refine (onePerPlace_captures e .root).imp_of_mem fun {c d} hc hd hne heq => ?_
    obtain ⟨p, a, hp, hcp, _⟩ := mem_captures_iff.mp hc
    obtain ⟨q, b, hq, hdq, _⟩ := mem_captures_iff.mp hd
    rw [← heq] at hq
    -- Equal names put both lambdas at one place, where only one of them can be.
    have hpq : p = q := h p q c.name c.params d.params a b hp hq
    exact hne (by rw [hcp, hdq, hpq])
  · intro h p q name ps qs a b hp hq
    have hc : ⟨Node.root.descend p, name, ps, Names.without a.free ps⟩ ∈ e.captures .root :=
      mem_captures_iff.mpr ⟨p, a, hp, rfl, rfl⟩
    have hd : ⟨Node.root.descend q, name, qs, Names.without b.free qs⟩ ∈ e.captures .root :=
      mem_captures_iff.mpr ⟨q, b, hq, rfl, rfl⟩
    have hnode : Node.root.descend p = Node.root.descend q :=
      congrArg Capture.node (List.inj_on_of_nodup_map h hc hd rfl)
    have hpath : p ++ [] = q ++ [] := congrArg Node.path hnode
    rwa [List.append_nil, List.append_nil] at hpath

instance (e : Expr) : Decidable e.LambdasNamedApart :=
  decidable_of_iff' _ Expr.lambdasNamedApart_iff

namespace ClassTable

/-- If names are different, the first class with a name is the only one. -/
theorem find?_name {D : List ClassDef} (h : (D.map ClassDef.name).Nodup) {c : ClassDef}
    (hc : c ∈ D) : D.find? (fun d => d.name == c.name) = some c := by
  induction D with
  | nil => exact absurd hc List.not_mem_nil
  | cons d ds ih =>
    rw [List.map_cons, List.nodup_cons] at h
    rcases List.mem_cons.mp hc with rfl | hc
    · exact List.find?_cons_of_pos (beq_self_eq_true c.name)
    · have hne : d.name ≠ c.name := fun heq => h.1 (heq ▸ List.mem_map_of_mem hc)
      rw [List.find?_cons, beq_eq_false_iff_ne.mpr hne]
      exact ih h.2 hc

/-- Where names are distinct, a class is found by its name. -/
theorem classOf?_of_mem {t : ClassTable} (h : (t.defs.map ClassDef.name).Nodup) {d : ClassDef}
    (hd : d ∈ t.defs) : t.classOf? d.name = d.closure := by
  rw [classOf?, find?_name h hd]
  rfl

theorem mem_of_classOf? {t : ClassTable} {name : Bytes} {clo : Closure}
    (h : t.classOf? name = some clo) : ∃ d ∈ t.defs, d.closure = some clo := by
  obtain ⟨d, hd, hclo⟩ := Option.bind_eq_some_iff.mp h
  exact ⟨d, List.mem_of_find?_eq_some hd, hclo⟩

/-! ## Arities in use -/

theorem natOrder : Ascending.Order fun a b : Nat => decide (a < b) where
  trans hab hbc := by
    rw [decide_eq_true_eq] at *
    omega
  total hne hab := by
    rw [decide_eq_true_eq]
    rw [decide_eq_false_iff_not] at hab
    omega

/-- Arities are in strictly ascending order. -/
def Ordered (t : ClassTable) : Prop := Ascending.Strict (fun a b => decide (a < b)) t.arities

/-- Marking arities keeps their order. -/
theorem Ordered.grow {t : ClassTable} (h : t.Ordered) (C : List ClassEntry) (A : List Nat) :
    (t.grow C A).Ordered := by
  induction A generalizing t with
  | nil => exact h
  | cons n A ih => exact ih (t := t.addArity n) (Ascending.strict_insert natOrder n h)

/-- An arity of the table lies between the first and the last. -/
theorem mem_span {t : ClassTable} {range : Nat × Nat} {k : Nat} (hordered : t.Ordered)
    (h : t.arityRange = .ok range) (hk : k ∈ t.arities) : k ∈ span range := by
  unfold arityRange at h
  split at h
  · next lo hi hlo hhi =>
    cases h
    have hfirst : lo ≤ k := by
      obtain ⟨rest, hrest⟩ := List.head?_eq_some_iff.mp hlo
      rw [Ordered, hrest] at hordered
      rw [hrest] at hk
      rcases List.mem_cons.mp hk with rfl | hk
      · exact Nat.le_refl k
      · exact Nat.le_of_lt (of_decide_eq_true ((List.pairwise_cons.mp hordered).1 k hk))
    have hlast : k ≤ hi := by
      obtain ⟨init, hinit⟩ := List.getLast?_eq_some_iff.mp hhi
      rw [Ordered, hinit] at hordered
      rw [hinit] at hk
      rcases List.mem_append.mp hk with hk | hk
      · have hlt := (List.pairwise_append.mp hordered).2.2 k hk hi (List.mem_singleton_self hi)
        exact Nat.le_of_lt (of_decide_eq_true hlt)
      · exact Nat.le_of_eq (List.mem_singleton.mp hk)
    rw [span, List.mem_range'_1]
    omega
  · cases h

end ClassTable

end Trampoline

import Trampoline.Proofs.Lowered

/-!
# Trampoline.Proofs.Traversal -- the order in which lambdas are met

A tree is walked through from its root: a node comes before everything below it, and the children of a
node are taken from left to right, except that a `letrec` takes its definitions before its body. Said of two
places, one is met before the other if the other lies below it, or if the ways to them part at a node that
takes the way to it first. This is a strict order, and the analysis of captures and the class table both
list the lambdas of a tree in it.
-/

namespace Trampoline

namespace Expr

/-! ## The order of places -/

/-- Of two children, by their positions, the first one is taken first. The body of a `letrec` is at position
zero and comes last. -/
def TakesFirst : Expr → Nat → Nat → Prop
  | .letrec _ _, i, j => i ≠ 0 ∧ (j = 0 ∨ i < j)
  | _, i, j => i < j

/-- Of two children at most one is taken first. -/
theorem TakesFirst.asymm {e : Expr} {i j : Nat} (h : e.TakesFirst i j) : ¬ e.TakesFirst j i := by
  cases e <;> simp only [TakesFirst] at h ⊢ <;> omega

theorem TakesFirst.ne {e : Expr} {i j : Nat} (h : e.TakesFirst i j) : i ≠ j := by
  rintro rfl
  exact h.asymm h

/-- Positions from one on are taken in order. -/
theorem takesFirst_of_lt (e : Expr) {i j : Nat} (hi : i ≠ 0) (h : i < j) : e.TakesFirst i j := by
  cases e <;> simp only [TakesFirst] <;> omega

/-- `MetBefore e p q`: walking through the tree, the place `p` is met before the place `q`. -/
inductive MetBefore (e : Expr) : List Nat → List Nat → Prop
  | below {p inner : List Nat} (h : inner ≠ []) : MetBefore e p (inner ++ p)
  | apart {outer p q : List Nat} {i j : Nat} {a : Expr} (ha : e.reach? outer = some a)
      (h : a.TakesFirst i j) : MetBefore e (p ++ i :: outer) (q ++ j :: outer)

/-- The order within a child is the order within the tree. -/
theorem MetBefore.of_child {e c : Expr} {i : Nat} (hc : e.child? i = some c) {p q : List Nat}
    (h : c.MetBefore p q) : e.MetBefore (p ++ [i]) (q ++ [i]) := by
  cases h with
  | @below _ inner hinner =>
    rw [List.append_assoc]
    exact .below hinner
  | @apart outer p q j k a ha hjk =>
    rw [List.append_assoc, List.append_assoc, List.cons_append, List.cons_append]
    exact .apart ((reach?_of_child hc outer).trans ha) hjk

/-- Where two ways to one place part from a common way, they have not parted. -/
theorem eq_of_append_cons {p q outer : List Nat} {i j : Nat} (h : p ++ i :: outer = q ++ j :: outer) :
    i = j := by
  obtain ⟨_, htail⟩ := List.append_inj' h rfl
  exact (List.cons.inj htail).1

/-- Of two places at which ways part, one is above the other or both are one. -/
theorem parting_cases {p p' outer outer' : List Nat} {i i' : Nat}
    (h : p ++ i :: outer = p' ++ i' :: outer') :
    (outer = outer' ∧ i = i') ∨ (∃ way, outer = way ++ i' :: outer') ∨ ∃ way, outer' = way ++ i :: outer := by
  rcases List.append_eq_append_iff.mp h with ⟨way, rfl, htail⟩ | ⟨way, rfl, htail⟩
  · cases way with
    | nil =>
      obtain ⟨hi, houter⟩ := List.cons.inj htail
      exact Or.inl ⟨houter, hi⟩
    | cons k way =>
      obtain ⟨_, houter⟩ := List.cons.inj htail
      exact Or.inr (Or.inl ⟨way, houter⟩)
  · cases way with
    | nil =>
      obtain ⟨hi, houter⟩ := List.cons.inj htail
      exact Or.inl ⟨houter.symm, hi.symm⟩
    | cons k way =>
      obtain ⟨_, houter⟩ := List.cons.inj htail
      exact Or.inr (Or.inr ⟨way, houter⟩)

/-- Of two places at most one is met before the other. -/
theorem MetBefore.asymm {e : Expr} {p q : List Nat} (h : e.MetBefore p q) : ¬ e.MetBefore q p := by
  intro h'
  cases h with
  | @below _ inner hinner =>
    generalize hq : inner ++ p = q at h'
    cases h' with
    | @below _ inner' hinner' =>
      have hlen := congrArg List.length hq
      have hpos := List.length_pos_iff.mpr hinner
      simp only [List.length_append] at hlen
      omega
    | apart ha hij =>
      rw [← List.append_assoc] at hq
      exact hij.ne (eq_of_append_cons hq).symm
  | @apart outer p q i j a ha hij =>
    generalize hp : p ++ i :: outer = p₁ at h'
    generalize hq : q ++ j :: outer = q₁ at h'
    cases h' with
    | below hinner =>
      rw [← hq, ← List.append_assoc] at hp
      exact hij.ne (eq_of_append_cons hp)
    | @apart outer' q' p' j' i' a' ha' hji =>
      rcases parting_cases hp with ⟨rfl, rfl⟩ | ⟨way, rfl⟩ | ⟨way, rfl⟩
      · -- The ways part at one node.
        have hj := (List.cons.inj (List.append_inj' hq rfl).2).1
        rw [ha] at ha'
        cases ha'
        subst hj
        exact hij.asymm hji
      · -- The ways to both places lead through the outer parting, on one side of it.
        rw [← List.cons_append, ← List.append_assoc] at hq
        exact hji.ne (eq_of_append_cons hq).symm
      · rw [← List.cons_append, ← List.append_assoc] at hq
        exact hij.ne (eq_of_append_cons hq).symm

/-! ## Lambdas in the order of places -/

/-- Of two places below a node, the first one is met before the second one. -/
def Meets (e : Expr) (node m n : Node) : Prop :=
  ∃ p q, m = node.descend p ∧ n = node.descend q ∧ e.MetBefore p q

theorem Meets.of_child {e a : Expr} {node m n : Node} {i : Nat} (ha : e.child? i = some a)
    (h : a.Meets (node.child i) m n) : e.Meets node m n := by
  obtain ⟨p, q, rfl, rfl, hpq⟩ := h
  exact ⟨p ++ [i], q ++ [i], (Node.descend_concat node p i).symm, (Node.descend_concat node q i).symm,
    hpq.of_child ha⟩

/-- Lambdas below two children are met in the order in which the children are taken. -/
theorem meets_of_children {e a b : Expr} {node : Node} {i j : Nat} {c d : Capture}
    (hij : e.TakesFirst i j) (hc : c ∈ a.captures (node.child i)) (hd : d ∈ b.captures (node.child j)) :
    e.Meets node c.node d.node := by
  obtain ⟨p, _, _, hp, _⟩ := mem_captures_iff.mp hc
  obtain ⟨q, _, _, hq, _⟩ := mem_captures_iff.mp hd
  rw [← Node.descend_concat] at hp hq
  exact ⟨p ++ [i], q ++ [j], hp, hq, .apart rfl hij⟩

/-- The entries of a tree, in the order in which its lambdas are met. -/
def AsMet (e : Expr) (node : Node) (cs : List Capture) : Prop :=
  cs.Pairwise fun c d => e.Meets node c.node d.node

theorem AsMet.of_child {e a : Expr} {node : Node} {i : Nat} {cs : List Capture}
    (ha : e.child? i = some a) (h : a.AsMet (node.child i) cs) : e.AsMet node cs :=
  List.Pairwise.imp (fun hcd => hcd.of_child ha) h

theorem asMet_capturesList {e : Expr} {node : Node} {es : List Expr} {k : Nat} (hk : k ≠ 0)
    (hes : ∀ i a, es[i]? = some a → e.child? (i + k) = some a)
    (h : ∀ a ∈ es, ∀ node, a.AsMet node (a.captures node)) :
    e.AsMet node (capturesList node k es) := by
  induction es generalizing k with
  | nil => exact List.Pairwise.nil
  | cons a es ih =>
    have ha : e.child? k = some a := Nat.zero_add k ▸ hes 0 a rfl
    rw [capturesList]
    refine List.pairwise_append.mpr ⟨(h a List.mem_cons_self _).of_child ha, ?_, ?_⟩
    · apply ih (Nat.succ_ne_zero k)
      · intro i b hb
        have hi : i + (k + 1) = i + 1 + k := by omega
        exact hi ▸ hes (i + 1) b hb
      · exact fun b hb => h b (List.mem_cons_of_mem a hb)
    · intro c hc d hd
      obtain ⟨i, b, _, hd⟩ := mem_capturesList.mp hd
      exact meets_of_children (e.takesFirst_of_lt hk (by omega)) hc hd

/-- Captures are listed as their lambdas are met. -/
theorem asMet_captures (e : Expr) (node : Node) : e.AsMet node (e.captures node) := by
  induction e using Expr.induction generalizing node with
  | var x => exact List.Pairwise.nil
  | literal l => exact List.Pairwise.nil
  | lambda name params body ih =>
    refine List.pairwise_cons.mpr ⟨?_, (ih _).of_child rfl⟩
    intro d hd
    obtain ⟨q, _, _, hq, _⟩ := mem_captures_iff.mp hd
    rw [← Node.descend_concat] at hq
    refine ⟨[], q ++ [0], (Node.descend_nil node).symm, hq, ?_⟩
    exact List.append_nil (q ++ [0]) ▸ .below (by simp)
  | app callee args ihf ihs =>
    refine List.pairwise_append.mpr ⟨(ihf _).of_child rfl, ?_, ?_⟩
    · exact asMet_capturesList Nat.one_ne_zero (fun i a ha => ha) ihs
    · intro c hc d hd
      obtain ⟨i, a, _, hd⟩ := mem_capturesList.mp hd
      exact meets_of_children (Nat.succ_pos i) hc hd
  | cond test a b iht iha ihb =>
    refine List.pairwise_append.mpr ⟨List.pairwise_append.mpr ⟨?_, ?_, ?_⟩, ?_, ?_⟩
    · exact (iht _).of_child rfl
    · exact (iha _).of_child rfl
    · intro c hc d hd
      exact meets_of_children Nat.zero_lt_one hc hd
    · exact (ihb _).of_child rfl
    · intro c hc d hd
      rcases List.mem_append.mp hc with hc | hc
      · exact meets_of_children Nat.zero_lt_two hc hd
      · exact meets_of_children Nat.one_lt_two hc hd
  | letrec defs body ihs ihb =>
    rw [captures, capturesDefs_eq]
    refine List.pairwise_append.mpr ⟨?_, (ihb _).of_child rfl, ?_⟩
    · apply asMet_capturesList Nat.one_ne_zero fun i a ha => child?_def ha
      intro a ha
      obtain ⟨d, hd, rfl⟩ := List.mem_map.mp ha
      exact ihs d hd
    · intro c hc d hd
      obtain ⟨i, a, _, hc⟩ := mem_capturesList.mp hc
      exact meets_of_children ⟨Nat.succ_ne_zero i, Or.inl rfl⟩ hc hd
  | seq exprs ihs => exact asMet_capturesList Nat.one_ne_zero (fun i a ha => ha) ihs
  | assign x value ih => exact (ih _).of_child rfl
  | assignThen x value next ihv ihn =>
    refine List.pairwise_append.mpr ⟨(ihv _).of_child rfl, (ihn _).of_child rfl, ?_⟩
    intro c hc d hd
    exact meets_of_children Nat.zero_lt_one hc hd
  | native uses code => exact List.Pairwise.nil

end Expr

end Trampoline

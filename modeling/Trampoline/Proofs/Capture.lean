import Trampoline.Expr.Capture
import Trampoline.Proofs.Ascending
import Trampoline.Proofs.Tree

/-!
# Trampoline.Proofs.Capture -- the captures of a tree are its free occurrences

What a lambda captures is computed from the leaves up, by unions and removals. Here the same names
are described from the root down: a name occurs free in a tree when some walk down the tree ends at
an occurrence of it and passes no node that binds it. The two descriptions satisfy the same one-step
equation, so they agree on every tree.
-/

namespace Trampoline

namespace Expr

/-! ## Free occurrences, by walks -/

/-- The node itself is an occurrence of the name. An operator's name occurs only where native code
lists it. -/
def Mentions : Expr → Bytes → Prop
  | .var y, x => y = x ∧ Primitive.isName x = false
  | .assign y _, x => y = x ∧ Primitive.isName x = false
  | .assignThen y _ _, x => y = x ∧ Primitive.isName x = false
  | .native uses _, x => x ∈ uses
  | _, _ => False

/-- The node binds the name in everything below it: a lambda its parameters, a `letrec` the names of
its definitions. -/
def Binds : Expr → Bytes → Prop
  | .lambda _ params _, x => x ∈ params
  | .letrec defs _, x => x ∈ defs.map Prod.fst
  | _, _ => False

/-- Some walk down from the tree ends at an occurrence of the name, and no node on it, the first and
the last included, binds the name. -/
def OccursFree (e : Expr) (x : Bytes) : Prop :=
  ∃ path target, e.reach? path = some target ∧ target.Mentions x ∧
    ∀ above, above <:+ path → ∀ a, e.reach? above = some a → ¬ a.Binds x

/-- The walks of a tree in terms of the walks of its children. -/
theorem occursFree_iff {e : Expr} {x : Bytes} :
    e.OccursFree x ↔
      ¬ e.Binds x ∧ (e.Mentions x ∨ ∃ i c, e.child? i = some c ∧ c.OccursFree x) := by
  constructor
  · rintro ⟨path, target, hreach, hm, hfree⟩
    refine ⟨hfree [] (List.nil_suffix) e rfl, ?_⟩
    rcases List.eq_nil_or_concat path with rfl | ⟨path, i, rfl⟩
    · cases hreach
      exact Or.inl hm
    · rw [List.concat_eq_append] at *
      rw [reach?_concat] at hreach
      obtain ⟨c, hc, hreach⟩ := Option.bind_eq_some_iff.mp hreach
      refine Or.inr ⟨i, c, hc, path, target, hreach, hm, ?_⟩
      intro above habove a ha
      refine hfree (above ++ [i]) ?_ a ?_
      · exact List.suffix_concat_iff.mpr (Or.inr ⟨above, rfl, habove⟩)
      · rw [reach?_concat, hc]
        exact ha
  · rintro ⟨hb, hm | ⟨i, c, hc, path, target, hreach, hm, hfree⟩⟩
    · refine ⟨[], e, rfl, hm, ?_⟩
      intro above habove a ha
      rw [List.suffix_nil.mp habove] at ha
      cases ha
      exact hb
    · refine ⟨path ++ [i], target, ?_, hm, ?_⟩
      · rw [reach?_concat, hc]
        exact hreach
      · intro above habove a ha
        rcases List.suffix_concat_iff.mp habove with rfl | ⟨rest, rfl, hrest⟩
        · cases ha
          exact hb
        · rw [reach?_concat, hc] at ha
          exact hfree rest hrest a ha

/-! ## The computed names -/

/-- An identifier is a free name unless it is that of an operator. -/
theorem mem_occurrence {x y : Bytes} : x ∈ occurrence y ↔ y = x ∧ Primitive.isName x = false := by
  unfold occurrence
  split
  · rename_i hp
    constructor
    · intro h
      exact absurd h List.not_mem_nil
    · rintro ⟨rfl, hx⟩
      rw [hp] at hx
      exact Bool.noConfusion hx
  · rename_i hp
    rw [List.mem_singleton]
    constructor
    · rintro rfl
      exact ⟨rfl, Bool.eq_false_iff.mpr hp⟩
    · rintro ⟨rfl, _⟩
      rfl

/-- The free names of a list are those of its members. -/
theorem mem_freeList {x : Bytes} {es : List Expr} :
    x ∈ freeList es ↔ ∃ (i : Nat) (e : Expr), es[i]? = some e ∧ x ∈ e.free := by
  induction es with
  | nil => simp [freeList]
  | cons e es ih =>
    rw [freeList, Names.mem_union, ih]
    constructor
    · rintro (hx | ⟨i, a, ha, hx⟩)
      · exact ⟨0, e, rfl, hx⟩
      · exact ⟨i + 1, a, ha, hx⟩
    · rintro ⟨i, a, ha, hx⟩
      match i, ha with
      | 0, rfl => exact Or.inl hx
      | i + 1, ha => exact Or.inr ⟨i, a, ha, hx⟩

theorem freeDefs_eq (ds : List (Bytes × Expr)) : freeDefs ds = freeList (ds.map Prod.snd) := by
  induction ds with
  | nil => rfl
  | cons d ds ih => rw [List.map_cons, freeDefs, freeList, ih]

/-- The computed names satisfy the same equation as the free occurrences. -/
theorem mem_free_step {e : Expr} {x : Bytes} :
    x ∈ e.free ↔ ¬ e.Binds x ∧ (e.Mentions x ∨ ∃ i c, e.child? i = some c ∧ x ∈ c.free) := by
  cases e with
  | var y => simp [free, Binds, Mentions, child?, mem_occurrence]
  | literal l => simp [free, Binds, Mentions, child?]
  | lambda name params body =>
    rw [exists_child_lambda]
    simp [free, Binds, Mentions, and_comm]
  | app callee args =>
    rw [exists_child_app]
    simp [free, Binds, Mentions, mem_freeList]
  | cond test a b =>
    rw [exists_child_cond]
    simp [free, Binds, Mentions]
  | letrec defs body =>
    rw [exists_child_letrec, ← mem_freeList, free, freeDefs_eq]
    simp [Binds, Mentions, and_comm, or_comm]
  | seq exprs =>
    rw [exists_child_seq]
    simp [free, Binds, Mentions, mem_freeList]
  | assign y value =>
    rw [exists_child_assign]
    simp [free, Binds, Mentions, mem_occurrence]
  | assignThen y value next =>
    rw [exists_child_assignThen]
    simp [free, Binds, Mentions, mem_occurrence]
  | native uses code => simp [free, Binds, Mentions, child?]

/-- A name is computed exactly when it occurs free. -/
theorem mem_free_iff {e : Expr} {x : Bytes} : x ∈ e.free ↔ e.OccursFree x := by
  induction e using child_induction with
  | step e ih =>
    rw [mem_free_step, occursFree_iff]
    refine and_congr_right fun _ => or_congr_right ?_
    constructor
    · rintro ⟨i, c, hc, hx⟩
      exact ⟨i, c, hc, (ih i c hc).mp hx⟩
    · rintro ⟨i, c, hc, hx⟩
      exact ⟨i, c, hc, (ih i c hc).mpr hx⟩

theorem strict_occurrence (x : Bytes) : Names.Strict (occurrence x) := by
  unfold occurrence
  split
  · exact List.Pairwise.nil
  · exact List.pairwise_singleton _ x

theorem strict_freeList (es : List Expr) (h : ∀ e ∈ es, Names.Strict e.free) :
    Names.Strict (freeList es) := by
  induction es with
  | nil => exact List.Pairwise.nil
  | cons e es ih =>
    rw [freeList]
    exact Names.strict_union _ (ih fun a ha => h a (List.mem_cons_of_mem e ha))

/-- The computed names are in order. -/
theorem strict_free (e : Expr) : Names.Strict e.free := by
  induction e using Expr.induction with
  | var x => exact strict_occurrence x
  | literal l => exact List.Pairwise.nil
  | lambda name params body ih => exact Names.strict_without ih params
  | app callee args _ ihs => exact Names.strict_union _ (strict_freeList args ihs)
  | cond test a b _ _ ihb => exact Names.strict_union _ (Names.strict_union _ ihb)
  | letrec defs body _ ihb => exact Names.strict_without (Names.strict_union _ ihb) _
  | seq exprs ihs => exact strict_freeList exprs ihs
  | assign x value ih => exact Names.strict_union _ ih
  | assignThen x value next _ ihn => exact Names.strict_union _ (Names.strict_union _ ihn)
  | native uses code => exact Names.strict_ofList uses

end Expr

/-! ## Entries, by places -/

namespace Expr

/-- The captures of a list are those of its members, each at its own place. -/
theorem mem_capturesList {c : Capture} {node : Node} {es : List Expr} {k : Nat} :
    c ∈ capturesList node k es ↔
      ∃ (i : Nat) (e : Expr), es[i]? = some e ∧ c ∈ e.captures (node.child (i + k)) := by
  induction es generalizing k with
  | nil => simp [capturesList]
  | cons e es ih =>
    rw [capturesList, List.mem_append, ih]
    constructor
    · rintro (hc | ⟨i, a, ha, hc⟩)
      · exact ⟨0, e, rfl, by rwa [Nat.zero_add]⟩
      · exact ⟨i + 1, a, ha, by rwa [Nat.add_right_comm]⟩
    · rintro ⟨i, a, ha, hc⟩
      match i, ha with
      | 0, rfl => exact Or.inl (by rwa [Nat.zero_add] at hc)
      | i + 1, ha => exact Or.inr ⟨i, a, ha, by rwa [Nat.add_right_comm] at hc⟩

theorem capturesDefs_eq (node : Node) (k : Nat) (ds : List (Bytes × Expr)) :
    capturesDefs node k ds = capturesList node k (ds.map Prod.snd) := by
  induction ds generalizing k with
  | nil => rfl
  | cons d ds ih => rw [List.map_cons, capturesDefs, capturesList, ih]

/-- The entry that a node makes for itself. -/
def Enters (e : Expr) (node : Node) (c : Capture) : Prop :=
  ∃ body, e = .lambda c.name c.params body ∧ c.node = node ∧
    c.captured = Names.without body.free c.params

/-- A capture is entered by the tree itself or by a child. -/
theorem mem_captures_step {e : Expr} {node : Node} {c : Capture} :
    c ∈ e.captures node ↔
      e.Enters node c ∨ ∃ i a, e.child? i = some a ∧ c ∈ a.captures (node.child i) := by
  cases e with
  | var y => simp [captures, Enters, child?]
  | literal l => simp [captures, Enters, child?]
  | lambda name params body =>
    rw [exists_child_lambda, captures, List.mem_cons]
    refine or_congr_left ?_
    constructor
    · rintro rfl
      exact ⟨body, rfl, rfl, rfl⟩
    · rintro ⟨body', he, hn, hc⟩
      obtain ⟨place, name', params', captured⟩ := c
      cases he
      rw [show place = node from hn, show captured = _ from hc]
  | app callee args =>
    rw [exists_child_app]
    simp [captures, Enters, mem_capturesList]
  | cond test a b =>
    rw [exists_child_cond]
    simp [captures, Enters]
  | letrec defs body =>
    rw [exists_child_letrec, ← mem_capturesList, captures, capturesDefs_eq]
    simp [Enters, or_comm]
  | seq exprs =>
    rw [exists_child_seq]
    simp [captures, Enters, mem_capturesList]
  | assign y value =>
    rw [exists_child_assign]
    simp [captures, Enters]
  | assignThen y value next =>
    rw [exists_child_assignThen]
    simp [captures, Enters]
  | native uses code => simp [captures, Enters, child?]

/-- The entries of a tree are those of the lambdas that walks from its root reach. -/
theorem mem_captures_iff {e : Expr} {node : Node} {c : Capture} :
    c ∈ e.captures node ↔
      ∃ path body, e.reach? path = some (.lambda c.name c.params body) ∧
        c.node = node.descend path ∧ c.captured = Names.without body.free c.params := by
  induction e using child_induction generalizing node with
  | step e ih =>
    rw [mem_captures_step]
    constructor
    · rintro (⟨body, rfl, hn, hc⟩ | ⟨i, a, ha, hc⟩)
      · exact ⟨[], body, rfl, hn, hc⟩
      · obtain ⟨path, body, hreach, hn, hc⟩ := (ih i a ha).mp hc
        refine ⟨path ++ [i], body, ?_, ?_, hc⟩
        · rw [reach?_concat, ha]
          exact hreach
        · rw [Node.descend_concat]
          exact hn
    · rintro ⟨path, body, hreach, hn, hc⟩
      rcases List.eq_nil_or_concat path with rfl | ⟨path, i, rfl⟩
      · cases hreach
        exact Or.inl ⟨body, rfl, hn, hc⟩
      · rw [List.concat_eq_append] at *
        rw [reach?_concat] at hreach
        rw [Node.descend_concat] at hn
        obtain ⟨a, ha, hreach⟩ := Option.bind_eq_some_iff.mp hreach
        exact Or.inr ⟨i, a, ha, (ih i a ha).mpr ⟨path, body, hreach, hn, hc⟩⟩

/-- Entries made below different children of a node are made for different places. -/
theorem node_ne_of_child_ne {a b : Expr} {node : Node} {i j : Nat} {c d : Capture} (hij : i ≠ j)
    (hc : c ∈ a.captures (node.child i)) (hd : d ∈ b.captures (node.child j)) : c.node ≠ d.node := by
  obtain ⟨p, _, _, hp, _⟩ := mem_captures_iff.mp hc
  obtain ⟨q, _, _, hq, _⟩ := mem_captures_iff.mp hd
  intro h
  rw [hp, hq] at h
  exact hij (Node.child_descend_inj h)

/-- No two entries are for one place. -/
def OnePerPlace (cs : List Capture) : Prop := cs.Pairwise fun c d => c.node ≠ d.node

theorem onePerPlace_capturesList {node : Node} {es : List Expr}
    (h : ∀ e ∈ es, ∀ node, OnePerPlace (e.captures node)) (k : Nat) :
    OnePerPlace (capturesList node k es) := by
  induction es generalizing k with
  | nil => exact List.Pairwise.nil
  | cons e es ih =>
    rw [capturesList]
    refine List.pairwise_append.mpr ⟨h e List.mem_cons_self _, ?_, ?_⟩
    · exact ih (fun a ha => h a (List.mem_cons_of_mem e ha)) (k + 1)
    · intro c hc d hd
      obtain ⟨i, a, _, hd⟩ := mem_capturesList.mp hd
      exact node_ne_of_child_ne (by omega) hc hd

/-- No lambda of a tree has two captures. -/
theorem onePerPlace_captures (e : Expr) (node : Node) : OnePerPlace (e.captures node) := by
  induction e using Expr.induction generalizing node with
  | var x => exact List.Pairwise.nil
  | literal l => exact List.Pairwise.nil
  | lambda name params body ih =>
    refine List.pairwise_cons.mpr ⟨?_, ih _⟩
    intro d hd
    obtain ⟨p, _, _, hp, _⟩ := mem_captures_iff.mp hd
    -- The entry of the lambda is one level above every entry of its body.
    intro h
    rw [hp] at h
    have hdepth := congrArg Node.depth h
    simp only [Node.descend, Node.child] at hdepth
    omega
  | app callee args ihf ihs =>
    refine List.pairwise_append.mpr ⟨ihf _, onePerPlace_capturesList ihs 1, ?_⟩
    intro c hc d hd
    obtain ⟨i, a, _, hd⟩ := mem_capturesList.mp hd
    exact node_ne_of_child_ne (by omega) hc hd
  | cond test a b iht iha ihb =>
    refine List.pairwise_append.mpr ⟨List.pairwise_append.mpr ⟨iht _, iha _, ?_⟩, ihb _, ?_⟩
    · intro c hc d hd
      exact node_ne_of_child_ne (by omega) hc hd
    · intro c hc d hd
      rcases List.mem_append.mp hc with hc | hc
      · exact node_ne_of_child_ne (by omega) hc hd
      · exact node_ne_of_child_ne (by omega) hc hd
  | letrec defs body ihs ihb =>
    rw [captures, capturesDefs_eq]
    refine List.pairwise_append.mpr ⟨onePerPlace_capturesList ?_ 1, ihb _, ?_⟩
    · intro a ha
      obtain ⟨d, hd, rfl⟩ := List.mem_map.mp ha
      exact ihs d hd
    · intro c hc d hd
      obtain ⟨i, a, _, hc⟩ := mem_capturesList.mp hc
      exact node_ne_of_child_ne (by omega) hc hd
  | seq exprs ihs => exact onePerPlace_capturesList ihs 1
  | assign x value ih => exact ih _
  | assignThen x value next ihv ihn =>
    refine List.pairwise_append.mpr ⟨ihv _, ihn _, ?_⟩
    intro c hc d hd
    exact node_ne_of_child_ne (by omega) hc hd
  | native uses code => exact List.Pairwise.nil

end Expr

/-- With one entry per place, looking a place up finds its entry. -/
theorem Captures.captured?_of_mem {cs : Captures} (h : Expr.OnePerPlace cs) {c : Capture}
    (hc : c ∈ cs) : cs.captured? c.node = some c.captured := by
  unfold Captures.captured?
  induction cs with
  | nil => exact absurd hc List.not_mem_nil
  | cons d cs ih =>
    obtain ⟨hd, hcs⟩ := List.pairwise_cons.mp h
    rcases List.mem_cons.mp hc with rfl | hc
    · simp
    · have hne : (d.node == c.node) = false := beq_eq_false_iff_ne.mpr (hd c hc)
      rw [List.find?_cons, hne]
      exact ih hcs hc

/-! ## Exactness -/

/-- A captured operator name is listed by native code in the lambda. -/
theorem Expr.OccursFree.listed {e : Expr} {x : Bytes} (h : e.OccursFree x)
    (hx : Primitive.isName x = true) :
    ∃ path uses code, e.reach? path = some (.native uses code) ∧ x ∈ uses := by
  obtain ⟨path, target, hreach, hm, _⟩ := h
  have hop : ¬ Primitive.isName x = false := by
    rw [hx]
    exact Bool.noConfusion
  cases target with
  | var y => exact absurd hm.2 hop
  | assign y value => exact absurd hm.2 hop
  | assignThen y value next => exact absurd hm.2 hop
  | native uses code => exact ⟨path, uses, code, hreach, hm⟩
  | literal l => exact absurd hm id
  | lambda name params body => exact absurd hm id
  | app callee args => exact absurd hm id
  | cond test a b => exact absurd hm id
  | letrec defs body => exact absurd hm id
  | seq exprs => exact absurd hm id

/-- The captures of a tree have exactly one entry for every lambda of the tree, told apart by places,
and no other. The entry of a lambda lists, in strictly ascending order and without repetition, exactly
the names that occur free in the lambda; none of them is a parameter of the lambda, and an operator's
name is among them only if native code inside the lambda lists it. -/
theorem captures_exact (e : Expr) :
    ((e.captures .root).map Capture.node).Nodup ∧
    (∀ node, node ∈ (e.captures .root).map Capture.node ↔
      node.depth = node.path.length ∧
        ∃ name params body, e.at? node = some (.lambda name params body)) ∧
    ∀ c ∈ e.captures .root, ∃ body, e.at? c.node = some (.lambda c.name c.params body) ∧
      Captures.captured? (e.captures .root) c.node = some c.captured ∧
      c.captured.Pairwise (· < ·) ∧ c.captured.Nodup ∧
      (∀ x, x ∈ c.captured ↔ (Expr.lambda c.name c.params body).OccursFree x) ∧
      (∀ x ∈ c.captured, x ∉ c.params) ∧
      ∀ x ∈ c.captured, Primitive.isName x = true →
        ∃ path uses code, (Expr.lambda c.name c.params body).reach? path = some (.native uses code) ∧
          x ∈ uses := by
  refine ⟨List.pairwise_map.mpr (Expr.onePerPlace_captures e .root), ?_, ?_⟩
  · intro node
    constructor
    · intro h
      obtain ⟨c, hc, rfl⟩ := List.mem_map.mp h
      obtain ⟨path, body, hreach, hn, _⟩ := Expr.mem_captures_iff.mp hc
      rw [hn]
      refine ⟨by simp [Node.descend, Node.root], c.name, c.params, body, ?_⟩
      rw [Expr.at?, Node.descend, Node.root, List.append_nil]
      exact hreach
    · rintro ⟨hdepth, name, params, body, hat⟩
      refine List.mem_map.mpr ⟨⟨node, name, params, Names.without body.free params⟩, ?_, rfl⟩
      refine Expr.mem_captures_iff.mpr ⟨node.path, body, hat, ?_, rfl⟩
      simp [Node.descend, Node.root, ← hdepth]
  · intro c hc
    obtain ⟨path, body, hreach, hn, hcap⟩ := Expr.mem_captures_iff.mp hc
    have hfree : c.captured = (Expr.lambda c.name c.params body).free := hcap
    have hstrict : Names.Strict c.captured := hfree ▸ Expr.strict_free _
    have hocc : ∀ x, x ∈ c.captured ↔ (Expr.lambda c.name c.params body).OccursFree x := by
      intro x
      rw [hfree]
      exact Expr.mem_free_iff
    refine ⟨body, ?_, Captures.captured?_of_mem (Expr.onePerPlace_captures e .root) hc, hstrict,
      hstrict.nodup, hocc, ?_, ?_⟩
    · rw [Expr.at?, hn, Node.descend, Node.root, List.append_nil]
      exact hreach
    · intro x hx
      rw [hcap] at hx
      exact (Names.mem_without.mp hx).2
    · intro x hx hop
      exact ((hocc x).mp hx).listed hop

/-- A lambda in a lambda: `(lambda (a) (b (lambda (c) (d a (letrec ((e c)) e)))))`. -/
def nestedLambdas : Expr :=
  .lambda [108, 48] [[97]] (.app (.var [98]) [.lambda [108, 49] [[99]]
    (.app (.var [100]) [.var [97], .letrec [([101], .var [99])] (.var [101])])])

/-- The inner lambda captures `a` and `d`: `c` is its parameter and `e` is bound on the way. -/
theorem captures_exact_nestedLambdas :
    (⟨⟨2, [1, 0]⟩, [108, 49], [[99]], [[97], [100]]⟩ : Capture) ∈ nestedLambdas.captures .root ∧
    ∃ body, nestedLambdas.at? ⟨2, [1, 0]⟩ = some (.lambda [108, 49] [[99]] body) ∧
      ∀ x, x ∈ [[97], [100]] ↔ (Expr.lambda [108, 49] [[99]] body).OccursFree x := by
  have hmem : (⟨⟨2, [1, 0]⟩, [108, 49], [[99]], [[97], [100]]⟩ : Capture) ∈
      nestedLambdas.captures .root := by decide
  obtain ⟨body, hat, _, _, _, hocc, _⟩ := (captures_exact nestedLambdas).2.2 _ hmem
  exact ⟨hmem, body, hat, hocc⟩

end Trampoline

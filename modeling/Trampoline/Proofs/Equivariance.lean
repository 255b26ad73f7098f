import Trampoline.Proofs.Renumbering
import Trampoline.Proofs.Scope

/-!
# Trampoline.Proofs.Equivariance -- nothing depends on where the count starts

The same tree is compiled twice, from two starting values of the count of fresh names. The two runs go in
lockstep: where one draws a number the other draws the number at the same distance from its start, and where
one fails the other fails with the same error. So the states of the two runs stay alike, and the units differ
in nothing but the numbers of temporaries. How far the count gets is told by the tree alone.
-/

namespace Trampoline

namespace Lowering

/-- Numbers at the same distance from two starts. -/
def Shifted (m n k k' : Nat) : Prop := ∃ i, k = m + i ∧ k' = n + i

/-- States of two runs that have drawn equally many numbers and entered the same classes. -/
structure State.Alike (m n : Nat) (s s' : State) : Prop where
  next : Shifted m n s.next s'.next
  table : s.table.Alike (Shifted m n) s'.table

/-- Two runs have both succeeded, with results that are related, or have failed with the same error. -/
inductive ResultsAlike (m n : Nat) {α : Type} (r : α → α → Prop) :
    EStateM.Result CompileError State α → EStateM.Result CompileError State α → Prop
  | ok {a a' : α} {s s' : State} (ha : r a a') (hs : s.Alike m n s') : ResultsAlike m n r (.ok a s) (.ok a' s')
  | error (err : CompileError) {s s' : State} (hs : s.Alike m n s') :
      ResultsAlike m n r (.error err s) (.error err s')

/-- Two steps, done in states that are alike, end alike. -/
def Follows (m n : Nat) {α : Type} (r : α → α → Prop) (x y : Step α) : Prop :=
  ∀ s s' : State, s.Alike m n s' → ResultsAlike m n r (x s) (y s')

section

variable {m n : Nat} {α β : Type}

/-! ## Tables -/

theorem addArity_alike {t t' : ClassTable} (h : t.Alike (Shifted m n) t') (k : Nat) :
    (t.addArity k).Alike (Shifted m n) (t'.addArity k) := by
  refine ⟨?_, h.memo, h.defs⟩
  show Ascending.insert _ k t.arities = Ascending.insert _ k t'.arities
  rw [h.arities]

theorem index?_alike {t t' : ClassTable} (h : t.Alike (Shifted m n) t') (node : Node) :
    t.index? node = t'.index? node :=
  congrArg (List.lookup node) h.memo

theorem size_alike {t t' : ClassTable} (h : t.Alike (Shifted m n) t') : t.size = t'.size :=
  h.defs.length_eq

theorem nameAt_alike {t t' : ClassTable} (h : t.Alike (Shifted m n) t') (i : Nat) :
    t.nameAt i = t'.nameAt i := by
  have hnames : t.defs.map ClassDef.name = t'.defs.map ClassDef.name :=
    List.forall₂_eq_eq_eq ▸ (List.forall₂_map_left_iff.mpr
      (List.forall₂_map_right_iff.mpr (h.defs.imp fun _ _ hd => hd.name)))
  have hat : ∀ t : ClassTable, t.nameAt i = (t.defs.map ClassDef.name)[i]?.getD [] := by
    intro t
    rw [ClassTable.nameAt, List.getElem?_map]
    cases t.defs[i]? <;> rfl
  rw [hat, hat, hnames]

/-- Tables that are alike stay alike when a lambda is entered in both. -/
theorem enter_alike {t t' : ClassTable} (h : t.Alike (Shifted m n) t') (node : Node) (name : Bytes) (k : Nat) :
    (t.enter node name k).Alike (Shifted m n) (t'.enter node name k) := by
  apply addArity_alike
  refine ⟨h.arities, ?_, List.rel_append h.defs (.cons ⟨rfl, .none⟩ .nil)⟩
  show t.memo ++ [(node, t.size)] = t'.memo ++ [(node, t'.size)]
  rw [h.memo, size_alike h]

/-- Lists that are related stay so when both are changed at one place. -/
theorem forall₂_modify {γ δ : Type} {q : γ → δ → Prop} {xs : List γ} {ys : List δ} (h : List.Forall₂ q xs ys)
    {f : γ → γ} {g : δ → δ} (hf : ∀ x y, q x y → q (f x) (g y)) (i : Nat) :
    List.Forall₂ q (xs.modify i f) (ys.modify i g) := by
  induction h generalizing i with
  | nil => simp
  | cons hx hxs ih =>
    cases i with
    | zero => exact .cons (hf _ _ hx) hxs
    | succ i => exact .cons hx (ih i)

/-- Tables that are alike stay alike when a class is filled in both. -/
theorem fill_alike {t t' : ClassTable} (h : t.Alike (Shifted m n) t') (i : Nat) {c c' : Closure}
    (hc : c.Alike (Shifted m n) c') : (t.fill i c).Alike (Shifted m n) (t'.fill i c') := by
  refine ⟨h.arities, h.memo, forall₂_modify h.defs ?_ i⟩
  intro d d' hd
  exact ⟨hd.name, .some hc⟩

/-! ## Steps -/

theorem follows_pure {r : α → α → Prop} {a a' : α} (h : r a a') : Follows m n r (pure a) (pure a') :=
  fun _ _ hs => .ok h hs

theorem follows_unsupported {r : α → α → Prop} (what : Unsupported) :
    Follows m n r (unsupported what) (unsupported what) :=
  fun _ _ hs => .error _ hs

/-- If two runs follow each other in a first step and from any related results on, they follow each other. -/
theorem Follows.bind {r : α → α → Prop} {q : β → β → Prop} {x y : Step α} {f g : α → Step β}
    (hx : Follows m n r x y) (hf : ∀ a a', r a a' → Follows m n q (f a) (g a')) :
    Follows m n q (x >>= f) (y >>= g) := by
  intro s s' hs
  show ResultsAlike m n q (EStateM.bind x f s) (EStateM.bind y g s')
  unfold EStateM.bind
  have h := hx s s' hs
  generalize x s = u at h ⊢
  generalize y s' = v at h ⊢
  cases h with
  | ok ha hs => exact hf _ _ ha _ _ hs
  | error err hs => exact .error err hs

theorem Follows.mono {r q : α → α → Prop} (hrq : ∀ a a', r a a' → q a a') {x y : Step α}
    (h : Follows m n r x y) : Follows m n q x y := by
  intro s s' hs
  have hresult := h s s' hs
  generalize x s = u at hresult ⊢
  generalize y s' = v at hresult ⊢
  cases hresult with
  | ok ha hs => exact .ok (hrq _ _ ha) hs
  | error err hs => exact .error err hs

/-- Temporaries are drawn side by side. -/
theorem follows_draw (t : Temp) : Follows m n (Ident.Alike (Shifted m n)) (draw t) (draw t) := by
  intro s s' hs
  obtain ⟨i, hk, hk'⟩ := hs.next
  refine .ok (.temp t hs.next) ⟨⟨i + 1, ?_, ?_⟩, hs.table⟩
  · show s.next + 1 = m + (i + 1)
    omega
  · show s'.next + 1 = n + (i + 1)
    omega

theorem follows_addArity (k : Nat) : Follows m n Eq (Lowering.addArity k) (Lowering.addArity k) :=
  fun _ _ hs => .ok rfl ⟨hs.next, addArity_alike hs.table k⟩

theorem follows_capturedBy (cs : Captures) (node : Node) :
    Follows m n Eq (capturedBy cs node) (capturedBy cs node) := by
  unfold capturedBy
  cases cs.captured? node with
  | some captured => exact follows_pure rfl
  | none => exact fun _ _ hs => .error _ hs

theorem follows_put (source : Option Node) (t : Temp) {p p' : Payload} (hp : p.Alike (Shifted m n) p') :
    Follows m n (Fragment.Alike (Shifted m n)) (put source t p) (put source t p') :=
  (follows_draw t).bind fun _ _ hd => follows_pure ⟨rfl, rfl, hd, .cons (.put hd hp) .nil⟩

theorem follows_literal (source : Option Node) (l : Literal) :
    Follows m n (Fragment.Alike (Shifted m n)) (literal source l) (literal source l) := by
  cases l with
  | integer k => exact follows_put source .number (.number k)
  | boolean b => exact follows_put source .boolean (.boolean b)
  | string s => exact follows_put source .string (.string s)
  | unspecified => exact follows_unsupported .void

/-- Closures are made side by side. -/
theorem follows_closure (cs : Captures) (node : Node) (name : Bytes) :
    Follows m n (Fragment.Alike (Shifted m n)) (closure cs node name) (closure cs node name) := by
  refine (follows_capturedBy cs node).bind fun captured _ hsame => ?_
  subst hsame
  exact follows_put _ .closure (.closure name captured)

/-- Classes are completed side by side. -/
theorem follows_complete (i : Nat) (captured params : List Bytes) {b b' : Fragment}
    (hb : b.BodyAlike (Shifted m n) b') :
    Follows m n Eq (complete i captured params b) (complete i captured params b') := by
  have hkind : b.kind = b'.kind := by
    rcases hb with hb | ⟨p, rfl, rfl⟩
    · exact hb.kind
    · rfl
  unfold complete
  rw [hkind]
  split
  · intro s s' hs
    have hclosure : Closure.Alike (Shifted m n) ⟨captured, params, b⟩ ⟨captured, params, b'⟩ := ⟨rfl, rfl, hb⟩
    have hfill := fill_alike hs.table i hclosure
    exact .ok (nameAt_alike hfill i) ⟨hs.next, hfill⟩
  · exact follows_unsupported .lambdaBody

/-- Lifting goes into the body in both runs or in none. -/
theorem follows_lift (cs : Captures) (node : Node) (name : Bytes) (params : List Bytes) {x y : Step Fragment}
    (h : Follows m n (Fragment.BodyAlike (Shifted m n)) x y) :
    Follows m n Eq (lift cs node name params x) (lift cs node name params y) := by
  intro s s' hs
  -- The lambda is in both tables, under one index, or in none.
  have hindex := index?_alike hs.table node
  cases hmet : s.table.index? node with
  | some i =>
    rw [lift_met hmet, lift_met (hindex ▸ hmet)]
    exact .ok (nameAt_alike hs.table i) hs
  | none =>
    rw [lift_new hmet, lift_new (hindex ▸ hmet), size_alike hs.table]
    refine ((follows_capturedBy cs node).bind fun captured _ hsame => ?_) _ _
      ⟨hs.next, enter_alike hs.table node name params.length⟩
    subst hsame
    exact h.bind fun b b' hb => follows_complete _ captured params hb

theorem follows_call (node : Node) {ret ret' : Ident} (hret : ret.Alike (Shifted m n) ret') (f : Bytes)
    {fs fs' : List Fragment} (h : List.Forall₂ (Fragment.Alike (Shifted m n)) fs fs') :
    Follows m n (Fragment.Alike (Shifted m n)) (call node ret f fs) (call node ret' f fs') := by
  unfold call
  rw [h.length_eq]
  refine (follows_addArity _).bind fun _ _ _ => follows_pure ⟨rfl, rfl, hret, ?_⟩
  exact (Instr.alikeAll_flatMap h).append (.cons (.call hret (.named f) (Fragment.values_alike h)) .nil)

/-- Operator calls are made side by side. -/
theorem follows_operate (node : Node) {ret ret' : Ident} (hret : ret.Alike (Shifted m n) ret') (name : Bytes)
    {fs fs' : List Fragment} (h : List.Forall₂ (Fragment.Alike (Shifted m n)) fs fs') :
    Follows m n (Fragment.Alike (Shifted m n)) (operate node ret name fs) (operate node ret' name fs') := by
  refine (follows_draw .primitive).bind fun dst dst' hdst => ?_
  have hvalues := Fragment.values_alike h
  have hprim := PrimCall.ofName?_alike name (Ident.dropLast_alike hvalues)
  dsimp only
  generalize PrimCall.ofName? name (fs.map Fragment.value).dropLast = u at hprim ⊢
  generalize PrimCall.ofName? name (fs'.map Fragment.value).dropLast = v at hprim ⊢
  cases hprim with
  | none =>
    -- The error tells how many operands there are.
    rw [hvalues.length_eq]
    exact fun _ _ hs => .error _ hs
  | some hp =>
    refine (follows_addArity 1).bind fun _ _ _ => follows_pure ⟨rfl, rfl, hret, ?_⟩
    exact (Instr.alikeAll_flatMap h).append (.cons (.put hdst (.primitive hp)) (.cons
      (.call hret (Ident.getLastD_alike hvalues hret) (.cons hdst .nil)) .nil))

/-- Conditionals are put together side by side. -/
theorem follows_choose (node : Node) {test test' a a' b b' : Fragment} (ht : test.Alike (Shifted m n) test')
    (ha : a.Alike (Shifted m n) a') (hb : b.Alike (Shifted m n) b') :
    Follows m n (Fragment.Alike (Shifted m n)) (choose node test a b) (choose node test' a' b') := by
  unfold choose
  rw [← ha.kind, ← hb.kind]
  split
  · refine (follows_draw _).bind fun dst dst' hd => follows_pure ⟨rfl, rfl, hd, ?_⟩
    exact ht.code.append (.cons (.branch _ hd ht.value ha.code ha.value hb.code hb.value) .nil)
  · exact follows_unsupported .mixedBranches

/-! ## Trees -/

/-- A list is lowered side by side, if its members are. -/
theorem follows_lowerList {cs : Captures} {es : List Expr}
    (h : ∀ e ∈ es, ∀ node, Follows m n (Fragment.Alike (Shifted m n)) (lower cs node e) (lower cs node e))
    (node : Node) (i : Nat) :
    Follows m n (List.Forall₂ (Fragment.Alike (Shifted m n))) (lowerList cs node i es)
      (lowerList cs node i es) := by
  induction es generalizing i with
  | nil =>
    rw [lowerList]
    exact follows_pure .nil
  | cons e es ih =>
    rw [List.forall_mem_cons] at h
    rw [lowerList]
    exact (h.1 _).bind fun f f' hf => (ih h.2 _).bind fun fs fs' hfs => follows_pure (.cons hf hfs)

/-- So are bindings. -/
theorem follows_lowerDefs {cs : Captures} {ds : List (Bytes × Expr)}
    (h : ∀ d ∈ ds, ∀ node, Follows m n (Fragment.Alike (Shifted m n)) (lower cs node d.2) (lower cs node d.2))
    (node : Node) (i : Nat) :
    Follows m n (Instr.AlikeAll (Shifted m n)) (lowerDefs cs node i ds) (lowerDefs cs node i ds) := by
  induction ds generalizing i with
  | nil =>
    rw [lowerDefs]
    exact follows_pure .nil
  | cons d ds ih =>
    obtain ⟨x, e⟩ := d
    rw [List.forall_mem_cons] at h
    rw [lowerDefs]
    cases alias? (x :: ds.map Prod.fst) e with
    | some y => exact follows_unsupported _
    | none =>
      refine (h.1 _).bind fun v v' hv => ?_
      rw [hv.kind]
      split
      · exact follows_unsupported _
      · refine (ih h.2 _).bind fun rest rest' hrest => follows_pure ?_
        exact (hv.code.append (.cons (.copy x hv.value) .nil)).append hrest

/-- The run of a tree follows itself from another start, whether it succeeds or fails. -/
theorem follows_lower (cs : Captures) {e : Expr} (he : e.OnlyHalts) (node : Node) :
    Follows m n (Fragment.Alike (Shifted m n)) (lower cs node e) (lower cs node e) := by
  induction e using Expr.induction generalizing node with
  | var x =>
    rw [lower]
    split
    · exact follows_unsupported _
    · exact follows_pure ⟨rfl, rfl, .named x, .nil⟩
  | literal l =>
    rw [lower]
    exact follows_literal (some node) l
  | lambda name params body ih =>
    rw [lower]
    refine (follows_lift cs node name params ?_).bind fun cls _ hsame => hsame ▸ follows_closure cs node cls
    -- The body has code, or it is the fixed text of a halt continuation, which has no numbers.
    rcases he.body with hbody | ⟨p, -, rfl⟩
    · exact (ih hbody _).mono fun _ _ h => Or.inl h
    · rw [lower]
      exact follows_pure (Or.inr ⟨p, rfl, rfl⟩)
  | app callee args _ ihs =>
    have hargs := follows_lowerList (fun e hmem node => ihs e hmem (he.args e hmem) node) node 1
    cases callee with
    | var f =>
      rw [lower]
      split
      · split
        · exact follows_unsupported _
        · exact (follows_draw .ret).bind fun _ _ hret => hargs.bind fun _ _ hfs =>
            follows_operate node hret f hfs
      · exact (follows_draw .ret).bind fun _ _ hret => hargs.bind fun _ _ hfs => follows_call node hret f hfs
    | _ => exact follows_unsupported _
  | cond test a b iht iha ihb =>
    cases he with
    | cond ht ha hb =>
      rw [lower]
      exact (iht ht _).bind fun _ _ hft => (iha ha _).bind fun _ _ hfa => (ihb hb _).bind fun _ _ hfb =>
        follows_choose node hft hfa hfb
  | letrec defs body ihs ihb =>
    cases he with
    | letrec hd hb =>
      rw [lower]
      refine (follows_lowerDefs (fun d hmem node => ihs d hmem (hd d hmem) node) node 1).bind
        fun code code' hcode => (ihb hb _).bind fun b b' hb => follows_pure ⟨rfl, hb.kind, hb.value, ?_⟩
      exact ((Instr.alikeAll_slots defs).append hcode).append hb.code
  | native uses code => exact absurd he Expr.not_onlyHalts_native
  | _ => exact follows_unsupported _

end

end Lowering

/-! ## How many numbers are drawn -/

namespace Expr

def isLiteral : Expr → Bool
  | .literal _ => true
  | _ => false

def isLambda : Expr → Bool
  | .lambda _ _ _ => true
  | _ => false

def isApplication : Expr → Bool
  | .app _ _ => true
  | _ => false

/-- An application of an operator. -/
def isOperation : Expr → Bool
  | .app (.var f) _ => Primitive.isName f
  | _ => false

def isConditional : Expr → Bool
  | .cond _ _ _ => true
  | _ => false

/-- How often nodes of some sort occur in a tree. -/
def occurrences (sort : Expr → Bool) (e : Expr) : Nat := e.places.countP fun t => sort t.2

/-- How many numbers are drawn when a tree is lowered: one for every constant, lambda, application and
conditional, and another one for every operator. -/
def draws (e : Expr) : Nat :=
  e.occurrences isLiteral + e.occurrences isLambda + e.occurrences isApplication + e.occurrences isOperation
    + e.occurrences isConditional

/-- The numbers that are drawn for a node itself. -/
def ownDraws : Expr → Nat
  | .literal _ => 1
  | .lambda _ _ _ => 1
  | .app (.var f) _ => if Primitive.isName f then 2 else 1
  | .app _ _ => 1
  | .cond _ _ _ => 1
  | _ => 0

/-- The numbers that are drawn at some places. -/
def drawsAt (ts : List (List Nat × Expr)) : Nat := ts.foldr (fun t n => t.2.ownDraws + n) 0

theorem drawsAt_cons (t : List Nat × Expr) (ts : List (List Nat × Expr)) :
    drawsAt (t :: ts) = t.2.ownDraws + drawsAt ts := rfl

theorem drawsAt_append (ts us : List (List Nat × Expr)) : drawsAt (ts ++ us) = drawsAt ts + drawsAt us := by
  induction ts with
  | nil => exact (Nat.zero_add _).symm
  | cons t ts ih => rw [List.cons_append, drawsAt_cons, drawsAt_cons, ih, Nat.add_assoc]

theorem drawsAt_under (i : Nat) (ts : List (List Nat × Expr)) : drawsAt (under i ts) = drawsAt ts := by
  simp [drawsAt, under, List.foldr_map]

/-- The draws of a tree are those of its places. -/
theorem drawsAt_places (e : Expr) : drawsAt e.places = e.draws := by
  have hown (e : Expr) : e.ownDraws = (if e.isLiteral then 1 else 0) + (if e.isLambda then 1 else 0)
      + (if e.isApplication then 1 else 0) + (if e.isOperation then 1 else 0)
      + (if e.isConditional then 1 else 0) := by
    cases e with
    | app callee args =>
      cases callee with
      | var f => cases hf : Primitive.isName f <;> simp [ownDraws, isLiteral, isLambda, isApplication,
          isOperation, isConditional, hf]
      | _ => rfl
    | _ => rfl
  unfold draws occurrences
  induction e.places with
  | nil => rfl
  | cons t ts ih =>
    rw [drawsAt_cons, ih, hown]
    simp only [List.countP_cons]
    omega

theorem drawsAt_call (f : Bytes) (args : List Expr) :
    drawsAt (Expr.app (.var f) args).places =
      (if Primitive.isName f then 2 else 1) + drawsAt (placesList 1 args) := by
  have hcallee : drawsAt (Expr.var f).places = 0 := rfl
  rw [places, drawsAt_cons, drawsAt_append, drawsAt_under, hcallee, Nat.zero_add]
  rfl

end Expr

namespace Lowering

variable {cs : Captures}

/-- A list draws what its members draw. -/
theorem LowersList.draws {node : Node} {i k : Nat} {es : List Expr}
    (ih : ∀ e ∈ es, ∀ {node n n' f C A}, Lowers cs node e n f n' C A → n' = n + Expr.drawsAt e.places)
    {n n' : Nat} {fs : List Fragment} {C : List ClassEntry} {A : List Nat}
    (h : LowersList cs node i es n fs n' C A) : n' = n + Expr.drawsAt (Expr.placesList k es) := by
  induction es generalizing i k n fs C A with
  | nil =>
    cases h
    rfl
  | cons e es ihs =>
    rw [List.forall_mem_cons] at ih
    cases h with
    | cons he hs =>
      have hfirst := ih.1 he
      have hrest := ihs (k := k + 1) ih.2 hs
      rw [Expr.placesList, Expr.drawsAt_append, Expr.drawsAt_under]
      omega

/-- Bindings draw what their values draw. -/
theorem LowersDefs.draws {node : Node} {i k : Nat} {ds : List (Bytes × Expr)}
    (ih : ∀ d ∈ ds, ∀ {node n n' f C A}, Lowers cs node d.2 n f n' C A → n' = n + Expr.drawsAt d.2.places)
    {n n' : Nat} {code : List Instr} {C : List ClassEntry} {A : List Nat}
    (h : LowersDefs cs node i ds n code n' C A) : n' = n + Expr.drawsAt (Expr.placesDefs k ds) := by
  induction ds generalizing i k n code C A with
  | nil =>
    cases h
    rfl
  | cons d ds ihs =>
    obtain ⟨x, e⟩ := d
    rw [List.forall_mem_cons] at ih
    cases h with
    | cons _ he _ hs =>
      have hfirst : _ = n + Expr.drawsAt e.places := ih.1 he
      have hrest := ihs (k := k + 1) ih.2 hs
      rw [Expr.placesDefs, Expr.drawsAt_append, Expr.drawsAt_under]
      omega

/-- Lowering draws as many numbers as the tree tells. -/
theorem Lowers.draws {node : Node} {e : Expr} {n n' : Nat} {f : Fragment} {C : List ClassEntry} {A : List Nat}
    (h : Lowers cs node e n f n' C A) : n' = n + Expr.drawsAt e.places := by
  induction e using Expr.induction generalizing node n n' f C A with
  | var x =>
    cases h
    rfl
  | literal l =>
    cases h
    rfl
  | lambda name params body ih =>
    cases h with
    | lambda _ hb _ =>
      have hbody := ih hb
      rw [Expr.places, Expr.drawsAt_cons, Expr.drawsAt_under, Expr.ownDraws]
      omega
  | app callee args _ ihs =>
    cases h with
    | call hf hs =>
      have hargs := hs.draws (k := 1) ihs
      rw [Expr.drawsAt_call, hf, if_neg (by decide)]
      omega
    | operate hf hs _ =>
      have hargs := hs.draws (k := 1) ihs
      rw [Expr.drawsAt_call, hf, if_pos rfl]
      omega
  | cond test a b iht iha ihb =>
    cases h with
    | cond ht ha hb _ =>
      have htest := iht ht
      have hthen := iha ha
      have helse := ihb hb
      simp only [Expr.places, Expr.drawsAt_cons, Expr.drawsAt_append, Expr.drawsAt_under, Expr.ownDraws]
      omega
  | letrec defs body ihs ihb =>
    cases h with
    | letrec hd hb =>
      have hdefs := hd.draws (k := 1) ihs
      have hbody := ihb hb
      simp only [Expr.places, Expr.drawsAt_cons, Expr.drawsAt_append, Expr.drawsAt_under, Expr.ownDraws]
      omega
  | native uses code =>
    cases h
    rfl
  | _ => cases h

end Lowering

/-! ## Units -/

/-- Takes the numbers from one start on to those from another start on. -/
def shift (m n k : Nat) : Nat := if m ≤ k then n + (k - m) else k

theorem shift_of_shifted {m n k k' : Nat} (h : Lowering.Shifted m n k k') : shift m n k = k' := by
  obtain ⟨i, rfl, rfl⟩ := h
  unfold shift
  rw [if_pos (Nat.le_add_right m i), Nat.add_sub_cancel_left]

/-- The runs of a whole tree from two starts. -/
theorem Build.lower_alike {e : Expr} (he : e.OnlyHalts) (m n : Nat) :
    Lowering.ResultsAlike m n (Fragment.Alike (Lowering.Shifted m n)) (Build.lower e m) (Build.lower e n) :=
  Lowering.follows_lower (e.captures .root) he .root ⟨m, ClassTable.empty⟩ ⟨n, ClassTable.empty⟩
    ⟨⟨0, rfl, rfl⟩, rfl, rfl, .nil⟩

/-- The texts of programs that are alike. -/
theorem Program.text_alike {m n : Nat} (p p' : Program) (htable : p.table.Alike (Lowering.Shifted m n) p'.table)
    (hroot : p.root.Alike (Lowering.Shifted m n) p'.root) :
    (∃ err, p.text = .error err ∧ p'.text = .error err) ∨
      ∃ text, p.text = .ok text ∧ p'.text = .ok (renumberText (shift m n) text) := by
  have hrange : p'.table.arityRange = p.table.arityRange := by
    unfold ClassTable.arityRange
    rw [htable.arities]
  unfold Program.text
  rw [hrange, ← hroot.kind]
  by_cases hkind : p.root.kind = .thunk
  · rw [if_pos hkind, if_pos hkind]
    cases p.table.arityRange with
    | error err => exact Or.inl ⟨err, rfl, rfl⟩
    | ok range =>
      refine Or.inr ⟨p.textFor range, rfl, ?_⟩
      rw [renumberText_textFor (φ := shift m n) (fun _ _ => shift_of_shifted) htable hroot]
      rfl
  · rw [if_neg hkind, if_neg hkind]
    exact Or.inl ⟨_, rfl, rfl⟩

/-- What becomes of a tree does not depend on where the count of fresh names starts. From two starts,
compiling it fails with the same error, or draws as many numbers as the tree tells and gives the same unit but
for the numbers of temporaries. -/
theorem unit_equivariant {e : Expr} (he : e.OnlyHalts) (m n : Nat) :
    (∃ err k, Build.unit e m = (.error err, m + k) ∧ Build.unit e n = (.error err, n + k)) ∨
      ∃ text, Build.unit e m = (.ok text, m + e.draws) ∧
        Build.unit e n = (.ok (renumberText (shift m n) text), n + e.draws) := by
  have hunit (k : Nat) : Build.unit e k = ((Build.program e k).1.bind Program.text, (Build.program e k).2) := rfl
  have hdraws {k : Nat} {f : Fragment} {s : Lowering.State} (h : Build.lower e k = .ok f s) :
      s.next = k + e.draws := by
    obtain ⟨A, hL, -⟩ := Build.lower_ok h
    rw [hL.draws, Expr.drawsAt_places]
  have halike := Build.lower_alike he m n
  rw [hunit m, hunit n]
  unfold Build.program
  generalize hm : Build.lower e m = u at halike
  generalize hn : Build.lower e n = v at halike
  cases halike with
  | @error err s s' hs =>
    obtain ⟨k, hk, hk'⟩ := hs.next
    refine Or.inl ⟨err, k, ?_, ?_⟩
    · rw [← hk]
      rfl
    · rw [← hk']
      rfl
  | @ok f f' s s' hf hs =>
    rw [← hdraws hm, ← hdraws hn]
    dsimp only
    rw [← hf.kind]
    by_cases hkind : f.kind = .thunk
    · rw [if_pos hkind, if_pos hkind]
      rcases Program.text_alike ⟨s.table, f⟩ ⟨s'.table, f'⟩ hs.table hf with
        ⟨err, htext, htext'⟩ | ⟨text, htext, htext'⟩
      · exact Or.inl ⟨err, e.draws, Prod.ext htext (hdraws hm), Prod.ext htext' (hdraws hn)⟩
      · exact Or.inr ⟨text, Prod.ext htext rfl, Prod.ext htext' rfl⟩
    · rw [if_neg hkind, if_neg hkind]
      exact Or.inl ⟨_, e.draws, Prod.ext rfl (hdraws hm), Prod.ext rfl (hdraws hn)⟩

/-- A countdown, numbered from zero and from seven. -/
theorem unit_equivariant_countdown :
    countdown.OnlyHalts ∧ countdown.draws = 14 ∧
      ∃ text, Build.unit countdown 0 = (.ok text, 14) ∧
        Build.unit countdown 7 = (.ok (renumberText (shift 0 7) text), 21) := by
  have hdraws : countdown.draws = 14 := by decide +kernel
  have hok : (Build.unit countdown 0).1.toOption.isSome = true := by decide +kernel
  refine ⟨onlyHalts_countdown, hdraws, ?_⟩
  rcases unit_equivariant onlyHalts_countdown 0 7 with ⟨err, k, herror, -⟩ | ⟨text, htext, htext'⟩
  · rw [herror] at hok
    cases hok
  · rw [hdraws] at htext htext'
    exact ⟨text, htext, htext'⟩

end Trampoline

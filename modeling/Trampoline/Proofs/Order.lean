import Trampoline.Proofs.Filling
import Trampoline.Proofs.Hygiene

/-!
# Trampoline.Proofs.Order -- definitions that come too late

A definition of a `letrec` is copied into its slot when the slots of the definitions behind it are still
empty. On the side of trees, `gives` collects the names whose slots a tree may have for its value, and
`needs` those whose slots its code looks into. Definitions are in order if none gives or needs a name
that is defined with it or behind it.

Emitted code looks into no empty slot exactly if all definitions of the tree are in order. Lowering asks
for less: it stops only at a definition that is itself such a name. A conditional between names, or one
that tests a name, is accepted.

The proof has two layers. `Moves` says how the code of a tree moves a filling and when its result is
filled, and `Tracks` says when it looks into filled slots only. Both are put together tree by tree, and
`Lowers.tracks` is the induction.
-/

namespace Trampoline

namespace Expr

/-! ## Definitions in order -/

/-- The names whose slots a tree may have for its value. -/
def gives : Expr → List Bytes
  | .var x => [x]
  | .cond _ a b => a.gives ++ b.gives
  | .letrec _ body => body.gives
  | _ => []

mutual

/-- The names whose slots the code of a tree looks into, outside of its lambdas. An operator looks into
its operands and its continuation, and a call into the callee only. -/
def needs : Expr → List Bytes
  | .app (.var f) args =>
    (if Primitive.isName f then args.flatMap gives else [f]) ++ needsList args
  | .cond test a b => test.gives ++ test.needs ++ (a.needs ++ b.needs)
  | .letrec defs body => needsDefs defs ++ body.needs
  | _ => []

def needsList : List Expr → List Bytes
  | [] => []
  | e :: es => e.needs ++ needsList es

/-- The same for definitions, whose values are copied. -/
def needsDefs : List (Bytes × Expr) → List Bytes
  | [] => []
  | (_, e) :: ds => e.gives ++ e.needs ++ needsDefs ds

end

/-- No definition gives or needs a name that is defined with it or behind it. -/
def InOrder : List (Bytes × Expr) → Prop
  | [] => True
  | (x, e) :: ds => (∀ y ∈ e.gives ++ e.needs, y ∉ x :: ds.map Prod.fst) ∧ InOrder ds

instance : DecidablePred InOrder := go
where
  go : (ds : List (Bytes × Expr)) → Decidable (InOrder ds)
    | [] => isTrue trivial
    | (x, e) :: ds =>
      have := go ds
      inferInstanceAs
        (Decidable ((∀ y ∈ e.gives ++ e.needs, y ∉ x :: ds.map Prod.fst) ∧ InOrder ds))

/-- The definitions of a node are in order. -/
def OwnDefsInOrder : Expr → Prop
  | .letrec defs _ => InOrder defs
  | _ => True

instance : DecidablePred OwnDefsInOrder
  | .letrec defs _ => inferInstanceAs (Decidable (InOrder defs))
  | .var _ | .literal _ | .lambda _ _ _ | .app _ _ | .cond _ _ _ | .seq _ | .assign _ _
  | .assignThen _ _ _ | .native _ _ => isTrue trivial

/-- All definitions in a tree are in order. -/
def FillsInOrder (e : Expr) : Prop := ∀ path a, e.reach? path = some a → a.OwnDefsInOrder

instance (e : Expr) : Decidable e.FillsInOrder :=
  decidable_of_iff' (∀ t ∈ e.places, t.2.OwnDefsInOrder) forall_reach_iff

/-- The bindings of the root are in order, and so are those of all children. -/
theorem fillsInOrder_iff {e : Expr} :
    e.FillsInOrder ↔ e.OwnDefsInOrder ∧ ∀ i c, e.child? i = some c → c.FillsInOrder :=
  forall_reach_step

theorem fillsInOrder_leaf {e : Expr} (hown : e.OwnDefsInOrder) (hleaf : ∀ i, e.child? i = none) :
    e.FillsInOrder := by
  refine fillsInOrder_iff.mpr ⟨hown, fun i c hc => ?_⟩
  rw [hleaf i] at hc
  cases hc

theorem fillsInOrder_var (x : Bytes) : (Expr.var x).FillsInOrder :=
  fillsInOrder_leaf trivial fun i => by cases i <;> rfl

theorem fillsInOrder_literal (l : Literal) : (Expr.literal l).FillsInOrder :=
  fillsInOrder_leaf trivial fun i => by cases i <;> rfl

theorem fillsInOrder_native (uses : List Bytes) (code : Fragment) :
    (Expr.native uses code).FillsInOrder :=
  fillsInOrder_leaf trivial fun i => by cases i <;> rfl

theorem fillsInOrder_lambda {name : Bytes} {params : List Bytes} {body : Expr} :
    (Expr.lambda name params body).FillsInOrder ↔ body.FillsInOrder := by
  rw [fillsInOrder_iff, forall_child_lambda]
  exact and_iff_right trivial

theorem fillsInOrder_call {f : Bytes} {args : List Expr} :
    (Expr.app (.var f) args).FillsInOrder ↔ ∀ a ∈ args, a.FillsInOrder := by
  rw [fillsInOrder_iff, forall_child_app, and_iff_right (fillsInOrder_var f)]
  exact and_iff_right trivial

theorem fillsInOrder_cond {test a b : Expr} :
    (Expr.cond test a b).FillsInOrder ↔
      test.FillsInOrder ∧ a.FillsInOrder ∧ b.FillsInOrder := by
  rw [fillsInOrder_iff, forall_child_cond]
  exact and_iff_right trivial

/-- A letrec adds its own bindings to be in order. -/
theorem fillsInOrder_letrec {defs : List (Bytes × Expr)} {body : Expr} :
    (Expr.letrec defs body).FillsInOrder ↔
      InOrder defs ∧ (∀ d ∈ defs, d.2.FillsInOrder) ∧ body.FillsInOrder := by
  rw [fillsInOrder_iff, forall_child_letrec]
  exact Iff.rfl

end Expr

namespace Lowering

open Instr Filling Trampoline.Expr

variable {cs : Captures}

/-! ## How the code of a tree moves a filling -/

/-- What the code of a tree does to a filling in which no name is empty that the tree binds. It runs, it
fills what it empties, and its result is filled on all paths exactly if all names are that the tree
gives. -/
structure Moves (e : Expr) (n n' : Nat) (f : Fragment) : Prop where
  /-- the result is no temporary that is drawn later -/
  old : ∀ l, ¬ f.value.DrawnIn n' l
  runs : ∀ {s : Filling}, s.Fits e.Hoists → ∃ t, RunsAll f.code s t
  fills : ∀ {s t : Filling}, s.Fits e.Hoists → RunsAll f.code s t → Fills n n' [] s t
  ready : ∀ {s : Filling}, s.Fits e.Hoists →
    ((∀ t, RunsAll f.code s t → t.Ready f.value) ↔ ∀ y ∈ e.gives, s.filled (.named y))

/-- The same for trees side by side. -/
structure MovesList (es : List Expr) (n n' : Nat) (fs : List Fragment) : Prop where
  old : ∀ x ∈ fs.map Fragment.value, ∀ l, ¬ x.DrawnIn n' l
  runs : ∀ {s : Filling}, s.Fits (HoistsAny es) → ∃ t, RunsAll (fs.flatMap Fragment.code) s t
  fills : ∀ {s t : Filling}, s.Fits (HoistsAny es) → RunsAll (fs.flatMap Fragment.code) s t →
    Fills n n' [] s t
  ready : ∀ {s : Filling}, s.Fits (HoistsAny es) →
    ((∀ t, RunsAll (fs.flatMap Fragment.code) s t → ∀ x ∈ fs.map Fragment.value, t.Ready x) ↔
      ∀ y ∈ es.flatMap gives, s.filled (.named y))

/-- The same for definitions, whose slots are filled. -/
structure MovesDefs (ds : List (Bytes × Expr)) (n n' : Nat) (code : List Instr) : Prop where
  runs : ∀ {s : Filling}, s.Fits (HoistsAny (ds.map Prod.snd)) → ∃ t, RunsAll code s t
  fills : ∀ {s t : Filling}, s.Fits (HoistsAny (ds.map Prod.snd)) → RunsAll code s t →
    Fills n n' (ds.map Prod.fst) s t

theorem hoistsAny_head {e : Expr} {es : List Expr} {x : Bytes} (h : e.Hoists x) :
    HoistsAny (e :: es) x := ⟨e, List.mem_cons_self, h⟩

theorem hoistsAny_tail {e : Expr} {es : List Expr} {x : Bytes} (h : HoistsAny es x) :
    HoistsAny (e :: es) x := by
  obtain ⟨a, ha, hx⟩ := h
  exact ⟨a, List.mem_cons_of_mem e ha, hx⟩

/-- What holds behind every run, if it does not depend on the run. -/
theorem forall_run_iff {R Q : Filling → Prop} {q : Prop} (hrun : ∃ t, R t)
    (h : ∀ t, R t → (Q t ↔ q)) : (∀ t, R t → Q t) ↔ q := by
  obtain ⟨t, ht⟩ := hrun
  constructor
  · intro hall
    exact (h t ht).mp (hall t ht)
  · intro hq t ht
    exact (h t ht).mpr hq

theorem movesList_nil {n : Nat} : MovesList [] n n [] where
  old x hx := absurd hx List.not_mem_nil
  runs {s} _ := ⟨s, rfl⟩
  fills {s t} _ h := by
    cases h
    exact Fills.refl n n _
  ready _ := iff_of_true (fun _ _ x hx => absurd hx List.not_mem_nil) fun _ hy =>
    absurd hy List.not_mem_nil

/-- A list moves as its first member and then as the rest. -/
theorem Moves.cons {e : Expr} {es : List Expr} {n m n' : Nat} {f : Fragment} {fs : List Fragment}
    (he : Moves e n m f) (hs : MovesList es m n' fs) (hn : n ≤ m) (hm : m ≤ n') :
    MovesList (e :: es) n n' (f :: fs) where
  old := by
    rw [List.map_cons]
    refine List.forall_mem_cons.mpr ⟨?_, hs.old⟩
    rintro l ⟨t, k, hval, hk⟩
    exact he.old (k + 1) ⟨t, k, hval, by omega, by omega⟩
  runs {s} hfits := by
    obtain ⟨u, hu⟩ := he.runs (hfits.mono fun _ => hoistsAny_head)
    have hfill := he.fills (hfits.mono fun _ => hoistsAny_head) hu
    obtain ⟨t, ht⟩ := hs.runs (hfill.fits (hfits.mono fun _ => hoistsAny_tail))
    exact ⟨t, runsAll_append.mpr ⟨u, hu, ht⟩⟩
  fills {s t} hfits h := by
    obtain ⟨u, hu, ht⟩ := runsAll_append.mp h
    have hfill := he.fills (hfits.mono fun _ => hoistsAny_head) hu
    exact hfill.trans (hs.fills (hfill.fits (hfits.mono fun _ => hoistsAny_tail)) ht) hn hm
  ready {s} hfits := by
    have hhead : s.Fits e.Hoists := hfits.mono fun _ => hoistsAny_head
    have htail {u : Filling} (hu : RunsAll f.code s u) : u.Fits (HoistsAny es) :=
      (he.fills hhead hu).fits (hfits.mono fun _ => hoistsAny_tail)
    rw [List.flatMap_cons, List.flatMap_cons, List.forall_mem_append, ← he.ready hhead,
      forall_runsAll_append]
    -- The first value is the same slot before and after the others are computed.
    constructor
    · intro h
      constructor
      · intro u hu
        obtain ⟨t, ht⟩ := hs.runs (htail hu)
        exact ((hs.fills (htail hu) ht).ready (he.old n')).mp (h u hu t ht f.value List.mem_cons_self)
      · obtain ⟨u, hu⟩ := he.runs hhead
        have hrest := (hs.ready (htail hu)).mp fun t ht x hx =>
          h u hu t ht x (List.mem_cons_of_mem f.value hx)
        exact fun y hy => ((he.fills hhead hu).same _).mp (hrest y hy)
    · rintro ⟨hval, hvals⟩ u hu t ht
      rw [List.map_cons]
      refine List.forall_mem_cons.mpr ⟨?_, ?_⟩
      · exact ((hs.fills (htail hu) ht).ready (he.old n')).mpr (hval u hu)
      · refine (hs.ready (htail hu)).mpr ?_ t ht
        exact fun y hy => ((he.fills hhead hu).same _).mpr (hvals y hy)

theorem movesDefs_nil {n : Nat} : MovesDefs [] n n [] where
  runs {s} _ := ⟨s, rfl⟩
  fills {s t} _ h := by
    cases h
    exact Fills.refl n n _

/-- Bindings move as the value of the first, the copy into its slot, and then the rest. -/
theorem Moves.define {x : Bytes} {e : Expr} {ds : List (Bytes × Expr)} {n m n' : Nat} {v : Fragment}
    {code : List Instr} (he : Moves e n m v) (hs : MovesDefs ds m n' code) (hn : n ≤ m) (hm : m ≤ n') :
    MovesDefs ((x, e) :: ds) n n' (v.code ++ [.copy (.named x) v.value] ++ code) where
  runs {s} hfits := by
    obtain ⟨u, hu⟩ := he.runs (hfits.mono fun _ => hoistsAny_head)
    have hfill := (he.fills (hfits.mono fun _ => hoistsAny_head) hu).copy hfits.toPlain x
    obtain ⟨t, ht⟩ := hs.runs (hfill.fits (hfits.mono fun _ => hoistsAny_tail))
    exact ⟨t, runsAll_append.mpr ⟨_, runsAll_append.mpr ⟨u, hu, runsAll_singleton.mpr rfl⟩, ht⟩⟩
  fills {s t} hfits h := by
    obtain ⟨w, hw, ht⟩ := runsAll_append.mp h
    obtain ⟨u, hu, hcopy⟩ := runsAll_append.mp hw
    cases runsAll_singleton.mp hcopy
    have hfill := (he.fills (hfits.mono fun _ => hoistsAny_head) hu).copy hfits.toPlain x
    exact hfill.trans (hs.fills (hfill.fits (hfits.mono fun _ => hoistsAny_tail)) ht) hn hm

/-- The slots of a `letrec` are declared. -/
theorem runs_slots {s : Filling} (hs : s.Plain) (defs : List (Bytes × Expr)) :
    ∃ t, Vacates (defs.map Prod.fst) s t ∧
      ∀ u, RunsAll (defs.map fun d => .slot (.named d.1)) s u ↔ u = t := by
  induction defs generalizing s with
  | nil => exact ⟨s, .refl s, fun u => Iff.rfl⟩
  | cons d ds ih =>
    obtain ⟨hplain, hv⟩ := hs.vacate d.1
    obtain ⟨t, ht, hruns⟩ := ih hplain
    refine ⟨t, hv.trans ht, fun u => ?_⟩
    rw [← hruns]
    simp [RunsAll, Runs]

theorem moves_var {x : Bytes} {n : Nat} {source : Option Node} :
    Moves (.var x) n n ⟨source, .named x, .value, []⟩ where
  old _ := Ident.not_drawnIn_named
  runs {s} _ := ⟨s, rfl⟩
  fills {s t} _ h := by
    cases h
    exact Fills.refl n n _
  ready {s} hfits := by simp [RunsAll, hfits.ready_named, gives]

/-- Putting something into a temporary of one's own. -/
theorem moves_put {e : Expr} {n k : Nat} {tmp : Temp} {p : Payload} {source : Option Node}
    (hn : n ≤ k) (hgives : e.gives = []) :
    Moves e n (k + 1) ⟨source, .temp tmp k, .value, [.put (.temp tmp k) p]⟩ where
  old := Ident.not_drawnIn_temp (Nat.lt_succ_self k)
  runs _ := ⟨_, runsAll_singleton.mpr rfl⟩
  fills {s t} hfits h := by
    cases runsAll_singleton.mp h
    exact ((Fills.refl n (k + 1) s).point hn (Nat.lt_succ_self k) _).fill_temp hfits.toPlain tmp k
  ready {s} hfits := by
    rw [hgives]
    refine iff_of_true (fun t ht => ?_) fun y hy => absurd hy List.not_mem_nil
    cases runsAll_singleton.mp ht
    simp [Ready, Filling.point, Filling.fill]

/-- The code in front of the body of a `letrec` leaves all slots filled. -/
theorem MovesDefs.settle {defs : List (Bytes × Expr)} {body : Expr} {n m : Nat} {code : List Instr}
    (hd : MovesDefs defs n m code) (ha : (Expr.letrec defs body).BindersApart) {s : Filling}
    (hs : s.Fits (Expr.letrec defs body).Hoists) :
    ∃ t, Vacates (defs.map Prod.fst) s t ∧ t.Fits (HoistsAny (defs.map Prod.snd)) ∧
      (∀ u, RunsAll (defs.map fun d => .slot (.named d.1)) s u ↔ u = t) ∧
      ∀ u, RunsAll code t u → Fills n m [] s u := by
  obtain ⟨t, hv, hruns⟩ := runs_slots hs.toPlain defs
  have ht : t.Fits (HoistsAny (defs.map Prod.snd)) := by
    refine hv.fits (hs.mono fun _ => HoistsAny.of_defs) fun x hx hmem => ?_
    exact ha.hoistsApart.name_not_in_defs hmem hx
  -- The names were not empty before, so to empty and fill them leaves no trace.
  refine ⟨t, hv, ht, hruns, fun u hu => hv.refill (hd.fills ht hu) fun x hx => ?_⟩
  exact hs.free x (hoists_of_bound (fun h => h) hx)

/-- A tail call, perhaps behind code that uses only temporaries of its own. -/
theorem MovesList.call {es : List Expr} {n n' m : Nat} {fs : List Fragment}
    (hs : MovesList es (n + 1) n' fs) (hn : n + 1 ≤ m) (pre : List Instr)
    (hpre : ∀ s u, s.Plain → Fills (n + 1) n' [] s u →
      ∃ v, Fills (n + 1) m [] s v ∧ ∀ t, RunsAll pre u t ↔ t = v)
    {source : Option Node} {f : Bytes} {callee : Ident} {args : List Ident} :
    Moves (.app (.var f) es) n m ⟨source, .temp .ret n, .thunk,
      fs.flatMap Fragment.code ++ (pre ++ [.call (.temp .ret n) callee args])⟩ := by
  have hrun {s u : Filling} (hfits : s.Fits (Expr.app (.var f) es).Hoists)
      (hu : RunsAll (fs.flatMap Fragment.code) s u) : ∃ v, Fills n m [] s v ∧
        ∀ t, RunsAll (pre ++ [.call (.temp .ret n) callee args]) u t ↔
          t = v.point (.temp .ret n) (.temp .ret n) := by
    obtain ⟨v, hv, hpre⟩ := hpre s u hfits.toPlain (hs.fills (hfits.mono fun _ => HoistsAny.of_args) hu)
    refine ⟨v, hv.widen (Nat.le_succ n) (Nat.le_refl m), fun t => ?_⟩
    simp only [runsAll_append, hpre, exists_eq_left]
    exact runsAll_singleton
  refine ⟨Ident.not_drawnIn_temp hn, fun {s} hfits => ?_, fun {s t} hfits h => ?_, fun {s} hfits => ?_⟩
  · obtain ⟨u, hu⟩ := hs.runs (hfits.mono fun _ => HoistsAny.of_args)
    obtain ⟨v, _, hv⟩ := hrun hfits hu
    exact ⟨_, runsAll_append.mpr ⟨u, hu, (hv _).mpr rfl⟩⟩
  · obtain ⟨u, hu, ht⟩ := runsAll_append.mp h
    obtain ⟨v, hfill, hv⟩ := hrun hfits hu
    cases (hv t).mp ht
    exact hfill.point (Nat.le_refl n) hn _
  · refine iff_of_true (fun t h => ?_) fun y hy => absurd hy List.not_mem_nil
    obtain ⟨u, hu, ht⟩ := runsAll_append.mp h
    obtain ⟨v, hfill, hv⟩ := hrun hfits hu
    cases (hv t).mp ht
    exact (ready_point _ _ _).mpr ((hfill.same _).mpr (hfits.temp .ret n))

section

variable {test a b : Expr} {x : Bytes}

theorem hoists_test (h : test.Hoists x) : (Expr.cond test a b).Hoists x :=
  h.of_child (i := 0) (fun h => h) rfl

theorem hoists_then (h : a.Hoists x) : (Expr.cond test a b).Hoists x :=
  h.of_child (i := 1) (fun h => h) rfl

theorem hoists_else (h : b.Hoists x) : (Expr.cond test a b).Hoists x :=
  h.of_child (i := 2) (fun h => h) rfl

theorem hoists_body {defs : List (Bytes × Expr)} {body : Expr} (h : body.Hoists x) :
    (Expr.letrec defs body).Hoists x :=
  h.of_child (i := 0) (fun h => h) rfl

end

/-- The result of a conditional is that of either arm. -/
theorem Moves.cond {test a b : Expr} {n n₁ n₂ n₃ : Nat} {ft fa fb : Fragment}
    (ht : Moves test n n₁ ft) (ha : Moves a n₁ n₂ fa) (hb : Moves b n₂ n₃ fb) (hn : n ≤ n₁)
    (hn₁ : n₁ ≤ n₂) (hn₂ : n₂ ≤ n₃) {source : Option Node} {tmp : Temp} {kind : Kind} :
    Moves (.cond test a b) n (n₃ + 1) ⟨source, .temp tmp n₃, kind,
      ft.code ++ [.branch (.temp tmp n₃) kind ft.value fa.code fa.value fb.code fb.value]⟩ := by
  have htest {s u : Filling} (hfits : s.Fits (Expr.cond test a b).Hoists) (hu : RunsAll ft.code s u) :
      Fills n n₁ [] s u ∧ u.Fits a.Hoists ∧ u.Fits b.Hoists := by
    have hfill := ht.fills (hfits.mono fun _ => hoists_test) hu
    refine ⟨hfill, ?_, ?_⟩
    · exact (hfill.fits hfits).mono fun _ => hoists_then
    · exact (hfill.fits hfits).mono fun _ => hoists_else
  refine ⟨Ident.not_drawnIn_temp (Nat.lt_succ_self n₃), fun {s} hfits => ?_, fun {s} => ?_,
    fun {s} hfits => ?_⟩
  · obtain ⟨u, hu⟩ := ht.runs (hfits.mono fun _ => hoists_test)
    obtain ⟨v, hv⟩ := ha.runs (htest hfits hu).2.1
    exact ⟨_, runsAll_append.mpr ⟨u, hu, runsAll_singleton.mpr (Or.inl ⟨v, hv, rfl⟩)⟩⟩
  · intro t hfits
    revert t
    rw [forall_runsAll_append]
    intro u hu
    obtain ⟨hfill, hfitsA, hfitsB⟩ := htest hfits hu
    rw [forall_runs_branch]
    -- Either arm starts where the condition ended, and the other one draws its numbers for nothing.
    have harm {k k' : Nat} {v : Filling} (hv : Fills k k' [] u v) (hk : n₁ ≤ k) (hk' : k' ≤ n₃)
        (y : Ident) : Fills n (n₃ + 1) [] s (v.point (.temp tmp n₃) y) := by
      refine Fills.point ?_ (by omega) (Nat.lt_succ_self n₃) y
      exact hfill.trans (hv.widen hk (Nat.le_succ_of_le hk')) hn (by omega)
    constructor
    · intro v hv
      exact harm (ha.fills hfitsA hv) (Nat.le_refl n₁) hn₂ _
    · intro v hv
      exact harm (hb.fills hfitsB hv) hn₁ (Nat.le_refl n₃) _
  · rw [forall_runsAll_append]
    refine forall_run_iff (ht.runs (hfits.mono fun _ => hoists_test)) fun u hu => ?_
    obtain ⟨hfill, hfitsA, hfitsB⟩ := htest hfits hu
    simp only [forall_runs_branch, ready_point]
    show (∀ v, RunsAll fa.code u v → v.Ready fa.value) ∧ (∀ v, RunsAll fb.code u v → v.Ready fb.value) ↔
      ∀ y ∈ a.gives ++ b.gives, s.filled (.named y)
    rw [ha.ready hfitsA, hb.ready hfitsB, List.forall_mem_append]
    simp only [hfill.same]

/-- The result of a `letrec` is that of its body, which finds all slots filled. -/
theorem MovesDefs.letrec {defs : List (Bytes × Expr)} {body : Expr} {n m n' : Nat} {code : List Instr}
    {b : Fragment} (hd : MovesDefs defs n m code) (hb : Moves body m n' b)
    (ha : (Expr.letrec defs body).BindersApart) (hn : n ≤ m) (hm : m ≤ n') {source : Option Node}
    {kind : Kind} :
    Moves (.letrec defs body) n n' ⟨source, b.value, kind,
      defs.map (fun d => .slot (.named d.1)) ++ code ++ b.code⟩ := by
  refine ⟨hb.old, fun {s} hfits => ?_, fun {s} => ?_, fun {s} hfits => ?_⟩
  · obtain ⟨t, _, ht, hslots, hfill⟩ := hd.settle ha hfits
    obtain ⟨u, hu⟩ := hd.runs ht
    obtain ⟨v, hv⟩ := hb.runs (((hfill u hu).fits hfits).mono fun _ => hoists_body)
    refine ⟨v, runsAll_append.mpr ⟨u, runsAll_append.mpr ⟨t, (hslots t).mpr rfl, hu⟩, hv⟩⟩
  · intro t hfits
    revert t
    obtain ⟨t, _, ht, hslots, hfill⟩ := hd.settle ha hfits
    simp only [forall_runsAll_append, hslots, forall_eq]
    intro u hu v hv
    exact (hfill u hu).trans (hb.fills (((hfill u hu).fits hfits).mono fun _ => hoists_body) hv) hn hm
  · obtain ⟨t, _, ht, hslots, hfill⟩ := hd.settle ha hfits
    simp only [forall_runsAll_append, hslots, forall_eq]
    refine forall_run_iff (hd.runs ht) fun u hu => ?_
    rw [hb.ready (((hfill u hu).fits hfits).mono fun _ => hoists_body)]
    simp only [(hfill u hu).same]
    exact Iff.rfl

/-! ## What the code of a tree looks into -/

/-- Class by class, on no path an operation looks into an empty slot. -/
def ClassesReadFilled (C : List ClassEntry) : Prop :=
  ∀ c ∈ C, ∀ clo, c.closure = some clo → ReadsFilledAll clo.body.code .full

theorem classesReadFilled_nil : ClassesReadFilled [] := fun _ hc => absurd hc List.not_mem_nil

theorem classesReadFilled_append {C D : List ClassEntry} :
    ClassesReadFilled (C ++ D) ↔ ClassesReadFilled C ∧ ClassesReadFilled D :=
  List.forall_mem_append

theorem classesReadFilled_cons {node : Node} {name : Bytes} {clo : Closure} {C : List ClassEntry} :
    ClassesReadFilled (⟨node, name, some clo⟩ :: C) ↔
      ReadsFilledAll clo.body.code .full ∧ ClassesReadFilled C :=
  forall_class_cons (P := fun clo => ReadsFilledAll clo.body.code .full)

/-- Code from a filling, and classes on their own, look into no empty slot. -/
def ReadsFilledIn (code : List Instr) (C : List ClassEntry) (s : Filling) : Prop :=
  ReadsFilledAll code s ∧ ClassesReadFilled C

/-- Code and its classes read filled slots part by part. -/
theorem readsFilledIn_append {a b : List Instr} {C D : List ClassEntry} {s : Filling}
    (hrun : ∃ t, RunsAll a s t) :
    ReadsFilledIn (a ++ b) (C ++ D) s ↔
      ReadsFilledIn a C s ∧ ∀ t, RunsAll a s t → ReadsFilledIn b D t := by
  have hD : (∀ t, RunsAll a s t → ClassesReadFilled D) ↔ ClassesReadFilled D :=
    forall_run_iff hrun fun _ _ => Iff.rfl
  unfold ReadsFilledIn
  rw [readsFilledAll_append, classesReadFilled_append, forall₂_and, hD]
  exact and_and_and_comm

/-- Code in front of more code that enters no classes. -/
theorem readsFilledIn_code {a b : List Instr} {C : List ClassEntry} {s : Filling} :
    ReadsFilledIn (a ++ b) C s ↔
      ReadsFilledIn a C s ∧ ∀ t, RunsAll a s t → ReadsFilledAll b t := by
  unfold ReadsFilledIn
  rw [readsFilledAll_append]
  exact and_right_comm

/-- A conditional reads its condition, and then each arm on its own. -/
theorem readsFilledIn_branch {dst test av bv : Ident} {kind : Kind} {a b : List Instr}
    {C D : List ClassEntry} {s : Filling} :
    ReadsFilledIn [.branch dst kind test a av b bv] (C ++ D) s ↔
      s.Ready test ∧ ReadsFilledIn a C s ∧ ReadsFilledIn b D s := by
  unfold ReadsFilledIn
  rw [readsFilledAll_singleton, classesReadFilled_append, ReadsFilled, and_assoc, and_and_and_comm]

theorem readsFilledAll_slots (defs : List (Bytes × Expr)) (s : Filling) :
    ReadsFilledAll (defs.map fun d => .slot (.named d.1)) s := by
  induction defs generalizing s with
  | nil => trivial
  | cons d ds ih => exact ⟨trivial, fun t _ => ih t⟩

theorem readsFilledIn_slots {defs : List (Bytes × Expr)} {code : List Instr} {C : List ClassEntry}
    {s t : Filling} (h : ∀ u, RunsAll (defs.map fun d => .slot (.named d.1)) s u ↔ u = t) :
    ReadsFilledIn (defs.map (fun d => .slot (.named d.1)) ++ code) C s ↔ ReadsFilledIn code C t := by
  unfold ReadsFilledIn
  rw [readsFilledAll_append, and_iff_right (readsFilledAll_slots defs s)]
  simp only [h, forall_eq]

/-- Moreover, the code and the classes of a tree look into no empty slot exactly if all names that the
tree needs are filled and all of its definitions are in order. -/
structure Tracks (e : Expr) (n n' : Nat) (f : Fragment) (C : List ClassEntry) : Prop
    extends Moves e n n' f where
  reads : ∀ {s : Filling}, s.Fits e.Hoists →
    (ReadsFilledIn f.code C s ↔ (∀ y ∈ e.needs, s.filled (.named y)) ∧ e.FillsInOrder)

structure TracksList (es : List Expr) (n n' : Nat) (fs : List Fragment) (C : List ClassEntry) : Prop
    extends MovesList es n n' fs where
  reads : ∀ {s : Filling}, s.Fits (HoistsAny es) →
    (ReadsFilledIn (fs.flatMap Fragment.code) C s ↔
      (∀ y ∈ needsList es, s.filled (.named y)) ∧ ∀ e ∈ es, e.FillsInOrder)

/-- The same for definitions whose slots are empty. -/
structure TracksDefs (ds : List (Bytes × Expr)) (n n' : Nat) (code : List Instr)
    (C : List ClassEntry) : Prop extends MovesDefs ds n n' code where
  reads : ∀ {s : Filling}, s.Fits (HoistsAny (ds.map Prod.snd)) → (ds.map Prod.fst).Nodup →
    (∀ x ∈ ds.map Prod.fst, ¬ s.filled (.named x)) →
      (ReadsFilledIn code C s ↔
        (∀ y ∈ needsDefs ds, y ∉ ds.map Prod.fst → s.filled (.named y)) ∧
          InOrder ds ∧ ∀ d ∈ ds, d.2.FillsInOrder)

theorem tracksList_nil {n : Nat} : TracksList [] n n [] [] where
  toMovesList := movesList_nil
  reads _ := by simp [ReadsFilledIn, ReadsFilledAll, needsList, classesReadFilled_nil]

theorem Tracks.cons {e : Expr} {es : List Expr} {n m n' : Nat} {f : Fragment} {fs : List Fragment}
    {C D : List ClassEntry} (he : Tracks e n m f C) (hs : TracksList es m n' fs D) (hn : n ≤ m)
    (hm : m ≤ n') : TracksList (e :: es) n n' (f :: fs) (C ++ D) where
  toMovesList := he.toMoves.cons hs.toMovesList hn hm
  reads {s} hfits := by
    have hhead : s.Fits e.Hoists := hfits.mono fun _ => hoistsAny_head
    have hrest : (∀ t, RunsAll f.code s t → ReadsFilledIn (fs.flatMap Fragment.code) D t) ↔
        (∀ y ∈ needsList es, s.filled (.named y)) ∧ ∀ a ∈ es, a.FillsInOrder := by
      refine forall_run_iff (he.runs hhead) fun t ht => ?_
      have hfill := he.fills hhead ht
      rw [hs.reads (hfill.fits (hfits.mono fun _ => hoistsAny_tail))]
      simp only [hfill.same]
    rw [List.flatMap_cons, readsFilledIn_append (he.runs hhead), he.reads hhead, hrest, needsList,
      List.forall_mem_append, List.forall_mem_cons]
    exact and_and_and_comm

theorem tracksDefs_nil {n : Nat} : TracksDefs [] n n [] [] where
  toMovesDefs := movesDefs_nil
  reads _ _ _ := by simp [ReadsFilledIn, ReadsFilledAll, needsDefs, InOrder, classesReadFilled_nil]

/-- The next definition: whatever it needs must be filled, so no name may be among it that is defined
with it or behind it. -/
theorem filled_cons_iff (F : Bytes → Prop) {x : Bytes} {xs : List Bytes} (ys zs : List Bytes)
    (hempty : ∀ y ∈ x :: xs, ¬ F y) :
    ((∀ y ∈ ys, F y) ∧ ∀ y ∈ zs, y ∉ xs → y = x ∨ F y) ↔
      (∀ y ∈ ys ++ zs, y ∉ x :: xs → F y) ∧ ∀ y ∈ ys, y ∉ x :: xs := by
  constructor
  · rintro ⟨hys, hzs⟩
    refine ⟨fun y hy hnot => ?_, fun y hy hmem => hempty y hmem (hys y hy)⟩
    rw [List.mem_cons, not_or] at hnot
    rcases List.mem_append.mp hy with hy | hy
    · exact hys y hy
    · exact (hzs y hy hnot.2).resolve_left hnot.1
  · rintro ⟨hall, hys⟩
    refine ⟨fun y hy => hall y (List.mem_append_left zs hy) (hys y hy), fun y hy hnot => ?_⟩
    by_cases heq : y = x
    · exact Or.inl heq
    · refine Or.inr (hall y (List.mem_append_right ys hy) ?_)
      rw [List.mem_cons, not_or]
      exact ⟨heq, hnot⟩

/-- A copy dereferences its source. -/
theorem readsFilledIn_copy {x src : Ident} {code : List Instr} {C : List ClassEntry} {s : Filling} :
    ReadsFilledIn (.copy x src :: code) C s ↔
      s.Ready src ∧ ReadsFilledIn code C (s.fill (s.refers x)) := by
  simp only [ReadsFilledIn, ReadsFilledAll, ReadsFilled, Runs, forall_eq]
  exact and_assoc

/-- Bindings are tracked as the value of the first, the copy into its slot, and then the rest. -/
theorem Tracks.define {x : Bytes} {e : Expr} {ds : List (Bytes × Expr)} {n m n' : Nat} {v : Fragment}
    {code : List Instr} {C D : List ClassEntry} (he : Tracks e n m v C)
    (hs : TracksDefs ds m n' code D) (hn : n ≤ m) (hm : m ≤ n') :
    TracksDefs ((x, e) :: ds) n n' (v.code ++ [.copy (.named x) v.value] ++ code) (C ++ D) where
  toMovesDefs := he.toMoves.define hs.toMovesDefs hn hm
  reads {s} hfits hnodup hempty := by
    have hhead : s.Fits e.Hoists := hfits.mono fun _ => hoistsAny_head
    obtain ⟨hx, hnodup⟩ := List.nodup_cons.mp hnodup
    have hrest : (∀ t, RunsAll v.code s t → ReadsFilledIn code D (t.fill (t.refers (.named x)))) ↔
        (∀ y ∈ needsDefs ds, y ∉ ds.map Prod.fst → y = x ∨ s.filled (.named y)) ∧
          InOrder ds ∧ ∀ d ∈ ds, d.2.FillsInOrder := by
      refine forall_run_iff (he.runs hhead) fun t ht => ?_
      have hfill := (he.fills hhead ht).copy hfits.toPlain x
      have hfilled (y : Bytes) : (t.fill (t.refers (.named x))).filled (.named y) ↔
          y = x ∨ s.filled (.named y) := by
        simp [hfill.filled]
      rw [hs.reads (hfill.fits (hfits.mono fun _ => hoistsAny_tail)) hnodup]
      · simp only [hfilled]
      · intro y hy hfy
        rcases (hfilled y).mp hfy with rfl | hfy
        · exact hx hy
        · exact hempty y (List.mem_cons_of_mem x hy) hfy
    rw [List.append_assoc, readsFilledIn_append (he.runs hhead), he.reads hhead]
    simp only [List.singleton_append, readsFilledIn_copy, forall₂_and, hrest, he.ready hhead]
    have hnext := filled_cons_iff (fun y => s.filled (.named y)) (e.gives ++ e.needs) (needsDefs ds)
      hempty
    rw [List.forall_mem_append] at hnext
    rw [List.forall_mem_cons]
    constructor
    · rintro ⟨⟨hneeds, hown⟩, hgives, hlater, horder, hdefs⟩
      obtain ⟨hfilled, hapart⟩ := hnext.mp ⟨⟨hgives, hneeds⟩, hlater⟩
      exact ⟨hfilled, ⟨hapart, horder⟩, hown, hdefs⟩
    · rintro ⟨hfilled, ⟨hapart, horder⟩, hown, hdefs⟩
      obtain ⟨⟨hgives, hneeds⟩, hlater⟩ := hnext.mpr ⟨hfilled, hapart⟩
      exact ⟨⟨hneeds, hown⟩, hgives, hlater, horder, hdefs⟩

/-- Something that looks into no slot is put into a temporary. -/
theorem readsFilledIn_put {dst : Ident} {p : Payload} {C : List ClassEntry} {s : Filling}
    (hp : derefs (.put dst p) = []) : ReadsFilledIn [.put dst p] C s ↔ ClassesReadFilled C := by
  refine and_iff_right (readsFilledAll_singleton.mpr ?_)
  intro x hx
  rw [hp] at hx
  exact absurd hx List.not_mem_nil

theorem constant_derefs {l : Literal} {t : Temp} {p : Payload} (h : constant l = some (t, p))
    (dst : Ident) : derefs (.put dst p) = [] := by
  cases l with
  | unspecified => cases h
  | _ =>
    cases h
    rfl

/-- A call looks into the slot of its callee. -/
theorem TracksList.reads_call {es : List Expr} {n n' : Nat} {fs : List Fragment} {C : List ClassEntry}
    (hs : TracksList es n n' fs C) {dst : Ident} {f : Bytes} {args : List Ident}
    (hf : Primitive.isName f = false) {s : Filling} (hfits : s.Fits (Expr.app (.var f) es).Hoists) :
    ReadsFilledIn (fs.flatMap Fragment.code ++ [.call dst (.named f) args]) C s ↔
      (∀ y ∈ (Expr.app (.var f) es).needs, s.filled (.named y)) ∧
        (Expr.app (.var f) es).FillsInOrder := by
  have hargs : s.Fits (HoistsAny es) := hfits.mono fun _ => HoistsAny.of_args
  have hcallee : (∀ t, RunsAll (fs.flatMap Fragment.code) s t →
      ReadsFilledAll [.call dst (.named f) args] t) ↔ s.filled (.named f) := by
    refine forall_run_iff (hs.runs hargs) fun t ht => ?_
    have hfill := hs.fills hargs ht
    rw [readsFilledAll_singleton, ← hfill.same, ← (hfill.fits hargs).ready_named]
    exact Iff.rfl
  rw [readsFilledIn_code, hs.reads hargs, hcallee, fillsInOrder_call]
  simp only [needs, hf, Bool.false_eq_true, if_false, List.forall_mem_append, List.forall_mem_singleton]
  exact and_right_comm.trans (and_congr_left fun _ => and_comm)

/-- An operator looks into the slots of its operands and of its continuation. -/
theorem TracksList.reads_operate {es : List Expr} {n n' : Nat} {fs : List Fragment} {k : Fragment}
    {C : List ClassEntry} (hs : TracksList es n n' (fs ++ [k]) C) {dst : Ident} {f : Bytes}
    {prim : PrimCall} {args : List Ident} (hf : Primitive.isName f = true)
    (hp : PrimCall.ofName? f (fs.map Fragment.value) = some prim) {s : Filling}
    (hfits : s.Fits (Expr.app (.var f) es).Hoists) :
    ReadsFilledIn ((fs ++ [k]).flatMap Fragment.code ++
        [.put (.temp .primitive n') (.primitive prim), .call dst k.value args]) C s ↔
      (∀ y ∈ (Expr.app (.var f) es).needs, s.filled (.named y)) ∧
        (Expr.app (.var f) es).FillsInOrder := by
  have hargs : s.Fits (HoistsAny es) := hfits.mono fun _ => HoistsAny.of_args
  have hoperands : (∀ t, RunsAll ((fs ++ [k]).flatMap Fragment.code) s t →
      ReadsFilledAll [.put (.temp .primitive n') (.primitive prim), .call dst k.value args] t) ↔
        ∀ y ∈ es.flatMap gives, s.filled (.named y) := by
    rw [← hs.ready hargs]
    refine forall₂_congr fun t ht => ?_
    -- The result of the operator is a new temporary, so the continuation is what it was.
    have hput : Fills n' (n' + 1) [] t ((t.point (.temp .primitive n') (.temp .primitive n')).fill _) :=
      ((Fills.refl n' (n' + 1) t).point (Nat.le_refl n') (Nat.lt_succ_self n') _).fill_temp
        ((hs.fills hargs ht).fits hargs).toPlain .primitive n'
    have hk : ∀ l, ¬ k.value.DrawnIn n' l :=
      hs.old k.value (List.mem_map_of_mem (List.mem_append_right fs (List.mem_singleton_self k)))
    rw [List.map_append, List.forall_mem_append, List.map_singleton, List.forall_mem_singleton,
      ← operands_of_ofName? hp, ← hput.ready (hk _)]
    simp only [ReadsFilledAll, ReadsFilled, Runs, forall_eq, derefs, implies_true, and_true]
  rw [readsFilledIn_code, hs.reads hargs, hoperands, fillsInOrder_call]
  simp only [needs, hf, if_true, List.forall_mem_append]
  exact and_right_comm.trans (and_congr_left fun _ => and_comm)

/-- A conditional looks into the slot of its condition, and then it is either arm. -/
theorem Tracks.reads_cond {test a b : Expr} {n n₁ n₂ n₃ : Nat} {ft fa fb : Fragment}
    {Ct Ca Cb : List ClassEntry} (ht : Tracks test n n₁ ft Ct) (ha : Tracks a n₁ n₂ fa Ca)
    (hb : Tracks b n₂ n₃ fb Cb) {dst : Ident} {kind : Kind} {s : Filling}
    (hfits : s.Fits (Expr.cond test a b).Hoists) :
    ReadsFilledIn (ft.code ++ [.branch dst kind ft.value fa.code fa.value fb.code fb.value])
        (Ct ++ Ca ++ Cb) s ↔
      (∀ y ∈ (Expr.cond test a b).needs, s.filled (.named y)) ∧
        (Expr.cond test a b).FillsInOrder := by
  have htest : s.Fits test.Hoists := hfits.mono fun _ => hoists_test
  have harms : (∀ t, RunsAll ft.code s t → ReadsFilledIn fa.code Ca t ∧ ReadsFilledIn fb.code Cb t) ↔
      ((∀ y ∈ a.needs, s.filled (.named y)) ∧ a.FillsInOrder) ∧
        (∀ y ∈ b.needs, s.filled (.named y)) ∧ b.FillsInOrder := by
    refine forall_run_iff (ht.runs htest) fun t h => ?_
    have hfill := ht.fills htest h
    rw [ha.reads ((hfill.fits hfits).mono fun _ => hoists_then),
      hb.reads ((hfill.fits hfits).mono fun _ => hoists_else)]
    simp only [hfill.same]
  rw [List.append_assoc, readsFilledIn_append (ht.runs htest), ht.reads htest, fillsInOrder_cond]
  simp only [readsFilledIn_branch, needs, List.forall_mem_append]
  rw [forall₂_and, harms, ht.ready htest]
  constructor
  · rintro ⟨⟨htn, hto⟩, htg, ⟨han, hao⟩, hbn, hbo⟩
    exact ⟨⟨⟨htg, htn⟩, han, hbn⟩, hto, hao, hbo⟩
  · rintro ⟨⟨⟨htg, htn⟩, han, hbn⟩, hto, hao, hbo⟩
    exact ⟨⟨htn, hto⟩, htg, ⟨han, hao⟩, hbn, hbo⟩

/-- The definitions of a `letrec` find its slots empty, and its body finds them filled. -/
theorem TracksDefs.reads_letrec {defs : List (Bytes × Expr)} {body : Expr} {n m n' : Nat}
    {code : List Instr} {b : Fragment} {Cd Cb : List ClassEntry} (hd : TracksDefs defs n m code Cd)
    (hb : Tracks body m n' b Cb) (ha : (Expr.letrec defs body).BindersApart) {s : Filling}
    (hfits : s.Fits (Expr.letrec defs body).Hoists) :
    ReadsFilledIn (defs.map (fun d => .slot (.named d.1)) ++ code ++ b.code) (Cd ++ Cb) s ↔
      (∀ y ∈ (Expr.letrec defs body).needs, s.filled (.named y)) ∧
        (Expr.letrec defs body).FillsInOrder := by
  obtain ⟨t, hv, ht, hslots, hfill⟩ := hd.settle ha hfits
  obtain ⟨u, hu⟩ := hd.runs ht
  -- Outside of the names of the `letrec`, what is empty for its definitions was empty before.
  have hfilled (y : Bytes) : (y ∉ defs.map Prod.fst → t.filled (.named y)) ↔ s.filled (.named y) := by
    rw [hv.filled]
    constructor
    · intro h
      by_cases hy : y ∈ defs.map Prod.fst
      · exact hfits.free y (hoists_of_bound (fun h => h) hy)
      · exact (h hy).2
    · intro h hy
      exact ⟨by simpa using hy, h⟩
  have hempty : ∀ x ∈ defs.map Prod.fst, ¬ t.filled (.named x) := by
    intro x hx hfx
    exact ((hv.filled _).mp hfx).1 (List.mem_map_of_mem hx)
  have hbody : (∀ u, RunsAll code t u → ReadsFilledIn b.code Cb u) ↔
      (∀ y ∈ body.needs, s.filled (.named y)) ∧ body.FillsInOrder := by
    refine forall_run_iff (hd.runs ht) fun u hu => ?_
    rw [hb.reads (((hfill u hu).fits hfits).mono fun _ => hoists_body)]
    simp only [(hfill u hu).same]
  rw [readsFilledIn_append ⟨u, runsAll_append.mpr ⟨t, (hslots t).mpr rfl, hu⟩⟩,
    readsFilledIn_slots hslots, hd.reads ht ha.nodup hempty, fillsInOrder_letrec]
  simp only [forall_runsAll_append, hslots, forall_eq, hbody, hfilled, needs, List.forall_mem_append]
  constructor
  · rintro ⟨⟨hdn, horder, hdo⟩, hbn, hbo⟩
    exact ⟨⟨hdn, hbn⟩, horder, hdo, hbo⟩
  · rintro ⟨⟨hdn, hbn⟩, horder, hdo, hbo⟩
    exact ⟨⟨hdn, horder, hdo⟩, hbn, hbo⟩

/-- The code of a list tracks what its members need. -/
theorem LowersList.tracks {node : Node} {i : Nat} {es : List Expr}
    (ih : ∀ e ∈ es, ∀ {node n f n' C A}, Lowers cs node e n f n' C A → Tracks e n n' f C)
    {n n' : Nat} {fs : List Fragment} {C : List ClassEntry} {A : List Nat}
    (h : LowersList cs node i es n fs n' C A) : TracksList es n n' fs C := by
  induction es generalizing i n fs C A with
  | nil =>
    cases h
    exact tracksList_nil
  | cons e es ihs =>
    cases h with
    | cons he hs =>
      obtain ⟨ihe, ihes⟩ := List.forall_mem_cons.mp ih
      exact (ihe he).cons (ihs ihes hs) he.le hs.le

/-- The code of bindings tracks what their values need. -/
theorem LowersDefs.tracks {node : Node} {i : Nat} {ds : List (Bytes × Expr)}
    (ih : ∀ d ∈ ds, ∀ {node n f n' C A}, Lowers cs node d.2 n f n' C A → Tracks d.2 n n' f C)
    {n n' : Nat} {code : List Instr} {C : List ClassEntry} {A : List Nat}
    (h : LowersDefs cs node i ds n code n' C A) : TracksDefs ds n n' code C := by
  induction ds generalizing i n code C A with
  | nil =>
    cases h
    exact tracksDefs_nil
  | cons d ds ihs =>
    cases h with
    | cons hx he hk hs =>
      obtain ⟨ihe, ihes⟩ := List.forall_mem_cons.mp ih
      exact (ihe he).define (ihs ihes hs) he.le hs.le

/-- The code of a tree runs as the tree tells. -/
theorem Lowers.tracks {node : Node} {e : Expr} {n n' : Nat} {f : Fragment} {C : List ClassEntry}
    {A : List Nat} (h : Lowers cs node e n f n' C A) (he : e.OnlyHalts) (ha : e.BindersApart) :
    Tracks e n n' f C := by
  induction e using Expr.induction generalizing node n f n' C A with
  | var x =>
    cases h
    refine ⟨moves_var, fun {s} hs => ?_⟩
    refine iff_of_true ⟨trivial, classesReadFilled_nil⟩ ⟨fun y hy => ?_, fillsInOrder_var x⟩
    exact absurd hy List.not_mem_nil
  | literal l =>
    cases h with
    | literal hl =>
      refine ⟨moves_put (Nat.le_refl _) rfl, fun {s} hs => ?_⟩
      rw [readsFilledIn_put (constant_derefs hl _)]
      refine iff_of_true classesReadFilled_nil ⟨fun y hy => ?_, fillsInOrder_literal l⟩
      exact absurd hy List.not_mem_nil
  | lambda name params body ih =>
    cases h with
    | lambda hc hb hk =>
      refine ⟨moves_put hb.le rfl, fun {s} hs => ?_⟩
      rw [readsFilledIn_put rfl, classesReadFilled_cons, fillsInOrder_lambda]
      rcases he.body with hbody | ⟨p, rfl, rfl⟩
      · -- The body runs on its own, when all slots are filled.
        have hreads := (ih hb hbody (ha.child (i := 0) rfl)).reads fits_full
        refine hreads.trans (and_congr_left fun _ => ?_)
        exact iff_of_true (fun _ _ => trivial) fun y hy => absurd hy List.not_mem_nil
      · obtain ⟨rfl, rfl⟩ := lowers_native hb
        refine iff_of_true ⟨⟨trivial, fun t ht => ht.elim⟩, classesReadFilled_nil⟩ ⟨fun y hy => ?_, ?_⟩
        · exact absurd hy List.not_mem_nil
        · exact fillsInOrder_native _ _
  | app callee args _ ihs =>
    have ihargs : ∀ a ∈ args, ∀ {node n f n' C A}, Lowers cs node a n f n' C A → Tracks a n n' f C :=
      fun a hmem _ _ _ _ _ _ h => ihs a hmem h (he.args a hmem) (ha.args.each a hmem)
    cases h with
    | call hf hs =>
      have hargs := hs.tracks ihargs
      refine ⟨hargs.toMovesList.call hs.le [] ?_, hargs.reads_call hf⟩
      exact fun s u _ hu => ⟨u, hu, fun t => Iff.rfl⟩
    | operate hf hs hp =>
      have hargs := hs.tracks ihargs
      have hle := hs.le
      refine ⟨hargs.toMovesList.call (Nat.le_succ_of_le hle) [_] ?_, hargs.reads_operate hf hp⟩
      intro s u hplain hu
      refine ⟨_, ?_, fun t => runsAll_singleton⟩
      exact ((hu.widen (Nat.le_refl _) (Nat.le_succ _)).point hle (Nat.lt_succ_self _) _).fill_temp
        hplain _ _
  | cond test a b iht iha ihb =>
    cases he with
    | cond hht hha hhb =>
      cases h with
      | cond ht hA hB hk =>
        have htest := iht ht hht (ha.child (i := 0) rfl)
        have hthen := iha hA hha (ha.child (i := 1) rfl)
        have helse := ihb hB hhb (ha.child (i := 2) rfl)
        exact ⟨htest.toMoves.cond hthen.toMoves helse.toMoves ht.le hA.le hB.le,
          htest.reads_cond hthen helse⟩
  | letrec defs body ihs ihb =>
    cases he with
    | letrec hhd hhb =>
      cases h with
      | letrec hd hb =>
        have hdefs := hd.tracks fun d hmem _ _ _ _ _ _ h =>
          ihs d hmem h (hhd d hmem) (ha.defs.each d.2 (List.mem_map_of_mem hmem))
        have hbody := ihb hb hhb (ha.child (i := 0) rfl)
        exact ⟨hdefs.toMovesDefs.letrec hbody.toMoves ha hd.le hb.le, hdefs.reads_letrec hbody ha⟩
  | native uses code => exact absurd he not_onlyHalts_native
  | seq exprs _ => cases h
  | assign x value _ => cases h
  | assignThen x value next _ _ => cases h

/-- Behind emitted code all slots are filled. -/
theorem Lowers.leavesFilled {node : Node} {e : Expr} {n n' : Nat} {f : Fragment}
    {C : List ClassEntry} {A : List Nat} (h : Lowers cs node e n f n' C A) (he : e.OnlyHalts)
    (ha : e.BindersApart) : LeavesFilled f.code := by
  intro t ht x
  have hfill := (h.tracks he ha).fills fits_full ht
  exact (hfill.same x).mpr trivial

/-- So they are behind the code of a class. -/
theorem ClassOf.leavesFilled {node : Node} {e : Expr} {c : ClassEntry} {clo : Closure}
    (h : ClassOf cs node e c) (he : e.OnlyHalts) (ha : e.BindersApart)
    (hclo : c.closure = some clo) : LeavesFilled clo.body.code := by
  obtain ⟨path, body, clo', hr, _, hclo', _, hbody⟩ := h.body he
  cases hclo.symm.trans hclo'
  rcases hbody with ⟨hbody, n, n', C, A, hL⟩ | ⟨p, _, hhalt⟩
  · exact hL.leavesFilled hbody ((ha.reach hr).child (i := 0) rfl)
  · rw [hhalt]
    rintro t ⟨u, hu, _⟩
    exact hu.elim

end Lowering

/-! ## The result -/

open Instr in
/-- **Slots are filled before they are read, in order.** In the code of a tree and in the code of all
of its classes, on no path an operation looks into a slot that is not filled yet, exactly if all
definitions of the tree are in order. Lowering does not ask for this: it succeeds on trees that do not
have the property. In any case all slots are filled when the code has run, which is how the classes find
them. -/
theorem readsFilled_iff_fillsInOrder {e : Expr} {next : Nat} {f : Fragment} {s : Lowering.State}
    (he : e.OnlyHalts) (ha : e.BindersApart) (h : Build.lower e next = .ok f s) :
    ((ReadsFilledAll f.code .full ∧ ∀ c ∈ s.table.entries, ∀ clo, c.closure = some clo →
      ReadsFilledAll clo.body.code .full) ↔ e.FillsInOrder) ∧
    LeavesFilled f.code ∧ ∀ c ∈ s.table.entries, ∀ clo, c.closure = some clo →
      LeavesFilled clo.body.code := by
  obtain ⟨A, hL, _⟩ := Build.lower_ok h
  refine ⟨?_, hL.leavesFilled he ha, fun c hc clo hclo => (hL.classOf c hc).leavesFilled he ha hclo⟩
  refine ((hL.tracks he ha).reads Filling.fits_full).trans (and_iff_right ?_)
  exact fun _ _ => trivial

/-- A definition that is a conditional, one of whose branches is the name that is defined next. -/
def earlyCopy : Expr :=
  .letrec [([107], .halt [100] [104]),
      ([97], .cond (.literal (.integer 1)) (.var [98]) (.literal (.integer 2))),
      ([98], .literal (.integer 3))]
    (.app (.var [107]) [.var [97]])

open Instr in
/-- The slot is copied while it is empty, but the tree is not refused. -/
theorem earlyCopy_not_readsFilled :
    (earlyCopy.OnlyHalts ∧ earlyCopy.BindersApart) ∧ ∃ p s, Build.lower earlyCopy 0 = .ok p.root s ∧
      p.table = s.table ∧
      ¬ (ReadsFilledAll p.root.code .full ∧ ∀ c ∈ s.table.entries, ∀ clo, c.closure = some clo →
        ReadsFilledAll clo.body.code .full) ∧
      observe (Emitted.run p (1, 1) (fun _ => none) 1) = .ended (.printed (ascii "0\n")) := by
  have hcond : (Expr.cond (.literal (.integer 1)) (.var [98]) (.literal (.integer 2))).OnlyHalts :=
    .cond (.literal _) (.var _) (.literal _)
  have he : earlyCopy.OnlyHalts := by
    refine .letrec ?_ (.app (.var _) ?_)
    · simp [Expr.OnlyHalts.halt, Expr.OnlyHalts.literal, hcond]
    · simp [Expr.OnlyHalts.var]
  have ha : earlyCopy.BindersApart := by decide +kernel
  have horder : ¬ earlyCopy.FillsInOrder := by decide +kernel
  have hprints : ((Build.program earlyCopy 0).1.toOption.map fun p =>
      observe (Emitted.run p (1, 1) (fun _ => none) 1)) =
        some (.ended (.printed (ascii "0\n"))) := by decide +kernel
  obtain ⟨p, next', hp, hprints⟩ := Build.exists_ok hprints
  obtain ⟨s, h, htable, _⟩ := Build.program_ok hp
  refine ⟨⟨he, ha⟩, p, s, h, htable, ?_, hprints⟩
  rwa [(readsFilled_iff_fillsInOrder he ha h).1]

end Trampoline

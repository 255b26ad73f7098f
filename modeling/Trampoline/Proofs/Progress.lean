import Trampoline.Proofs.Classes
import Trampoline.Proofs.Sessions

/-!
# Trampoline.Proofs.Progress -- what no step undoes

A step of lowering may stop anywhere, and a session may do any steps in any order. Wherever they end, the count of
fresh names has not gone back and the arities are still in order. In a session, what is known about captures stays
known as well. One lemma about doing one step after another carries this through the recursion of lowering.
-/

namespace Trampoline

/-! ## Lowering -/

namespace Lowering

/-- The count does not go back, and arities that are in order stay in order. -/
structure State.Precedes (s s' : State) : Prop where
  next : s.next ≤ s'.next
  ordered : s.table.Ordered → s'.table.Ordered

theorem State.precedes_refl (s : State) : s.Precedes s := ⟨Nat.le_refl _, id⟩

theorem State.Precedes.trans {s s' s'' : State} (h : s.Precedes s') (h' : s'.Precedes s'') : s.Precedes s'' :=
  ⟨h.next.trans h'.next, fun hs => h'.ordered (h.ordered hs)⟩

theorem State.precedes_addArity (s : State) (k : Nat) : s.Precedes { s with table := s.table.addArity k } :=
  ⟨Nat.le_refl _, fun hs => Ascending.strict_insert ClassTable.natOrder k hs⟩

/-- A step goes on like this wherever it ends, whether it succeeds or fails. -/
def Advances {α : Type} (x : Step α) : Prop := ∀ s : State, s.Precedes (after (x s))

section

variable {α β : Type}

theorem advances_pure (a : α) : Advances (pure a) := State.precedes_refl

theorem advances_unsupported (what : Unsupported) : Advances (unsupported (α := α) what) := State.precedes_refl

/-- A step and what comes behind it only go forward if both do. -/
theorem precedes_bind {x : Step α} {f : α → Step β} {s : State} (hx : s.Precedes (after (x s)))
    (hf : ∀ a s', x s = .ok a s' → s'.Precedes (after (f a s'))) : s.Precedes (after ((x >>= f) s)) := by
  show s.Precedes (after (EStateM.bind x f s))
  unfold EStateM.bind
  cases hrun : x s with
  | ok a s' =>
    rw [hrun] at hx
    exact hx.trans (hf a s' hrun)
  | error err s' =>
    rw [hrun] at hx
    exact hx

theorem Advances.bind {x : Step α} {f : α → Step β} (hx : Advances x) (hf : ∀ a, Advances (f a)) :
    Advances (x >>= f) :=
  fun s => precedes_bind (hx s) fun a s' _ => hf a s'

theorem advances_draw (t : Temp) : Advances (draw t) := fun s => ⟨Nat.le_succ s.next, id⟩

theorem advances_addArity (k : Nat) : Advances (Lowering.addArity k) := fun s => s.precedes_addArity k

theorem advances_put (source : Option Node) (t : Temp) (p : Payload) : Advances (put source t p) :=
  (advances_draw t).bind fun _ => advances_pure _

theorem advances_literal (source : Option Node) (l : Literal) : Advances (literal source l) := by
  cases l with
  | unspecified => exact advances_unsupported _
  | _ => exact advances_put source _ _

theorem advances_capturedBy (cs : Captures) (node : Node) : Advances (capturedBy cs node) := by
  unfold capturedBy
  cases cs.captured? node with
  | some captured => exact advances_pure captured
  | none => exact State.precedes_refl

theorem advances_closure (cs : Captures) (node : Node) (cls : Bytes) : Advances (closure cs node cls) :=
  (advances_capturedBy cs node).bind fun _ => advances_put _ _ _

theorem advances_complete (i : Nat) (captured params : List Bytes) (b : Fragment) :
    Advances (complete i captured params b) := by
  unfold complete
  split
  · exact fun s => ⟨Nat.le_refl _, id⟩
  · exact advances_unsupported _

/-- Entering a lambda marks an arity, and completing its class leaves the arities alone. -/
theorem advances_lift (cs : Captures) (node : Node) (name : Bytes) (params : List Bytes) {body : Step Fragment}
    (h : Advances body) : Advances (lift cs node name params body) := by
  intro s
  cases hmet : s.table.index? node with
  | some i =>
    rw [lift_met hmet]
    exact s.precedes_refl
  | none =>
    have henter : s.Precedes { s with table := s.table.enter node name params.length } :=
      ⟨Nat.le_refl _, fun hs => Ascending.strict_insert ClassTable.natOrder params.length hs⟩
    rw [lift_new hmet]
    exact henter.trans (((advances_capturedBy cs node).bind fun captured => h.bind fun b =>
      advances_complete _ captured params b) _)

theorem advances_call (node : Node) (ret : Ident) (f : Bytes) (fs : List Fragment) :
    Advances (call node ret f fs) :=
  (advances_addArity _).bind fun _ => advances_pure _

theorem advances_operate (node : Node) (ret : Ident) (name : Bytes) (fs : List Fragment) :
    Advances (operate node ret name fs) := by
  refine (advances_draw .primitive).bind fun dst => ?_
  dsimp only
  split
  · exact State.precedes_refl
  · exact (advances_addArity 1).bind fun _ => advances_pure _

theorem advances_choose (node : Node) (test a b : Fragment) : Advances (choose node test a b) := by
  unfold choose
  split
  · exact (advances_draw _).bind fun _ => advances_pure _
  · exact advances_unsupported _

theorem advances_lowerList {cs : Captures} {es : List Expr} (ih : ∀ e ∈ es, ∀ node, Advances (lower cs node e))
    (node : Node) (i : Nat) : Advances (lowerList cs node i es) := by
  induction es generalizing i with
  | nil =>
    rw [lowerList]
    exact advances_pure []
  | cons e es ihs =>
    rw [List.forall_mem_cons] at ih
    rw [lowerList]
    exact (ih.1 _).bind fun _ => (ihs ih.2 _).bind fun _ => advances_pure _

theorem advances_lowerDefs {cs : Captures} {ds : List (Bytes × Expr)}
    (ih : ∀ d ∈ ds, ∀ node, Advances (lower cs node d.2)) (node : Node) (i : Nat) :
    Advances (lowerDefs cs node i ds) := by
  induction ds generalizing i with
  | nil =>
    rw [lowerDefs]
    exact advances_pure []
  | cons d ds ihs =>
    obtain ⟨x, e⟩ := d
    rw [List.forall_mem_cons] at ih
    rw [lowerDefs]
    split
    · exact advances_unsupported _
    · refine (ih.1 _).bind fun v => ?_
      split
      · exact advances_unsupported _
      · exact (ihs ih.2 _).bind fun _ => advances_pure _

/-- Lowering only goes forward, whether it succeeds or fails. -/
theorem advances_lower (cs : Captures) (node : Node) (e : Expr) : Advances (lower cs node e) := by
  induction e using Expr.induction generalizing node with
  | var x =>
    rw [lower]
    split
    · exact advances_unsupported _
    · exact advances_pure _
  | literal l =>
    rw [lower]
    exact advances_literal (some node) l
  | lambda name params body ih =>
    rw [lower]
    exact (advances_lift cs node name params (ih _)).bind fun cls => advances_closure cs node cls
  | app callee args _ ihs =>
    have hargs := advances_lowerList ihs node 1
    cases callee with
    | var f =>
      rw [lower]
      split
      · split
        · exact advances_unsupported _
        · exact (advances_draw .ret).bind fun ret => hargs.bind fun fs => advances_operate node ret f fs
      · exact (advances_draw .ret).bind fun ret => hargs.bind fun fs => advances_call node ret f fs
    | _ => exact advances_unsupported _
  | cond test a b iht iha ihb =>
    rw [lower]
    exact (iht _).bind fun ft => (iha _).bind fun fa => (ihb _).bind fun fb => advances_choose node ft fa fb
  | letrec defs body ihs ihb =>
    rw [lower]
    exact (advances_lowerDefs ihs node 1).bind fun _ => (ihb _).bind fun _ => advances_pure _
  | native uses code =>
    rw [lower]
    exact advances_pure code
  | _ => exact advances_unsupported _

theorem advances_liftRoot (cs : Captures) (node : Node) (e : Expr) : Advances (liftRoot cs node e) := by
  cases e with
  | lambda name params body =>
    exact (advances_lift cs node name params (advances_lower cs _ body)).bind fun _ => advances_pure _
  | _ => exact advances_pure none

end

end Lowering

/-! ## Sessions -/

/-- Captures that tell the same as others, and maybe more. -/
def Captures.Extends (cs cs' : Captures) : Prop :=
  ∀ node captured, cs.captured? node = some captured → cs'.captured? node = some captured

/-- Merging captures keeps those that are known. -/
theorem Captures.extends_merge (known new : Captures) : known.Extends (known.merge new) := by
  intro node captured h
  unfold captured? at h ⊢
  obtain ⟨c, hc, hcap⟩ := Option.map_eq_some_iff.mp h
  rw [merge, List.find?_append, hc]
  exact congrArg some hcap

namespace Session

/-- Whatever a session does, the state goes on and captures that are known stay known. -/
structure Precedes (s s' : Session) : Prop where
  state : s.state.Precedes s'.state
  captures : s.captures.Extends s'.captures

theorem precedes_refl (s : Session) : s.Precedes s := ⟨s.state.precedes_refl, fun _ _ h => h⟩

theorem Precedes.trans {s s' s'' : Session} (h : s.Precedes s') (h' : s'.Precedes s'') : s.Precedes s'' where
  state := h.state.trans h'.state
  captures node captured hc := h'.captures node captured (h.captures node captured hc)

/-- A step that leaves the captures alone. -/
theorem Precedes.of_state {s s' : Session} (h : s.state.Precedes s'.state) (hcaptures : s'.captures = s.captures) :
    s.Precedes s' :=
  ⟨h, fun _ _ hc => hcaptures ▸ hc⟩

/-- No step of a session goes back: the count does not fall, an order of arities stays one, and no captures are
lost or changed. -/
theorem precedes_step (s : Session) (st : Step) : s.Precedes (s.step st).2 := by
  cases st with
  | lower p =>
    cases he : s.at? p with
    | none =>
      simp only [step, he]
      exact s.precedes_refl
    | some e =>
      have hrun := Lowering.advances_lower s.captures p.node e s.state
      simp only [step, he]
      cases hlower : Lowering.lower s.captures p.node e s.state with
      | ok f state =>
        rw [hlower] at hrun
        exact .of_state hrun rfl
      | error err state =>
        rw [hlower] at hrun
        exact .of_state hrun rfl
  | lift p =>
    cases he : s.at? p with
    | none =>
      simp only [step, he]
      exact s.precedes_refl
    | some e =>
      have hrun := Lowering.advances_liftRoot s.captures p.node e s.state
      simp only [step, he]
      cases hlift : Lowering.liftRoot s.captures p.node e s.state with
      | ok name state =>
        rw [hlift] at hrun
        cases name with
        | some name => exact .of_state hrun rfl
        | none => exact s.precedes_refl -- not a lambda
      | error err state =>
        rw [hlift] at hrun
        exact .of_state hrun rfl
  | capture p =>
    simp only [step]
    split
    · exact s.precedes_refl
    · exact ⟨s.state.precedes_refl, s.captures.extends_merge _⟩
  | addArity n => exact .of_state (s.state.precedes_addArity n) rfl
  | fresh stem => exact .of_state ⟨Nat.le_succ s.state.next, id⟩ rfl
  | emit p =>
    simp only [step]
    split <;> exact s.precedes_refl
  | _ => exact s.precedes_refl

/-- Nor do any number of steps. -/
theorem precedes_run (s : Session) (sts : List Step) : s.Precedes (s.run sts).2 := by
  induction sts generalizing s with
  | nil => exact s.precedes_refl
  | cons st sts ih => exact (s.precedes_step st).trans (ih _)

theorem programs_run (s : Session) (sts : List Step) : (s.run sts).2.programs = s.programs := by
  induction sts generalizing s with
  | nil => rfl
  | cons st sts ih => exact (ih _).trans (s.programs_step st)

end Session

end Trampoline

import Trampoline.Proofs.Correspond

/-!
# Trampoline.Proofs.Simulation -- running a tree's code is evaluating the tree

One statement for every derivation: in corresponding stores, with the free names of the tree visible
and the variables of its code ready, evaluating the tree and running its code match. What the code
leaves in the tree's variable corresponds to the value of the tree, and stores correspond again.

Each instruction has a lemma of its own. The statement then follows the derivation: code that was put
together from parts runs part by part, and `Ready.after` hands the variables of a part on to the next.
-/

namespace Trampoline.Simulation

open Instr Emitted
open Lowering (Lowers LowersList LowersDefs Static StaticList)

variable {T : ClassTable} {cs : Captures} {ov : Overflow}

/-! ## Environments, values, effects -/

/-- The names `Γ` have slots, for which the slots of their variables stand. -/
def EnvRel (β : Placement) (Γ : List Bytes) (ρ : Source.Env) (φ : Frame) : Prop :=
  ∀ x ∈ Γ, ∃ i l, ρ.lookup x = some i ∧ φ (.named x) = some (.slot (some l)) ∧ β[i]? = some l

variable (T cs) in
/-- A variable holds what corresponds to the value of a tree. -/
def ValueRel (β : Placement) (s : State) (x : Ident) : Source.Value → Prop
  | .slot i => ∃ l, s.frame x = some (.slot (some l)) ∧ β[i]? = some l
  | .call c args => ∃ o ls, s.frame x = some (.thunk (some ⟨o, ls⟩)) ∧ ClosureRel T cs β c o ∧
      Placed β args ls

/-- The kind of a value. -/
def kindOf : Source.Value → Kind
  | .slot _ => .value
  | .call _ _ => .thunk

/-- A value that is a slot is related to a placed slot. -/
theorem ValueRel.slot {β : Placement} {s : State} {x : Ident} {v : Source.Value}
    (h : ValueRel T cs β s x v) (hk : kindOf v = .value) :
    ∃ i l, v = .slot i ∧ s.frame x = some (.slot (some l)) ∧ β[i]? = some l := by
  cases v with
  | slot i =>
    obtain ⟨l, hl, hil⟩ := h
    exact ⟨i, l, rfl, hl, hil⟩
  | call c args => cases hk

variable (T cs) in
/-- Stores correspond after some code has run from a state. -/
structure After (β γ : Placement) (code : List Instr) (s : State) (σ' : Source.Slots) (s' : State) :
    Prop where
  evolves : Evolves β γ code s s'
  heap : Heap T cs (β ++ γ) σ' s'.slots

variable (T cs) in
/-- What running the code of a tree gives, given what evaluating the tree gives. -/
def Result (β : Placement) (code : List Instr) (value : Ident) (kind : Kind) (s : State)
    (r : Source.Value × Source.Slots) (s' : State) : Prop :=
  kindOf r.1 = kind ∧ ∃ γ, After T cs β γ code s r.2 s' ∧ ValueRel T cs (β ++ γ) s' value r.1

/-- An environment stays related while code runs that declares other variables. -/
theorem EnvRel.after {β γ : Placement} {Γ : List Bytes} {ρ : Source.Env} {code : List Instr}
    {s s' : State} (h : EnvRel β Γ ρ s.frame) (he : Evolves β γ code s s') :
    EnvRel (β ++ γ) Γ ρ s'.frame := by
  intro x hx
  obtain ⟨i, l, hi, hl, hil⟩ := h x hx
  exact ⟨i, l, hi, he.refs _ l hl, placed_mono γ hil⟩

/-- Bindings in front of others. -/
theorem EnvRel.append {β : Placement} {Δ Γ : List Bytes} {ρ' ρ : Source.Env} {φ : Frame}
    (h' : EnvRel β Δ ρ' φ) (h : EnvRel β Γ ρ φ) (hnone : ∀ x, x ∉ Δ → ρ'.lookup x = none) :
    EnvRel β (Δ ++ Γ) (ρ' ++ ρ) φ := by
  intro x hx
  rw [List.lookup_append]
  by_cases hxΔ : x ∈ Δ
  · obtain ⟨i, l, hi, hil⟩ := h' x hxΔ
    exact ⟨i, l, by rw [hi, Option.some_or], hil⟩
  · obtain ⟨i, l, hi, hil⟩ := h x ((List.mem_append.mp hx).resolve_left hxΔ)
    exact ⟨i, l, by rw [hnone x hxΔ, Option.none_or, hi], hil⟩

/-- Entering a block hides none of the names. -/
theorem EnvRel.entered {β : Placement} {Γ : List Bytes} {ρ : Source.Env} {code : List Instr}
    {s t : State} (h : EnvRel β Γ ρ s.frame) (hentered : Entered β code s t)
    (houter : ∀ x ∈ Γ, .named x ∉ declared code) : EnvRel β Γ ρ t.frame := by
  intro x hx
  rw [hentered.frame _ (houter x hx)]
  exact h x hx

theorem EnvRel.subset {β : Placement} {Γ Δ : List Bytes} {ρ : Source.Env} {φ : Frame}
    (h : EnvRel β Γ ρ φ) (hsub : ∀ x ∈ Δ, x ∈ Γ) : EnvRel β Δ ρ φ :=
  fun x hx => h x (hsub x hx)

namespace After

variable {β γ δ : Placement} {a b : List Instr} {s s₁ s₂ : State} {σ σ₁ σ₂ : Source.Slots}

theorem refl (h : Heap T cs β σ s.slots) : After T cs β [] [] s σ s :=
  ⟨Evolves.refl β s, (List.append_nil β).symm ▸ h⟩

/-- Runs that follow each other are one run. -/
theorem trans (h₁ : After T cs β γ a s σ₁ s₁) (h₂ : After T cs (β ++ γ) δ b s₁ σ₂ s₂)
    (hnodup : (declared (a ++ b)).Nodup) : After T cs β (γ ++ δ) (a ++ b) s σ₂ s₂ :=
  ⟨h₁.evolves.trans h₂.evolves hnodup, List.append_assoc β γ δ ▸ h₂.heap⟩

end After

/-- Some code, and then the code of a tree. -/
theorem Result.after {β γ : Placement} {a b : List Instr} {value : Ident} {kind : Kind}
    {s s₁ s₂ : State} {σ₁ : Source.Slots} {r : Source.Value × Source.Slots}
    (h₂ : Result T cs (β ++ γ) b value kind s₁ r s₂) (h₁ : After T cs β γ a s σ₁ s₁)
    (hnodup : (declared (a ++ b)).Nodup) : Result T cs β (a ++ b) value kind s r s₂ := by
  obtain ⟨hk, δ, hafter, hvalue⟩ := h₂
  exact ⟨hk, γ ++ δ, h₁.trans hafter hnodup, List.append_assoc β γ δ ▸ hvalue⟩

/-! ## Reading variables -/

section

variable {s : State} {x : Ident} {l : Nat}

theorem ref_eq (h : s.frame x = some (.slot (some l))) : s.ref x = .ok l := by
  unfold State.ref
  rw [h]

theorem load_eq (h : s.frame x = some (.slot (some l))) : s.load x = s.slots.get l := by
  unfold State.load
  rw [ref_eq h]
  rfl

theorem fill_eq (h : s.frame x = some (.slot (some l))) (c : Content Object) :
    s.fill x c = .ok { s with slots := s.slots.set l c } := by
  unfold State.fill
  rw [ref_eq h]
  rfl

theorem make_eq {t : Option Thunk} (h : s.frame x = some (.thunk t)) (t' : Thunk) :
    s.make x t' = .ok { s with frame := s.frame.set x (.thunk (some t')) } := by
  unfold State.make
  rw [h]
  rfl

end

/-- The contents of a slot and of the variable that stands for it. -/
theorem load_matches {β : Placement} {σ : Source.Slots} {s : State} {x : Ident} {i l : Nat}
    (hheap : Heap T cs β σ s.slots) (hx : s.frame x = some (.slot (some l))) (hil : β[i]? = some l) :
    ∃ c d, σ.get i = .ok c ∧ s.load x = .ok d ∧ ContentRel T cs β c d := by
  obtain ⟨c, d, hc, hd, hcd⟩ := hheap.get hil
  exact ⟨c, d, hc, (load_eq hx).trans hd, hcd⟩

/-- Results of trees that stand in variables, one for one. -/
def ValuesRel (β : Placement) (s : State) (is : List Nat) (xs : List Ident) : Prop :=
  List.Forall₂ (fun i x => ∃ l, s.frame x = some (.slot (some l)) ∧ β[i]? = some l) is xs

/-- Related values can be passed on by reference. -/
theorem ValuesRel.refs {β : Placement} {s : State} {is : List Nat} {xs : List Ident}
    (h : ValuesRel β s is xs) : ∃ ls, s.refs xs = .ok ls ∧ Placed β is ls := by
  induction h with
  | nil => exact ⟨[], rfl, .nil⟩
  | cons hx _ ih =>
    obtain ⟨l, hl, hil⟩ := hx
    obtain ⟨ls, hls, hplaced⟩ := ih
    refine ⟨l :: ls, ?_, .cons hil hplaced⟩
    rw [State.refs, ref_eq hl, hls]
    rfl

theorem ValuesRel.of_concat {β : Placement} {s : State} {is : List Nat} {xs : List Ident} {x : Ident}
    (h : ValuesRel β s is (xs ++ [x])) :
    ∃ js j l, is = js ++ [j] ∧ ValuesRel β s js xs ∧ s.frame x = some (.slot (some l)) ∧
      β[j]? = some l := by
  induction xs generalizing is with
  | nil =>
    cases h with
    | cons hx hnil =>
      cases hnil
      obtain ⟨l, hl, hil⟩ := hx
      exact ⟨[], _, l, rfl, .nil, hl, hil⟩
  | cons y xs ih =>
    cases h with
    | cons hy hrest =>
      obtain ⟨js, j, l, rfl, hjs, hl⟩ := ih hrest
      exact ⟨_ :: js, j, l, rfl, .cons hy hjs, hl⟩

/-- What a lambda captures, and the fields of its object. -/
theorem capture_matches {β : Placement} {ρ : Source.Env} {s : State} {xs : List Bytes}
    (henv : EnvRel β xs ρ s.frame) :
    ∃ env fields, ρ.capture xs = .ok env ∧ s.refs (xs.map .named) = .ok fields ∧
      fields.length = xs.length ∧ ∀ x ∈ xs, ∃ i l, env.lookup x = some i ∧
        (xs.zip fields).lookup x = some l ∧ β[i]? = some l := by
  induction xs with
  | nil => exact ⟨[], [], rfl, rfl, rfl, fun x hx => absurd hx List.not_mem_nil⟩
  | cons y xs ih =>
    obtain ⟨i, l, hi, hl, hil⟩ := henv y List.mem_cons_self
    obtain ⟨env, fields, henv', hfields, hlen, hlookup⟩ :=
      ih (henv.subset fun x hx => List.mem_cons_of_mem y hx)
    refine ⟨(y, i) :: env, l :: fields, ?_, ?_, by rw [List.length_cons, hlen, List.length_cons], ?_⟩
    · rw [Source.Env.capture, hi, henv']
      rfl
    · rw [List.map_cons, State.refs, ref_eq hl, hfields]
      rfl
    · intro x hx
      rw [List.zip_cons_cons, List.lookup_cons, List.lookup_cons]
      by_cases heq : x = y
      · subst heq
        simp only [BEq.rfl]
        exact ⟨i, l, rfl, rfl, hil⟩
      · rw [beq_eq_false_iff_ne.mpr heq]
        exact hlookup x ((List.mem_cons.mp hx).resolve_left heq)

/-! ## Instructions -/

/-- Code runs part by part. -/
theorem execAll_append (a b : List Instr) (s : State) :
    execAll T ov (a ++ b) s = execAll T ov a s >>= execAll T ov b := by
  induction a generalizing s with
  | nil => rfl
  | cons i is ih =>
    rw [List.cons_append, execAll, execAll, bind_assoc]
    exact bind_congr fun t => ih t

theorem execAll_singleton (i : Instr) (s : State) : execAll T ov [i] s = exec T ov i s := by
  rw [execAll]
  exact bind_pure _

/-- A constant and the payload for it. -/
theorem constant_matches (ov : Overflow) {β : Placement} {l : Literal} {t : Temp} {p : Payload}
    (s : State)
    (hl : Lowering.constant l = some (t, p)) :
    ∃ c d, Source.constant l = .ok c ∧ content T ov s p = .ok d ∧ ContentRel T cs β c d := by
  cases l with
  | integer n =>
    cases hl
    exact ⟨_, _, rfl, rfl, .number n⟩
  | boolean b =>
    cases hl
    exact ⟨_, _, rfl, rfl, .truth b⟩
  | string u =>
    cases hl
    exact ⟨_, _, rfl, rfl, .string u⟩
  | unspecified => cases hl

section

variable {β : Placement} {σ : Source.Slots} {s : State}

/-- A lambda and the object that is made for it. -/
theorem closure_matches (ov : Overflow) {ρ : Source.Env} {name : Bytes} {clo : Closure} {body : Expr}
    (henv : EnvRel β clo.captured ρ s.frame) (hclass : T.classOf? name = some clo)
    (hnodup : clo.params.Nodup) (hcode : CodeFor T cs (clo.params ++ clo.captured) body clo.body) :
    ∃ env d, ρ.capture clo.captured = .ok env ∧
      content T ov s (.closure name (clo.captured.map .named)) = .ok d ∧
      ContentRel T cs β (.closure ⟨clo.params, body, env⟩) d := by
  obtain ⟨env, fields, hcapture, hfields, hlen, hlookup⟩ := capture_matches henv
  refine ⟨env, .closure ⟨name, fields⟩, hcapture, ?_, .closure ?_⟩
  · rw [content, hclass, hfields]
    exact if_pos hlen
  · exact ⟨clo, hclass, rfl, hnodup, hlen, hlookup, hcode⟩

/-- A new slot on the one side, and the slot of an unused variable on the other. -/
theorem fill_result {dst : Ident} {p : Payload} {c : Content Source.Closure} {d : Content Object}
    (hopen : Opened β s (.put dst p)) (hheap : Heap T cs β σ s.slots)
    (hcd : ContentRel T cs β c d) :
    ∃ s', s.fill dst d = .ok s' ∧
      Result T cs β [.put dst p] dst .value s (.slot σ.length, σ ++ [c]) s' := by
  obtain ⟨l, hl, hnew, h0⟩ := hopen
  have hlt : l < s.slots.length := (List.getElem?_eq_some_iff.mp h0).1
  have hset : (s.slots.set l d)[l]? = some d := List.getElem?_set_self hlt
  refine ⟨_, fill_eq hl d, rfl, [l], ⟨⟨?_, ?_, ?_, ?_, ?_⟩, ?_⟩, l, hl, ?_⟩
  · intro k hk
    cases List.mem_singleton.mp hk
    exact Or.inl ⟨dst, List.mem_singleton_self dst, hl⟩
  · exact fun _ _ => rfl
  · exact fun _ _ h => h
  · intro k _ _ hk
    exact List.getElem?_set_ne fun heq => hk (List.mem_singleton.mpr heq.symm)
  · exact Nat.le_of_eq List.length_set.symm
  · exact (hheap.set_unplaced hnew d).alloc hnew hset (hcd.mono _)
  · rw [← hheap.length]
    exact List.getElem?_concat_length

/-- The same, for a content that is built on the spot. -/
theorem put_result {dst : Ident} {p : Payload} {c : Content Source.Closure} {d : Content Object}
    (hopen : Opened β s (.put dst p)) (hheap : Heap T cs β σ s.slots)
    (hd : content T ov s p = .ok d) (hcd : ContentRel T cs β c d) :
    ∃ s', execAll T ov [.put dst p] s = .ok s' ∧
      Result T cs β [.put dst p] dst .value s (.slot σ.length, σ ++ [c]) s' := by
  obtain ⟨s', hs', hres⟩ := fill_result hopen hheap hcd
  refine ⟨s', ?_, hres⟩
  rw [execAll_singleton, exec, hd]
  exact hs'

/-- Making a call on the one side, and a thunk for it on the other. -/
theorem call_matches (ov : Overflow) {dst callee : Ident} {args : List Ident} {i l : Nat} {is : List Nat}
    (hopen : Opened β s (.call dst callee args)) (hheap : Heap T cs β σ s.slots)
    (hcallee : s.frame callee = some (.slot (some l))) (hil : β[i]? = some l)
    (hargs : ValuesRel β s is args) :
    ∃ c, σ.get i = .ok c ∧
      Matches (fun c s' => Result T cs β [.call dst callee args] dst .thunk s (.call c is, σ) s')
        c.lam (exec T ov (.call dst callee args) s) := by
  obtain ⟨t, ht⟩ := hopen
  obtain ⟨c, d, hc, hd, hcd⟩ := load_matches hheap hcallee hil
  obtain ⟨ls, hls, hplaced⟩ := hargs.refs
  refine ⟨c, hc, ?_⟩
  rw [exec, hls, hd, ← bind_pure c.lam]
  refine hcd.lam.bind fun clo o ho => ?_
  rw [make_eq ht]
  have hne : ∀ y, y ∉ declared [.call dst callee args] → y ≠ dst := fun y hy heq =>
    hy (List.mem_singleton.mpr heq)
  refine ⟨rfl, [], ⟨⟨?_, ?_, ?_, ?_, Nat.le_refl _⟩, ?_⟩, o, ls, ?_, ho.mono [], hplaced.mono []⟩
  · exact fun l hl => absurd hl List.not_mem_nil
  · exact fun y hy => s.frame.set_of_ne _ (hne y hy)
  · intro y k hk
    -- A variable that refers to a slot is not the thunk.
    have hy : y ≠ dst := by
      rintro rfl
      cases ht.symm.trans hk
    exact (s.frame.set_of_ne _ hy).trans hk
  · exact fun _ _ _ _ => rfl
  · exact (List.append_nil β).symm ▸ hheap
  · exact s.frame.set_self dst _

/-- Filling a slot from another. -/
theorem copy_matches (ov : Overflow) {dst src : Ident} {c : Content Source.Closure} {i j k l : Nat}
    (hheap : Heap T cs β σ s.slots) (hsrc : s.frame src = some (.slot (some l)))
    (hil : β[i]? = some l) (hdst : s.frame dst = some (.slot (some k))) (hjk : β[j]? = some k)
    (hc : σ.get i = .ok c) :
    ∃ s', exec T ov (.copy dst src) s = .ok s' ∧
      After T cs β [] [.copy dst src] s (σ.set j c) s' := by
  obtain ⟨c', d, hc', hd, hcd⟩ := load_matches hheap hsrc hil
  cases hc.symm.trans hc'
  refine ⟨{ s with slots := s.slots.set k d }, ?_, ⟨?_, ?_, ?_, ?_, ?_⟩, ?_⟩
  · rw [exec, hd]
    exact fill_eq hdst d
  · exact fun l hl => absurd hl List.not_mem_nil
  · exact fun _ _ => rfl
  · exact fun _ _ h => h
  · intro m _ hm _
    refine List.getElem?_set_ne ?_
    rintro rfl
    exact hm (List.mem_of_getElem? hjk)
  · exact Nat.le_of_eq List.length_set.symm
  · exact (List.append_nil β).symm ▸ hheap.fill hjk hcd

/-- An operator on slots, and its call on the variables that stand for them. -/
theorem primitive_matches (ov : Overflow) {f : Bytes} {xs : List Ident} {prim : PrimCall} {is : List Nat}
    (hp : PrimCall.ofName? f xs = some prim) (hheap : Heap T cs β σ s.slots)
    (hargs : ValuesRel β s is xs) :
    ∃ p contents, Primitive.ofName? f = some p ∧ σ.getAll is = .ok contents ∧
      Matches (ContentRel T cs β) (p.compute ov contents) (content T ov s (.primitive prim)) := by
  unfold PrimCall.ofName? at hp
  split at hp
  · next p a hname =>
    cases hp
    cases hargs with
    | cons ha hnil =>
      cases hnil
      obtain ⟨l, hl, hil⟩ := ha
      obtain ⟨c, d, hc, hd, hcd⟩ := load_matches hheap hl hil
      refine ⟨.unary p, [c], hname, ?_, ?_⟩
      · rw [Source.Slots.getAll, hc]
        rfl
      · rw [content, hd]
        exact unary_matches p hcd
  · next p a b hname =>
    cases hp
    cases hargs with
    | cons ha hrest =>
      cases hrest with
      | cons hb hnil =>
        cases hnil
        obtain ⟨l, hl, hil⟩ := ha
        obtain ⟨l', hl', hil'⟩ := hb
        obtain ⟨c, d, hc, hd, hcd⟩ := load_matches hheap hl hil
        obtain ⟨c', d', hc', hd', hcd'⟩ := load_matches hheap hl' hil'
        refine ⟨.binary p, [c, c'], hname, ?_, ?_⟩
        · rw [Source.Slots.getAll, hc, Source.Slots.getAll, hc']
          rfl
        · rw [content, hd, hd']
          exact binary_matches ov p hcd hcd'
  · cases hp

end

/-! ## Slots of definitions -/

theorem nodup_left {a b : List Instr} (h : (declared (a ++ b)).Nodup) : (declared a).Nodup := by
  rw [declared_append] at h
  exact (List.nodup_append.mp h).1

theorem nodup_right {a b : List Instr} (h : (declared (a ++ b)).Nodup) : (declared b).Nodup := by
  rw [declared_append] at h
  exact (List.nodup_append.mp h).2.1

theorem slot_after {β : Placement} {σ : Source.Slots} {s : State} {x : Ident} {l : Nat}
    (hheap : Heap T cs β σ s.slots) (hl : s.frame x = some (.slot (some l))) (hnew : l ∉ β)
    (h0 : s.slots[l]? = some (.number 0)) :
    After T cs β [l] [.slot x] s (σ ++ [.number 0]) s := by
  refine ⟨⟨?_, fun _ _ => rfl, fun _ _ h => h, fun _ _ _ _ => rfl, Nat.le_refl _⟩, ?_⟩
  · intro k hk
    cases List.mem_singleton.mp hk
    exact Or.inl ⟨x, List.mem_singleton_self x, hl⟩
  · exact hheap.alloc hnew h0 (.number 0)

/-- Making the slots of names on the one side, where on the other they are there already. -/
theorem slots_after {β : Placement} {σ : Source.Slots} {s : State} {defs : List (Bytes × Expr)}
    (hready : Ready β s (defs.map fun d => .slot (.named d.1)))
    (hnodup : (declared (defs.map fun d => .slot (.named d.1))).Nodup)
    (hheap : Heap T cs β σ s.slots) :
    ∃ γ, After T cs β γ (defs.map fun d => .slot (.named d.1)) s
        (σ ++ defs.map fun _ => .number 0) s ∧
      EnvRel (β ++ γ) (defs.map Prod.fst) (Source.Env.fresh (defs.map Prod.fst) σ.length) s.frame := by
  induction defs generalizing β σ with
  | nil =>
    refine ⟨[], ?_, fun x hx => absurd hx List.not_mem_nil⟩
    rw [List.map_nil, List.map_nil, List.append_nil]
    exact After.refl hheap
  | cons d ds ih =>
    obtain ⟨l, hl, hnew, h0⟩ := hready.opened _ List.mem_cons_self
    have hfirst := slot_after hheap hl hnew h0
    have hready' := Ready.after (a := [.slot (.named d.1)]) hready hnodup hfirst.evolves
    obtain ⟨γ, hafter, henv⟩ := ih hready' (nodup_right (a := [_]) hnodup) hfirst.heap
    refine ⟨[l] ++ γ, ?_, ?_⟩
    · have hboth := hfirst.trans hafter hnodup
      rw [List.append_assoc] at hboth
      exact hboth
    · intro x hx
      rw [List.map_cons] at hx ⊢
      rw [Source.Env.fresh, List.length_cons, List.range'_succ, List.zip_cons_cons, List.lookup_cons,
        ← List.append_assoc]
      by_cases heq : x = d.1
      · subst heq
        refine ⟨σ.length, l, ?_, hl, placed_mono γ ?_⟩
        · rw [BEq.rfl]
        · rw [← hheap.length]
          exact List.getElem?_concat_length
      · rw [beq_eq_false_iff_ne.mpr heq]
        have hrest := henv x ((List.mem_cons.mp hx).resolve_left heq)
        rw [List.length_append] at hrest
        exact hrest

theorem execAll_slots (defs : List (Bytes × Expr)) (s : State) :
    execAll T ov (defs.map fun d => .slot (.named d.1)) s = .ok s := by
  induction defs with
  | nil => rfl
  | cons d ds ih => exact ih

/-! ## Arms of a conditional -/

section

variable {β : Placement} {σ : Source.Slots} {s t : State} {dst test av bv value : Ident} {kind : Kind}
  {a b code : List Instr}

/-- The variable of a conditional refers to nothing before an arm has been run. -/
theorem Opened.branch_empty (h : Opened β s (.branch dst kind test a av b bv)) (l : Nat) :
    s.frame dst ≠ some (.slot (some l)) := by
  intro hl
  cases kind with
  | value => cases h.symm.trans hl
  | thunk =>
    obtain ⟨c, hc⟩ := h
    cases hc.symm.trans hl

/-- An arm hands over what it has computed, and only that. -/
theorem hand_value {v : Source.Value} (hopen : Opened β s (.branch dst kind test a av b bv))
    (hdst : t.frame dst = s.frame dst) (hk : kindOf v = kind) {β' : Placement}
    (hv : ValueRel T cs β' t value v) :
    ∃ u, t.hand kind dst value = .ok u ∧ u.slots = t.slots ∧ ValueRel T cs β' u dst v ∧
      ∀ y, y ≠ dst → (kind = .thunk → y ≠ value) → u.frame y = t.frame y := by
  subst hk
  cases v with
  | slot i =>
    obtain ⟨l, hl, hil⟩ := hv
    have hempty : t.frame dst = some (.slot none) := hdst.trans hopen
    refine ⟨{ t with frame := t.frame.set dst (.slot (some l)) }, ?_, rfl, ?_, ?_⟩
    · unfold State.hand
      rw [hempty, hl]
      rfl
    · exact ⟨l, t.frame.set_self dst _, hil⟩
    · exact fun y hy _ => t.frame.set_of_ne _ hy
  | call c args =>
    obtain ⟨o, ls, ho, hrel, hplaced⟩ := hv
    obtain ⟨old, hold⟩ := hopen
    have hold' : t.frame dst = some (.thunk old) := hdst.trans hold
    refine ⟨{ t with frame := (t.frame.set value (.thunk none)).set dst (.thunk (some ⟨o, ls⟩)) },
      ?_, rfl, ?_, ?_⟩
    · unfold State.hand
      rw [hold', ho]
      rfl
    · exact ⟨o, ls, Frame.set_self _ dst _, hrel, hplaced⟩
    · intro y hy hyv
      exact (Frame.set_of_ne _ _ hy).trans (t.frame.set_of_ne _ (hyv rfl))

/-- What an arm has done is all that the conditional has done, once the arm is left. -/
theorem leave_result {r : Source.Value × Source.Slots} {t' : State}
    (hopen : Opened β s (.branch dst kind test a av b bv)) (hdst : dst ∉ declared code)
    (hvalue : kind = .thunk → value ∈ declared code) (hentered : Entered β code s t)
    (hr : Result T cs β code value kind t r t') :
    ∃ u, t'.hand kind dst value = .ok u ∧
      Result T cs β [.branch dst kind test a av b bv] dst kind s r (u.leave s code) := by
  obtain ⟨hk, γ, ⟨he, hheap⟩, hv⟩ := hr
  obtain ⟨more, hmore⟩ := hentered.slots
  have hlen : s.slots.length ≤ t.slots.length := by
    rw [hmore, List.length_append]
    omega
  have houter : ∀ y, y ∉ declared code → t'.frame y = s.frame y := fun y hy =>
    (he.frame y hy).trans (hentered.frame y hy)
  obtain ⟨u, hu, hslots, hdstv, hframe⟩ := hand_value hopen (houter dst hdst) hk hv
  have hleft : ∀ y, y ≠ dst → (u.leave s code).frame y = s.frame y := by
    intro y hy
    by_cases hycode : y ∈ declared code
    · exact if_pos hycode
    · have huy : u.frame y = t'.frame y :=
        hframe y hy fun hthunk heq => hycode (heq ▸ hvalue hthunk)
      exact (if_neg hycode).trans (huy.trans (houter y hycode))
  have hleftDst : (u.leave s code).frame dst = u.frame dst := if_neg hdst
  refine ⟨u, hu, hk, γ, ⟨⟨?_, ?_, ?_, ?_, ?_⟩, ?_⟩, ?_⟩
  · -- Slots that the arm has used are slots of its own variables, and these are new.
    intro l hl
    refine Or.inr ?_
    rcases he.own l hl with ⟨y, hy, hly⟩ | hge
    · exact (hentered.own y hy l hly).1
    · exact Nat.le_trans hlen hge
  · exact fun y hy => hleft y fun heq => hy (List.mem_singleton.mpr heq)
  · intro y l hl
    have hy : y ≠ dst := by
      rintro rfl
      exact hopen.branch_empty l hl
    exact (hleft y hy).trans hl
  · intro l hl hβ hγ
    show u.slots[l]? = s.slots[l]?
    rw [hslots, he.slots l (Nat.lt_of_lt_of_le hl hlen) hβ hγ, hmore, List.getElem?_append_left hl]
  · show s.slots.length ≤ u.slots.length
    rw [hslots]
    exact Nat.le_trans hlen he.grows
  · show Heap T cs (β ++ γ) r.2 u.slots
    rw [hslots]
    exact hheap
  · cases hr : r.1 with
    | slot i =>
      rw [hr] at hdstv
      obtain ⟨l, hl, hil⟩ := hdstv
      exact ⟨l, hleftDst.trans hl, hil⟩
    | call c args =>
      rw [hr] at hdstv
      obtain ⟨o, ls, ho, hrel⟩ := hdstv
      exact ⟨o, ls, hleftDst.trans ho, hrel⟩

/-- Running an arm as a block of its own. -/
theorem arm_matches {src : Outcome (Source.Value × Source.Slots)}
    (hopen : Opened β s (.branch dst kind test a av b bv)) (hheap : Heap T cs β σ s.slots)
    (hnodup : (declared code).Nodup) (hdst : dst ∉ declared code)
    (hvalue : kind = .thunk → value ∈ declared code)
    (harm : ∀ t, Entered β code s t → Heap T cs β σ t.slots →
      Matches (Result T cs β code value kind t) src (execAll T ov code t)) :
    Matches (Result T cs β [.branch dst kind test a av b bv] dst kind s) src (do
      let t ← s.enter [] code
      let t ← execAll T ov code t
      let t ← t.hand kind dst value
      pure (t.leave s code)) := by
  obtain ⟨hentered, hheap'⟩ := hheap.entered hnodup
  have henter : s.enter [] code = .ok (s.declareAll code) := if_pos hnodup
  rw [henter, ← bind_pure src]
  refine (harm _ hentered hheap').bind fun r t' hr => ?_
  obtain ⟨u, hu, hres⟩ := leave_result hopen hdst hvalue hentered hr
  rw [hu]
  exact hres

end

end Trampoline.Simulation

/-! ## Trees -/

namespace Trampoline.Lowering

open Instr Emitted Simulation

variable {T : ClassTable} {cs : Captures} {ov : Overflow}

/-- The variables of a tree's code are different. -/
theorem Static.nodup {node : Node} {Γ : List Bytes} {e : Expr} {n n' : Nat} {f : Fragment}
    {C : List ClassEntry} {A : List Nat} (hs : Static cs node Γ e) (h : Lowers cs node e n f n' C A) :
    (declared f.code).Nodup :=
  (h.owned hs.halts hs.apart).distinct

/-- Visible names are not among the variables of a tree's code. -/
theorem Static.outer_declared {node : Node} {Γ : List Bytes} {e : Expr} {n n' : Nat} {f : Fragment}
    {C : List ClassEntry} {A : List Nat} (hs : Static cs node Γ e) (h : Lowers cs node e n f n' C A)
    {x : Bytes} (hx : x ∈ Γ) : .named x ∉ declared f.code := by
  intro hmem
  rcases (h.owned hs.halts hs.apart).origin _ hmem with ⟨t, k, heq, _⟩ | ⟨y, heq, hy⟩
  · cases heq
  · cases heq
    exact hs.outer x hx hy.bindsWithin

/-- Nor is a temporary that is drawn later. -/
theorem Static.later_temp {node : Node} {Γ : List Bytes} {e : Expr} {n n' m : Nat} {f : Fragment}
    {C : List ClassEntry} {A : List Nat} (hs : Static cs node Γ e) (h : Lowers cs node e n f n' C A)
    (hm : n' ≤ m) {t : Temp} : .temp t m ∉ declared f.code := by
  intro hmem
  rcases (h.owned hs.halts hs.apart).origin _ hmem with ⟨t', k, heq, hk⟩ | ⟨y, heq, _⟩
  · cases heq
    omega
  · cases heq

theorem registered_append {C D : List ClassEntry} (h : Registered T (C ++ D)) :
    Registered T C ∧ Registered T D :=
  List.forall_mem_append.mp h

/-- The code of a lambda's body. -/
theorem Static.codeFor_body {node : Node} {Γ : List Bytes} {name : Bytes} {params : List Bytes}
    {body : Expr} {n n' : Nat} {b : Fragment} {C : List ClassEntry} {A : List Nat}
    (hs : Static cs node Γ (.lambda name params body))
    (hb : Lowers cs (node.child 0) body n b n' C A) (hk : b.kind = .thunk) (hreg : Registered T C) :
    CodeFor T cs (params ++ Names.without body.free params) body b := by
  rcases hs.halts.body with hbody | ⟨p, rfl, rfl⟩
  · exact .lowered hb hk (hs.lambda_body hbody) hreg
  · obtain ⟨rfl, _⟩ := lowers_native hb
    exact .halt p rfl rfl List.mem_cons_self

mutual

/-- Running the code of a tree is evaluating the tree. -/
theorem Lowers.simulates {node : Node} {e : Expr} {n n' : Nat} {f : Fragment} {C : List ClassEntry}
    {A : List Nat} {Γ : List Bytes} {ρ : Source.Env} {β : Placement} {σ : Source.Slots}
    {s : Emitted.State} :
    Lowers cs node e n f n' C A → Static cs node Γ e → Registered T C → EnvRel β Γ ρ s.frame →
      Heap T cs β σ s.slots → Ready β s f.code →
      Matches (Result T cs β f.code f.value f.kind s) (Source.eval ov ρ e σ) (execAll T ov f.code s)
  | @Lowers.var _ _ x _ hx, hs, _, henv, hheap, _ => by
    obtain ⟨i, l, hi, hl, hil⟩ := henv x (hs.free x (Expr.mem_occurrence.mpr ⟨rfl, hx⟩))
    rw [Source.eval, hi]
    exact ⟨rfl, [], After.refl hheap, l, hl, placed_mono [] hil⟩
  | .literal hl, _, _, _, hheap, hready => by
    obtain ⟨c, d, hc, hd, hcd⟩ := constant_matches ov s hl
    obtain ⟨s', hs', hres⟩ := put_result (hready.opened _ List.mem_cons_self) hheap hd hcd
    rw [Source.eval, hc, hs']
    exact hres
  | .lambda hc hb hk, hs, hreg, henv, hheap, hready => by
    cases hs.known.captured_eq hc
    have hclass := hreg _ List.mem_cons_self
    have hcode := hs.codeFor_body hb hk fun c hc => hreg c (List.mem_cons_of_mem _ hc)
    obtain ⟨env, d, hcapture, hd, hcd⟩ :=
      closure_matches ov (henv.subset hs.free) hclass hs.apart.nodup hcode
    obtain ⟨s', hs', hres⟩ := put_result (hready.opened _ List.mem_cons_self) hheap hd hcd
    rw [Source.eval, hcapture, hs']
    exact hres
  | @Lowers.call _ _ f _ _ _ _ _ _ hf hargs, hs, hreg, henv, hheap, hready => by
    have hnodup := hs.nodup (.call hf hargs)
    have hname : Primitive.ofName? f = none :=
      Option.isNone_iff_eq_none.mp (Option.isSome_eq_false_iff.mp hf)
    rw [Source.eval, execAll_append]
    refine (hargs.simulates hs.args (Expr.cps_call.mp hs.cps).1 hreg henv hheap hready.left).bind ?_
    rintro ⟨is, σ₁⟩ s₁ ⟨γ, hafter, hvals⟩
    -- The variable of the callee still refers to its slot when the arguments have been computed.
    obtain ⟨i, l, hi, hl, hil⟩ := henv.after hafter.evolves f (hs.callee hf)
    have hopen := (hready.after hnodup hafter.evolves).opened _ List.mem_cons_self
    obtain ⟨c, hc, hcall⟩ := call_matches ov hopen hafter.heap hl hil hvals
    rw [hname, hi, execAll]
    show Matches _ (Store.get σ₁ i >>= _) _
    rw [hc]
    exact hcall.bind fun _ _ hres => hres.after hafter hnodup
  | .operate hf hargs hp, hs, hreg, henv, hheap, hready => by
    have hnodup := hs.nodup (.operate hf hargs hp)
    rw [Source.eval, execAll_append]
    refine (hargs.simulates hs.args (Expr.cps_call.mp hs.cps).1 hreg henv hheap hready.left).bind ?_
    rintro ⟨is, σ₁⟩ s₁ ⟨γ, hafter, hvals⟩
    rw [List.map_append] at hvals
    obtain ⟨js, k, l, rfl, hjs, hl, hkl⟩ := hvals.of_concat
    obtain ⟨p, contents, hname, hcontents, hcompute⟩ := primitive_matches ov hp hafter.heap hjs
    have hready₁ := hready.after hnodup hafter.evolves
    rw [hname, execAll, exec, bind_assoc]
    show Matches _ (need (js ++ [k]).getLast? >>= _) _
    rw [List.getLast?_concat]
    show Matches _ (σ₁.getAll (js ++ [k]).dropLast >>= _) _
    rw [List.dropLast_concat, hcontents]
    refine hcompute.bind fun r d hrd => ?_
    -- The result gets a slot, and the continuation is called with it.
    obtain ⟨s₂, hs₂, _, δ, hafter₂, l', hl', hil'⟩ :=
      fill_result (hready₁.opened _ List.mem_cons_self) hafter.heap hrd
    have hnodup₁ := nodup_right hnodup
    have hready₂ := Ready.after (a := [_]) hready₁ hnodup₁ hafter₂.evolves
    obtain ⟨c, hc, hcall⟩ := call_matches ov (hready₂.opened _ List.mem_cons_self) hafter₂.heap
      (hafter₂.evolves.refs _ _ hl) (placed_mono δ hkl) (.cons ⟨l', hl', hil'⟩ .nil)
    rw [hs₂]
    show Matches _ (Store.get (σ₁ ++ [r]) k >>= _) (execAll T ov _ s₂)
    rw [hc, execAll]
    exact hcall.bind fun _ _ hres => (hres.after hafter₂ hnodup₁).after hafter hnodup
  | .cond ht ha hb hk, hs, hreg, henv, hheap, hready => by
    have hnodup := hs.nodup (.cond ht ha hb hk)
    obtain ⟨hst, hsa, hsb⟩ := hs.cond
    obtain ⟨hregta, hregb⟩ := registered_append hreg
    obtain ⟨hregt, hrega⟩ := registered_append hregta
    rw [Source.eval, execAll_append]
    refine (ht.simulates hst hregt henv hheap hready.left).bind ?_
    rintro ⟨v, σ₁⟩ s₁ ⟨hkv, γ, hafter, hv⟩
    -- The condition is no call, so it has left a slot.
    rw [ht.kind_eq, (Expr.cps_cond.mp hs.cps).1] at hkv
    obtain ⟨i, l, rfl, hl, hil⟩ := hv.slot hkv
    obtain ⟨c, d, hc, hd, hcd⟩ := load_matches hafter.heap hl hil
    have hopen := (hready.after hnodup hafter.evolves).opened _ List.mem_cons_self
    have henv₁ := henv.after hafter.evolves
    rw [execAll_singleton, exec, hd]
    show Matches _ (Store.get σ₁ i >>= _) _
    rw [hc]
    refine hcd.num.bind ?_
    rintro m _ rfl
    -- Either arm is a block of its own, entered where the condition has ended.
    by_cases hm : m = 0
    · rw [if_pos hm, if_pos hm]
      refine (arm_matches hopen hafter.heap (hsb.nodup hb) ?_ ?_ ?_).mono fun _ _ hres =>
        hres.after hafter hnodup
      · exact hsb.later_temp hb (Nat.le_refl _)
      · exact fun hthunk => hb.value_declared hsb.halts (hk.symm.trans hthunk)
      · intro t hentered hheap'
        rw [hk]
        exact hb.simulates hsb hregb
          (henv₁.entered hentered fun x hx => hsb.outer_declared hb hx) hheap' hentered.ready
    · rw [if_neg hm, if_neg hm]
      refine (arm_matches hopen hafter.heap (hsa.nodup ha) ?_ ?_ ?_).mono fun _ _ hres =>
        hres.after hafter hnodup
      · exact hsa.later_temp ha hb.le
      · exact fun hthunk => ha.value_declared hsa.halts hthunk
      · intro t hentered hheap'
        exact ha.simulates hsa hrega
          (henv₁.entered hentered fun x hx => hsa.outer_declared ha hx) hheap' hentered.ready
  | @Lowers.letrec _ _ defs _ _ _ _ code b _ _ _ _ hd hb, hs, hreg, henv, hheap, hready => by
    have hnodup := hs.nodup (.letrec hd hb)
    obtain ⟨hregd, hregb⟩ := registered_append hreg
    have hnodup' := nodup_left hnodup
    obtain ⟨γ, hafter, hnames⟩ := slots_after hready.left.left (nodup_left hnodup') hheap
    -- From here on the names are visible, and they hide nothing.
    have henv' : EnvRel (β ++ γ) (defs.map Prod.fst ++ Γ)
        (Source.Env.fresh (defs.map Prod.fst) σ.length ++ ρ) s.frame :=
      hnames.append (henv.after hafter.evolves) fun x hx => lookup_zip_none hx
    rw [Source.eval, execAll_append, execAll_append, execAll_slots]
    refine (hd.simulates hs.defs ?_ hregd henv' hafter.heap
      (hready.left.after hnodup' hafter.evolves)).bind ?_
    · exact fun d hd => List.mem_append_left _ (List.mem_map_of_mem hd)
    rintro σ₁ s₁ ⟨δ, hafter₁⟩
    have hboth := hafter.trans hafter₁ hnodup'
    have henv₁ := henv'.after hafter₁.evolves
    rw [List.append_assoc] at henv₁
    exact (hb.simulates hs.body hregb henv₁ hboth.heap (hready.after hnodup hboth.evolves)).mono
      fun _ _ hres => hres.after hboth hnodup
  | .native, hs, _, _, _, _ => absurd hs.halts Expr.not_onlyHalts_native

/-- The code of a list simulates the evaluation of its members, from left to right. -/
theorem LowersList.simulates {node : Node} {i : Nat} {es : List Expr} {n n' : Nat}
    {fs : List Fragment} {C : List ClassEntry} {A : List Nat} {Γ : List Bytes} {ρ : Source.Env}
    {β : Placement} {σ : Source.Slots} {s : Emitted.State} :
    LowersList cs node i es n fs n' C A → StaticList cs node i Γ es → (∀ e ∈ es, e.kind = .value) →
      Registered T C → EnvRel β Γ ρ s.frame → Heap T cs β σ s.slots →
      Ready β s (fs.flatMap Fragment.code) →
      Matches (fun r s' => ∃ γ, After T cs β γ (fs.flatMap Fragment.code) s r.2 s' ∧
          ValuesRel (β ++ γ) s' r.1 (fs.map Fragment.value))
        (Source.evalList ov ρ es σ) (execAll T ov (fs.flatMap Fragment.code) s)
  | .nil, _, _, _, _, hheap, _ => ⟨[], After.refl hheap, .nil⟩
  | .cons he hes, hs, hkinds, hreg, henv, hheap, hready => by
    obtain ⟨hrege, hregs⟩ := registered_append hreg
    obtain ⟨hkind, hkinds'⟩ := List.forall_mem_cons.mp hkinds
    have hnodup := ((LowersList.cons he hes).owned hs.halts hs.apart).distinct
    rw [List.flatMap_cons] at hready hnodup ⊢
    rw [Source.evalList, execAll_append]
    refine (he.simulates hs.head hrege henv hheap hready.left).bind ?_
    rintro ⟨v, σ₁⟩ s₁ ⟨hkv, γ, hafter, hv⟩
    rw [he.kind_eq, hkind] at hkv
    obtain ⟨i, l, rfl, hl, hil⟩ := hv.slot hkv
    rw [← bind_pure (execAll T ov _ s₁)]
    refine (hes.simulates hs.tail hkinds' hregs (henv.after hafter.evolves) hafter.heap
      (hready.after hnodup hafter.evolves)).bind ?_
    rintro ⟨is, σ₂⟩ s₂ ⟨δ, hafter₂, hvals⟩
    refine ⟨γ ++ δ, hafter.trans hafter₂ hnodup, ?_⟩
    -- What comes later assigns no reference of the first result.
    rw [← List.append_assoc]
    exact .cons ⟨l, hafter₂.evolves.refs _ l hl, placed_mono δ hil⟩ hvals

/-- The code of bindings simulates their evaluation, one after the other. -/
theorem LowersDefs.simulates {node : Node} {i : Nat} {ds : List (Bytes × Expr)} {n n' : Nat}
    {code : List Instr} {C : List ClassEntry} {A : List Nat} {Γ : List Bytes} {ρ : Source.Env}
    {β : Placement} {σ : Source.Slots} {s : Emitted.State} :
    LowersDefs cs node i ds n code n' C A → StaticList cs node i Γ (ds.map Prod.snd) →
      (∀ d ∈ ds, d.1 ∈ Γ) → Registered T C → EnvRel β Γ ρ s.frame → Heap T cs β σ s.slots →
      Ready β s code →
      Matches (fun σ' s' => ∃ γ, After T cs β γ code s σ' s')
        (Source.evalDefs ov ρ ds σ) (execAll T ov code s)
  | .nil, _, _, _, _, hheap, _ => ⟨[], After.refl hheap⟩
  | @LowersDefs.cons _ _ _ _ _ _ x _ _ v code _ _ _ _ hx he hk hds, hs, hnames, hreg, henv, hheap,
      hready => by
    obtain ⟨hrege, hregs⟩ := registered_append hreg
    obtain ⟨hname, hnames'⟩ := List.forall_mem_cons.mp hnames
    have hnodup := ((LowersDefs.cons hx he hk hds).owned (List.forall_mem_map.mp hs.halts)
      hs.apart).distinct
    have hnodup' := nodup_left hnodup
    rw [Source.evalDefs, execAll_append, execAll_append, bind_assoc]
    refine (he.simulates hs.head hrege henv hheap hready.left.left).bind ?_
    rintro ⟨w, σ₁⟩ s₁ ⟨hkw, γ, hafter, hw⟩
    obtain ⟨i, l, rfl, hl, hil⟩ := hw.slot (hkw.trans hk)
    obtain ⟨c, d, hc, _⟩ := load_matches hafter.heap hl hil
    have henv₁ := henv.after hafter.evolves
    -- The name has a slot already; now it is filled, on both sides.
    obtain ⟨j, k, hj, hk', hjk⟩ := henv₁ x hname
    obtain ⟨s₂, hs₂, hcopy⟩ := copy_matches ov hafter.heap hl hil hk' hjk hc
    have hboth := hafter.trans hcopy hnodup'
    have henv₂ := henv₁.after hcopy.evolves
    rw [List.append_assoc] at henv₂
    rw [execAll_singleton, hs₂]
    show Matches _ (Store.get σ₁ i >>= _) _
    rw [hc]
    show Matches _ (need (ρ.lookup x) >>= _) _
    rw [hj]
    refine (hds.simulates hs.tail hnames' hregs henv₂ hboth.heap
      (hready.after hnodup hboth.evolves)).mono fun σ' s' hrest => ?_
    obtain ⟨δ, hafter₂⟩ := hrest
    exact ⟨_, hboth.trans hafter₂ hnodup⟩

end

end Trampoline.Lowering

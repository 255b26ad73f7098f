import Trampoline.Proofs.Classes
import Trampoline.Proofs.Simulation

/-!
# Trampoline.Proofs.Preservation -- an emitted program does what its tree does

A program is a sequence of calls, on both sides. Between two calls, states correspond if they are about
to make corresponding calls in corresponding stores. One call keeps that, or it ends both programs in
the same way: this is a step, and a run of any length follows by induction.

The statement is about programs that the build accepts. It asks for what the code cannot check: that no
operand is a call, that binders of one name are apart, and that lambdas have names of their own.
-/

namespace Trampoline.Simulation

open Instr Emitted
open Lowering (Lowers Static known_captures)

variable {T : ClassTable} {cs : Captures} {ov : Overflow}

/-! ## One function -/

variable (T cs) in
/-- Both programs are about to make corresponding calls. -/
def StateRel (s : Source.State) (t : Option Emitted.Thunk × Emitted.Slots) : Prop :=
  ∃ β o ls, t.1 = some ⟨o, ls⟩ ∧ ClosureRel T cs β s.closure o ∧ Placed β s.args ls ∧
    Heap T cs β s.slots t.2

/-- Variables that are taken by names that a tree may not bind are not declared again. -/
theorem taken_nodup {node : Node} {Γ xs : List Bytes} {e : Expr} {n n' : Nat} {f : Fragment}
    {C : List ClassEntry} {A : List Nat} (h : Lowers cs node e n f n' C A) (hs : Static cs node Γ e)
    (hxs : xs.Nodup) (hsub : ∀ x ∈ xs, x ∈ Γ) : (xs.map Ident.named ++ declared f.code).Nodup := by
  refine List.nodup_append.mpr ⟨hxs.map fun x y heq => Ident.named.inj heq, hs.nodup h, ?_⟩
  rintro y hy z hz rfl
  obtain ⟨x, hx, rfl⟩ := List.mem_map.mp hy
  exact hs.outer_declared h (hsub x hx) hz

/-- Running the code of a function is evaluating its body up to the next call. -/
theorem runBody_matches {node : Node} {Γ xs : List Bytes} {e : Expr} {n n' : Nat} {f : Fragment}
    {C : List ClassEntry} {A : List Nat} {ρ : Source.Env} {β : Placement} {σ : Source.Slots}
    {φ : Frame} {τ : Emitted.Slots} (h : Lowers cs node e n f n' C A) (hk : f.kind = .thunk)
    (hs : Static cs node Γ e) (hreg : Registered T C) (henv : EnvRel β Γ ρ φ)
    (hheap : Heap T cs β σ τ) (hxs : xs.Nodup) (hsub : ∀ x ∈ xs, x ∈ Γ) :
    Matches (StateRel T cs) (Source.proceed ov ρ e σ)
      (runBody T ov (xs.map Ident.named) φ f τ) := by
  obtain ⟨hentered, hheap'⟩ := Heap.entered (s := ⟨φ, τ⟩) hheap (hs.nodup h)
  have henter : State.enter ⟨φ, τ⟩ (xs.map Ident.named) f.code = .ok (State.declareAll ⟨φ, τ⟩ f.code) :=
    if_pos (taken_nodup h hs hxs hsub)
  have henv' := EnvRel.entered (s := ⟨φ, τ⟩) henv hentered fun x hx => hs.outer_declared h hx
  rw [runBody, henter]
  refine (h.simulates hs hreg henv' hheap' hentered.ready).bind ?_
  rintro ⟨v, σ'⟩ s' ⟨hkv, γ, hafter, hv⟩
  rw [hk] at hkv
  cases v with
  | slot i => cases hkv
  | call c args =>
    obtain ⟨o, ls, ho, hrel, hplaced⟩ := hv
    have hresult : s'.result f.value = .ok (some ⟨o, ls⟩, s'.slots) := by
      unfold State.result
      rw [ho]
      rfl
    rw [hresult]
    exact ⟨β ++ γ, o, ls, rfl, hrel, hplaced, hafter.heap⟩

/-- The halt continuation prints what it is called with. -/
theorem halt_matches {Γ xs : List Bytes} {p : Bytes} {ρ : Source.Env} {β : Placement}
    {σ : Source.Slots} {φ : Frame} {τ : Emitted.Slots} (henv : EnvRel β Γ ρ φ)
    (hheap : Heap T cs β σ τ) (hp : p ∈ Γ) (hxs : xs.Nodup) :
    Matches (StateRel T cs) (Source.proceed ov ρ (.native [p] (Expr.haltCode p)) σ)
      (runBody T ov (xs.map Ident.named) φ (Expr.haltCode p) τ) := by
  obtain ⟨i, l, hi, hl, hil⟩ := henv p hp
  have hnodup : (xs.map Ident.named ++ declared (Expr.haltCode p).code).Nodup := by
    refine List.nodup_append.mpr
      ⟨hxs.map fun x y heq => Ident.named.inj heq, List.pairwise_singleton _ _, ?_⟩
    rintro y hy z hz rfl
    obtain ⟨x, _, rfl⟩ := List.mem_map.mp hy
    cases List.mem_singleton.mp hz
  have henter : State.enter ⟨φ, τ⟩ (xs.map Ident.named) (Expr.haltCode p).code =
      .ok ⟨φ.set exitStatus .status, τ⟩ := if_pos hnodup
  have hl' : φ.set exitStatus .status (.named p) = some (.slot (some l)) :=
    (φ.set_of_ne _ Ident.noConfusion).trans hl
  obtain ⟨c, d, hc, hd, hcd⟩ :=
    load_matches (s := ⟨φ.set exitStatus .status, τ⟩) (x := .named p) hheap hl' hil
  have hsource : Source.proceed ov ρ (.native [p] (Expr.haltCode p)) σ =
      .error (.ended (.printed c.printed)) := by
    rw [Source.proceed, Source.eval]
    show ((need (ρ.lookup p) >>= _) >>= _) = _
    rw [hi]
    show ((Store.get σ i >>= _) >>= _) = _
    rw [hc]
    rfl
  have htarget : runBody T ov (xs.map Ident.named) φ (Expr.haltCode p) τ =
      .error (.ended (.printed d.printed)) := by
    rw [runBody, henter]
    show (execAll T ov [.halt (.named p)] ⟨φ.set exitStatus .status, τ⟩ >>= _) = _
    rw [execAll_singleton, exec, hd]
    rfl
  rw [hsource, htarget, hcd.printed]
  exact Matches.refl_ended _

/-! ## One call, and all calls -/

/-- What a function finds when it starts: parameters first, and then fields. -/
theorem ClosureRel.envRel {β : Placement} {c : Source.Closure} {clo : Closure} {args ls fields : List Nat}
    (hparams : clo.params = c.params) (hargs : Placed β args ls)
    (hlen : args.length = c.params.length)
    (hfields : ∀ x ∈ clo.captured, ∃ i l, c.env.lookup x = some i ∧
      (clo.captured.zip fields).lookup x = some l ∧ β[i]? = some l) :
    EnvRel β (c.params ++ clo.captured) (c.params.zip args ++ c.env)
      (Frame.ofNames (clo.params.zip ls ++ clo.captured.zip fields)) := by
  intro x hx
  rw [Frame.ofNames, List.lookup_append, List.lookup_append, hparams]
  by_cases hp : x ∈ c.params
  · obtain ⟨i, l, hi, hl, hil⟩ := hargs.lookup hlen hp
    exact ⟨i, l, by rw [hi, Option.some_or], by rw [hl, Option.some_or]; rfl, hil⟩
  · obtain ⟨i, l, hi, hl, hil⟩ := hfields x ((List.mem_append.mp hx).resolve_left hp)
    refine ⟨i, l, ?_, ?_, hil⟩
    · rw [lookup_zip_none hp, Option.none_or, hi]
    · rw [lookup_zip_none hp, Option.none_or, hl]
      rfl

/-- **One call.** Making the next call keeps programs corresponding or ends both in the same way. -/
theorem step_matches {p : Program} {range : Nat × Nat}
    (hspan : ∀ name clo, p.table.classOf? name = some clo →
      clo.params.length ∈ ClassTable.span range)
    {s : Source.State} {t : Option Emitted.Thunk × Emitted.Slots} (h : StateRel p.table cs s t) :
    Matches (StateRel p.table cs) (Source.step ov s) (Emitted.step p range ov t) := by
  obtain ⟨thunk, τ⟩ := t
  obtain ⟨β, o, ls, rfl, ⟨clo, hclo, hparams, hnodup, _, hfields, hcode⟩, hargs, hheap⟩ := h
  have hforce : Emitted.step p range ov (some ⟨o, ls⟩, τ) =
      if ls.length = clo.params.length ∧ clo.params.length ∈ ClassTable.span range then
        invoke p.table ov clo o.fields ls τ
      else .error (.ended (.wrongArity clo.params.length ls.length)) := by
    rw [Emitted.step, force, hclo]
    rfl
  have hmem := hspan _ _ hclo
  rw [hparams] at hmem
  rw [hforce, Source.step, ← hargs.length_eq, hparams]
  by_cases hlen : s.args.length = s.closure.params.length
  · rw [if_pos hlen, if_pos ⟨hlen, hmem⟩, invoke]
    have henv := ClosureRel.envRel hparams hargs hlen hfields
    rw [hparams] at henv ⊢
    have hsub : ∀ x ∈ s.closure.params, x ∈ s.closure.params ++ clo.captured := fun x hx =>
      List.mem_append_left _ hx
    cases hcode with
    | lowered hL hk hs hreg => exact runBody_matches hL hk hs hreg henv hheap hnodup hsub
    | halt q hbody hcode hq =>
      rw [hbody, hcode]
      exact halt_matches henv hheap hq hnodup
  · rw [if_neg hlen, if_neg fun hboth => hlen hboth.1]
    exact Matches.refl_ended _

/-- **All calls.** The programs correspond after any number of calls, until both have ended. -/
theorem run_matches {p : Program} {range : Nat × Nat} {e : Expr} {n n' : Nat} {A : List Nat}
    (hL : Lowers cs .root e n p.root n' p.table.entries A) (hk : p.root.kind = .thunk)
    (hs : Static cs .root [] e) (hreg : Registered p.table p.table.entries)
    (hspan : ∀ name clo, p.table.classOf? name = some clo →
      clo.params.length ∈ ClassTable.span range) (k : Nat) :
    Matches (StateRel p.table cs) (Source.run ov e k) (Emitted.run p range ov k) := by
  induction k with
  | zero =>
    have henv : EnvRel [] [] [] Frame.empty := fun x hx => absurd hx List.not_mem_nil
    have hheap : Heap p.table cs [] [] [] :=
      ⟨rfl, List.nodup_nil, fun i l hil => absurd hil (by simp)⟩
    exact runBody_matches hL hk hs hreg henv hheap (List.nodup_nil (α := Bytes)) fun x hx => hx
  | succ k ih => exact ih.bind fun s t hst => step_matches hspan hst

end Trampoline.Simulation

namespace Trampoline

open Lowering Simulation

/-! ## Programs that the build accepts -/

/-- **Preservation.** Take a closed tree that the build accepts and whose native code is that of halt
continuations, in which no operand is a call, no two binders of one name lie in the same lambda or in
nested ones (where the program itself counts as the outermost), and lambdas have names of their own.
After any number of calls the tree and the emitted program are both still running, or both have ended,
and in the same way: they have printed the same text, or stopped at the same check. The emitted program
never does what has no meaning. -/
theorem lowering_preserves (ov : Overflow) {e : Expr} {next next' : Nat} {text : Bytes}
    (hhalts : e.OnlyHalts) (hclosed : e.free = []) (hcps : e.Cps) (hbinders : e.BindersApart)
    (hnames : e.LambdasNamedApart) (h : Build.unit e next = (.ok text, next')) :
    ∃ p range, Build.program e next = (.ok p, next') ∧ p.table.arityRange = .ok range ∧
      text = p.textFor range ∧
      ∀ k, observe (Source.run ov e k) = observe (Emitted.run p range ov k) ∧
        observe (Emitted.run p range ov k) ≠ .stuck := by
  obtain ⟨p, range, hprogram, hk, hrange, htext⟩ := Build.unit_ok h
  obtain ⟨st, hlower, hst, rfl⟩ := Build.program_ok hprogram
  obtain ⟨A, hL, htable⟩ := Build.lower_ok hlower
  rw [← hst] at hL htable
  have hstatic : Static (e.captures .root) .root [] e :=
    { halts := hhalts
      cps := hcps
      known := known_captures e
      apart := hbinders
      free := fun x hx => hclosed ▸ hx
      outer := fun x hx => absurd hx List.not_mem_nil }
  have hdefs := ClassTable.defs_of_eq_grow htable
  have hapart : (p.table.defs.map ClassDef.name).Nodup := by
    rw [hdefs, List.map_map]
    exact hL.names ▸ Expr.lambdasNamedApart_iff.mp hnames
  have hreg : Registered p.table p.table.entries := fun c hc =>
    ClassTable.classOf?_of_mem hapart (hdefs ▸ List.mem_map_of_mem hc)
  have hspan : ∀ name clo, p.table.classOf? name = some clo →
      clo.params.length ∈ ClassTable.span range := by
    intro name clo hclo
    obtain ⟨d, hd, hclosure⟩ := ClassTable.mem_of_classOf? hclo
    rw [hdefs] at hd
    obtain ⟨c, hc, rfl⟩ := List.mem_map.mp hd
    have hordered : p.table.Ordered := by
      rw [htable]
      exact ClassTable.Ordered.grow (t := ClassTable.empty) List.Pairwise.nil _ _
    refine ClassTable.mem_span hordered hrange ?_
    rw [htable]
    exact ClassTable.mem_arities_grow.mpr (Or.inl (hL.marked c hc clo hclosure))
  exact ⟨p, range, hprogram, hrange, htext, fun k =>
    (run_matches hL hk hstatic hreg hspan k).observe_eq⟩

/-- A countdown from three is still running after eleven steps, and ends with the twelfth, having printed zero. -/
theorem lowering_preserves_countdown :
    (countdown.OnlyHalts ∧ countdown.free = [] ∧ countdown.Cps ∧ countdown.BindersApart ∧
      countdown.LambdasNamedApart) ∧
    ∃ text next' p range, Build.unit countdown 0 = (.ok text, next') ∧
      Build.program countdown 0 = (.ok p, next') ∧ text = p.textFor range ∧
      observe (Emitted.run p range (fun _ => none) 11) = .running ∧
      observe (Emitted.run p range (fun _ => none) 12) = .ended (.printed (ascii "0\n")) := by
  have hclosed : countdown.free = [] := by decide
  have hcps : countdown.Cps := by decide +kernel
  have hbinders : countdown.BindersApart := by decide +kernel
  have hnames : countdown.LambdasNamedApart := by decide +kernel
  have hbuilt : ((Build.unit countdown 0).1.toOption.map fun _ => ()) = some () := by decide +kernel
  obtain ⟨text, next', h, _⟩ := Build.exists_ok hbuilt
  obtain ⟨p, range, hprogram, _, htext, hruns⟩ :=
    lowering_preserves (fun _ => none) onlyHalts_countdown hclosed hcps hbinders hnames h
  refine ⟨⟨onlyHalts_countdown, hclosed, hcps, hbinders, hnames⟩, text, next', p, range, h, hprogram,
    htext, ?_, ?_⟩
  · rw [← (hruns 11).1]
    decide +kernel
  · rw [← (hruns 12).1]
    decide +kernel

end Trampoline

import Trampoline.Proofs.Respelling

/-!
# Trampoline.Proofs.Renumbering -- code that differs in the numbers of its temporaries

Two pieces of code are alike if they differ in nothing but the numbers of temporaries. Which number stands for
which is a relation, so that the pieces of a larger piece can be compared by themselves and their relations put
together. The texts of code that is alike have the same words in the same places, but for temporaries: one
text becomes the other when these are renumbered.
-/

namespace Trampoline

open Bytes CodeToken

/-! ## The temporary that a word spells -/

namespace Temp

def all : List Temp := [.number, .boolean, .string, .closure, .primitive, .choice, .ret]

/-- The number behind a stem, written without leading zeros. -/
def numberBehind? (t : Temp) (w : Bytes) : Option Nat :=
  if startsWith w t.stem && decimal (digitsValue (w.drop t.stem.length)) == w.drop t.stem.length then
    some (digitsValue (w.drop t.stem.length))
  else none

/-- The temporary that a word spells. -/
def ofWord? (w : Bytes) : Option (Temp × Nat) := all.findSome? fun t => (t.numberBehind? w).map fun n => (t, n)

theorem numberBehind?_eq_some {t : Temp} {w : Bytes} {n : Nat} :
    t.numberBehind? w = some n ↔ w = Ident.text (.temp t n) := by
  unfold numberBehind?
  constructor
  · intro h
    split at h
    · rename_i hw
      rw [Bool.and_eq_true, beq_iff_eq] at hw
      obtain ⟨r, rfl⟩ := List.isPrefixOf_iff_prefix.mp hw.1
      rw [List.drop_left] at hw h
      rw [Ident.text, ← Option.some.inj h, hw.2]
    · cases h
  · rintro rfl
    have hlead : startsWith (Ident.text (.temp t n)) t.stem = true :=
      List.isPrefixOf_iff_prefix.mpr (List.prefix_append _ _)
    rw [hlead, Ident.text, List.drop_left, digitsValue_decimal]
    simp

/-- A word is taken for a temporary only if it is the text of one. -/
theorem ofWord?_eq_some {w : Bytes} {t : Temp} {n : Nat} :
    ofWord? w = some (t, n) ↔ w = Ident.text (.temp t n) := by
  have hsound {t : Temp} {n : Nat} (h : ofWord? w = some (t, n)) : w = Ident.text (.temp t n) := by
    obtain ⟨t', -, ht⟩ := List.exists_of_findSome?_eq_some h
    obtain ⟨n', hn, heq⟩ := Option.map_eq_some_iff.mp ht
    cases heq
    exact numberBehind?_eq_some.mp hn
  refine ⟨hsound, fun h => ?_⟩
  cases hw : ofWord? w with
  | none =>
    have hnone := List.findSome?_eq_none_iff.mp hw t (by cases t <;> decide)
    rw [numberBehind?_eq_some.mpr h] at hnone
    cases hnone
  | some p =>
    -- A word spells one temporary at most.
    have hsame := Ident.Spelled.text_inj (x := .temp p.1 p.2) (y := .temp t n) trivial trivial
      ((hsound hw).symm.trans h)
    cases hsame
    rfl

end Temp

/-- A word with the number of a temporary replaced. -/
def renumberWord (φ : Nat → Nat) (w : Bytes) : Bytes :=
  match Temp.ofWord? w with
  | some (t, n) => Ident.text (.temp t (φ n))
  | none => w

theorem renumberWord_temp (φ : Nat → Nat) (t : Temp) (n : Nat) :
    renumberWord φ (Ident.text (.temp t n)) = Ident.text (.temp t (φ n)) := by
  rw [renumberWord, Temp.ofWord?_eq_some.mpr rfl]

/-- Any other word stays as it is. -/
theorem renumberWord_of_ne {φ : Nat → Nat} {w : Bytes} (h : ∀ t n, w ≠ Ident.text (.temp t n)) :
    renumberWord φ w = w := by
  unfold renumberWord
  cases hw : Temp.ofWord? w with
  | none => rfl
  | some p => exact absurd (Temp.ofWord?_eq_some.mp hw) (h p.1 p.2)

example : renumberWord (· + 8) (ascii "__if_2") = ascii "__if_10" ∧
    renumberWord (· + 8) (ascii "__if_02") = ascii "__if_02" := by
  decide +kernel

/-- A text with its temporaries renumbered. -/
def renumberText (φ : Nat → Nat) : Bytes → Bytes := replaceWords (renumberWord φ)

/-- A replacement that keeps all words but temporaries, and takes numbers to those that stand for them. -/
structure Renames (ρ : Bytes → Bytes) (R : Nat → Nat → Prop) : Prop where
  spares : Spares ρ
  names : ∀ x, ρ (Name.ofVariable x) = Name.ofVariable x
  classes : ∀ x, ρ (Name.ofClass x) = Name.ofClass x
  temps : ∀ t k k', R k k' → ρ (Ident.text (.temp t k)) = Ident.text (.temp t k')

/-- Temporaries start in a way of their own. -/
theorem head_temp (t : Temp) (n : Nat) : (Ident.text (.temp t n)).head? = some Byte.underscore := by
  cases t <;> rfl

/-- No name looks like a temporary. -/
theorem Ident.text_named_ne (x : Bytes) (t : Temp) (k : Nat) : text (.named x) ≠ text (.temp t k) := by
  intro h
  have hhead := congrArg List.head? h
  rw [head_temp] at hhead
  cases hhead

/-- Renumbering words renames temporaries and spares everything else. -/
theorem renames_renumberWord {φ : Nat → Nat} {R : Nat → Nat → Prop} (h : ∀ k k', R k k' → φ k = k') :
    Renames (renumberWord φ) R where
  spares w hw := by
    refine renumberWord_of_ne fun t n heq => ?_
    have htemp : isMade (Ident.text (.temp t n)) = true := by
      refine List.any_eq_true.mpr ⟨ascii "__", by decide, List.isPrefixOf_iff_prefix.mpr ?_⟩
      exact List.IsPrefix.trans (by cases t <;> decide) (List.prefix_append t.stem _)
    rw [heq, htemp] at hw
    cases hw
  names x := renumberWord_of_ne fun t n => Ident.text_named_ne x t n
  classes x := by
    refine renumberWord_of_ne fun t n heq => ?_
    have hhead := congrArg List.head? heq
    rw [head_temp] at hhead
    cases hhead
  temps t k k' hk := by rw [renumberWord_temp, h k k' hk]

/-! ## Code that is alike -/

inductive Ident.Alike (R : Nat → Nat → Prop) : Ident → Ident → Prop
  | named (x : Bytes) : Ident.Alike R (.named x) (.named x)
  | temp (t : Temp) {k k' : Nat} (h : R k k') : Ident.Alike R (.temp t k) (.temp t k')

inductive PrimCall.Alike (R : Nat → Nat → Prop) : PrimCall → PrimCall → Prop
  | unary (p : Unary) {a a' : Ident} (ha : a.Alike R a') : PrimCall.Alike R (.unary p a) (.unary p a')
  | binary (p : Binary) {a a' b b' : Ident} (ha : a.Alike R a') (hb : b.Alike R b') :
      PrimCall.Alike R (.binary p a b) (.binary p a' b')

inductive Payload.Alike (R : Nat → Nat → Prop) : Payload → Payload → Prop
  | number (n : Int64) : Payload.Alike R (.number n) (.number n)
  | boolean (b : Bool) : Payload.Alike R (.boolean b) (.boolean b)
  | string (s : Bytes) : Payload.Alike R (.string s) (.string s)
  | closure (lambda : Bytes) (captured : List Bytes) :
      Payload.Alike R (.closure lambda (captured.map .named)) (.closure lambda (captured.map .named))
  | primitive {c c' : PrimCall} (hc : c.Alike R c') : Payload.Alike R (.primitive c) (.primitive c')

mutual

inductive Instr.Alike (R : Nat → Nat → Prop) : Instr → Instr → Prop
  | put {dst dst' : Ident} {p p' : Payload} (hd : dst.Alike R dst') (hp : p.Alike R p') :
      Instr.Alike R (.put dst p) (.put dst' p')
  | call {dst dst' callee callee' : Ident} {args args' : List Ident} (hd : dst.Alike R dst')
      (hc : callee.Alike R callee') (ha : List.Forall₂ (Ident.Alike R) args args') :
      Instr.Alike R (.call dst callee args) (.call dst' callee' args')
  | branch {dst dst' test test' av av' bv bv' : Ident} (kind : Kind) {a a' b b' : List Instr}
      (hd : dst.Alike R dst') (ht : test.Alike R test') (ha : Instr.AlikeAll R a a') (hav : av.Alike R av')
      (hb : Instr.AlikeAll R b b') (hbv : bv.Alike R bv') :
      Instr.Alike R (.branch dst kind test a av b bv) (.branch dst' kind test' a' av' b' bv')
  | slot (x : Bytes) : Instr.Alike R (.slot (.named x)) (.slot (.named x))
  | copy (x : Bytes) {src src' : Ident} (hs : src.Alike R src') :
      Instr.Alike R (.copy (.named x) src) (.copy (.named x) src')

inductive Instr.AlikeAll (R : Nat → Nat → Prop) : List Instr → List Instr → Prop
  | nil : Instr.AlikeAll R [] []
  | cons {i i' : Instr} {is is' : List Instr} (hi : i.Alike R i') (his : Instr.AlikeAll R is is') :
      Instr.AlikeAll R (i :: is) (i' :: is')

end

section

variable {R S : Nat → Nat → Prop}

theorem Ident.Alike.mono (hRS : ∀ k k', R k k' → S k k') {x x' : Ident} (h : x.Alike R x') : x.Alike S x' := by
  cases h with
  | named x => exact .named x
  | temp t hk => exact .temp t (hRS _ _ hk)

theorem Payload.Alike.mono (hRS : ∀ k k', R k k' → S k k') {p p' : Payload} (h : p.Alike R p') :
    p.Alike S p' := by
  cases h with
  | number n => exact .number n
  | boolean b => exact .boolean b
  | string s => exact .string s
  | closure lambda captured => exact .closure lambda captured
  | primitive hc =>
    cases hc with
    | unary p ha => exact .primitive (.unary p (ha.mono hRS))
    | binary p ha hb => exact .primitive (.binary p (ha.mono hRS) (hb.mono hRS))

theorem Payload.Alike.tag_eq {p p' : Payload} (h : p.Alike R p') : p.tag = p'.tag := by
  cases h with
  | primitive hc =>
    cases hc with
    | unary p _ => rfl
    | binary p _ _ => cases p <;> rfl
  | _ => rfl

mutual

theorem Instr.Alike.mono (hRS : ∀ k k', R k k' → S k k') :
    ∀ {i i' : Instr}, i.Alike R i' → i.Alike S i'
  | _, _, .put hd hp => .put (hd.mono hRS) (hp.mono hRS)
  | _, _, .call hd hc ha => .call (hd.mono hRS) (hc.mono hRS) (ha.imp fun _ _ h => h.mono hRS)
  | _, _, .branch kind hd ht ha hav hb hbv =>
    .branch kind (hd.mono hRS) (ht.mono hRS) (ha.mono hRS) (hav.mono hRS) (hb.mono hRS) (hbv.mono hRS)
  | _, _, .slot x => .slot x
  | _, _, .copy x hs => .copy x (hs.mono hRS)

theorem Instr.AlikeAll.mono (hRS : ∀ k k', R k k' → S k k') :
    ∀ {is is' : List Instr}, Instr.AlikeAll R is is' → Instr.AlikeAll S is is'
  | _, _, .nil => .nil
  | _, _, .cons hi his => .cons (hi.mono hRS) (his.mono hRS)

end

theorem Instr.AlikeAll.append {a a' b b' : List Instr} (ha : Instr.AlikeAll R a a') (hb : Instr.AlikeAll R b b') :
    Instr.AlikeAll R (a ++ b) (a' ++ b') := by
  induction a generalizing a' with
  | nil =>
    cases ha
    exact hb
  | cons i is ih =>
    cases ha with
    | cons hi his => exact .cons hi (ih his)

theorem Instr.AlikeAll.forall₂ {is is' : List Instr} (h : Instr.AlikeAll R is is') :
    List.Forall₂ (Instr.Alike R) is is' := by
  induction is generalizing is' with
  | nil =>
    cases h
    exact .nil
  | cons i is ih =>
    cases h with
    | cons hi his => exact .cons hi (ih his)

theorem Instr.alikeAll_slots (ds : List (Bytes × Expr)) :
    Instr.AlikeAll R (ds.map fun d => .slot (.named d.1)) (ds.map fun d => .slot (.named d.1)) := by
  induction ds with
  | nil => exact .nil
  | cons d ds ih => exact .cons (.slot d.1) ih

end

/-- Fragments that are alike come from the same node and have results of the same kind. -/
structure Fragment.Alike (R : Nat → Nat → Prop) (f f' : Fragment) : Prop where
  source : f.source = f'.source
  kind : f.kind = f'.kind
  value : f.value.Alike R f'.value
  code : Instr.AlikeAll R f.code f'.code

theorem Fragment.Alike.mono {R S : Nat → Nat → Prop} (hRS : ∀ k k', R k k' → S k k') {f f' : Fragment}
    (h : f.Alike R f') : f.Alike S f' :=
  ⟨h.source, h.kind, h.value.mono hRS, h.code.mono hRS⟩

section

variable {R : Nat → Nat → Prop}

theorem Instr.alikeAll_flatMap {fs fs' : List Fragment} (h : List.Forall₂ (Fragment.Alike R) fs fs') :
    Instr.AlikeAll R (fs.flatMap Fragment.code) (fs'.flatMap Fragment.code) := by
  induction h with
  | nil => exact .nil
  | cons hf _ ih => exact hf.code.append ih

theorem Fragment.values_alike {fs fs' : List Fragment} (h : List.Forall₂ (Fragment.Alike R) fs fs') :
    List.Forall₂ (Ident.Alike R) (fs.map Fragment.value) (fs'.map Fragment.value) :=
  List.forall₂_map_left_iff.mpr (List.forall₂_map_right_iff.mpr (h.imp fun _ _ hf => hf.value))

theorem Ident.dropLast_alike {xs xs' : List Ident} (h : List.Forall₂ (Ident.Alike R) xs xs') :
    List.Forall₂ (Ident.Alike R) xs.dropLast xs'.dropLast := by
  induction h with
  | nil => exact .nil
  | cons hx hxs ih =>
    cases hxs with
    | nil => exact .nil
    | cons hy hys => exact .cons hx ih

theorem Ident.getLastD_alike {xs xs' : List Ident} (h : List.Forall₂ (Ident.Alike R) xs xs') {y y' : Ident}
    (hy : y.Alike R y') : (xs.getLastD y).Alike R (xs'.getLastD y') := by
  induction h generalizing y y' with
  | nil => exact hy
  | cons hx _ ih =>
    rw [List.getLastD_cons, List.getLastD_cons]
    exact ih hx

/-- Which call a name and operands make is told by the name and the number of the operands. -/
theorem PrimCall.ofName?_alike (name : Bytes) {xs xs' : List Ident} (h : List.Forall₂ (Ident.Alike R) xs xs') :
    Option.Rel (PrimCall.Alike R) (PrimCall.ofName? name xs) (PrimCall.ofName? name xs') := by
  unfold PrimCall.ofName?
  cases Primitive.ofName? name with
  | none => exact .none
  | some prim =>
    cases prim with
    | unary p =>
      rcases h with _ | ⟨ha, _ | ⟨_, _⟩⟩
      · exact .none
      · exact .some (.unary p ha)
      · exact .none
    | binary p =>
      rcases h with _ | ⟨ha, _ | ⟨hb, _ | ⟨_, _⟩⟩⟩
      · exact .none
      · exact .none
      · exact .some (.binary p ha hb)
      · exact .none

end

/-- The bodies of a lambda: lowered code that is alike, or the code of the same halt continuation. -/
def Fragment.BodyAlike (R : Nat → Nat → Prop) (f f' : Fragment) : Prop :=
  f.Alike R f' ∨ ∃ p, f = Expr.haltCode p ∧ f' = Expr.haltCode p

structure Closure.Alike (R : Nat → Nat → Prop) (c c' : Closure) : Prop where
  captured : c.captured = c'.captured
  params : c.params = c'.params
  body : c.body.BodyAlike R c'.body

structure ClassDef.Alike (R : Nat → Nat → Prop) (d d' : ClassDef) : Prop where
  name : d.name = d'.name
  closure : Option.Rel (Closure.Alike R) d.closure d'.closure

structure ClassTable.Alike (R : Nat → Nat → Prop) (t t' : ClassTable) : Prop where
  arities : t.arities = t'.arities
  memo : t.memo = t'.memo
  defs : List.Forall₂ (ClassDef.Alike R) t.defs t'.defs

/-! ## Texts of code that is alike -/

section

variable {R : Nat → Nat → Prop} {ρ : Bytes → Bytes} (hρ : Renames ρ R)

include hρ

theorem Renames.ofVariable (x : Bytes) : Respells ρ .clean (Name.ofVariable x) (Name.ofVariable x) .word :=
  respells_word (isWord_ofVariable x) (isWord_ofVariable x) (hρ.names x)

theorem Renames.ofClass (x : Bytes) : Respells ρ .clean (Name.ofClass x) (Name.ofClass x) .word :=
  respells_word (isWord_ofClass x) (isWord_ofClass x) (hρ.classes x)

theorem Renames.variables (xs : List Bytes) :
    ∀ x ∈ xs.map Name.ofVariable, Respells ρ .clean x x .word := by
  intro x hx
  obtain ⟨y, -, rfl⟩ := List.mem_map.mp hx
  exact hρ.ofVariable y

/-- Alike variables are spelled alike but for their numbers. -/
theorem Ident.Alike.respells {x x' : Ident} (h : x.Alike R x') : Respells ρ .clean x.text x'.text .word := by
  have hword (t : Temp) (n : Nat) : IsWord (Ident.text (.temp t n)) :=
    isWord_append (by cases t <;> decide) (all_isWord_decimal n)
  cases h with
  | named x => exact hρ.ofVariable x
  | temp t hk => exact respells_word (hword t _) (hword t _) (hρ.temps t _ _ hk)

theorem PrimCall.Alike.respells {c c' : PrimCall} (h : c.Alike R c') : Respells ρ .clean c.text c'.text .token := by
  have hs := hρ.spares
  have hnumber {x x' : Ident} (hx : x.Alike R x') :
      Respells ρ .clean (PrimCall.number x) (PrimCall.number x') .clean :=
    (hx.respells hρ).fixed hs (by decide)
  have hstring {x x' : Ident} (hx : x.Alike R x') :
      Respells ρ .clean (PrimCall.string x) (PrimCall.string x') .clean :=
    (hx.respells hρ).fixed hs (by decide)
  have hboth {x x' y y' : Ident} {sign : Bytes} (hx : x.Alike R x') (hy : y.Alike R y')
      (hsign : isFixed .clean sign = true) :
      Respells ρ .clean (PrimCall.number x ++ sign ++ PrimCall.number y)
        (PrimCall.number x' ++ sign ++ PrimCall.number y') .token :=
    (((hnumber hx).fixed hs hsign).append (hnumber hy)).token
  cases h with
  | unary p ha =>
    cases p
    -- The number at the end is no fixed text, because it could go on.
    have hzero : ascii " == 0" = ascii " == " ++ ascii "0" := by decide
    show Respells ρ .clean (PrimCall.number _ ++ ascii " == 0") (PrimCall.number _ ++ ascii " == 0") .token
    rw [hzero, ← List.append_assoc, ← List.append_assoc]
    exact ((hnumber ha).fixed hs (by decide)).append (respells_number (by decide) (by decide))
  | binary p ha hb =>
    cases p with
    | append =>
      refine .token (.fixed (.append (.fixed (.append (respells_fixed hs ?_) (hstring ha)) hs ?_) (hstring hb))
        hs ?_)
      · decide +kernel
      · decide
      · decide
    | differ =>
      have hzero : ascii ") != 0" = ascii ") != " ++ ascii "0" := by decide
      show Respells ρ .clean (PrimCall.string _ ++ ascii "->compare(*" ++ PrimCall.string _ ++ ascii ") != 0")
        (PrimCall.string _ ++ ascii "->compare(*" ++ PrimCall.string _ ++ ascii ") != 0") .token
      rw [hzero, ← List.append_assoc, ← List.append_assoc]
      refine .append (.fixed (.append (.fixed (hstring ha) hs ?_) (hstring hb)) hs ?_)
        (respells_number (by decide) (by decide))
      · decide
      · decide
    | _ => exact hboth ha hb (by decide)

theorem respells_integerConstant (n : Int64) :
    Respells ρ .clean (integerConstant n) (integerConstant n) .token := by
  have hnumber (k : Nat) : Respells ρ .clean (decimal k ++ ascii "L") (decimal k ++ ascii "L") .token := by
    refine respells_number ?_ ?_
    · have hne : decimal k ≠ [] := by
        intro hnil
        have := head_decimal k
        rw [hnil] at this
        cases this
      rw [List.head?_append_of_ne_nil _ hne]
      exact head_decimal k
    · rw [List.all_append, all_isWord_decimal]
      decide
  unfold integerConstant signedDecimal
  split
  · exact (respells_fixed hρ.spares (by decide +kernel)).token
  · split
    · have hminus : Respells ρ .clean [Byte.minus] [Byte.minus] .clean := respells_fixed hρ.spares (by decide)
      exact hminus.append (hnumber _)
    · exact hnumber _

/-- So are alike contents. -/
theorem Payload.Alike.respells {p p' : Payload} (h : p.Alike R p') : Respells ρ .clean p.text p'.text .token := by
  have hs := hρ.spares
  cases h with
  | number n => exact respells_integerConstant hρ n
  | boolean b => cases b <;> exact respells_number (by decide) (by decide)
  | string s =>
    refine .token (.fixed (.append (.fixed (.append (respells_fixed hs ?_) (respells_quoted s)) hs ?_)
      (respells_decimal s.length)) hs ?_)
    · decide +kernel
    · decide
    · decide
  | closure lambda captured =>
    have hcaptured : Respells ρ .clean (commaList ((captured.map Ident.named).map Ident.text))
        (commaList ((captured.map Ident.named).map Ident.text)) .token := by
      rw [List.map_map]
      exact respells_commaList hs (forall₂_map fun x _ => (hρ.ofVariable x).token)
    refine .token (.fixed (.append (.fixed (.append (respells_fixed hs ?_) (hρ.ofClass lambda)) hs ?_)
      hcaptured) hs ?_)
    · decide
    · decide
    · decide
  | primitive hc => exact hc.respells hρ

theorem Instr.Alike.respells_decl {i i' : Instr} (h : i.Alike R i') : Respells ρ .clean i.decl i'.decl .clean := by
  cases h with
  | put hd _ => exact respells_declareSlot hρ.spares (hd.respells hρ)
  | call hd _ _ => exact respells_declareThunk hρ.spares (hd.respells hρ)
  | branch kind hd _ _ _ _ _ =>
    cases kind with
    | value => exact respells_declareReference hρ.spares (hd.respells hρ)
    | thunk => exact respells_declareThunk hρ.spares (hd.respells hρ)
  | slot x => exact respells_declareSlot hρ.spares (hρ.ofVariable x)
  | copy _ _ => exact respells_nil

theorem Instr.AlikeAll.respells_declLines {is is' : List Instr} (h : Instr.AlikeAll R is is') :
    RespellsLines ρ (Instr.declLines is) (Instr.declLines is') := by
  induction is generalizing is' with
  | nil =>
    cases h
    exact .nil
  | cons i is ih =>
    cases h with
    | cons hi his => exact (hi.respells_decl hρ).line.append (ih his)

theorem respells_assignResult (kind : Kind) {dst dst' value value' : Ident} (hd : dst.Alike R dst')
    (hv : value.Alike R value') :
    Respells ρ .clean (assignResult kind dst value) (assignResult kind dst' value') .clean := by
  have hs := hρ.spares
  cases kind with
  | value =>
    exact .fixed (.append (.fixed (hd.respells hρ) hs (by decide)) (hv.respells hρ)) hs (by decide)
  | thunk =>
    exact .fixed (.append (.fixed (hd.respells hρ) hs (by decide)) (hv.respells hρ)) hs (by decide)

theorem respells_statement {dst dst' : Ident} {p p' : Payload} (hd : dst.Alike R dst') (hp : p.Alike R p') :
    Respells ρ .clean (p.statement dst) (p'.statement dst') .clean := by
  have hs := hρ.spares
  have htag (t : Tag) : Respells ρ .clean t.text t.text .word := by
    cases t <;> exact respells_word (by decide) (by decide) (hs _ (by decide))
  unfold Payload.statement
  rw [← hp.tag_eq]
  refine .fixed (.append (.fixed (.append (.fixed (hd.respells hρ) hs ?_) (htag p.tag)) hs ?_) (hp.respells hρ))
    hs ?_
  · decide
  · decide
  · decide

theorem respells_idents {xs xs' : List Ident} (h : List.Forall₂ (Ident.Alike R) xs xs') :
    Respells ρ .clean (commaList (xs.map Ident.text)) (commaList (xs'.map Ident.text)) .token := by
  refine respells_commaList hρ.spares (List.forall₂_map_left_iff.mpr (List.forall₂_map_right_iff.mpr ?_))
  exact h.imp fun _ _ hx => (hx.respells hρ).token

theorem respells_test {x x' : Ident} (h : x.Alike R x') :
    Respells ρ .clean (ascii "if (" ++ x.text ++ ascii "->num()) \x7b")
      (ascii "if (" ++ x'.text ++ ascii "->num()) \x7b") .clean :=
  (h.respells hρ).between hρ.spares (by decide) (by decide)

end

section

variable {R : Nat → Nat → Prop} {ρ : Bytes → Bytes}

mutual

/-- So are the operations of alike instructions. -/
theorem Instr.Alike.respells_opLines (hρ : Renames ρ R) :
    ∀ {i i' : Instr}, i.Alike R i' → RespellsLines ρ i.opLines i'.opLines
  | _, _, .put hd hp => by
    simp only [Instr.opLines]
    exact .cons (respells_statement hρ hd hp) .nil
  | _, _, .call hd hc ha => by
    have hs := hρ.spares
    simp only [Instr.opLines]
    refine .cons (.fixed (.append (.fixed (.append (.fixed (hd.respells hρ) hs ?_) (hc.respells hρ)) hs ?_)
      (respells_idents hρ ha)) hs ?_) .nil
    · decide
    · decide
    · decide
  | _, _, .branch kind hd ht ha hav hb hbv => by
    have hs := hρ.spares
    -- Each arm is a block of its own, with its declarations first.
    have hthen := (ha.respells_declLines hρ).append (ha.respells_opLinesAll hρ)
    have helse := (hb.respells_declLines hρ).append (hb.respells_opLinesAll hρ)
    have hturn : Respells ρ .clean (ascii "\x7d else \x7b") (ascii "\x7d else \x7b") .clean :=
      respells_fixed hs (by decide)
    have hclose : Respells ρ .clean (ascii "\x7d") (ascii "\x7d") .clean := respells_fixed hs (by decide)
    simp only [Instr.opLines, ← List.append_assoc]
    exact .cons (respells_test hρ ht) (hthen.append (.cons (respells_assignResult hρ kind hd hav) (.cons hturn
      (helse.append (.cons (respells_assignResult hρ kind hd hbv) (.cons hclose .nil))))))
  | _, _, .slot x => by
    simp only [Instr.opLines]
    exact .nil
  | _, _, .copy x hx => by
    have hs := hρ.spares
    simp only [Instr.opLines]
    refine .cons (.fixed (.append (.fixed (.append (respells_fixed hs ?_) (hρ.ofVariable x)) hs ?_)
      (hx.respells hρ)) hs ?_) .nil
    · decide
    · decide
    · decide

theorem Instr.AlikeAll.respells_opLinesAll (hρ : Renames ρ R) :
    ∀ {is is' : List Instr}, Instr.AlikeAll R is is' →
      RespellsLines ρ (Instr.opLinesAll is) (Instr.opLinesAll is')
  | _, _, .nil => by
    simp only [Instr.opLinesAll]
    exact .nil
  | _, _, .cons hi his => by
    simp only [Instr.opLinesAll]
    exact (hi.respells_opLines hρ).append (his.respells_opLinesAll hρ)

end

/-! ## Fragments, classes and units -/

theorem Instr.Alike.respells_op (hρ : Renames ρ R) {i i' : Instr} (h : i.Alike R i') :
    Respells ρ .clean i.op i'.op .clean :=
  (h.respells_opLines hρ).unlines hρ.spares

/-- So is alike code. -/
theorem Fragment.Alike.respellsCode (hρ : Renames ρ R) {f f' : Fragment} (h : f.Alike R f') :
    RespellsCode ρ f f' where
  decls := (h.code.respells_declLines hρ).unlines hρ.spares
  ops := (h.code.respells_opLinesAll hρ).unlines hρ.spares
  value := (h.value.respells hρ).token

theorem Fragment.BodyAlike.respellsCode (hρ : Renames ρ R) {f f' : Fragment} (h : f.BodyAlike R f') :
    RespellsCode ρ f f' := by
  rcases h with h | ⟨p, rfl, rfl⟩
  · exact h.respellsCode hρ
  · exact respellsCode_haltCode hρ.spares (hρ.ofVariable p)

/-- So are alike classes. -/
theorem ClassDef.Alike.respellsClass (hρ : Renames ρ R) {d d' : ClassDef} (h : d.Alike R d') :
    RespellsClass ρ d d' := by
  obtain ⟨name, closure⟩ := d
  obtain ⟨name', closure'⟩ := d'
  obtain ⟨rfl, hclosure⟩ := h
  cases hclosure with
  | none => exact ⟨respells_nil, respells_nil⟩
  | @some clo clo' hclo =>
    obtain ⟨captured, params, body⟩ := clo
    obtain ⟨captured', params', body'⟩ := clo'
    obtain ⟨rfl, rfl, hbody⟩ := hclo
    constructor
    · exact respells_closureDecl ⟨captured, params, body⟩ hρ.spares (hρ.ofClass name)
        (hρ.variables captured)
    · exact respells_closureOp ⟨captured, params, body⟩ ⟨captured, params, body'⟩ hρ.spares
        (hρ.ofClass name) rfl (hρ.variables params) (hbody.respellsCode hρ)

/-- The unit of a program that is alike has the same text, but for the numbers of temporaries. -/
theorem renumberText_textFor {φ : Nat → Nat} (hφ : ∀ k k', R k k' → φ k = k') {p p' : Program}
    (htable : p.table.Alike R p'.table) (hroot : p.root.Alike R p'.root) (range : Nat × Nat) :
    renumberText φ (p.textFor range) = p'.textFor range := by
  have hρ : Renames (renumberWord φ) R := renames_renumberWord hφ
  have hclasses := htable.defs.imp fun _ _ h => h.respellsClass hρ
  exact (respells_textFor hρ.spares range hclasses (hroot.respellsCode hρ)).replaceWords_eq

end

end Trampoline

import Trampoline.Expr.Outline
import Trampoline.Proofs.Lowered
import Trampoline.Proofs.Outlines

/-!
# Trampoline.Proofs.Dumps -- the dump of a tree determines the tree

Each kind of node is shown as a record of its own name, with its texts and its children as fields. So where the text
of an outline can be read back, nodes of different kinds are told apart and parts are found again, one level after
the other. Only the code of native nodes is not shown; the code of a halt continuation follows from the parameter
that it is shown to use.
-/

namespace Trampoline

open Byte (singleQuote)
open Outline (Unmarked Readable)

/-! ## Names and strings of a tree -/

namespace Expr

/-- The names and the string that stand at a node itself. -/
def ownTexts : Expr → List Bytes
  | .var x => [x]
  | .literal (.string s) => [s]
  | .lambda name params _ => name :: params
  | .letrec defs _ => defs.map Prod.fst
  | .assign x _ => [x]
  | .assignThen x _ _ => [x]
  | .native uses _ => uses
  | _ => []

/-- No name and no string of the tree holds a single quote. -/
def Quoteless (e : Expr) : Prop :=
  ∀ path a, e.reach? path = some a → ∀ t ∈ a.ownTexts, singleQuote ∉ t

theorem Quoteless.own {e : Expr} (h : e.Quoteless) : ∀ t ∈ e.ownTexts, singleQuote ∉ t :=
  (forall_reach_step.mp h).1

/-- A child of a tree without quotes is without quotes. -/
theorem Quoteless.child {e c : Expr} {i : Nat} (h : e.Quoteless) (hc : e.child? i = some c) : c.Quoteless :=
  (forall_reach_step.mp h).2 i c hc

theorem outlineList_eq_map (es : List Expr) : outlineList es = es.map outline := by
  induction es with
  | nil => rfl
  | cons e es ih => rw [outlineList, ih, List.map_cons]

theorem outlineDefs_eq_map (ds : List (Bytes × Expr)) :
    outlineDefs ds = ds.map fun d => Record.definition d.1 d.2.outline := by
  induction ds with
  | nil => rfl
  | cons d ds ih => rw [outlineDefs, ih, List.map_cons]

end Expr

/-- Lists are equal if a function maps them alike and tells their members apart. -/
theorem eq_of_map_eq_map {α β : Type} {f : α → β} {as bs : List α}
    (hf : ∀ a ∈ as, ∀ b ∈ bs, f a = f b → a = b) (h : as.map f = bs.map f) : as = bs := by
  induction as generalizing bs with
  | nil =>
    cases bs with
    | nil => rfl
    | cons b bs => cases h
  | cons a as ih =>
    cases bs with
    | nil => cases h
    | cons b bs =>
      obtain ⟨hhead, htail⟩ := List.cons.inj h
      rw [hf a List.mem_cons_self b List.mem_cons_self hhead]
      rw [ih (fun c hc d hd => hf c (List.mem_cons_of_mem _ hc) d (List.mem_cons_of_mem _ hd)) htail]

/-! ## The outlines of trees can be read -/

namespace Outline

/-- The first names of a comma-separated text, freed of the white space around them. -/
def labels (names : Bytes) : Nat → List Bytes
  | 0 => []
  | n + 1 =>
    Bytes.trim (names.takeWhile (· != Byte.comma)) :: labels ((names.dropWhile (· != Byte.comma)).drop 1) n

/-- The fields of a record have the names in the text, in order. -/
theorem map_fst_nameFields (names : Bytes) (os : List Outline) :
    (nameFields names os).map Prod.fst = labels names os.length := by
  induction os generalizing names with
  | nil => rfl
  | cons o os ih => rw [nameFields, List.map_cons, ih, List.length_cons, labels]

/-- All parts become fields, in order. -/
theorem map_snd_nameFields (names : Bytes) (os : List Outline) : (nameFields names os).map Prod.snd = os := by
  induction os generalizing names with
  | nil => rfl
  | cons o os ih => rw [nameFields, List.map_cons, ih]

/-- A record can be read if no mark is in its names and all its parts can be read. -/
theorem readable_recordOf {title names : Bytes} {os : List Outline} (n : Nat) (hn : os.length = n)
    (h : title ≠ [] ∧ Unmarked title ∧ ∀ l ∈ labels names n, Unmarked l) (hos : ∀ o ∈ os, o.Readable) :
    (recordOf title names os).Readable := by
  refine .record h.1 h.2.1 (fun f hf => h.2.2 f.1 ?_) (fun f hf => hos f.2 ?_)
  · rw [← hn, ← map_fst_nameFields]
    exact List.mem_map_of_mem hf
  · rw [← map_snd_nameFields names os]
    exact List.mem_map_of_mem hf

theorem readable_strings {ts : List Bytes} (h : ∀ t ∈ ts, singleQuote ∉ t) : (strings ts).Readable :=
  .list (List.forall_mem_map.mpr fun t ht => .string (h t ht))

end Outline

open Outline (readable_recordOf)

theorem Literal.readable_outline {l : Literal} (h : ∀ s, l = .string s → singleQuote ∉ s) : l.outline.Readable := by
  cases l with
  | integer n => exact readable_recordOf 1 rfl (by decide) (List.forall_mem_singleton.mpr (.number _))
  | boolean b => exact readable_recordOf 1 rfl (by decide) (List.forall_mem_singleton.mpr (.number _))
  | string s => exact readable_recordOf 1 rfl (by decide) (List.forall_mem_singleton.mpr (.string (h s rfl)))
  | unspecified => exact readable_recordOf 0 rfl (by decide) (List.forall_mem_nil _)

/-- The outline of a tree without quotes can be read. -/
theorem Expr.readable_outline {e : Expr} (h : e.Quoteless) : e.outline.Readable := by
  induction e using Expr.child_induction with
  | step e ih =>
    have hown : ∀ t ∈ e.ownTexts, (Outline.string t).Readable := fun t ht => .string (h.own t ht)
    have hchild (i : Nat) (c : Expr) (hc : e.child? i = some c) : c.outline.Readable := ih i c hc (h.child hc)
    have hchildren {es : List Expr} (hes : ∀ i, e.child? (i + 1) = es[i]?) :
        (Outline.list (outlineList es)).Readable := by
      refine .list ?_
      rw [outlineList_eq_map, List.forall_mem_map]
      intro c hc
      obtain ⟨i, hi⟩ := List.mem_iff_getElem?.mp hc
      exact hchild (i + 1) c ((hes i).trans hi)
    cases e with
    | var x => exact readable_recordOf 1 rfl (by decide) (List.forall_mem_singleton.mpr (hown x List.mem_cons_self))
    | literal l =>
      refine readable_recordOf 1 rfl (by decide) (List.forall_mem_singleton.mpr (Literal.readable_outline ?_))
      rintro s rfl
      exact h.own s List.mem_cons_self
    | lambda name params body =>
      have hname := hown name List.mem_cons_self
      have hparams := Outline.readable_strings fun t ht => h.own t (List.mem_cons_of_mem name ht)
      have hbody := hchild 0 body rfl
      exact readable_recordOf 3 rfl (by decide) (by simp [hname, hparams, hbody])
    | app callee args =>
      have hcallee := hchild 0 callee rfl
      have hargs := hchildren (fun _ => rfl : ∀ i, (Expr.app callee args).child? (i + 1) = args[i]?)
      exact readable_recordOf 2 rfl (by decide) (by simp [hcallee, hargs])
    | cond test a b =>
      have htest := hchild 0 test rfl
      have ha := hchild 1 a rfl
      have hb := hchild 2 b rfl
      exact readable_recordOf 3 rfl (by decide) (by simp [htest, ha, hb])
    | letrec defs body =>
      have hbody := hchild 0 body rfl
      have hdefs : (Outline.list (outlineDefs defs)).Readable := by
        refine .list ?_
        rw [outlineDefs_eq_map, List.forall_mem_map]
        intro d hd
        obtain ⟨i, hi⟩ := List.mem_iff_getElem?.mp hd
        have hname := hown d.1 (List.mem_map_of_mem hd)
        have hvalue := hchild (i + 1) d.2 (Option.map_eq_some_iff.mpr ⟨d, hi, rfl⟩)
        exact readable_recordOf 2 rfl (by decide) (by simp [hname, hvalue])
      exact readable_recordOf 2 rfl (by decide) (by simp [hdefs, hbody])
    | seq exprs =>
      exact readable_recordOf 1 rfl (by decide) (List.forall_mem_singleton.mpr (hchildren fun _ => rfl))
    | assign x value =>
      have hname := hown x List.mem_cons_self
      have hvalue := hchild 0 value rfl
      exact readable_recordOf 2 rfl (by decide) (by simp [hname, hvalue])
    | assignThen x value next =>
      have hname := hown x List.mem_cons_self
      have hvalue := hchild 0 value rfl
      have hnext := hchild 1 next rfl
      exact readable_recordOf 3 rfl (by decide) (by simp [hname, hvalue, hnext])
    | native uses code =>
      exact readable_recordOf 1 rfl (by decide) (List.forall_mem_singleton.mpr (Outline.readable_strings h.own))

/-! ## Kinds of nodes -/

/-- The name of a record, nothing for any other outline. -/
def Outline.title : Outline → Bytes
  | .record name _ => name
  | _ => []

/-- The names of the records of nodes, in the order of the kinds of nodes. -/
def Expr.titles : List Bytes :=
  ["identifier", "literal", "fun", "fun_app", "if_then_else", "let_rec", "seq", "assign", "assign_then",
    "native"].map fun kind => ascii "ast::expression::" ++ ascii kind

/-- The names of the records of constants, in the order of the kinds of constants. -/
def Literal.titles : List Bytes :=
  ["integer", "boolean", "string", "unspecified"].map fun kind => ascii "ast::literal::" ++ ascii kind

/-- Where each kind has a name of its own, equal outlines are of one kind. -/
theorem kind_eq_of_titles {α : Type} (titles : List Bytes) (hnodup : titles.Nodup) {kind : α → Nat}
    {outline : α → Outline} (htitle : ∀ a, titles[kind a]? = some (outline a).title) {a b : α}
    (h : outline a = outline b) : kind a = kind b := by
  have hbound := (List.getElem?_eq_some_iff.mp (htitle a)).1
  refine (List.getElem?_inj hbound hnodup).mp ?_
  rw [htitle a, htitle b, h]

/-- Trees with equal outlines are of one kind. -/
theorem Expr.ctorIdx_eq {e e' : Expr} (h : e.outline = e'.outline) : e.ctorIdx = e'.ctorIdx :=
  kind_eq_of_titles titles (by decide) (fun a => by cases a <;> rfl) h

theorem Literal.ctorIdx_eq {l l' : Literal} (h : l.outline = l'.outline) : l.ctorIdx = l'.ctorIdx :=
  kind_eq_of_titles titles (by decide) (fun a => by cases a <;> rfl) h

/-! ## Parts of nodes -/

/-- What the fields of a record show, nothing for any other outline. -/
def Outline.parts : Outline → List Outline
  | .record _ fields => fields.map Prod.snd
  | _ => []

theorem Outline.strings_injective : Function.Injective Outline.strings := by
  intro ts us h
  exact List.map_injective_iff.mpr (fun a b hab => Outline.string.inj hab) (Outline.list.inj h)

/-- The outline of a constant determines the constant. -/
theorem Literal.outline_injective : Function.Injective Literal.outline := by
  intro l l' h
  have hkind := Literal.ctorIdx_eq h
  cases l with
  | integer n =>
    cases l' with
    | integer n' =>
      have hparts : [Outline.number n.toInt] = [.number n'.toInt] := congrArg Outline.parts h
      rw [Int64.toInt_inj.mp (Outline.number.inj (List.cons.inj hparts).1)]
    | _ => cases hkind
  | boolean b =>
    cases l' with
    | boolean b' =>
      have hparts : [Outline.boolean b] = [.boolean b'] := congrArg Outline.parts h
      cases b <;> cases b' <;> simp [Outline.boolean] at hparts ⊢
    | _ => cases hkind
  | string s =>
    cases l' with
    | string s' =>
      have hparts : [Outline.string s] = [.string s'] := congrArg Outline.parts h
      rw [Outline.string.inj (List.cons.inj hparts).1]
    | _ => cases hkind
  | unspecified =>
    cases l' with
    | unspecified => rfl
    | _ => cases hkind

/-- Trees with equal outlines are equal, if all they do not show is the code of halt continuations. -/
theorem Expr.eq_of_outline_eq {e e' : Expr} (he : e.OnlyHaltCode) (he' : e'.OnlyHaltCode)
    (h : e.outline = e'.outline) : e = e' := by
  induction e using Expr.child_induction generalizing e' with
  | step e ih =>
    have hkind := ctorIdx_eq h
    have hchild {i j : Nat} {c c' : Expr} (hc : e.child? i = some c) (hc' : e'.child? j = some c')
        (heq : c.outline = c'.outline) : c = c' := ih i c hc (he.child hc) (he'.child hc') heq
    have hchildren {es es' : List Expr} (hes : ∀ i, e.child? (i + 1) = es[i]?)
        (hes' : ∀ i, e'.child? (i + 1) = es'[i]?) (heq : outlineList es = outlineList es') : es = es' := by
      rw [outlineList_eq_map, outlineList_eq_map] at heq
      refine eq_of_map_eq_map ?_ heq
      intro c hc c' hc' hcc'
      obtain ⟨i, hi⟩ := List.mem_iff_getElem?.mp hc
      obtain ⟨j, hj⟩ := List.mem_iff_getElem?.mp hc'
      exact hchild ((hes i).trans hi) ((hes' j).trans hj) hcc'
    cases e with
    | var x =>
      cases e' with
      | var x' =>
        have hparts : [Outline.string x] = [.string x'] := congrArg Outline.parts h
        rw [Outline.string.inj (List.cons.inj hparts).1]
      | _ => cases hkind
    | literal l =>
      cases e' with
      | literal l' =>
        have hparts : [l.outline] = [l'.outline] := congrArg Outline.parts h
        rw [Literal.outline_injective (List.cons.inj hparts).1]
      | _ => cases hkind
    | lambda name params body =>
      cases e' with
      | lambda name' params' body' =>
        have hparts : [.string name, .strings params, body.outline] =
            [.string name', .strings params', body'.outline] := congrArg Outline.parts h
        simp only [List.cons.injEq, Outline.string.injEq, and_true] at hparts
        obtain ⟨rfl, hparams, hbody⟩ := hparts
        rw [Outline.strings_injective hparams, hchild (i := 0) (j := 0) rfl rfl hbody]
      | _ => cases hkind
    | app callee args =>
      cases e' with
      | app callee' args' =>
        have hparts : [callee.outline, .list (outlineList args)] = [callee'.outline, .list (outlineList args')] :=
          congrArg Outline.parts h
        simp only [List.cons.injEq, Outline.list.injEq, and_true] at hparts
        rw [hchild (i := 0) (j := 0) rfl rfl hparts.1, hchildren (fun _ => rfl) (fun _ => rfl) hparts.2]
      | _ => cases hkind
    | cond test a b =>
      cases e' with
      | cond test' a' b' =>
        have hparts : [test.outline, a.outline, b.outline] = [test'.outline, a'.outline, b'.outline] :=
          congrArg Outline.parts h
        simp only [List.cons.injEq, and_true] at hparts
        rw [hchild (i := 0) (j := 0) rfl rfl hparts.1, hchild (i := 1) (j := 1) rfl rfl hparts.2.1,
          hchild (i := 2) (j := 2) rfl rfl hparts.2.2]
      | _ => cases hkind
    | letrec defs body =>
      cases e' with
      | letrec defs' body' =>
        have hparts : [.list (outlineDefs defs), body.outline] = [.list (outlineDefs defs'), body'.outline] :=
          congrArg Outline.parts h
        simp only [List.cons.injEq, Outline.list.injEq, and_true, outlineDefs_eq_map] at hparts
        rw [hchild (i := 0) (j := 0) rfl rfl hparts.2, eq_of_map_eq_map ?_ hparts.1]
        intro d hd d' hd' heq
        obtain ⟨i, hi⟩ := List.mem_iff_getElem?.mp hd
        obtain ⟨j, hj⟩ := List.mem_iff_getElem?.mp hd'
        have hdef : [.string d.1, d.2.outline] = [.string d'.1, d'.2.outline] := congrArg Outline.parts heq
        simp only [List.cons.injEq, Outline.string.injEq, and_true] at hdef
        exact Prod.ext hdef.1 (hchild (i := i + 1) (j := j + 1) (Option.map_eq_some_iff.mpr ⟨d, hi, rfl⟩)
          (Option.map_eq_some_iff.mpr ⟨d', hj, rfl⟩) hdef.2)
      | _ => cases hkind
    | seq exprs =>
      cases e' with
      | seq exprs' =>
        have hparts : [Outline.list (outlineList exprs)] = [.list (outlineList exprs')] := congrArg Outline.parts h
        rw [hchildren (fun _ => rfl) (fun _ => rfl) (Outline.list.inj (List.cons.inj hparts).1)]
      | _ => cases hkind
    | assign x value =>
      cases e' with
      | assign x' value' =>
        have hparts : [.string x, value.outline] = [.string x', value'.outline] := congrArg Outline.parts h
        simp only [List.cons.injEq, Outline.string.injEq, and_true] at hparts
        rw [hparts.1, hchild (i := 0) (j := 0) rfl rfl hparts.2]
      | _ => cases hkind
    | assignThen x value next =>
      cases e' with
      | assignThen x' value' next' =>
        have hparts : [.string x, value.outline, next.outline] = [.string x', value'.outline, next'.outline] :=
          congrArg Outline.parts h
        simp only [List.cons.injEq, Outline.string.injEq, and_true] at hparts
        rw [hparts.1, hchild (i := 0) (j := 0) rfl rfl hparts.2.1, hchild (i := 1) (j := 1) rfl rfl hparts.2.2]
      | _ => cases hkind
    | native uses code =>
      cases e' with
      | native uses' code' =>
        have hparts : [Outline.strings uses] = [.strings uses'] := congrArg Outline.parts h
        have huses := Outline.strings_injective (List.cons.inj hparts).1
        obtain ⟨p, hp⟩ := he.resolve_left not_onlyHalts_native
        obtain ⟨p', hp'⟩ := he'.resolve_left not_onlyHalts_native
        cases hp
        cases hp'
        cases huses
        rfl
      | _ => cases hkind

/-- **The dump determines the tree.** Two trees in which native nodes are only the code of halt continuations, and in
which no name and no string holds a single quote, are dumped alike only if they are the same tree. -/
theorem dump_eq_iff {e e' : Expr} (he : e.OnlyHalts) (he' : e'.OnlyHalts) (hquote : e.Quoteless)
    (hquote' : e'.Quoteless) : e.dump = e'.dump ↔ e = e' := by
  refine ⟨fun h => ?_, fun h => congrArg Expr.dump h⟩
  have houtline := Outline.text_inj (Expr.readable_outline hquote) (Expr.readable_outline hquote') h
  exact Expr.eq_of_outline_eq (Or.inl he) (Or.inl he') houtline

/-- A parameter that looks like two of them is not taken for two, and a string that looks like a node stays a
string. -/
theorem dump_eq_iff_lookalikes :
    let e := Expr.lambda (ascii "f") [ascii "a, b"]
      (.literal (.string (ascii "ast::expression::seq\x7bexps : []\x7d")))
    let e' := Expr.lambda (ascii "f") [ascii "a", ascii "b"] (.seq [])
    e.OnlyHalts ∧ e'.OnlyHalts ∧ e.Quoteless ∧ e'.Quoteless ∧ e.dump ≠ e'.dump := by
  intro e e'
  have hquote : e.Quoteless := Expr.forall_reach_iff.mpr (by decide)
  have hquote' : e'.Quoteless := Expr.forall_reach_iff.mpr (by decide)
  have he : e.OnlyHalts := .lambda _ _ (.literal _)
  have he' : e'.OnlyHalts := .lambda _ _ (.seq (List.forall_mem_nil _))
  refine ⟨he, he', hquote, hquote', fun h => ?_⟩
  obtain ⟨_, hparams, _⟩ := Expr.lambda.inj ((dump_eq_iff he he' hquote hquote').mp h)
  exact absurd hparams (by decide)

/-- With single quotes in it, one parameter can be taken for two. -/
example : (Expr.lambda (ascii "f") [ascii "a', 'b"] (.seq [])).dump =
    (Expr.lambda (ascii "f") [ascii "a", ascii "b"] (.seq [])).dump := by decide

end Trampoline

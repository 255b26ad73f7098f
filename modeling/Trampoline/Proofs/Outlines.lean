import Trampoline.Outline
import Trampoline.Proofs.Decimal

/-!
# Trampoline.Proofs.Outlines -- outlines can be read back

An outline is printed without escapes, so a string in it can look like any other part of an outline. It is still
read in one way only, if no string holds a single quote and no name holds one of the bytes that give an outline its
structure: what an outline is follows from its first bytes up to one of these, and where it ends follows from what
it is. This is said of an outline in front of any text that can stand behind one, since outlines are nested.
-/

namespace Trampoline

open Byte (singleQuote comma space openBrace closeBrace)

/-! ## Cutting a text at a byte -/

/-- A front of some kind of bytes ends where the first byte of another kind comes. -/
theorem takeWhile_append_of_stop {p : UInt8 → Bool} {w t : Bytes} (hw : ∀ b ∈ w, p b = true)
    (ht : ∀ b ∈ t.head?, p b = false) : (w ++ t).takeWhile p = w := by
  have hstop : t.takeWhile p = [] := by
    cases t with
    | nil => rfl
    | cons b t => exact List.takeWhile_cons_of_neg (by simp [ht b rfl])
  rw [List.takeWhile_append_of_pos hw, hstop, List.append_nil]

/-- Where two texts are cut at the first byte of a kind, they are cut alike. -/
theorem append_inj_of_stop {p : UInt8 → Bool} {w w' t t' : Bytes} (hw : ∀ b ∈ w, p b = true)
    (hw' : ∀ b ∈ w', p b = true) (ht : ∀ b ∈ t.head?, p b = false) (ht' : ∀ b ∈ t'.head?, p b = false)
    (h : w ++ t = w' ++ t') : w = w' ∧ t = t' := by
  have heq : w = w' := by rw [← takeWhile_append_of_stop hw ht, h, takeWhile_append_of_stop hw' ht']
  subst heq
  exact ⟨rfl, List.append_cancel_left h⟩

namespace Outline

/-- The bytes that give an outline its structure: brackets, braces, the single quote, the comma and the space. -/
def isMark (b : UInt8) : Bool := List.contains [91, 93, openBrace, closeBrace, singleQuote, comma, space] b

/-- A text that has none of them. -/
def Unmarked (t : Bytes) : Prop := t.all (fun b => !isMark b) = true

instance (t : Bytes) : Decidable (Unmarked t) := inferInstanceAs (Decidable (_ = true))

theorem unmarked_iff {t : Bytes} : Unmarked t ↔ ∀ b ∈ t, (!isMark b) = true := List.all_eq_true

/-- Unmarked texts before a mark are told apart. -/
theorem Unmarked.append_inj {w w' t t' : Bytes} (hw : Unmarked w) (hw' : Unmarked w')
    (ht : ∀ b ∈ t.head?, isMark b = true) (ht' : ∀ b ∈ t'.head?, isMark b = true) (h : w ++ t = w' ++ t') :
    w = w' ∧ t = t' := by
  refine append_inj_of_stop (unmarked_iff.mp hw) (unmarked_iff.mp hw') ?_ ?_ h
  · exact fun b hb => by rw [ht b hb]; rfl
  · exact fun b hb => by rw [ht' b hb]; rfl

/-! ## Outlines that can be read -/

/-- Strings have no single quote, and names have no mark. -/
inductive Readable : Outline → Prop
  | list {elems : List Outline} (h : ∀ o ∈ elems, Readable o) : Readable (.list elems)
  | set {elems : List Outline} (h : ∀ o ∈ elems, Readable o) : Readable (.set elems)
  | record {name : Bytes} {fields : List (Bytes × Outline)} (hne : name ≠ []) (hname : Unmarked name)
      (hlabels : ∀ f ∈ fields, Unmarked f.1) (h : ∀ f ∈ fields, Readable f.2) : Readable (.record name fields)
  | string {t : Bytes} (ht : singleQuote ∉ t) : Readable (.string t)
  | number (n : Int) : Readable (.number n)
  | absent : Readable .absent
  | hidden {typeName : Bytes} (hne : typeName ≠ []) (hname : Unmarked typeName) : Readable (.hidden typeName)

/-- The bytes that can stand behind an outline. -/
def isClosing (b : UInt8) : Bool := b == comma || b == 93 || b == closeBrace

/-- A text that can stand behind an outline. -/
def Ends (t : Bytes) : Prop := ∀ b ∈ t.head?, isClosing b = true

theorem isMark_of_isClosing {b : UInt8} (h : isClosing b = true) : isMark b = true := by
  simp only [isClosing, Bool.or_eq_true, beq_iff_eq] at h
  rcases h with (rfl | rfl) | rfl <;> rfl

theorem Unmarked.not_isClosing {b : UInt8} {t : Bytes} (h : Unmarked (b :: t)) : isClosing b = false := by
  have hb := unmarked_iff.mp h b List.mem_cons_self
  rw [Bool.eq_false_iff]
  intro hclosing
  rw [isMark_of_isClosing hclosing] at hb
  cases hb

theorem Ends.isMark {t : Bytes} (h : Ends t) : ∀ b ∈ t.head?, isMark b = true :=
  fun b hb => isMark_of_isClosing (h b hb)

theorem ends_nil : Ends [] := fun _ hb => by cases hb

theorem ends_cons {b : UInt8} (hb : isClosing b = true) (t : Bytes) : Ends (b :: t) := by
  intro c hc
  cases hc
  exact hb

/-! ## Numbers -/

theorem not_isMark_of_isDigit {b : UInt8} (h : Byte.isDigit b = true) : isMark b = false := by
  rw [Bool.eq_false_iff]
  intro hmark
  simp only [isMark, List.contains_iff_mem, List.mem_cons, List.not_mem_nil, or_false] at hmark
  rcases hmark with rfl | rfl | rfl | rfl | rfl | rfl | rfl <;> exact absurd h (by decide)

theorem unmarked_decimal (n : Nat) : Unmarked (Bytes.decimal n) := by
  rw [unmarked_iff]
  intro b hb
  rw [not_isMark_of_isDigit (List.all_eq_true.mp (Bytes.all_isDigit_decimal n) b hb)]
  rfl

theorem unmarked_signedDecimal (n : Int) : Unmarked (Bytes.signedDecimal n) := by
  unfold Bytes.signedDecimal
  split
  · exact unmarked_decimal n.natAbs
  · exact unmarked_decimal n.natAbs

/-- Different integers are shown differently. -/
theorem signedDecimal_injective : Function.Injective Bytes.signedDecimal := by
  intro i j h
  have hsign (n : Nat) (t : Bytes) : Byte.minus :: t ≠ Bytes.decimal n := by
    obtain ⟨d, ds, hd, hdigit, _⟩ := Bytes.exists_decimal_cons n
    rw [hd]
    rintro ⟨⟩
    exact absurd hdigit (by decide)
  unfold Bytes.signedDecimal at h
  split at h <;> split at h
  · have habs := Bytes.decimal_injective (List.cons.inj h).2
    omega
  · exact absurd h (hsign _ _)
  · exact absurd h.symm (hsign _ _)
  · have habs := Bytes.decimal_injective h
    omega

/-- The first byte of a number. -/
def isSign (b : UInt8) : Bool := Byte.isDigit b || b == Byte.minus

theorem exists_signedDecimal_cons (n : Int) : ∃ b t, Bytes.signedDecimal n = b :: t ∧ isSign b = true := by
  unfold Bytes.signedDecimal
  split
  · exact ⟨_, _, rfl, rfl⟩
  · obtain ⟨b, t, hd, hdigit, _⟩ := Bytes.exists_decimal_cons n.natAbs
    exact ⟨b, t, hd, by rw [isSign, hdigit, Bool.true_or]⟩

/-! ## The form of an outline -/

/-- What an outline can be. -/
inductive Form where
  | list
  | set
  | record
  | string
  | number
  | absent
  | hidden
  deriving DecidableEq

def form : Outline → Form
  | .list _ => .list
  | .set _ => .set
  | .record _ _ => .record
  | .string _ => .string
  | .number _ => .number
  | .absent => .absent
  | .hidden _ => .hidden

/-- The form of the outline that a text begins with, by what stands before the first mark and by this mark. -/
def formOf (word : Bytes) (mark : Option UInt8) : Form :=
  match word with
  | [] => if mark = some 91 then .list else if mark = some openBrace then .set else .string
  | b :: _ =>
    if mark = some openBrace then .record
    else if mark = some space then .hidden
    else if isSign b then .number
    else .absent

/-- An outline begins with a text without marks, followed by a mark or by what comes behind the outline. These two
tell its form. -/
theorem Readable.exists_word {o : Outline} (h : Readable o) {rest : Bytes} (hrest : Ends rest) :
    ∃ word t, o.textThen rest = word ++ t ∧ Unmarked word ∧ (∀ b ∈ t.head?, isMark b = true) ∧
      formOf word t.head? = o.form := by
  have hclosing : rest.head? ≠ some openBrace ∧ rest.head? ≠ some space := by
    refine ⟨fun h => ?_, fun h => ?_⟩
    · exact absurd (hrest _ h) (by decide)
    · exact absurd (hrest _ h) (by decide)
  cases h with
  | list _ => exact ⟨[], _, rfl, rfl, fun b hb => by cases hb; rfl, rfl⟩
  | set _ => exact ⟨[], _, rfl, rfl, fun b hb => by cases hb; rfl, rfl⟩
  | string _ => exact ⟨[], _, rfl, rfl, fun b hb => by cases hb; rfl, rfl⟩
  | @record name fields hne hname _ _ =>
    obtain ⟨b, t, rfl⟩ := List.exists_cons_of_ne_nil hne
    exact ⟨b :: t, _, rfl, hname, fun c hc => by cases hc; rfl, rfl⟩
  | @hidden name hne hname =>
    obtain ⟨b, t, rfl⟩ := List.exists_cons_of_ne_nil hne
    exact ⟨b :: t, _, rfl, hname, fun c hc => by cases hc; rfl, rfl⟩
  | number n =>
    obtain ⟨b, t, heq, hb⟩ := exists_signedDecimal_cons n
    refine ⟨Bytes.signedDecimal n, rest, rfl, unmarked_signedDecimal n, hrest.isMark, ?_⟩
    rw [heq, formOf, if_neg hclosing.1, if_neg hclosing.2, if_pos hb]
    rfl
  | absent =>
    refine ⟨ascii "null", rest, rfl, by decide, hrest.isMark, ?_⟩
    show formOf (110 :: _) rest.head? = _
    rw [formOf, if_neg hclosing.1, if_neg hclosing.2, if_neg (by decide)]
    rfl

/-- The first byte tells the form of an outline. -/
theorem Readable.form_eq {o o' : Outline} (h : Readable o) (h' : Readable o') {rest rest' : Bytes}
    (hrest : Ends rest) (hrest' : Ends rest') (heq : o.textThen rest = o'.textThen rest') : o.form = o'.form := by
  obtain ⟨word, t, htext, hword, ht, hform⟩ := h.exists_word hrest
  obtain ⟨word', t', htext', hword', ht', hform'⟩ := h'.exists_word hrest'
  rw [htext, htext'] at heq
  obtain ⟨rfl, rfl⟩ := hword.append_inj hword' ht ht' heq
  rw [← hform, ← hform']

/-- No outline begins with a byte that can stand behind one. -/
theorem Readable.not_isClosing_head {o : Outline} (h : Readable o) (rest : Bytes) :
    ∀ b ∈ (o.textThen rest).head?, isClosing b = false := by
  intro b hb
  cases h with
  | list _ => cases hb; rfl
  | set _ => cases hb; rfl
  | string _ => cases hb; rfl
  | absent => cases hb; rfl
  | @record name fields hne hname _ _ =>
    obtain ⟨c, t, rfl⟩ := List.exists_cons_of_ne_nil hne
    cases hb
    exact hname.not_isClosing
  | @hidden name hne hname =>
    obtain ⟨c, t, rfl⟩ := List.exists_cons_of_ne_nil hne
    cases hb
    exact hname.not_isClosing
  | number n =>
    obtain ⟨c, t, heq, _⟩ := exists_signedDecimal_cons n
    have hunsigned := unmarked_signedDecimal n
    rw [heq] at hunsigned
    rw [textThen, heq] at hb
    cases hb
    exact hunsigned.not_isClosing

/-! ## Items with commas between them -/

section

variable {α : Type} (item : α → Bytes → Bytes)

/-- Items with a comma before each of them, followed by a text. -/
def commaThen : List α → Bytes → Bytes
  | [], rest => rest
  | a :: as, rest => comma :: space :: item a (commaThen as rest)

/-- Items with commas between them, followed by a text. -/
def itemsThen : List α → Bytes → Bytes
  | [], rest => rest
  | a :: as, rest => item a (commaThen item as rest)

variable {item} {as as' : List α} {close : UInt8} {rest rest' : Bytes}

theorem ends_commaThen (as : List α) (hrest : Ends rest) : Ends (commaThen item as rest) := by
  cases as with
  | nil => exact hrest
  | cons a as => exact ends_cons rfl _

/-- Items that can be cut off whatever ends them can be cut off one after the other. -/
theorem commaThen_inj (hclose : isClosing close = true) (hcomma : close ≠ comma)
    (hcut : ∀ a ∈ as, ∀ a' ∈ as', ∀ t t', Ends t → Ends t' → item a t = item a' t' → a = a' ∧ t = t')
    (h : commaThen item as (close :: rest) = commaThen item as' (close :: rest')) : as = as' ∧ rest = rest' := by
  induction as generalizing as' with
  | nil =>
    cases as' with
    | nil => exact ⟨rfl, (List.cons.inj h).2⟩
    | cons a' as' => exact absurd (List.cons.inj h).1 hcomma
  | cons a as ih =>
    cases as' with
    | nil => exact absurd (List.cons.inj h).1.symm hcomma
    | cons a' as' =>
      have hitem := (List.cons.inj (List.cons.inj h).2).2
      obtain ⟨rfl, hmore⟩ := hcut a List.mem_cons_self a' List.mem_cons_self _ _
        (ends_commaThen as (ends_cons hclose rest)) (ends_commaThen as' (ends_cons hclose rest')) hitem
      obtain ⟨rfl, hrest⟩ := ih
        (fun b hb b' hb' => hcut b (List.mem_cons_of_mem _ hb) b' (List.mem_cons_of_mem _ hb')) hmore
      exact ⟨rfl, hrest⟩

/-- Items with commas between them are found again, if each of them is. -/
theorem itemsThen_inj (hclose : isClosing close = true) (hcomma : close ≠ comma)
    (hcut : ∀ a ∈ as, ∀ a' ∈ as', ∀ t t', Ends t → Ends t' → item a t = item a' t' → a = a' ∧ t = t')
    (hstart : ∀ a ∈ as, ∀ t, ∀ b ∈ (item a t).head?, isClosing b = false)
    (hstart' : ∀ a ∈ as', ∀ t, ∀ b ∈ (item a t).head?, isClosing b = false)
    (h : itemsThen item as (close :: rest) = itemsThen item as' (close :: rest')) : as = as' ∧ rest = rest' := by
  cases as with
  | nil =>
    cases as' with
    | nil => exact ⟨rfl, (List.cons.inj h).2⟩
    | cons a' as' =>
      have hhead := hstart' a' List.mem_cons_self _ close (congrArg List.head? h.symm)
      rw [hclose] at hhead
      cases hhead
  | cons a as =>
    cases as' with
    | nil =>
      have hhead := hstart a List.mem_cons_self _ close (congrArg List.head? h)
      rw [hclose] at hhead
      cases hhead
    | cons a' as' =>
      obtain ⟨rfl, hmore⟩ := hcut a List.mem_cons_self a' List.mem_cons_self _ _
        (ends_commaThen as (ends_cons hclose rest)) (ends_commaThen as' (ends_cons hclose rest')) h
      obtain ⟨rfl, hrest⟩ := commaThen_inj hclose hcomma
        (fun b hb b' hb' => hcut b (List.mem_cons_of_mem _ hb) b' (List.mem_cons_of_mem _ hb')) hmore
      exact ⟨rfl, hrest⟩

end

/-- A field, followed by a text. -/
def fieldThen (f : Bytes × Outline) (rest : Bytes) : Bytes := f.1 ++ (ascii " : " ++ f.2.textThen rest)

theorem listThen_eq (os : List Outline) (rest : Bytes) : listThen os rest = itemsThen textThen os rest := by
  cases os with
  | nil => rw [listThen, itemsThen]
  | cons o os =>
    induction os generalizing o with
    | nil => rw [listThen, itemsThen, commaThen]
    | cons p os ih =>
      rw [listThen, ih p]
      rfl

theorem fieldsThen_eq (fs : List (Bytes × Outline)) (rest : Bytes) :
    fieldsThen fs rest = itemsThen fieldThen fs rest := by
  cases fs with
  | nil => rw [fieldsThen, itemsThen]
  | cons f fs =>
    induction fs generalizing f with
    | nil => rw [fieldsThen, itemsThen, commaThen, fieldThen]
    | cons g fs ih =>
      rw [fieldsThen, ih g]
      rfl

/-! ## Reading an outline -/

/-- No other outline is printed like this one, whatever comes behind them. -/
def CutsOff (o : Outline) : Prop :=
  ∀ o', Readable o' → ∀ t t', Ends t → Ends t' → o.textThen t = o'.textThen t' → o = o' ∧ t = t'

/-- So are the members of a list. -/
theorem listThen_inj {os os' : List Outline} {close : UInt8} {rest rest' : Bytes} (hclose : isClosing close = true)
    (hcomma : close ≠ comma) (hos : ∀ o ∈ os, Readable o) (hos' : ∀ o ∈ os', Readable o)
    (hcut : ∀ o ∈ os, CutsOff o) (h : listThen os (close :: rest) = listThen os' (close :: rest')) :
    os = os' ∧ rest = rest' := by
  rw [listThen_eq, listThen_eq] at h
  exact itemsThen_inj hclose hcomma (fun o ho o' ho' => hcut o ho o' (hos' o' ho'))
    (fun o ho => (hos o ho).not_isClosing_head) (fun o ho => (hos' o ho).not_isClosing_head) h

theorem fieldThen_inj {f f' : Bytes × Outline} {t t' : Bytes} (hlabel : Unmarked f.1) (hlabel' : Unmarked f'.1)
    (hcut : CutsOff f.2) (h' : Readable f'.2) (ht : Ends t) (ht' : Ends t')
    (h : fieldThen f t = fieldThen f' t') : f = f' ∧ t = t' := by
  have hmark (o : Outline) (r : Bytes) : ∀ b ∈ (ascii " : " ++ o.textThen r).head?, isMark b = true := by
    intro b hb
    cases hb
    rfl
  obtain ⟨hname, hvalue⟩ := hlabel.append_inj hlabel' (hmark _ _) (hmark _ _) h
  obtain ⟨houtline, hrest⟩ := hcut _ h' _ _ ht ht' (List.append_cancel_left hvalue)
  exact ⟨Prod.ext hname houtline, hrest⟩

theorem not_isClosing_head_fieldThen {f : Bytes × Outline} (hlabel : Unmarked f.1) (rest : Bytes) :
    ∀ b ∈ (fieldThen f rest).head?, isClosing b = false := by
  intro b hb
  obtain ⟨label, o⟩ := f
  cases label with
  | nil => cases hb; rfl
  | cons c label =>
    cases hb
    exact hlabel.not_isClosing

/-- So are the fields of a record. -/
theorem fieldsThen_inj {fs fs' : List (Bytes × Outline)} {rest rest' : Bytes} (hlabels : ∀ f ∈ fs, Unmarked f.1)
    (hlabels' : ∀ f ∈ fs', Unmarked f.1) (hfs' : ∀ f ∈ fs', Readable f.2) (hcut : ∀ f ∈ fs, CutsOff f.2)
    (h : fieldsThen fs (closeBrace :: rest) = fieldsThen fs' (closeBrace :: rest')) : fs = fs' ∧ rest = rest' := by
  rw [fieldsThen_eq, fieldsThen_eq] at h
  refine itemsThen_inj rfl (by decide) ?_ (fun f hf => not_isClosing_head_fieldThen (hlabels f hf))
    (fun f hf => not_isClosing_head_fieldThen (hlabels' f hf)) h
  intro f hf f' hf' t t' ht ht' heq
  exact fieldThen_inj (hlabels f hf) (hlabels' f' hf') (hcut f hf) (hfs' f' hf') ht ht' heq

/-- An outline and the text behind it follow from what is printed. -/
theorem Readable.cutsOff {o : Outline} (h : Readable o) : CutsOff o := by
  induction h with
  | list helems ih =>
    intro o' h' t t' ht ht' heq
    have hform := (Readable.list helems).form_eq h' ht ht' heq
    cases h' with
    | list helems' =>
      obtain ⟨rfl, hrest⟩ := listThen_inj rfl (by decide) helems helems' ih (List.cons.inj heq).2
      exact ⟨rfl, hrest⟩
    | _ => cases hform
  | set helems ih =>
    intro o' h' t t' ht ht' heq
    have hform := (Readable.set helems).form_eq h' ht ht' heq
    cases h' with
    | set helems' =>
      obtain ⟨rfl, hrest⟩ := listThen_inj rfl (by decide) helems helems' ih (List.cons.inj heq).2
      exact ⟨rfl, hrest⟩
    | _ => cases hform
  | record hne hname hlabels hfields ih =>
    intro o' h' t t' ht ht' heq
    have hform := (Readable.record hne hname hlabels hfields).form_eq h' ht ht' heq
    cases h' with
    | record hne' hname' hlabels' hfields' =>
      obtain ⟨rfl, hbody⟩ := hname.append_inj hname' (fun b hb => by cases hb; rfl)
        (fun b hb => by cases hb; rfl) heq
      obtain ⟨rfl, hrest⟩ := fieldsThen_inj hlabels hlabels' hfields' ih (List.cons.inj hbody).2
      exact ⟨rfl, hrest⟩
    | _ => cases hform
  | string hs =>
    intro o' h' t t' ht ht' heq
    have hform := (Readable.string hs).form_eq h' ht ht' heq
    cases h' with
    | string hs' =>
      have hplain {s : Bytes} (h : singleQuote ∉ s) : ∀ b ∈ s, (b != singleQuote) = true := by
        intro b hb
        rw [bne_iff_ne]
        rintro rfl
        exact h hb
      obtain ⟨rfl, hrest⟩ := append_inj_of_stop (hplain hs) (hplain hs') (fun b hb => by cases hb; rfl)
        (fun b hb => by cases hb; rfl) (List.cons.inj heq).2
      exact ⟨rfl, (List.cons.inj hrest).2⟩
    | _ => cases hform
  | number n =>
    intro o' h' t t' ht ht' heq
    have hform := (Readable.number n).form_eq h' ht ht' heq
    cases h' with
    | number n' =>
      obtain ⟨hdigits, hrest⟩ := (unmarked_signedDecimal n).append_inj (unmarked_signedDecimal n') ht.isMark
        ht'.isMark heq
      rw [signedDecimal_injective hdigits]
      exact ⟨rfl, hrest⟩
    | _ => cases hform
  | absent =>
    intro o' h' t t' ht ht' heq
    have hform := Readable.absent.form_eq h' ht ht' heq
    cases h' with
    | absent => exact ⟨rfl, List.append_cancel_left heq⟩
    | _ => cases hform
  | hidden hne hname =>
    intro o' h' t t' ht ht' heq
    have hform := (Readable.hidden hne hname).form_eq h' ht ht' heq
    cases h' with
    | hidden hne' hname' =>
      obtain ⟨rfl, hrest⟩ := hname.append_inj hname' (fun b hb => by cases hb; rfl)
        (fun b hb => by cases hb; rfl) heq
      exact ⟨rfl, List.append_cancel_left hrest⟩
    | _ => cases hform

/-- Readable outlines are told apart by their texts. -/
theorem text_inj {o o' : Outline} (h : Readable o) (h' : Readable o') (heq : o.text = o'.text) : o = o' :=
  (h.cutsOff o' h' [] [] ends_nil ends_nil heq).1

end Outline

end Trampoline

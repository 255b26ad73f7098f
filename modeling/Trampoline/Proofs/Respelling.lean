import Trampoline.Proofs.ClassText
import Trampoline.Proofs.Nesting
import Trampoline.Proofs.Words

/-!
# Trampoline.Proofs.Respelling -- texts that differ in the spelling of their words

Replacing words in a text gives another text of the same shape. The two texts are put together from the same
pieces: fixed text, which has no word that is replaced, and words, numbers and strings between them. A piece of
fixed text behind a word has to start with a byte that ends the word.

The words of fixed text start in no way in which a name or a temporary starts. So nothing that is made from a
name or a number can be taken for a word of the text around it.
-/

namespace Trampoline

open Bytes

namespace CodeToken

/-! ## Pieces of text -/

/-- What may be held where a piece of text starts or ends: nothing, or a word as well, or a number or a string
as well. -/
inductive Edge where
  | clean
  | word
  | token
  deriving DecidableEq

def Edge.admits : Edge → Held → Bool
  | _, .nothing => true
  | .word, .word _ => true
  | .token, .word _ => true
  | .token, .number _ => true
  | .token, .closed _ => true
  | _, _ => false

/-- A byte that ends all that may be held. A sign can go on with a number. -/
def Edge.stops : Edge → UInt8 → Bool
  | .clean, _ => true
  | .word, b => isSafe b
  | .token, b => isSafe b && b != Byte.plus && b != Byte.minus

/-- What is held, with a word replaced. -/
def Held.respell (ρ : Bytes → Bytes) : Held → Held
  | .word w => .word (ρ w)
  | h => h

theorem Held.atoms_respell (ρ : Bytes → Bytes) (h : Held) :
    (h.respell ρ).atoms = h.atoms.map (Atom.respell ρ) := by
  have hbytes (w : Bytes) : (w.map Atom.byte).map (Atom.respell ρ) = w.map Atom.byte := by
    rw [List.map_map]
    rfl
  cases h with
  | word w => rfl
  | _ => exact (hbytes _).symm

theorem Edge.admits_respell (ρ : Bytes → Bytes) (a : Edge) (h : Held) : a.admits (h.respell ρ) = a.admits h := by
  cases a <;> cases h <;> rfl

theorem Edge.admits_clean {h : Held} (hh : Edge.clean.admits h = true) : h = .nothing := by
  cases h with
  | nothing => rfl
  | _ => cases hh

theorem Edge.admits_token {a : Edge} {h : Held} (hh : a.admits h = true) : Edge.token.admits h = true := by
  cases a <;> cases h <;> first | rfl | cases hh

/-- What is held comes to its end, and the reading goes on as from a fresh start. -/
theorem Edge.readAll_stops {a : Edge} {h : Held} {b : UInt8} (hh : a.admits h = true) (hb : a.stops b = true)
    (t : Bytes) :
    h.readAll (b :: t) = (Held.nothing.readAll (b :: t)).map fun p => (p.1, h.atoms ++ p.2) := by
  have hends : h.extend b = none ∧ h.endsBefore b = true := by
    cases h with
    | nothing => exact ⟨rfl, rfl⟩
    | opened body escaped => cases a <;> cases hh
    | dot => cases a <;> cases hh
    | word w =>
      have hsafe : isSafe b = true := by
        cases a with
        | clean => cases hh
        | word => exact hb
        | token =>
          simp only [stops, Bool.and_eq_true] at hb
          exact hb.1.1
      obtain ⟨hword, hdouble, hsingle, -⟩ := isSafe_iff.mp hsafe
      simp [Held.extend, Held.endsBefore, hword, hdouble, hsingle]
    | number d =>
      cases a with
      | token =>
        simp only [stops, Bool.and_eq_true, bne_iff_ne] at hb
        obtain ⟨hword, -, hsingle, -, hdot, -⟩ := isSafe_iff.mp hb.1.1
        simp [Held.extend, Held.endsBefore, hword, hsingle, hdot, hb.1.2, hb.2]
      | _ => cases hh
    | closed body =>
      cases a with
      | token =>
        simp only [stops, Bool.and_eq_true] at hb
        exact ⟨rfl, by simp [Held.endsBefore, (isSafe_iff.mp hb.1.1).1]⟩
      | _ => cases hh
  have hread : h.read b = (Held.nothing.read b).map fun p => (p.1, h.atoms ++ p.2) := by
    rw [Held.read, hends.1]
    dsimp only
    rw [if_pos hends.2]
    show _ = ((Held.start b).map fun p => (p.1, [] ++ p.2)).map fun p => (p.1, h.atoms ++ p.2)
    rw [Option.map_map]
    rfl
  rw [Held.readAll, Held.readAll, hread]
  cases Held.nothing.read b with
  | none => rfl
  | some p =>
    show (p.1.readAll t).bind _ = ((p.1.readAll t).bind _).map _
    cases p.1.readAll t with
    | none => rfl
    | some q => simp [List.append_assoc]

/-- `Respells ρ a t t' b`: between the two edges, the second text has the words of the first one replaced. -/
def Respells (ρ : Bytes → Bytes) (a : Edge) (t t' : Bytes) (b : Edge) : Prop :=
  ∀ h, a.admits h = true → ∃ h' as, b.admits h' = true ∧ h.readAll t = some (h', as) ∧
    (h.respell ρ).readAll t' = some (h'.respell ρ, as.map (Atom.respell ρ))

section

variable {ρ : Bytes → Bytes} {a b c : Edge} {t t' u u' : Bytes}

theorem respells_nil : Respells ρ a [] [] a := fun h hh => ⟨h, [], hh, rfl, rfl⟩

/-- Texts that are respelled one after the other are respelled. -/
theorem Respells.append (ht : Respells ρ a t t' b) (hu : Respells ρ b u u' c) :
    Respells ρ a (t ++ u) (t' ++ u') c := by
  intro h hh
  obtain ⟨h₁, as, hh₁, hfirst, hfirst'⟩ := ht h hh
  obtain ⟨h₂, bs, hh₂, hsecond, hsecond'⟩ := hu h₁ hh₁
  refine ⟨h₂, as ++ bs, hh₂, Held.readAll_append hfirst hsecond, ?_⟩
  rw [List.map_append]
  exact Held.readAll_append hfirst' hsecond'

/-- A piece that ends with less may be followed by all that can follow more. -/
theorem Respells.token (h : Respells ρ a t t' b) : Respells ρ a t t' .token := by
  intro held hheld
  obtain ⟨h', as, hh', hread⟩ := h held hheld
  exact ⟨h', as, Edge.admits_token hh', hread⟩

/-- The two texts as wholes. -/
theorem Respells.whole (h : Respells ρ .clean t t' .clean) :
    ∃ as, Held.nothing.readAll t = some (.nothing, as) ∧
      Held.nothing.readAll t' = some (.nothing, as.map (Atom.respell ρ)) := by
  obtain ⟨h', as, hh', hread, hread'⟩ := h .nothing rfl
  obtain rfl := Edge.admits_clean hh'
  exact ⟨as, hread, hread'⟩

theorem atoms_of_readAll {as : List Atom} (h : Held.nothing.readAll t = some (.nothing, as)) : atoms t = as := by
  have hlex := (Held.Sound.readAll (h := .nothing) trivial h).2 []
  rw [atoms, Held.splice_of_readAll h]
  simpa [Held.text, lexAtoms_nil] using hlex

/-- Replacing the words of a text gives the respelled text. -/
theorem Respells.replaceWords_eq (h : Respells ρ .clean t t' .clean) : replaceWords ρ t = t' := by
  obtain ⟨as, hread, hread'⟩ := h.whole
  have htext : t' = (as.map (Atom.respell ρ)).flatMap (Atom.replaced id) := by
    simpa [Held.text] using Held.text_readAll hread'
  rw [replaceWords, atoms_of_readAll hread, htext, List.flatMap_map]
  exact List.flatMap_congr fun x _ => (Atom.replaced_respell ρ x).symm

theorem Respells.atoms_eq (h : Respells ρ .clean t t' .clean) : atoms t' = (atoms t).map (Atom.respell ρ) := by
  obtain ⟨as, hread, hread'⟩ := h.whole
  rw [atoms_of_readAll hread, atoms_of_readAll hread']

/-- A text that stays as it is has no words that are replaced. -/
theorem Respells.word_fixed {w : Bytes} (h : Respells ρ .clean t t .clean) (hw : .word w ∈ tokens t) :
    ρ w = w := by
  have hfixed := List.map_inj_left.mp (h.atoms_eq.symm.trans (List.map_id _).symm) _ (word_mem_lexAtoms hw)
  exact Atom.word.inj hfixed

/-- Replacements that make the same text agree on the words that they replace. -/
theorem Respells.word_agree {σ : Bytes → Bytes} {w : Bytes} (hρ : Respells ρ .clean t t' .clean)
    (hσ : Respells σ .clean t t' .clean) (hw : .word w ∈ atoms t) : ρ w = σ w :=
  Atom.word.inj (List.map_inj_left.mp (hρ.atoms_eq.symm.trans hσ.atoms_eq) _ hw)

/-- Every word of the text that is made stands for a word of the other one. -/
theorem Respells.exists_word {w : Bytes} (h : Respells ρ .clean t t' .clean) (hw : .word w ∈ tokens t') :
    ∃ v, .word v ∈ atoms t ∧ ρ v = w := by
  have hmem : .word w ∈ atoms t' := word_mem_lexAtoms hw
  rw [h.atoms_eq, List.mem_map] at hmem
  obtain ⟨x, hx, heq⟩ := hmem
  cases x with
  | word v => exact ⟨v, hx, Atom.word.inj heq⟩
  | byte b => cases heq

/-- Respelling leaves no text empty, and makes none. -/
theorem Respells.eq_nil_iff (h : Respells ρ .clean t t' .clean) : t = [] ↔ t' = [] := by
  obtain ⟨as, hread, hread'⟩ := h.whole
  constructor
  · rintro rfl
    cases hread
    simpa [Held.text] using Held.text_readAll hread'
  · rintro rfl
    have hnil : as.map (Atom.respell ρ) = [] := (Prod.mk.inj (Option.some.inj hread')).2.symm
    obtain rfl := List.map_eq_nil_iff.mp hnil
    simpa [Held.text] using Held.text_readAll hread

/-! ## Fixed text -/

/-- The ways in which the names and temporaries of emitted code start. -/
def leads : List Bytes := [ascii "s_", ascii "c_", ascii "__"]

/-- A word that starts like a name or a temporary. -/
def isMade (w : Bytes) : Bool := leads.any (startsWith w)

/-- No other words are replaced. -/
def Spares (ρ : Bytes → Bytes) : Prop := ∀ w, isMade w = false → ρ w = w

def Atom.isFixed : Atom → Bool
  | .word w => !isMade w
  | .byte _ => true

/-- A text that can stand behind an edge and has no words that are replaced. -/
def isFixed (a : Edge) (t : Bytes) : Bool :=
  t.head?.any a.stops && (Held.nothing.readAll t).any fun p => p.1 == .nothing && p.2.all Atom.isFixed

/-- A text without replaced words is respelled as itself. -/
theorem respells_fixed (hρ : Spares ρ) (h : isFixed a t = true) : Respells ρ a t t .clean := by
  intro held hheld
  simp only [isFixed, Bool.and_eq_true, Option.any_eq_true, beq_iff_eq, Prod.exists] at h
  obtain ⟨⟨first, hfirst, hstops⟩, end', as, hread, rfl, hfixed⟩ := h
  have hsame : as.map (Atom.respell ρ) = as := by
    refine (List.map_congr_left fun x hx => ?_).trans (List.map_id as)
    have hx := List.all_eq_true.mp hfixed x hx
    cases x with
    | word w => exact congrArg Atom.word (hρ w (by simpa [Atom.isFixed] using hx))
    | byte b => rfl
  cases t with
  | nil => cases hfirst
  | cons c t =>
    cases hfirst
    -- The first byte ends what is held, and ends it as well when it is respelled.
    refine ⟨.nothing, held.atoms ++ as, rfl, ?_, ?_⟩
    · rw [Edge.readAll_stops hheld hstops, hread]
      rfl
    · have hheld' : a.admits (held.respell ρ) = true := by rw [Edge.admits_respell, hheld]
      rw [Edge.readAll_stops hheld' hstops, hread, List.map_append, hsame, ← Held.atoms_respell]
      rfl

/-- A piece with fixed text behind it. -/
theorem Respells.fixed (h : Respells ρ a t t' b) (hρ : Spares ρ) (hu : isFixed b u = true) :
    Respells ρ a (t ++ u) (t' ++ u) .clean :=
  h.append (respells_fixed hρ hu)

/-- A word with fixed text on both sides. -/
theorem Respells.between {l r : Bytes} (h : Respells ρ .clean t t' .word) (hρ : Spares ρ)
    (hl : isFixed .clean l = true) (hr : isFixed .word r = true) :
    Respells ρ .clean (l ++ t ++ r) (l ++ t' ++ r) .clean :=
  ((respells_fixed hρ hl).append h).fixed hρ hr

theorem respells_newline (hρ : Spares ρ) : Respells ρ .clean [Byte.newline] [Byte.newline] .clean :=
  respells_fixed hρ (by decide)

/-! ## Words, numbers and strings -/

/-- A text that is one word. -/
structure IsWord (w : Bytes) : Prop where
  ne_nil : w ≠ []
  head : w.head?.any Byte.isDigit = false
  all : w.all Byte.isWord = true

instance (w : Bytes) : Decidable (IsWord w) :=
  decidable_of_iff (w ≠ [] ∧ w.head?.any Byte.isDigit = false ∧ w.all Byte.isWord = true)
    ⟨fun h => ⟨h.1, h.2.1, h.2.2⟩, fun h => ⟨h.ne_nil, h.head, h.all⟩⟩

/-- A word that starts like another one. -/
theorem isWord_append {v w : Bytes} (hv : IsWord v) (hw : w.all Byte.isWord = true) : IsWord (v ++ w) where
  ne_nil := List.append_ne_nil_of_left_ne_nil hv.ne_nil w
  head := by rw [List.head?_append_of_ne_nil _ hv.ne_nil, hv.head]
  all := by rw [List.all_append, hv.all, hw, Bool.and_true]

theorem Held.start_isWord {c : UInt8} (hc : Byte.isWord c = true) :
    Held.nothing.read c = some (if Byte.isDigit c then .number [c] else .word [c], []) := by
  have hsafe : isSafe c = false := by simp [isSafe, hc]
  cases hdigit : Byte.isDigit c <;> simp [read, extend, endsBefore, start, atoms, text, hsafe, hdigit, hc]

/-- A word or a number goes on as long as there are letters and digits. -/
theorem Held.readAll_goesOn {k : Bytes → Held}
    (hk : ∀ v c, Byte.isWord c = true → (k v).extend c = some (k (v ++ [c]))) {v w : Bytes}
    (hw : w.all Byte.isWord = true) : (k v).readAll w = some (k (v ++ w), []) := by
  induction w generalizing v with
  | nil => rw [List.append_nil]; rfl
  | cons c w ih =>
    rw [List.all_cons, Bool.and_eq_true] at hw
    refine readAll_cons.mpr ⟨k (v ++ [c]), [], [], by rw [Held.read, hk v c hw.1], ?_, rfl⟩
    rw [ih hw.2, List.append_assoc]
    rfl

theorem IsWord.readAll {w : Bytes} (h : IsWord w) : Held.nothing.readAll w = some (.word w, []) := by
  obtain ⟨hne, hhead, hall⟩ := h
  cases w with
  | nil => exact absurd rfl hne
  | cons c w =>
    rw [List.all_cons, Bool.and_eq_true] at hall
    have hdigit : Byte.isDigit c = false := by simpa using hhead
    refine Held.readAll_cons.mpr ⟨.word [c], [], [], ?_, ?_, rfl⟩
    · rw [Held.start_isWord hall.1, hdigit]
      rfl
    · exact Held.readAll_goesOn (k := .word) (fun _ _ h => if_pos h) hall.2

/-- A word, as it is replaced. -/
theorem respells_word {w w' : Bytes} (hw : IsWord w) (hw' : IsWord w') (h : ρ w = w') :
    Respells ρ .clean w w' .word := by
  intro held hheld
  obtain rfl := Edge.admits_clean hheld
  subst h
  exact ⟨.word w, [], rfl, hw.readAll, hw'.readAll⟩

theorem respells_number {d : Bytes} (hhead : d.head?.any Byte.isDigit = true) (hall : d.all Byte.isWord = true) :
    Respells ρ .clean d d .token := by
  intro held hheld
  obtain rfl := Edge.admits_clean hheld
  have hread : Held.nothing.readAll d = some (.number d, []) := by
    cases d with
    | nil => cases hhead
    | cons c d =>
      rw [List.all_cons, Bool.and_eq_true] at hall
      have hdigit : Byte.isDigit c = true := by simpa using hhead
      refine Held.readAll_cons.mpr ⟨.number [c], [], [], ?_, ?_, rfl⟩
      · rw [Held.start_isWord hall.1, hdigit]
        rfl
      · exact Held.readAll_goesOn (k := .number) (fun _ _ h => if_pos h) hall.2
  exact ⟨.number d, [], rfl, hread, hread⟩

theorem head_decimal (n : Nat) : (decimal n).head?.any Byte.isDigit = true := by
  obtain ⟨c, d, hd, hdigit, _⟩ := exists_decimal_cons n
  rw [hd, List.head?_cons, Option.any_some, hdigit]

theorem respells_decimal (n : Nat) : Respells ρ .clean (decimal n) (decimal n) .token :=
  respells_number (head_decimal n) (all_isWord_decimal n)

theorem Held.readAll_enclosed {lead body : Bytes} (front : Bytes) (h : Enclosed lead body)
    (hend : ¬ Escapes (lead ++ body)) :
    (Held.opened front (decide (Escapes lead))).readAll (body ++ [Byte.doubleQuote]) =
      some (.closed (front ++ body ++ [Byte.doubleQuote]), []) := by
  induction body generalizing lead front with
  | nil =>
    rw [List.append_nil] at hend
    rw [decide_eq_false hend, List.append_nil]
    rfl
  | cons b body ih =>
    obtain ⟨hb, hquote, hbody⟩ := enclosed_cons.mp h
    have hopen : ¬ (b = Byte.doubleQuote ∧ decide (Escapes lead) = false) := by
      rintro ⟨hq, hesc⟩
      exact of_decide_eq_false hesc (hquote hq)
    refine readAll_cons.mpr ⟨.opened (front ++ [b]) (decide (Escapes (lead ++ [b]))), [], [], ?_, ?_, rfl⟩
    · rw [Held.read, Held.extend, if_neg hb, if_neg hopen, escapes_step]
    · have hrest := ih (front ++ [b]) hbody (by rwa [List.append_assoc])
      rwa [List.append_assoc front [b] body] at hrest

/-- A literal is respelled as itself, whatever it holds. -/
theorem respells_quoted (s : Bytes) : Respells ρ .clean (Escape.quoted s) (Escape.quoted s) .token := by
  intro held hheld
  obtain rfl := Edge.admits_clean hheld
  obtain ⟨body, hquoted, hbody, hend⟩ := Quoting.isString_of_decode (Quoting.decode_quoted s)
  have hread : Held.nothing.readAll (Escape.quoted s) =
      some (.closed ([] ++ body ++ [Byte.doubleQuote]), []) := by
    rw [hquoted]
    refine Held.readAll_cons.mpr ⟨.opened [] false, [], [], rfl, ?_, rfl⟩
    have hinside := Held.readAll_enclosed [] hbody hend
    rwa [decide_eq_false (by decide)] at hinside
  exact ⟨_, [], rfl, hread, hread⟩

/-! ## Lists and lines -/

theorem respells_flatMap {α : Type} {xs : List α} {f g : α → Bytes}
    (h : ∀ x ∈ xs, Respells ρ a (f x) (g x) a) : Respells ρ a (xs.flatMap f) (xs.flatMap g) a := by
  induction xs with
  | nil => exact respells_nil
  | cons x xs ih =>
    rw [List.forall_mem_cons] at h
    rw [List.flatMap_cons, List.flatMap_cons]
    exact h.1.append (ih h.2)

theorem forall₂_map {α : Type} {r : Bytes → Bytes → Prop} {xs : List α} {f g : α → Bytes}
    (h : ∀ x ∈ xs, r (f x) (g x)) : List.Forall₂ r (xs.map f) (xs.map g) :=
  List.forall₂_map_left_iff.mpr (List.forall₂_map_right_iff.mpr (List.forall₂_same.mpr h))

/-- A list with commas is respelled item by item. -/
theorem respells_commaList (hρ : Spares ρ) {ts ts' : List Bytes}
    (h : List.Forall₂ (fun t t' => Respells ρ .clean t t' .token) ts ts') :
    Respells ρ .clean (commaList ts) (commaList ts') .token := by
  have hcomma : Respells ρ .token [Byte.comma, Byte.space] [Byte.comma, Byte.space] .clean :=
    respells_fixed hρ (by decide)
  cases h with
  | nil => exact respells_nil.token
  | cons ht hts =>
    rw [commaList_cons, commaList_cons]
    refine ht.append ?_
    induction hts with
    | nil => exact respells_nil
    | cons hu _ ih => exact (hcomma.append hu).append ih

/-- Lines that are respelled one by one. -/
def RespellsLines (ρ : Bytes → Bytes) : List Bytes → List Bytes → Prop :=
  List.Forall₂ fun l l' => Respells ρ .clean l l' .clean

theorem RespellsLines.append {ls ls' ms ms' : List Bytes} (hl : RespellsLines ρ ls ls')
    (hm : RespellsLines ρ ms ms') : RespellsLines ρ (ls ++ ms) (ls' ++ ms') :=
  List.rel_append hl hm

/-- Lines are respelled one by one. -/
theorem RespellsLines.unlines (hρ : Spares ρ) {ls ls' : List Bytes} (h : RespellsLines ρ ls ls') :
    Respells ρ .clean (unlines ls) (unlines ls') .clean := by
  induction h with
  | nil => exact respells_nil
  | cons hl hls ih =>
    cases hls with
    | nil => simpa [Bytes.unlines] using hl
    | cons hl' hls =>
      unfold Bytes.unlines at ih ⊢
      rw [List.intercalate_cons_cons, List.intercalate_cons_cons, List.append_assoc, List.append_assoc]
      exact hl.append ((respells_newline hρ).append ih)

theorem Respells.closed (hρ : Spares ρ) (h : Respells ρ .clean t t' .clean) :
    Respells ρ .clean (closed t) (closed t') .clean := by
  unfold Bytes.closed
  by_cases ht : t = []
  · rw [if_pos ht, if_pos (h.eq_nil_iff.mp ht)]
    exact respells_nil
  · rw [if_neg ht, if_neg fun h' => ht (h.eq_nil_iff.mpr h')]
    exact h.append (respells_newline hρ)

theorem Respells.line (h : Respells ρ .clean t t' .clean) : RespellsLines ρ (line t) (line t') := by
  unfold Bytes.line
  by_cases ht : t = []
  · rw [if_pos ht, if_pos (h.eq_nil_iff.mp ht)]
    exact .nil
  · rw [if_neg ht, if_neg fun h' => ht (h.eq_nil_iff.mpr h')]
    exact .cons h .nil

/-! ## Declarations and halting -/

theorem respells_declareSlot (hρ : Spares ρ) (h : Respells ρ .clean t t' .word) :
    Respells ρ .clean (declareSlot t) (declareSlot t') .clean :=
  h.between (l := ascii "SCHEMETYPE_T ") hρ (by decide) (by decide)

theorem respells_declareReference (hρ : Spares ρ) (h : Respells ρ .clean t t' .word) :
    Respells ρ .clean (declareReference t) (declareReference t') .clean :=
  h.between (l := ascii "SCHEMETYPE_T ") hρ (by decide) (by decide)

theorem respells_declareThunk (hρ : Spares ρ) (h : Respells ρ .clean t t' .word) :
    Respells ρ .clean (declareThunk t) (declareThunk t') .clean :=
  h.between (l := ascii "THUNK_T ") hρ (by decide) (by decide)

/-- Fixed lines are respelled as themselves. -/
theorem respellsLines_fixed (hρ : Spares ρ) (ls : List Bytes) (h : ls.all (isFixed .clean) = true) :
    RespellsLines ρ ls ls :=
  List.forall₂_same.mpr fun l hl => respells_fixed hρ (List.all_eq_true.mp h l hl)

theorem respells_haltLines (hρ : Spares ρ) {x x' : Ident} (h : Respells ρ .clean x.text x'.text .word) :
    RespellsLines ρ (haltLines x) (haltLines x') := by
  have haround {l r : Bytes} (hl : isFixed .clean l = true) (hr : isFixed .word r = true) :
      Respells ρ .clean (l ++ x.text ++ r) (l ++ x'.text ++ r) .clean :=
    h.between hρ hl hr
  have hwrite : Respells ρ .clean
      (ascii "fwrite(" ++ x.text ++ ascii "->str()->data(), 1, " ++ x.text ++ ascii "->str()->size(), stdout);")
      (ascii "fwrite(" ++ x'.text ++ ascii "->str()->data(), 1, " ++ x'.text ++ ascii "->str()->size(), stdout);")
      .clean :=
    ((haround (by decide) (by decide +kernel)).append h).fixed hρ (by decide +kernel)
  rw [haltLines_eq, haltLines_eq]
  refine .cons (haround (by decide) (by decide)) (.cons (respells_fixed hρ (by decide)) ?_)
  refine .cons (haround (by decide) (by decide)) ?_
  refine (respellsLines_fixed hρ haltMiddle (by decide +kernel)).append (.cons hwrite ?_)
  exact (respellsLines_fixed hρ haltEnd (by decide +kernel)).append (respellsLines_fixed hρ _ (by decide))

/-! ## Classes -/

theorem respells_formals (hρ : Spares ρ) (n : Nat) {names : List Bytes}
    (h : ∀ x ∈ names, Respells ρ .clean x x .word) :
    Respells ρ .clean (formals n names) (formals n names) .token := by
  refine respells_commaList hρ (forall₂_map fun i _ => ?_)
  have htype : Respells ρ .clean (ascii "SCHEMETYPE_T") (ascii "SCHEMETYPE_T") .word :=
    respells_word (by decide) (by decide) (hρ _ (by decide))
  have hspace : Respells ρ .word [Byte.space] [Byte.space] .clean := respells_fixed hρ (by decide)
  cases hx : names[i]? with
  | none => exact (htype.append respells_nil).token
  | some x => exact (htype.append (hspace.append (h x (List.mem_of_getElem? hx)))).token

theorem respells_types (hρ : Spares ρ) (n : Nat) : Respells ρ .clean (formals n []) (formals n []) .token :=
  respells_formals hρ n fun _ hx => absurd hx List.not_mem_nil

/-- The code of a function and its result. -/
structure RespellsCode (ρ : Bytes → Bytes) (f f' : Fragment) : Prop where
  decls : Respells ρ .clean f.decls f'.decls .clean
  ops : Respells ρ .clean f.ops f'.ops .clean
  value : Respells ρ .clean f.value.text f'.value.text .token

/-- The definition of a class has no temporaries. -/
theorem respells_closureDecl (clo : Closure) (hρ : Spares ρ) {name : Bytes}
    (hclass : Respells ρ .clean (Name.ofClass name) (Name.ofClass name) .word)
    (hfields : ∀ x ∈ clo.captured.map Name.ofVariable, Respells ρ .clean x x .word) :
    Respells ρ .clean (clo.decl name) (clo.decl name) .clean := by
  have hinits : Respells ρ .token
      ((clo.captured.map Name.ofVariable).flatMap fun h => ascii ", " ++ h ++ ascii "(" ++ h ++ ascii ")")
      ((clo.captured.map Name.ofVariable).flatMap fun h => ascii ", " ++ h ++ ascii "(" ++ h ++ ascii ")")
      .token := by
    refine respells_flatMap fun x hx => ?_
    refine .token (.fixed (.append (.fixed (.append ?_ (hfields x hx)) hρ ?_) (hfields x hx)) hρ ?_)
    · exact respells_fixed hρ (by decide)
    · decide
    · decide
  have hprivate : Respells ρ .clean
      (if clo.captured.map Name.ofVariable = [] then []
        else ascii "private:\n" ++
          (clo.captured.map Name.ofVariable).flatMap fun h => declareReference h ++ [Byte.newline])
      (if clo.captured.map Name.ofVariable = [] then []
        else ascii "private:\n" ++
          (clo.captured.map Name.ofVariable).flatMap fun h => declareReference h ++ [Byte.newline])
      .clean := by
    split
    · exact respells_nil
    · refine .append (b := .clean) (respells_fixed hρ (by decide)) (respells_flatMap fun x hx => ?_)
      exact (respells_declareReference hρ (hfields x hx)).fixed hρ (by decide)
  unfold Closure.decl
  -- From the back: the fields, the call operator, the constructor and the name.
  refine .fixed (.append (.fixed (b := .token) ?_ hρ (by decide)) hprivate) hρ (by decide)
  refine .append (.fixed (b := .token) (.append ?_ hinits) hρ (by decide +kernel)) (respells_types hρ _)
  refine (Respells.fixed (b := .token) (.append ?_ (respells_decimal _)) hρ (by decide)).token
  refine .fixed (.append ?_ (respells_formals hρ _ hfields)) hρ (by decide)
  refine .fixed (.append (.fixed (.append ?_ hclass) hρ (by decide +kernel)) hclass) hρ (by decide)
  exact respells_fixed hρ (by decide)

/-- A call operator is respelled if its body is. -/
theorem respells_closureOp (clo clo' : Closure) (hρ : Spares ρ) {name : Bytes}
    (hclass : Respells ρ .clean (Name.ofClass name) (Name.ofClass name) .word) (hsame : clo'.params = clo.params)
    (hparams : ∀ x ∈ clo.params.map Name.ofVariable, Respells ρ .clean x x .word)
    (hbody : RespellsCode ρ clo.body clo'.body) :
    Respells ρ .clean (clo.op name) (clo'.op name) .clean := by
  unfold Closure.op
  rw [hsame]
  -- From the back: the result, the code of the body, the parameters and the name.
  refine .fixed (.append (.fixed (.append (.append ?_ (hbody.decls.closed hρ)) (hbody.ops.closed hρ)) hρ
    (by decide)) hbody.value) hρ (by decide)
  refine .fixed (.append (.fixed (.append ?_ hclass) hρ (by decide)) (respells_formals hρ _ hparams)) hρ
    (by decide)
  exact respells_fixed hρ (by decide)

/-! ## Units -/

theorem respells_baseDecl (hρ : Spares ρ) (range : Nat × Nat) :
    Respells ρ .clean (ClassTable.baseDecl range) (ClassTable.baseDecl range) .clean := by
  unfold ClassTable.baseDecl
  refine .fixed (.append (.fixed (respells_fixed hρ (by decide +kernel)) hρ (by decide +kernel))
    (respells_flatMap fun n _ => ?_)) hρ (by decide)
  exact .fixed (.append (respells_fixed hρ (by decide)) (respells_types hρ n)) hρ (by decide)

theorem respells_baseOps (hρ : Spares ρ) (range : Nat × Nat) :
    Respells ρ .clean (ClassTable.baseOps range) (ClassTable.baseOps range) .clean := by
  refine RespellsLines.unlines hρ (forall₂_map fun n _ => ?_)
  refine .fixed (.append (.fixed (.append ?_ (respells_types hρ n)) hρ (by decide)) (respells_decimal n)) hρ
    (by decide)
  exact respells_fixed hρ (by decide)

theorem respells_callCase (hρ : Spares ρ) (n : Nat) :
    Respells ρ .clean (Program.callCase n) (Program.callCase n) .clean := by
  have hargs : Respells ρ .clean
      (commaList ((List.range n).map fun i => ascii "args[" ++ decimal i ++ ascii "]"))
      (commaList ((List.range n).map fun i => ascii "args[" ++ decimal i ++ ascii "]")) .token := by
    refine respells_commaList hρ (forall₂_map fun i _ => ?_)
    exact (Respells.fixed (.append (respells_fixed hρ (by decide)) (respells_decimal i)) hρ (by decide)).token
  unfold Program.callCase
  refine .fixed (.append (.fixed (.append ?_ (respells_decimal n)) hρ (by decide)) hargs) hρ (by decide)
  exact respells_fixed hρ (by decide)

theorem respells_thunkStep (hρ : Spares ρ) (range : Nat × Nat) :
    Respells ρ .clean (Program.thunkStep range) (Program.thunkStep range) .clean := by
  unfold Program.thunkStep
  refine .fixed (.append ?_ (respells_flatMap fun n _ => respells_callCase hρ n)) hρ (by decide +kernel)
  exact .fixed (.fixed (respells_fixed hρ (by decide)) hρ (by decide +kernel)) hρ (by decide)

/-- The main function is respelled if its body is. -/
theorem respells_mainFunction (hρ : Spares ρ) {f f' : Fragment} (h : RespellsCode ρ f f') :
    Respells ρ .clean (Program.mainFunction f) (Program.mainFunction f') .clean := by
  unfold Program.mainFunction
  refine .fixed (.fixed (.append (.fixed (b := .clean) ?_ hρ (by decide)) h.value) hρ (by decide)) hρ
    (by decide +kernel)
  exact .append (.append (respells_fixed hρ (by decide)) (h.decls.closed hρ)) (h.ops.closed hρ)

/-- A class and what it becomes. -/
structure RespellsClass (ρ : Bytes → Bytes) (d d' : ClassDef) : Prop where
  decl : Respells ρ .clean d.decl d'.decl .clean
  op : Respells ρ .clean d.op d'.op .clean

theorem respells_classes (hρ : Spares ρ) {text : ClassDef → Bytes} {D D' : List ClassDef}
    (h : List.Forall₂ (fun d d' => Respells ρ .clean (text d) (text d') .clean) D D') :
    Respells ρ .clean (D.flatMap fun d => Byte.newline :: text d) (D'.flatMap fun d => Byte.newline :: text d)
      .clean := by
  induction h with
  | nil => exact respells_nil
  | cons hd _ ih => exact ((respells_newline hρ).append hd).append ih

theorem respells_runtime (hρ : Spares ρ) :
    ∀ t ∈ [Program.headers, Program.typeNames, Program.valueTypes, Program.supportFunctions],
      Respells ρ .clean t t .clean := by
  -- These texts hold no names, so it is enough to read them once.
  have hall : ∀ t ∈ [Program.headers, Program.typeNames, Program.valueTypes, Program.supportFunctions],
      isFixed .clean t = true := by decide +kernel
  exact fun t ht => respells_fixed hρ (hall t ht)

/-- A unit is respelled class by class. -/
theorem respells_textFor (hρ : Spares ρ) {p p' : Program} (range : Nat × Nat)
    (hclasses : List.Forall₂ (RespellsClass ρ) p.table.defs p'.table.defs)
    (hroot : RespellsCode ρ p.root p'.root) :
    Respells ρ .clean (p.textFor range) (p'.textFor range) .clean := by
  have hheaders := respells_runtime hρ Program.headers (by simp)
  have htypes := respells_runtime hρ Program.typeNames (by simp)
  have hvalues := respells_runtime hρ Program.valueTypes (by simp)
  have hsupport := respells_runtime hρ Program.supportFunctions (by simp)
  have hdecls : Respells ρ .clean (p.table.decls range) (p'.table.decls range) .clean :=
    (respells_baseDecl hρ range).append (respells_classes hρ (hclasses.imp fun _ _ h => h.decl))
  have hops : Respells ρ .clean (p.table.ops range) (p'.table.ops range) .clean :=
    (respells_baseOps hρ range).append (respells_classes hρ (hclasses.imp fun _ _ h => h.op))
  have hline : isFixed .clean (ascii "\n") = true := by decide
  have hlines : isFixed .clean (ascii "\n\n") = true := by decide
  unfold Program.textFor
  refine .append (.fixed (.append (.fixed (.append (.fixed (.append (.fixed ?_ hρ hline) hsupport) hρ hline) hops)
    hρ hlines) (respells_thunkStep hρ range)) hρ hline) (respells_mainFunction hρ hroot)
  exact .append (.fixed (.append (.fixed (.append (.fixed hheaders hρ hline) htypes) hρ hline) hdecls) hρ hlines)
    hvalues

theorem respellsCode_haltCode (hρ : Spares ρ) {x : Bytes}
    (h : Respells ρ .clean (Name.ofVariable x) (Name.ofVariable x) .word) :
    RespellsCode ρ (Expr.haltCode x) (Expr.haltCode x) where
  decls := respells_fixed (t := ascii "int retval = 0;") hρ (by decide)
  ops := by
    have hlines : Instr.opLinesAll (Expr.haltCode x).code = haltLines (.named x) := by
      simp [Expr.haltCode, Instr.opLinesAll, Instr.opLines]
    rw [Fragment.ops, hlines]
    have hhalt : RespellsLines ρ (haltLines (.named x)) (haltLines (.named x)) := respells_haltLines hρ h
    exact hhalt.unlines hρ
  value := (respells_fixed (t := ascii "THUNK_T(nullptr)") hρ (by decide)).token

end

/-! ## Names and the text around them -/

/-- Respells all names and temporaries, but for some that are kept. -/
def stamp (kept : List Bytes) (w : Bytes) : Bytes :=
  if isMade w && !kept.contains w then w ++ [Byte.underscore] else w

theorem spares_stamp (kept : List Bytes) : Spares (stamp kept) := by
  intro w hw
  simp [stamp, hw]

theorem not_isMade_of_stamp {kept : List Bytes} {w : Bytes} (h : stamp kept w = w) (hw : w ∉ kept) :
    isMade w = false := by
  cases hmade : isMade w with
  | false => rfl
  | true => simp [stamp, hmade, hw] at h

theorem respells_stamp {kept : List Bytes} {w : Bytes} (hw : w ∈ kept) (hword : IsWord w) :
    Respells (stamp kept) .clean w w .word :=
  respells_word hword hword (by simp [stamp, hw])

theorem isMade_append {lead : Bytes} (h : lead ∈ leads) (t : Bytes) : isMade (lead ++ t) = true :=
  List.any_eq_true.mpr ⟨lead, h, List.isPrefixOf_iff_prefix.mpr (List.prefix_append lead t)⟩

theorem isWord_ofVariable (x : Bytes) : IsWord (Name.ofVariable x) where
  ne_nil := (isName_ofVariable x).ne_nil
  head := rfl
  all := List.all_eq_true.mpr (isName_ofVariable x).word

theorem isWord_ofClass (x : Bytes) : IsWord (Name.ofClass x) where
  ne_nil := (isName_ofClass x).ne_nil
  head := rfl
  all := List.all_eq_true.mpr (isName_ofClass x).word

end CodeToken

open CodeToken

/-- The unit around no classes and no code: what is the same in all units, but for the range of arities. -/
def Program.runtime (range : Nat × Nat) : Bytes := Program.textFor ⟨ClassTable.empty, Fragment.empty⟩ range

/-- The call operator of a halt continuation. -/
def haltOperator (name param : Bytes) : Bytes := Closure.op name ⟨[], [param], Expr.haltCode param⟩

/-- A word of the text around the program, or of a halt continuation apart from its class and its parameter. -/
def IsRuntimeWord (w : Bytes) : Prop :=
  (∃ range, .word w ∈ tokens (Program.runtime range)) ∨
    ∃ name param, .word w ∈ tokens (haltOperator name param) ∧ w ≠ Name.ofClass name ∧ w ≠ Name.ofVariable param

/-- No word of the support code looks like a made name. -/
theorem IsRuntimeWord.not_isMade {w : Bytes} (h : IsRuntimeWord w) : isMade w = false := by
  rcases h with ⟨range, hw⟩ | ⟨name, param, hw, hclass, hparam⟩
  · have hroot : RespellsCode (stamp []) Fragment.empty Fragment.empty :=
      ⟨respells_nil, respells_nil, respells_nil.token⟩
    have htext : Respells (stamp []) .clean (Program.runtime range) (Program.runtime range) .clean :=
      respells_textFor (spares_stamp []) range .nil hroot
    exact not_isMade_of_stamp (htext.word_fixed hw) List.not_mem_nil
  · -- The class and the parameter are kept, so that the text stays as it is.
    have hkept := spares_stamp [Name.ofClass name, Name.ofVariable param]
    have hx : Respells (stamp [Name.ofClass name, Name.ofVariable param]) .clean (Name.ofVariable param)
        (Name.ofVariable param) .word :=
      respells_stamp (by simp) (isWord_ofVariable param)
    have htext : Respells (stamp [Name.ofClass name, Name.ofVariable param]) .clean (haltOperator name param)
        (haltOperator name param) .clean :=
      respells_closureOp _ _ hkept (respells_stamp (by simp) (isWord_ofClass name)) rfl (by simpa using hx)
        (respellsCode_haltCode hkept hx)
    exact not_isMade_of_stamp (htext.word_fixed hw) (by simp [hclass, hparam])

/-- Letters, digits and underscores, the first of them a letter. -/
structure IsIdentifier (x : Bytes) : Prop where
  word : x.all Byte.isWord = true
  letter : x.head?.any (fun b => Byte.isUpper b || Byte.isLower b) = true

/-- A fresh name as the compiler draws them, of some kind. -/
def temporary (kind : Bytes) (n : Nat) : Bytes := (Name.fresh (ascii "__" ++ kind ++ ascii "_") n).1

/-- Mangling is injective behind every lead and gives identifiers. No variable, class or temporary is spelled
like another one or like a word of the text around the program. -/
theorem mangle_hygienic :
    (∀ lead, Function.Injective (Name.mangle lead)) ∧
      (∀ x, IsIdentifier (Name.ofVariable x) ∧ IsIdentifier (Name.ofClass x)) ∧
      (∀ t n, ∃ kind, (Ident.temp t n).text = temporary kind n) ∧
      ∀ a b kind n, [Name.ofVariable a, Name.ofClass b, temporary kind n].Nodup ∧
        ∀ x ∈ [Name.ofVariable a, Name.ofClass b, temporary kind n], ¬ IsRuntimeWord x := by
  refine ⟨Name.mangle_injective, fun x => ?_, fun t n => ?_, fun a b kind n => ⟨?_, ?_⟩⟩
  · exact ⟨⟨(isWord_ofVariable x).all, rfl⟩, ⟨(isWord_ofClass x).all, rfl⟩⟩
  · -- The kind stands between the two underscores in front and the one behind.
    refine ⟨(t.stem.drop 2).dropLast, ?_⟩
    have hstem : t.stem = ascii "__" ++ (t.stem.drop 2).dropLast ++ ascii "_" := by cases t <;> decide
    exact congrArg (· ++ Bytes.decimal n) hstem
  · -- The first bytes differ already.
    refine List.Nodup.of_map List.head? ?_
    show [some 115, some 99, some 95].Nodup
    decide
  · intro x hx hruntime
    have hmade : isMade x = true := by
      simp only [List.mem_cons, List.not_mem_nil, or_false] at hx
      rcases hx with rfl | rfl | rfl
      · exact isMade_append (by decide) _
      · exact isMade_append (by decide) _
      · have htext : temporary kind n = ascii "__" ++ (kind ++ ascii "_" ++ Bytes.decimal n) := by
          simp [temporary, Name.fresh]
        rw [htext]
        exact isMade_append (by decide) _
    rw [hruntime.not_isMade] at hmade
    cases hmade

end Trampoline

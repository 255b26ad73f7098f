import Trampoline.Layout
import Trampoline.Proofs.CodeTokens
import Trampoline.Proofs.Declarations
import Trampoline.Proofs.Sections

/-!
# Trampoline.Proofs.Nesting -- the braces of a unit

Indentation follows the braces of a unit and guards itself against units whose braces are out of order: the
depth, the indentation of a line and that of a label are never less than zero. The units that are built need
none of this. Every line of a unit closes the literals that it opens, every brace that is closed was opened
before, at the end none is open, and a label always has a brace around it.

The lines of a unit are followed one by one. `Nests` says that they lead from one depth to another, and what
each of them must be like where it stands. It is proved section by section, and over the code of a function by
induction over its instructions, in which the arms of a conditional are one level deeper.
-/

namespace Trampoline

open Bytes CodeToken

/-! ## Literals and depth of a line -/

namespace Layout

/-- The quote of the literal that is open behind a text. Literals are found as `balanceFrom` finds them, from
the quote that is open before the text and from whether the next byte is escaped. -/
def openFrom : Option UInt8 → Bool → Bytes → Option UInt8
  | q, _, [] => q
  | some q, true, _ :: rest => openFrom (some q) false rest
  | some q, false, b :: rest =>
    if b = Byte.backslash then openFrom (some q) true rest
    else if b = q then openFrom none false rest
    else openFrom (some q) false rest
  | none, _, b :: rest =>
    if b = Byte.doubleQuote ∨ b = Byte.singleQuote then openFrom (some b) false rest
    else openFrom none false rest

/-- The quote of the literal that is open at the end of a line. -/
def openLiteral (line : Bytes) : Option UInt8 := openFrom none false line

/-- What `balanceFrom` is told where a scan is in a given mode. -/
def quoteOf : Mode → Option UInt8
  | .inString _ => some Byte.doubleQuote
  | _ => none

def escapedOf : Mode → Bool
  | .inString escaped => escaped
  | _ => false

theorem quoteOf_outside {m : Mode} (h : m.outside = true) : quoteOf m = none := by
  cases m with
  | inString escaped => cases h
  | _ => rfl

/-- One byte outside of literals. -/
theorem balanceFrom_none {b : UInt8} (hsingle : b ≠ Byte.singleQuote) (hdouble : b ≠ Byte.doubleQuote)
    (escaped : Bool) (t : Bytes) :
    balanceFrom none escaped (b :: t) = depthOfByte b + balanceFrom none false t ∧
      openFrom none escaped (b :: t) = openFrom none false t := by
  have hquote : ¬ (b = Byte.doubleQuote ∨ b = Byte.singleQuote) := not_or.mpr ⟨hdouble, hsingle⟩
  rw [balanceFrom, openFrom, if_neg hquote, if_neg hquote, depthOfByte]
  refine ⟨?_, rfl⟩
  split_ifs <;> omega

/-- One byte of a string that does not close it. -/
theorem balanceFrom_some {b : UInt8} {escaped : Bool} (h : ¬ (b = Byte.doubleQuote ∧ escaped = false))
    (t : Bytes) :
    balanceFrom (some Byte.doubleQuote) escaped (b :: t) =
        balanceFrom (some Byte.doubleQuote) (!escaped && b == Byte.backslash) t ∧
      openFrom (some Byte.doubleQuote) escaped (b :: t) =
        openFrom (some Byte.doubleQuote) (!escaped && b == Byte.backslash) t := by
  cases escaped with
  | true => exact ⟨rfl, rfl⟩
  | false =>
    have hdouble : b ≠ Byte.doubleQuote := fun hb => h ⟨hb, rfl⟩
    rw [balanceFrom, openFrom, if_neg hdouble, if_neg hdouble, Bool.not_false, Bool.true_and]
    by_cases hback : b = Byte.backslash
    · simp [hback]
    · have hplain : (b == Byte.backslash) = false := beq_eq_false_iff_ne.mpr hback
      simp [hback, hplain]

/-- A scan counts what `balanceFrom` counts, and finds the same literals. -/
theorem balanceFrom_of_scans {m m' : Mode} {t : Bytes} {d : Int} (h : Scans m t m' d) :
    balanceFrom (quoteOf m) (escapedOf m) t = d ∧ openFrom (quoteOf m) (escapedOf m) t = quoteOf m' := by
  induction t generalizing m d with
  | nil =>
    obtain ⟨rfl, rfl⟩ := scans_nil.mp h
    simp [balanceFrom, openFrom]
  | cons b t ih =>
    obtain ⟨m₁, d₁, e, hb, ht, rfl⟩ := scans_cons.mp h
    obtain ⟨hbalance, hopen⟩ := ih ht
    by_cases hm : m.outside = true
    -- Outside of strings, a byte opens one or is counted.
    · obtain ⟨hrisky, ⟨rfl, rfl, rfl, rfl⟩ | ⟨hdouble, rfl, rfl⟩⟩ := advance_outside hm hb
      · rw [Int.zero_add]
        exact ⟨hbalance, hopen⟩
      · have hsingle : b ≠ Byte.singleQuote := by
          rintro rfl
          exact hrisky (by decide)
        have hquote : quoteOf (if Byte.isWord b then .behindWord else .apart) = none := by split <;> rfl
        have hescaped : escapedOf (if Byte.isWord b then .behindWord else .apart) = false := by
          split <;> rfl
        obtain ⟨hcount, hfind⟩ := balanceFrom_none hsingle hdouble (escapedOf m) t
        rw [hquote, hescaped] at hbalance hopen
        rw [quoteOf_outside hm, hcount, hfind, hbalance]
        exact ⟨rfl, hopen⟩
    -- In a string, a byte closes it or is passed over.
    · cases m with
      | inString escaped =>
        obtain ⟨-, rfl, ⟨rfl, rfl, rfl⟩ | ⟨hopened, rfl⟩⟩ := advance_inString hb
        · rw [Int.zero_add]
          exact ⟨hbalance, hopen⟩
        · rw [Int.zero_add, ← hbalance, ← hopen]
          exact balanceFrom_some hopened t
      | _ => exact absurd rfl hm

end Layout

/-- The balance of a line of code is the depth that it is scanned to. -/
theorem CodeToken.CodeLine.balance {l : Bytes} {d : Int} (h : CodeLine l d) : Layout.balance l = d := by
  obtain ⟨m, -, hscan⟩ := h
  exact (Layout.balanceFrom_of_scans hscan).1

/-- No literal stays open behind a line of code. -/
theorem CodeToken.CodeLine.openLiteral {l : Bytes} {d : Int} (h : CodeLine l d) :
    Layout.openLiteral l = none := by
  obtain ⟨m, hm, hscan⟩ := h
  rw [← Layout.quoteOf_outside hm]
  exact (Layout.balanceFrom_of_scans hscan).2

/-! ## Pieces of lines -/

namespace CodeToken

/-- A text that can stand anywhere in a line outside of strings. It adds a depth to the line. -/
def Part (t : Bytes) (d : Int) : Prop :=
  ∀ m : Mode, m.outside = true → ∃ m' : Mode, m'.outside = true ∧ Scans m t m' d

/-- Outside of strings there are two modes. -/
theorem exists_outside {P : Mode → Prop} : (∃ m, m.outside = true ∧ P m) ↔ P .apart ∨ P .behindWord := by
  constructor
  · rintro ⟨m, hm, h⟩
    cases m with
    | apart => exact Or.inl h
    | behindWord => exact Or.inr h
    | inString escaped => cases hm
  · rintro (h | h)
    · exact ⟨.apart, rfl, h⟩
    · exact ⟨.behindWord, rfl, h⟩

theorem part_iff {t : Bytes} {d : Int} :
    Part t d ↔ (Scans .apart t .apart d ∨ Scans .apart t .behindWord d) ∧
      (Scans .behindWord t .apart d ∨ Scans .behindWord t .behindWord d) := by
  constructor
  · intro h
    exact ⟨exists_outside.mp (h .apart rfl), exists_outside.mp (h .behindWord rfl)⟩
  · rintro ⟨hapart, hword⟩ m hm
    cases m with
    | apart => exact exists_outside.mpr hapart
    | behindWord => exact exists_outside.mpr hword
    | inString escaped => cases hm

instance (t : Bytes) (d : Int) : Decidable (Part t d) := decidable_of_iff _ part_iff.symm

theorem Part.codeLine {t : Bytes} {d : Int} (h : Part t d) : CodeLine t d := h .apart rfl

/-- Parts that follow each other are one part. -/
theorem Part.append {t u : Bytes} {d e : Int} (ht : Part t d) (hu : Part u e) : Part (t ++ u) (d + e) := by
  intro m hm
  obtain ⟨m₁, hm₁, ht⟩ := ht m hm
  obtain ⟨m₂, hm₂, hu⟩ := hu m₁ hm₁
  exact ⟨m₂, hm₂, ht.append hu⟩

/-- A piece behind one that adds no depth. -/
theorem Part.before {t u : Bytes} {d : Int} (ht : Part t 0) (hu : Part u d) : Part (t ++ u) d := by
  have h := ht.append hu
  rwa [Int.zero_add] at h

/-- A part between two others. -/
theorem Part.around {a t b : Bytes} {d : Int} (ha : Part a 0) (ht : Part t 0) (hb : Part b d) :
    Part (a ++ t ++ b) d :=
  (ha.before ht).before hb

theorem part_nil : Part [] 0 := fun m hm => ⟨m, hm, rfl⟩

/-- A byte of a word is passed over. -/
theorem part_isWord {b : UInt8} (h : Byte.isWord b = true) : Part [b] 0 := by
  have hne : ∀ c, Byte.isWord c = false → b ≠ c := fun c hc => Byte.ne_of_isWord h hc
  have hrisky : b ∉ risky := by
    have hall : risky.all (fun c => !Byte.isWord c) = true := by decide
    intro hb
    have hword := List.all_eq_true.mp hall b hb
    rw [h] at hword
    cases hword
  have hdepth : depthOfByte b = 0 := by
    rw [depthOfByte, if_neg (hne _ (by decide)), if_neg (hne _ (by decide))]
  intro m hm
  have hadvance : advance m b = some (.behindWord, 0) := by
    cases m with
    | inString escaped => cases hm
    | _ => simp [advance, hrisky, hne Byte.doubleQuote (by decide), h, hdepth]
  exact ⟨.behindWord, rfl, scans_cons.mpr ⟨.behindWord, 0, 0, hadvance, scans_nil.mpr ⟨rfl, rfl⟩, rfl⟩⟩

/-- A word is a part. -/
theorem part_of_isWord {t : Bytes} (h : t.all Byte.isWord = true) : Part t 0 := by
  induction t with
  | nil => exact part_nil
  | cons b t ih =>
    rw [List.all_cons, Bool.and_eq_true] at h
    exact (part_isWord h.1).before (ih h.2)

theorem part_decimal (n : Nat) : Part (decimal n) 0 := part_of_isWord (all_isWord_decimal n)

theorem part_ofVariable (x : Bytes) : Part (Name.ofVariable x) 0 :=
  part_of_isWord (Name.all_isWord_mangle (by decide) x)

theorem part_ofClass (x : Bytes) : Part (Name.ofClass x) 0 :=
  part_of_isWord (Name.all_isWord_mangle (by decide) x)

theorem part_ident {x : Ident} (h : x.Spelled) : Part x.text 0 := part_of_isWord h.all_isWord

theorem part_flatMap {α : Type} {xs : List α} {f : α → Bytes} (h : ∀ x ∈ xs, Part (f x) 0) :
    Part (xs.flatMap f) 0 := by
  induction xs with
  | nil => exact part_nil
  | cons x xs ih =>
    rw [List.forall_mem_cons] at h
    rw [List.flatMap_cons]
    exact h.1.before (ih h.2)

/-- Parts with commas between them are one part. -/
theorem part_commaList {ts : List Bytes} (h : ∀ t ∈ ts, Part t 0) : Part (commaList ts) 0 := by
  induction ts with
  | nil => exact part_nil
  | cons t ts ih =>
    rw [List.forall_mem_cons] at h
    cases ts with
    | nil => simpa [commaList] using h.1
    | cons t' ts =>
      have hrest := ih h.2
      unfold commaList at hrest ⊢
      rw [List.intercalate_cons_cons, List.append_assoc]
      exact h.1.before (.before (by decide) hrest)

theorem part_idents {xs : List Ident} (h : ∀ x ∈ xs, x.Spelled) :
    Part (commaList (xs.map Ident.text)) 0 := by
  refine part_commaList fun t ht => ?_
  obtain ⟨x, hx, rfl⟩ := List.mem_map.mp ht
  exact part_ident (h x hx)

theorem part_formals (n : Nat) {names : List Bytes} (h : ∀ x ∈ names, Part x 0) :
    Part (formals n names) 0 := by
  have htype : Part (ascii "SCHEMETYPE_T") 0 := by decide
  have hspace : Part [Byte.space] 0 := by decide
  refine part_commaList fun t ht => ?_
  obtain ⟨i, _, rfl⟩ := List.mem_map.mp ht
  apply htype.before
  cases hx : names[i]? with
  | none => exact part_nil
  | some x => exact hspace.before (h x (List.mem_of_getElem? hx))

theorem part_types (n : Nat) : Part (formals n []) 0 :=
  part_formals n fun _ hx => absurd hx List.not_mem_nil

/-- A string is scanned to its end and changes no depth. -/
theorem scans_enclosed {lead body : Bytes} (h : Enclosed lead body) (hend : ¬ Escapes (lead ++ body)) :
    Scans (.inString (decide (Escapes lead))) (body ++ [Byte.doubleQuote]) .apart 0 := by
  induction body generalizing lead with
  | nil =>
    rw [List.append_nil] at hend
    rw [decide_eq_false hend]
    decide
  | cons b body ih =>
    obtain ⟨hb, hquote, hbody⟩ := enclosed_cons.mp h
    have hopen : ¬ (b = Byte.doubleQuote ∧ decide (Escapes lead) = false) := by
      rintro ⟨hq, hesc⟩
      exact of_decide_eq_false hesc (hquote hq)
    refine scans_cons.mpr ⟨.inString (decide (Escapes (lead ++ [b]))), 0, 0, ?_, ?_, rfl⟩
    · rw [advance, if_neg hb, if_neg hopen, escapes_step]
    · exact ih hbody (by rwa [List.append_assoc])

/-- A string is scanned from its opening quote to the one that closes it. -/
theorem scans_quoted (s : Bytes) : Scans .apart (Escape.quoted s) .apart 0 := by
  obtain ⟨body, hquoted, hbody, hend⟩ := Quoting.isString_of_decode (Quoting.decode_quoted s)
  rw [hquoted]
  refine scans_cons.mpr ⟨.inString false, 0, 0, by decide, ?_, rfl⟩
  have hscan := scans_enclosed hbody hend
  rwa [decide_eq_false (by decide)] at hscan

theorem part_primCall {call : PrimCall} (h : ∀ x ∈ call.operands, x.Spelled) : Part call.text 0 := by
  have hnumber {x : Ident} (hx : x.Spelled) : Part (PrimCall.number x) 0 := (part_ident hx).before (by decide)
  have hstring {x : Ident} (hx : x.Spelled) : Part (PrimCall.string x) 0 := (part_ident hx).before (by decide)
  cases call with
  | unary p a =>
    cases p
    exact (hnumber (h a List.mem_cons_self)).before (by decide)
  | binary p a b =>
    have ha : a.Spelled := h a List.mem_cons_self
    have hb : b.Spelled := h b (List.mem_cons_of_mem a List.mem_cons_self)
    cases p
    all_goals simp only [PrimCall.text, List.append_assoc]
    case append =>
      exact .before (by decide) ((hstring ha).before (.before (by decide) ((hstring hb).before (by decide))))
    case differ => exact (hstring ha).before (.before (by decide) ((hstring hb).before (by decide)))
    all_goals exact (hnumber ha).before (.before (by decide) (hnumber hb))

/-- The content of a slot is a part. -/
theorem part_payload {p : Payload} (h : ∀ x ∈ p.reads, x.Spelled) : Part p.text 0 := by
  cases p with
  | number n =>
    show Part (integerConstant n) 0
    unfold integerConstant signedDecimal
    split
    · decide
    · split
      · show Part ([Byte.minus] ++ (decimal n.toInt.natAbs ++ ascii "L")) 0
        exact .before (by decide) ((part_decimal _).before (by decide))
      · exact (part_decimal _).before (by decide)
  | boolean b => cases b <;> decide
  | string s =>
    show Part (ascii "std::make_shared<std::string>(" ++ Escape.quoted s ++ ascii ", " ++ decimal s.length
      ++ ascii ")") 0
    -- The parenthesis keeps the quote from a word before it.
    have hquoted : Part (ascii "std::make_shared<std::string>(" ++ Escape.quoted s) 0 := by
      intro m hm
      refine ⟨.apart, rfl, Scans.append (d := 0) ?_ (scans_quoted s)⟩
      cases m with
      | inString escaped => cases hm
      | _ => decide
    simp only [List.append_assoc] at hquoted ⊢
    rw [← List.append_assoc]
    exact hquoted.before (.before (by decide) ((part_decimal _).before (by decide)))
  | closure lambda captured =>
    simp only [Payload.text, List.append_assoc]
    exact .before (by decide) ((part_ofClass lambda).before (.before (by decide)
      ((part_idents h).before (by decide))))
  | primitive call => exact part_primCall h

end CodeToken

/-! ## Lines that nest -/

namespace Layout

/-- The level of a line that stands at a depth: a closing brace belongs to the outside of its block. -/
def level (depth : Int) (line : Bytes) : Int :=
  if line.head? = some Byte.closeBrace then depth - 1 else depth

/-- A line can stand at a depth. It closes its literals and starts with no white space, it closes no more
braces than are open, and a label has a brace around it. -/
structure Stands (depth : Int) (line : Bytes) : Prop where
  code : CodeLine line (balance line)
  trimmed : trimLeft line = line
  level_nonneg : 0 ≤ level depth line
  label : isLabel line = true → 1 ≤ level depth line
  after_nonneg : 0 ≤ depth + balance line

/-- Lines that follow each other lead from one depth to another. -/
inductive Nests : Int → List Bytes → Int → Prop
  | nil (d : Int) : Nests d [] d
  | cons {d d' : Int} {l : Bytes} {ls : List Bytes} (h : Stands d l) (hs : Nests (d + balance l) ls d') :
      Nests d (l :: ls) d'

/-- The depth behind lines, if each of them can stand where it is. -/
def depthBehind? (d : Int) : List Bytes → Option Int
  | [] => some d
  | l :: ls =>
    match CodeToken.scan .apart l with
    | none => none
    | some (m, e) =>
      if m.outside = true ∧ trimLeft l = l ∧ 0 ≤ level d l ∧ (isLabel l = true → 1 ≤ level d l) ∧ 0 ≤ d + e
      then depthBehind? (d + e) ls
      else none

theorem nests_of_depthBehind? {ls : List Bytes} {d d' : Int} (h : depthBehind? d ls = some d') :
    Nests d ls d' := by
  induction ls generalizing d with
  | nil =>
    cases h
    exact .nil _
  | cons l ls ih =>
    rw [depthBehind?] at h
    split at h
    · cases h
    · rename_i m e hscan
      split at h
      · rename_i hline
        obtain ⟨hm, htrim, hlevel, hlabel, hafter⟩ := hline
        have hcode : CodeLine l e := ⟨m, hm, hscan⟩
        obtain rfl := hcode.balance
        exact .cons ⟨hcode, htrim, hlevel, hlabel, hafter⟩ (ih h)
      · cases h

/-- Lines nest if a first part of them does and the rest does from there. -/
theorem nests_append {a b : List Bytes} {d d' : Int} :
    Nests d (a ++ b) d' ↔ ∃ e, Nests d a e ∧ Nests e b d' := by
  induction a generalizing d with
  | nil =>
    constructor
    · exact fun h => ⟨d, .nil d, h⟩
    · rintro ⟨e, ha, hb⟩
      cases ha
      exact hb
  | cons l a ih =>
    constructor
    · intro h
      cases h with
      | cons hl hs =>
        obtain ⟨e, ha, hb⟩ := ih.mp hs
        exact ⟨e, .cons hl ha, hb⟩
    · rintro ⟨e, ha, hb⟩
      cases ha with
      | cons hl ha => exact .cons hl (ih.mpr ⟨e, ha, hb⟩)

theorem Nests.append {a b : List Bytes} {d e d' : Int} (ha : Nests d a e) (hb : Nests e b d') :
    Nests d (a ++ b) d' :=
  nests_append.mpr ⟨e, ha, hb⟩

/-- Groups of lines that each come back to a depth come back to it together. -/
theorem nests_flatMap {α : Type} {xs : List α} {f : α → List Bytes} {d : Int}
    (h : ∀ x ∈ xs, Nests d (f x) d) : Nests d (xs.flatMap f) d := by
  induction xs with
  | nil => exact .nil d
  | cons x xs ih =>
    rw [List.forall_mem_cons] at h
    rw [List.flatMap_cons]
    exact h.1.append (ih h.2)

/-- A line of a block, which adds a depth. -/
structure BlockLine (line : Bytes) (d : Int) : Prop where
  part : Part line d
  solid : line.head?.any (fun b => !Byte.isSpace b) = true

instance (line : Bytes) (d : Int) : Decidable (BlockLine line d) :=
  decidable_of_iff (Part line d ∧ line.head?.any (fun b => !Byte.isSpace b) = true)
    ⟨fun h => ⟨h.1, h.2⟩, fun h => ⟨h.1, h.2⟩⟩

/-- A line may go on with a part. -/
theorem BlockLine.before {t u : Bytes} {d : Int} (ht : BlockLine t 0) (hu : Part u d) :
    BlockLine (t ++ u) d := by
  refine ⟨ht.part.before hu, ?_⟩
  have hsolid := ht.solid
  cases t with
  | nil => cases hsolid
  | cons b t => exact hsolid

theorem BlockLine.around {a t b : Bytes} {d : Int} (ha : BlockLine a 0) (ht : Part t 0) (hb : Part b d) :
    BlockLine (a ++ t ++ b) d :=
  (ha.before ht).before hb

theorem BlockLine.ident {x : Ident} {t : Bytes} {d : Int} (hx : x.Spelled) (ht : Part t d) :
    BlockLine (x.text ++ t) d := by
  refine BlockLine.before ⟨part_ident hx, ?_⟩ ht
  rcases hx.led with ⟨rest, hrest⟩ | ⟨rest, hrest⟩
  · rw [← hrest]
    rfl
  · rw [← hrest]
    rfl

theorem not_isLabel_closeBrace {line : Bytes} (h : line.head? = some Byte.closeBrace) :
    isLabel line = false := by
  cases line with
  | nil => cases h
  | cons b rest =>
    cases h
    rfl

/-- A line of a block can stand at every depth that leaves room for it. -/
theorem BlockLine.stands {line : Bytes} {depth d : Int} (h : BlockLine line d)
    (hlevel : 0 ≤ level depth line) (hlabel : isLabel line = true → 1 ≤ level depth line)
    (hafter : 0 ≤ depth + d) : Stands depth line := by
  have hbalance : balance line = d := h.part.codeLine.balance
  have htrimmed : trimLeft line = line := by
    have hsolid := h.solid
    cases line with
    | nil => rfl
    | cons b rest =>
      have hb : Byte.isSpace b = false := by simpa using hsolid
      exact List.dropWhile_cons_of_neg (by simp [hb])
  rw [← hbalance] at hafter
  exact ⟨hbalance ▸ h.part.codeLine, htrimmed, hlevel, hlabel, hafter⟩

/-- Inside of a block every line can stand, unless it closes more braces than are open. -/
theorem BlockLine.stands_inside {line : Bytes} {depth d : Int} (h : BlockLine line d) (hdepth : 1 ≤ depth)
    (hafter : 0 ≤ depth + d) : Stands depth line := by
  refine h.stands ?_ ?_ hafter
  · unfold level
    split <;> omega
  · intro hlabel
    unfold level
    rw [if_neg]
    · exact hdepth
    · intro hclose
      rw [not_isLabel_closeBrace hclose] at hlabel
      cases hlabel

section

variable {l : Bytes} {ls : List Bytes} {d d' : Int}

/-- A line without braces keeps the depth. -/
theorem Nests.line (hd : 1 ≤ d) (h : BlockLine l 0) (hs : Nests d ls d') : Nests d (l :: ls) d' := by
  refine .cons (h.stands_inside hd (by omega)) ?_
  rwa [h.part.codeLine.balance, Int.add_zero]

/-- A line outside of all blocks that opens one. -/
theorem Nests.heading (h : BlockLine l 1) (hhead : (l.head? == some Byte.closeBrace) = false)
    (hlabel : isLabel l = false) (hs : Nests (0 + 1) ls d') : Nests 0 (l :: ls) d' := by
  have hlevel : level 0 l = 0 := if_neg (beq_eq_false_iff_ne.mp hhead)
  refine .cons (h.stands (Int.le_of_eq hlevel.symm) (fun hl => ?_) (by decide)) ?_
  · rw [hlabel] at hl
    cases hl
  · rwa [h.part.codeLine.balance]

/-- A line with an opening brace leads one level deeper. -/
theorem Nests.opening (hd : 1 ≤ d) (h : BlockLine l 1) (hs : Nests (d + 1) ls d') :
    Nests d (l :: ls) d' := by
  refine .cons (h.stands_inside hd (by omega)) ?_
  rwa [h.part.codeLine.balance]

/-- A line that starts with a closing brace leads one level back. -/
theorem Nests.closing (hd : 0 ≤ d) (h : BlockLine l (-1)) (hs : Nests d ls d') :
    Nests (d + 1) (l :: ls) d' := by
  refine .cons (h.stands_inside (by omega) (by omega)) ?_
  rwa [h.part.codeLine.balance, Int.add_neg_cancel_right]

/-- Lines that add nothing to the depth. -/
theorem Nests.lines (hd : 1 ≤ d) (h : ∀ l ∈ ls, BlockLine l 0) : Nests d ls d := by
  induction ls with
  | nil => exact .nil d
  | cons l ls ih =>
    rw [List.forall_mem_cons] at h
    exact .line hd h.1 (ih h.2)

end

end Layout

/-! ## Code of functions -/

/-- The fixed lines of a halt from the one that prints a number to the one that prints a string. -/
def haltMiddle : List Bytes :=
  [ascii "break;", ascii "case LAM:", ascii "printf(\"#<procedure>\\n\");", ascii "break;", ascii "case STR:"]

/-- The fixed lines of a halt from the one that prints a string to the end of the choice. -/
def haltEnd : List Bytes :=
  [ascii "printf(\"\\n\");", ascii "break;", ascii "default:",
    ascii "fprintf(stderr, \"error: halt received a value of unknown type\\n\");", ascii "retval = 1;",
    ascii "break;"]

/-- All lines of a halt but three are fixed. -/
theorem haltLines_eq (arg : Ident) :
    haltLines arg = (ascii "switch (" ++ arg.text ++ ascii "->type()) \x7b") :: ascii "case NUM:" ::
      (ascii "printf(\"%ld\\n\", " ++ arg.text ++ ascii "->num());") :: (haltMiddle ++
      (ascii "fwrite(" ++ arg.text ++ ascii "->str()->data(), 1, " ++ arg.text ++
        ascii "->str()->size(), stdout);") :: (haltEnd ++ [ascii "\x7d", ascii "exit(retval);"])) := rfl

namespace Instr

open Layout

theorem blockLine_declareSlot {x : Bytes} (h : Part x 0) : BlockLine (declareSlot x) 0 :=
  .around (by decide) h (by decide)

theorem blockLine_declareReference {x : Bytes} (h : Part x 0) : BlockLine (declareReference x) 0 :=
  .around (by decide) h (by decide)

theorem blockLine_declareThunk {x : Bytes} (h : Part x 0) : BlockLine (declareThunk x) 0 :=
  .around (by decide) h (by decide)

/-- A declaration is a line of a block. -/
theorem blockLine_decl {i : Instr} (h : i.Spelled) (hne : i.decl ≠ []) : BlockLine i.decl 0 := by
  cases i with
  | put dst p => exact blockLine_declareSlot (part_ident h.1)
  | call dst callee args => exact blockLine_declareThunk (part_ident h.1)
  | branch dst kind test a av b bv =>
    cases kind with
    | value => exact blockLine_declareReference (part_ident h.1)
    | thunk => exact blockLine_declareThunk (part_ident h.1)
  | slot dst => exact blockLine_declareSlot (part_ident h)
  | copy dst src => exact absurd rfl hne
  | halt arg => exact (by decide : BlockLine (ascii "int retval = 0;") 0)
  | verbatim d o => exact absurd h not_false

/-- Declarations keep the depth. -/
theorem nests_declLines {is : List Instr} {d : Int} (hd : 1 ≤ d) (h : EverywhereAll Spelled is) :
    Nests d (declLines is) d := by
  refine .lines hd fun l hl => ?_
  obtain ⟨i, hi, hl⟩ := List.mem_flatMap.mp hl
  unfold Bytes.line at hl
  by_cases hne : i.decl = []
  · rw [if_pos hne] at hl
    exact absurd hl List.not_mem_nil
  · rw [if_neg hne, List.mem_singleton] at hl
    rw [hl]
    exact blockLine_decl (h.mem hi).own hne

theorem blockLine_assignResult {kind : Kind} {dst value : Ident} (hd : dst.Spelled) (hv : value.Spelled) :
    BlockLine (assignResult kind dst value) 0 := by
  cases kind
  all_goals
    simp only [assignResult, List.append_assoc]
    exact .ident hd (.before (by decide) ((part_ident hv).before (by decide)))

/-- The choice in a halt is opened and closed again. -/
theorem nests_haltLines {arg : Ident} {d : Int} (hd : 1 ≤ d) (h : arg.Spelled) :
    Nests d (haltLines arg) d := by
  have harg := part_ident h
  have hin : 1 ≤ d + 1 := by omega
  have hmiddle : ∀ l ∈ haltMiddle, BlockLine l 0 := by decide
  have hend : ∀ l ∈ haltEnd, BlockLine l 0 := by decide +kernel
  have hclose : Nests (d + 1) [ascii "\x7d", ascii "exit(retval);"] d :=
    .closing (by omega) (by decide) (.line hd (by decide) (.nil d))
  rw [haltLines_eq]
  simp only [List.append_assoc]
  refine .opening hd ?switch (.line hin (by decide) (.line hin ?number
    ((Nests.lines hin hmiddle).append (.line hin ?string ((Nests.lines hin hend).append hclose)))))
  case switch => exact .before (by decide) (harg.before (by decide))
  case number => exact .before (by decide) (harg.before (by decide))
  case string => exact .before (by decide) (harg.before (.before (by decide) (harg.before (by decide))))

mutual

/-- The operation of an instruction ends at the depth at which it starts. -/
theorem nests_opLines : ∀ {i : Instr} {d : Int}, 1 ≤ d → i.Everywhere Spelled → Nests d i.opLines d
  | .put dst p, d, hd, h => by
    have htag : Part p.tag.text 0 := by cases p.tag <;> decide
    rw [opLines, Payload.statement]
    simp only [List.append_assoc]
    exact .line hd (.ident h.1 (.before (by decide) (htag.before (.before (by decide)
      ((part_payload h.2).before (by decide)))))) (.nil d)
  | .call dst callee args, d, hd, h => by
    -- The braces around the arguments are opened and closed on the line.
    have hargs := (part_idents h.2.2).before (by decide : Part (ascii "\x7d);") (-1))
    rw [opLines]
    simp only [List.append_assoc]
    exact .line hd (.ident h.1 (.before (by decide) ((part_ident h.2.1).before
      (Part.append (d := 1) (by decide) hargs)))) (.nil d)
  | .branch dst kind test a av b bv, d, hd, h => by
    obtain ⟨⟨hdst, htest, hav, hbv⟩, ha, hb⟩ := h
    have hin : 1 ≤ d + 1 := by omega
    rw [opLines]
    -- One level deeper for the first arm, one line back for the second arm, and out again.
    refine .opening hd (.around (by decide) (part_ident htest) (by decide)) ?_
    refine (nests_declLines hin ha).append ((nests_opLinesAll hin ha).append ?_)
    refine .line hin (blockLine_assignResult hdst hav) (.line hin (by decide) ?_)
    refine (nests_declLines hin hb).append ((nests_opLinesAll hin hb).append ?_)
    exact .line hin (blockLine_assignResult hdst hbv) (.closing (by omega) (by decide) (.nil d))
  | .slot dst, d, _, _ => .nil d
  | .copy dst src, d, hd, h => by
    rw [opLines]
    simp only [List.append_assoc]
    exact .line hd (.before (by decide) ((part_ident h.1).before (.before (by decide)
      ((part_ident h.2).before (by decide))))) (.nil d)
  | .halt arg, d, hd, h => nests_haltLines hd h
  | .verbatim decl op, d, _, h => absurd h not_false

theorem nests_opLinesAll :
    ∀ {is : List Instr} {d : Int}, 1 ≤ d → EverywhereAll Spelled is → Nests d (opLinesAll is) d
  | [], d, _, _ => .nil d
  | i :: is, d, hd, h => by
    rw [opLinesAll]
    exact (nests_opLines hd h.1).append (nests_opLinesAll hd h.2)

end

end Instr

/-! ## Sections of a unit -/

/-- A piece of code whose text keeps to its lines. -/
structure Fragment.Coded (f : Fragment) : Prop where
  code : Instr.EverywhereAll Instr.Spelled f.code
  value : Part f.value.text 0

theorem Fragment.Coded.printable {f : Fragment} (h : f.Coded) : f.Printable :=
  ⟨h.code, h.value.codeLine.oneLine⟩

/-- A program whose functions all are such pieces of code. -/
structure Program.Coded (p : Program) : Prop where
  root : p.root.Coded
  classes : ∀ d ∈ p.table.defs, ∃ clo, d.closure = some clo ∧ clo.body.Coded

/-- All code of a program keeps to its lines. -/
theorem Build.program_coded {e : Expr} {next next' : Nat} {p : Program} (he : e.OnlyHalts)
    (h : Build.program e next = (.ok p, next')) : p.Coded := by
  obtain ⟨s, hs, htable, _⟩ := Build.program_ok h
  obtain ⟨A, hL, hgrow⟩ := Build.lower_ok hs
  refine ⟨⟨(hL.spelled he).1, part_ident (hL.spelled he).2⟩, fun d hd => ?_⟩
  rw [htable, ClassTable.defs_of_eq_grow hgrow] at hd
  obtain ⟨c, hc, rfl⟩ := List.mem_map.mp hd
  obtain ⟨path, body, clo, _, _, hclo, _, hbody⟩ := (hL.classOf c hc).body he
  refine ⟨clo, hclo, ?_⟩
  rcases hbody with ⟨hb, _, _, _, _, hlowers⟩ | ⟨q, _, hq⟩
  · exact ⟨(hlowers.spelled hb).1, part_ident (hlowers.spelled hb).2⟩
  · rw [hq]
    exact ⟨(printable_haltCode q).code, (by decide : Part (ascii "THUNK_T(nullptr)") 0)⟩

namespace Layout

/-- The sections that are the same in every unit nest. -/
theorem nests_fixed :
    ∀ t ∈ [Program.headers, Program.typeNames, Program.valueTypes, Program.supportFunctions],
      Nests 0 (lines t) 0 := by
  have hall : ∀ t ∈ [Program.headers, Program.typeNames, Program.valueTypes, Program.supportFunctions],
      depthBehind? 0 (lines t) = some 0 := by decide +kernel
  exact fun t ht => nests_of_depthBehind? (hall t ht)

/-- The lines of a function between the line that opens it and the line that hands over its result. -/
theorem nests_body {f : Fragment} {last : List Bytes} {d d' : Int} (hd : 1 ≤ d) (h : f.Coded)
    (hlast : Nests d last d') : Nests d (Instr.declLines f.code ++ (Instr.opLinesAll f.code ++ last)) d' :=
  (Instr.nests_declLines hd h.code).append ((Instr.nests_opLinesAll hd h.code).append hlast)

theorem part_fields (xs : List Bytes) : ∀ x ∈ xs.map Name.ofVariable, Part x 0 := by
  intro x hx
  obtain ⟨y, _, rfl⟩ := List.mem_map.mp hx
  exact part_ofVariable y

/-- The definition of a class nests. -/
theorem nests_closureDecl (name : Bytes) (c : Closure) : Nests 0 (lines (c.decl name)) 0 := by
  have hin : (1 : Int) ≤ 0 + 1 := by decide
  have hfieldNames := part_fields c.captured
  have hconstructor : BlockLine (c.constructorLine name) 0 := by
    have hinits : Part ((c.captured.map Name.ofVariable).flatMap fun h =>
        ascii ", " ++ (h ++ (ascii "(" ++ (h ++ ascii ")")))) 0 := by
      refine part_flatMap fun x hx => ?_
      have hname := hfieldNames x hx
      exact .before (by decide) (hname.before (.before (by decide) (hname.before (by decide))))
    unfold Closure.constructorLine
    simp only [List.append_assoc]
    refine .before ⟨part_ofClass name, rfl⟩ (.before (by decide)
      ((part_formals _ hfieldNames).before (.before (by decide) ((part_decimal _).before
        (.before (by decide) (hinits.before (by decide)))))))
  have hoverride : BlockLine (overrideLine c.params.length) 0 :=
    .around (by decide) (part_types _) (by decide)
  have hfields : Nests (0 + 1) (fieldLines (c.captured.map Name.ofVariable)) (0 + 1) := by
    unfold fieldLines
    split
    · exact .nil _
    · refine .line hin (by decide) (.lines hin fun l hl => ?_)
      obtain ⟨x, hx, rfl⟩ := List.mem_map.mp hl
      exact Instr.blockLine_declareReference (hfieldNames x hx)
  rw [c.lines_decl name, List.append_assoc]
  refine .heading (.around (by decide) (part_ofClass name) (by decide)) rfl rfl ?_
  refine .line hin (by decide) (.line hin hconstructor (.line hin (by decide) (.line hin hoverride ?_)))
  exact hfields.append (.closing (by decide) (by decide) (.nil 0))

/-- So does its call operator. -/
theorem nests_closureOp (name : Bytes) {c : Closure} (h : c.body.Coded) : Nests 0 (lines (c.op name)) 0 := by
  have hin : (1 : Int) ≤ 0 + 1 := by decide
  have hopen : BlockLine (c.operatorLine name) 1 := by
    unfold Closure.operatorLine
    simp only [List.append_assoc]
    exact .before (by decide) ((part_ofClass name).before (.before (by decide)
      ((part_formals _ (part_fields c.params)).before (by decide))))
  have hreturn : BlockLine (returnLine c.body.value) 0 := .around (by decide) h.value (by decide)
  rw [c.lines_op name h.printable]
  refine .heading hopen rfl rfl (nests_body hin h ?_)
  exact .line hin hreturn (.closing (by decide) (by decide) (.nil 0))

theorem nests_baseDecl (range : Nat × Nat) : Nests 0 (lines (ClassTable.baseDecl range)) 0 := by
  have hhead : Nests 0 ClassTable.classHead 1 := nests_of_depthBehind? (by decide +kernel)
  have htail : Nests 1 ClassTable.classTail 0 := nests_of_depthBehind? (by decide +kernel)
  rw [ClassTable.lines_baseDecl]
  refine hhead.append (Nests.append (.lines (Int.le_refl 1) fun l hl => ?_) htail)
  obtain ⟨n, _, rfl⟩ := List.mem_map.mp hl
  exact .around (by decide) (part_types n) (by decide)

theorem nests_baseOps (range : Nat × Nat) : Nests 0 (lines (ClassTable.baseOps range)) 0 := by
  have hin : (1 : Int) ≤ 0 + 1 := by decide
  by_cases hspan : ClassTable.span range = []
  · have hnone : ClassTable.baseOps range = [] := by simp [ClassTable.baseOps, hspan, unlines]
    rw [hnone]
    exact nests_of_depthBehind? (by decide)
  · rw [ClassTable.lines_baseOps hspan]
    refine nests_flatMap fun n _ => ?_
    have hdefine : BlockLine (ClassTable.defineLine n) 1 := .around (by decide) (part_types n) (by decide)
    have hcomplain : BlockLine (ClassTable.complainLine n) 0 :=
      .around (by decide) (part_decimal n) (by decide)
    exact .heading hdefine rfl rfl (.line hin hcomplain (.closing (by decide) (by decide) (.nil 0)))

theorem nests_thunkStep (range : Nat × Nat) : Nests 0 (lines (Program.thunkStep range)) 0 := by
  have hhead : Nests 0 Program.stepHead 2 := nests_of_depthBehind? (by decide +kernel)
  have htail : Nests 2 Program.stepTail 0 := nests_of_depthBehind? (by decide +kernel)
  rw [Program.lines_thunkStep]
  refine hhead.append ((nests_flatMap fun n _ => ?_).append htail)
  have hcase : BlockLine (Program.caseLine n) 0 := .around (by decide) (part_decimal n) (by decide)
  have hcall : BlockLine (Program.callLine n) 0 := by
    refine .around (by decide) (part_commaList fun t ht => ?_) (by decide)
    obtain ⟨i, _, rfl⟩ := List.mem_map.mp ht
    exact .around (by decide) (part_decimal i) (by decide)
  exact .line (by decide) hcase (.line (by decide) hcall (.nil 2))

/-- So does the main function. -/
theorem nests_mainFunction {root : Fragment} (h : root.Coded) :
    Nests 0 (lines (Program.mainFunction root)) 0 := by
  have hloop : Nests 1 Program.loopLines 0 := nests_of_depthBehind? (by decide +kernel)
  have hfirst : BlockLine (Program.firstLine root.value) 0 := .around (by decide) h.value (by decide)
  rw [Program.lines_mainFunction h.printable]
  exact .heading (by decide) rfl rfl (nests_body (by decide) h (.line (by decide) hfirst hloop))

/-- The sections of a unit, each of which starts and ends outside of all blocks. -/
theorem nests_textFor {p : Program} (h : p.Coded) (range : Nat × Nat) :
    Nests 0 (lines (p.textFor range)) 0 := by
  have hheaders : Nests 0 (lines Program.headers) 0 := nests_fixed _ (by simp)
  have htypes : Nests 0 (lines Program.typeNames) 0 := nests_fixed _ (by simp)
  have hvalues : Nests 0 (lines Program.valueTypes) 0 := nests_fixed _ (by simp)
  have hsupport : Nests 0 (lines Program.supportFunctions) 0 := nests_fixed _ (by simp)
  have hempty : Nests 0 [[]] 0 := nests_of_depthBehind? (by decide)
  have hdecls : Nests 0 (p.table.defs.flatMap fun d => lines d.decl) 0 := by
    refine nests_flatMap fun d hd => ?_
    obtain ⟨clo, hclo, _⟩ := h.classes d hd
    rw [ClassDef.decl_filled hclo]
    exact nests_closureDecl d.name clo
  have hops : Nests 0 (p.table.defs.flatMap fun d => lines d.op) 0 := by
    refine nests_flatMap fun d hd => ?_
    obtain ⟨clo, hclo, hbody⟩ := h.classes d hd
    rw [ClassDef.op_filled hclo]
    exact nests_closureOp d.name hbody
  rw [p.lines_textFor range]
  exact hheaders.append (htypes.append ((nests_baseDecl range).append (hdecls.append (hempty.append
    (hvalues.append (hsupport.append ((nests_baseOps range).append (hops.append (hempty.append
      ((nests_thunkStep range).append (nests_mainFunction h.root)))))))))))

end Layout

end Trampoline

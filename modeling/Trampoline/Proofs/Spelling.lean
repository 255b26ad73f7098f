import Mathlib.Data.Prod.Basic
import Trampoline.Proofs.Lexing
import Trampoline.Proofs.Reading

/-!
# Trampoline.Proofs.Spelling -- what literal tokens stand for

The spellings of literals as a relation: two truth values, strings in which a backslash and one of ten
letters stand for a byte, and numerals whose value fits in sixty-four bits. Whatever spells a literal is read
as this literal, and a token of the literal kind that is read as one spells it. So a literal token is refused
exactly if it spells nothing.
-/

namespace Trampoline

/-- The text that the body of a string stands for. -/
inductive Unescapes : Bytes → Bytes → Prop
  | nil : Unescapes [] []
  | plain {b : UInt8} {body s : Bytes} (hb : b ≠ Byte.backslash) (h : Unescapes body s) :
      Unescapes (b :: body) (b :: s)
  | escape {c m : UInt8} {body s : Bytes} (hm : (c, m) ∈ Escape.mnemonics) (h : Unescapes body s) :
      Unescapes (Byte.backslash :: m :: body) (c :: s)

/-- The value of digits behind a sign or behind none. -/
def signedValue (sign digits : Bytes) : Int :=
  if sign = [Byte.minus] then -(Bytes.digitsValue digits : Int) else Bytes.digitsValue digits

/-- `Spells text l`: the text is a way to write the literal. -/
inductive Spells : Bytes → Literal → Prop
  | truth : Spells (ascii "#t") (.boolean true)
  | falsity : Spells (ascii "#f") (.boolean false)
  | string {body s : Bytes} (h : Unescapes body s) :
      Spells (Byte.doubleQuote :: (body ++ [Byte.doubleQuote])) (.string s)
  | integer {sign digits : Bytes} {n : Int64}
      (hsign : sign = [] ∨ sign = [Byte.plus] ∨ sign = [Byte.minus]) (hne : digits ≠ [])
      (hdigits : ∀ d ∈ digits, Byte.isDigit d = true) (hn : n.toInt = signedValue sign digits) :
      Spells (sign ++ digits) (.integer n)

/-! ## Strings -/

namespace Escape

theorem mnemonic?_eq_some {c m : UInt8} : mnemonic? c = some m ↔ (c, m) ∈ mnemonics :=
  lookup_eq_some_iff_mem (by decide)

/-- The reader's table undoes the printer's: a letter stands for a byte exactly if the byte has it as its
mnemonic. -/
theorem ofMnemonic?_eq_some_iff_mnemonic? {c m : UInt8} : ofMnemonic? m = some c ↔ mnemonic? c = some m := by
  have hswap : meanings = mnemonics.map Prod.swap := by decide
  rw [mnemonic?_eq_some, ofMnemonic?, lookup_eq_some_iff_mem (by decide), hswap]
  exact List.mem_map_of_injective Prod.swap_injective (a := (c, m))

theorem ofMnemonic?_eq_some {c m : UInt8} : ofMnemonic? m = some c ↔ (c, m) ∈ mnemonics :=
  ofMnemonic?_eq_some_iff_mnemonic?.trans mnemonic?_eq_some

end Escape

open Escape (ofMnemonic?_eq_some)

theorem map_ok {ε α β : Type} {x : Except ε α} {f : α → β} {b : β} :
    x.map f = .ok b ↔ ∃ a, x = .ok a ∧ f a = b := by
  cases x with
  | error e => simp [Except.map]
  | ok a => simp [Except.map]

/-- The reader gives a string exactly the text that its body stands for. -/
theorem unescape_ok_iff {offset : Nat} {body s : Bytes} :
    Literal.unescape offset body = .ok s ↔ Unescapes body s := by
  fun_induction Literal.unescape offset body generalizing s with
  | case1 =>
    constructor
    · intro h
      cases h
      exact .nil
    · intro h
      cases h
      rfl
  | case2 offset =>
    constructor
    · intro h
      cases h
    · intro h
      cases h with
      | plain hb _ => exact absurd rfl hb
  | case3 offset m rest hm =>
    constructor
    · intro h
      cases h
    · intro h
      cases h with
      | plain hb _ => exact absurd rfl hb
      | escape hmem _ =>
        rw [ofMnemonic?_eq_some.mpr hmem] at hm
        cases hm
  | case4 offset m rest c hm ih =>
    rw [map_ok]
    constructor
    · rintro ⟨t, ht, rfl⟩
      exact .escape (ofMnemonic?_eq_some.mp hm) (ih.mp ht)
    · intro h
      cases h with
      | plain hb _ => exact absurd rfl hb
      | @escape c' _ _ t hmem hrest =>
        rw [ofMnemonic?_eq_some.mpr hmem] at hm
        cases hm
        exact ⟨t, ih.mpr hrest, rfl⟩
  | case5 offset b rest hb ih =>
    rw [map_ok]
    constructor
    · rintro ⟨t, ht, rfl⟩
      exact .plain hb (ih.mp ht)
    · intro h
      cases h with
      | @plain _ _ t _ hrest => exact ⟨t, ih.mpr hrest, rfl⟩
      | escape _ _ => exact absurd rfl hb

theorem ofSpan_string (offset : Nat) (body : Bytes) :
    Literal.ofSpan ⟨offset, Byte.doubleQuote :: (body ++ [Byte.doubleQuote])⟩ =
      (Literal.unescape (offset + 1) body).map .string := by
  have ht : Byte.doubleQuote :: (body ++ [Byte.doubleQuote]) ≠ ascii "#t" := fun h =>
    absurd (List.cons.inj h).1 (by decide)
  have hf : Byte.doubleQuote :: (body ++ [Byte.doubleQuote]) ≠ ascii "#f" := fun h =>
    absurd (List.cons.inj h).1 (by decide)
  have hquote : (Byte.doubleQuote :: (body ++ [Byte.doubleQuote])).head? = some Byte.doubleQuote := rfl
  rw [Literal.ofSpan, if_neg ht, if_neg hf, if_pos hquote]
  show (Literal.unescape (offset + 1) (body ++ [Byte.doubleQuote]).dropLast).map _ = _
  rw [List.dropLast_concat]

/-! ## Numerals -/

section

variable {sign digits : Bytes} (hsign : sign = [] ∨ sign = [Byte.plus] ∨ sign = [Byte.minus])
  (hdigits : ∀ d ∈ digits, Byte.isDigit d = true)

include hsign hdigits

/-- The sign is dropped and the digits stay. -/
theorem dropSign_numeral (hne : digits ≠ []) :
    ((Literal.dropSign Byte.plus (sign ++ digits)).head? == some Byte.minus) =
        decide (sign = [Byte.minus]) ∧
      Literal.dropSign Byte.minus (Literal.dropSign Byte.plus (sign ++ digits)) = digits := by
  have hall : digits.all Byte.isDigit := List.all_eq_true.mpr hdigits
  have hplus : Literal.dropSign Byte.plus digits = digits :=
    Literal.dropSign_eq_self (by decide) hall
  have hminus : Literal.dropSign Byte.minus digits = digits :=
    Literal.dropSign_eq_self (by decide) hall
  have hhead : (digits.head? == some Byte.minus) = false := by
    cases digits with
    | nil => exact absurd rfl hne
    | cons d ds =>
      have hd := hdigits d List.mem_cons_self
      rw [beq_eq_false_iff_ne]
      intro h
      rw [Option.some.inj h] at hd
      exact absurd hd (by decide)
  rcases hsign with rfl | rfl | rfl
  · rw [List.nil_append, hplus, hminus, hhead]
    exact ⟨rfl, rfl⟩
  · have hdrop : Literal.dropSign Byte.plus ([Byte.plus] ++ digits) = digits := rfl
    rw [hdrop, hminus, hhead]
    exact ⟨rfl, rfl⟩
  · exact ⟨rfl, rfl⟩

theorem readInteger_numeral (hne : digits ≠ []) (offset : Nat) :
    Literal.readInteger ⟨offset, sign ++ digits⟩ =
      if signedValue sign digits < Int64.minValue.toInt ∨ Int64.maxValue.toInt < signedValue sign digits
      then .error (.outOfRange ⟨offset, sign ++ digits⟩)
      else .ok (Int64.ofInt (signedValue sign digits)) := by
  obtain ⟨hnegative, hrest⟩ := dropSign_numeral hsign hdigits hne
  have htake : digits.takeWhile Byte.isDigit = digits := List.takeWhile_eq_self_iff.mpr hdigits
  have hvalue : (if decide (sign = [Byte.minus]) = true then -(Bytes.digitsValue digits : Int)
      else Bytes.digitsValue digits) = signedValue sign digits := by
    by_cases hs : sign = [Byte.minus] <;> simp [signedValue, hs]
  unfold Literal.readInteger
  dsimp only
  rw [hnegative, hrest, htake, hvalue, if_neg hne, if_neg (not_not_intro rfl)]

/-- A numeral is read as its value. -/
theorem readInteger_ok_iff (hne : digits ≠ []) {offset : Nat} {n : Int64} :
    Literal.readInteger ⟨offset, sign ++ digits⟩ = .ok n ↔ n.toInt = signedValue sign digits := by
  rw [readInteger_numeral hsign hdigits hne, Int64.toInt_minValue, Int64.toInt_maxValue]
  have hlow := n.le_toInt
  have hhigh := n.toInt_lt
  split
  · rename_i hout
    constructor
    · intro h
      cases h
    · intro h
      omega
  · rename_i hin
    rw [Except.ok.injEq]
    constructor
    · rintro rfl
      exact Int64.toInt_ofInt_of_le (by omega) (by omega)
    · intro h
      rw [← h, Int64.ofInt_toInt]

theorem ofSpan_numeral (offset : Nat) :
    Literal.ofSpan ⟨offset, sign ++ digits⟩ =
      (Literal.readInteger ⟨offset, sign ++ digits⟩).map .integer := by
  have hstart : ∀ b, (sign ++ digits).head? = some b →
      b = Byte.plus ∨ b = Byte.minus ∨ Byte.isDigit b = true := by
    intro b hb
    rcases hsign with rfl | rfl | rfl
    · exact Or.inr (Or.inr (hdigits b (List.mem_of_mem_head? hb)))
    · exact Or.inl (Option.some.inj hb).symm
    · exact Or.inr (Or.inl (Option.some.inj hb).symm)
  have hother : ∀ b, b ≠ Byte.plus → b ≠ Byte.minus → Byte.isDigit b = false →
      (sign ++ digits).head? ≠ some b := by
    intro b hp hm hd h
    rcases hstart b h with rfl | rfl | h
    · exact hp rfl
    · exact hm rfl
    · rw [hd] at h
      cases h
  have hhash := hother Byte.hash (by decide) (by decide) (by decide)
  have hquote := hother Byte.doubleQuote (by decide) (by decide) (by decide)
  have ht : sign ++ digits ≠ ascii "#t" := fun h => hhash (by rw [h]; decide)
  have hf : sign ++ digits ≠ ascii "#f" := fun h => hhash (by rw [h]; decide)
  rw [Literal.ofSpan, if_neg ht, if_neg hf, if_neg hquote]

end

/-! ## Literal tokens -/

/-- What spells a literal is read as it, wherever it stands. -/
theorem Spells.ofSpan {text : Bytes} {l : Literal} (h : Spells text l) (offset : Nat) :
    Literal.ofSpan ⟨offset, text⟩ = .ok l := by
  cases h with
  | truth => rfl
  | falsity => rfl
  | string hs =>
    rw [ofSpan_string, unescape_ok_iff.mpr hs]
    rfl
  | integer hsign hne hdigits hn =>
    rw [ofSpan_numeral hsign hdigits, (readInteger_ok_iff hsign hdigits hne).mpr hn]
    rfl

/-- A literal token that is read as a literal spells it. -/
theorem spells_of_ofSpan {text after : Bytes} {offset : Nat} {l : Literal}
    (ht : Lexeme text after .literal) (h : Literal.ofSpan ⟨offset, text⟩ = .ok l) : Spells text l := by
  cases ht with
  | string _ hs =>
    obtain ⟨body, rfl, _⟩ := hs
    rw [ofSpan_string] at h
    obtain ⟨s, hs, rfl⟩ := map_ok.mp h
    exact .string (unescape_ok_iff.mp hs)
  | literal _ hl =>
    rcases hl with rfl | rfl | ⟨sign, digits, hsign, hne, hdigits, rfl⟩
    · cases h
      exact .truth
    · cases h
      exact .falsity
    · rw [ofSpan_numeral hsign hdigits] at h
      obtain ⟨n, hn, rfl⟩ := map_ok.mp h
      exact .integer hsign hne hdigits ((readInteger_ok_iff hsign hdigits hne).mp hn)

/-! ## Texts apart from their places -/

/-- Where a text stands decides only what an error blames. -/
theorem readInteger_offset {o o' : Nat} {text : Bytes} {n : Int64}
    (h : Literal.readInteger ⟨o, text⟩ = .ok n) : Literal.readInteger ⟨o', text⟩ = .ok n := by
  unfold Literal.readInteger at h ⊢
  dsimp only at h ⊢
  -- With or without a minus, the value fits or does not.
  cases hneg : (Literal.dropSign Byte.plus text).head? == some Byte.minus
  all_goals
    simp only [hneg, Bool.false_eq_true, if_true, if_false] at h ⊢
    split at h
    · cases h
    · rename_i hdigits
      rw [if_neg hdigits]
      split at h
      · cases h
      · rename_i hrange
        rw [if_neg hrange]
        split at h
        · cases h
        · rename_i hrest
          rwa [if_neg hrest]

/-- Where a literal stands makes no difference to what it is. -/
theorem ofSpan_offset {o o' : Nat} {text : Bytes} {l : Literal} (h : Literal.ofSpan ⟨o, text⟩ = .ok l) :
    Literal.ofSpan ⟨o', text⟩ = .ok l := by
  unfold Literal.ofSpan at h ⊢
  split at h
  · rename_i ht
    rwa [if_pos ht]
  · rename_i ht
    rw [if_neg ht]
    split at h
    · rename_i hf
      rwa [if_pos hf]
    · rename_i hf
      rw [if_neg hf]
      split at h
      · rename_i hquote
        rw [if_pos hquote]
        obtain ⟨s, hs, rfl⟩ := map_ok.mp h
        exact map_ok.mpr ⟨s, unescape_ok_iff.mpr (unescape_ok_iff.mp hs), rfl⟩
      · rename_i hquote
        rw [if_neg hquote]
        obtain ⟨n, hn, rfl⟩ := map_ok.mp h
        exact map_ok.mpr ⟨n, readInteger_offset hn, rfl⟩

/-- The literal that a text spells, and the unspecified one if it spells none. -/
def Literal.ofText (text : Bytes) : Literal := (Literal.ofSpan ⟨0, text⟩).toOption.getD .unspecified

theorem ofText_of_ofSpan {o : Nat} {text : Bytes} {l : Literal} (h : Literal.ofSpan ⟨o, text⟩ = .ok l) :
    Literal.ofText text = l := by
  rw [Literal.ofText, ofSpan_offset h]
  rfl

end Trampoline

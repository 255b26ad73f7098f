import Trampoline.Proofs.Lines

/-!
# Trampoline.Proofs.Mangling -- different things have different spellings

A mangled name can be taken apart again, byte by byte: no byte is spelled as the start of another one. So
different source names are spelled differently, and so are different lambdas. A temporary is told from
every other by its stem and its number, and from source names by its first byte.
-/

namespace Trampoline

namespace Byte

/-- Letters, digits and the underscore. -/
def isWord (b : UInt8) : Bool := isAlnum b || b == underscore

theorem ne_of_isWord {b c : UInt8} (hb : isWord b = true) (hc : isWord c = false) : b ≠ c := by
  rintro rfl
  rw [hb] at hc
  cases hc

theorem not_isSpace_of_isWord {b : UInt8} (h : isWord b = true) : isSpace b = false := by
  simp only [isWord, isAlnum, isDigit, isUpper, isLower, isSpace] at *
  grind

/-- The value of a lower-case hexadecimal digit. -/
def hexValue (d : UInt8) : UInt8 := if d < 58 then d - 48 else d - 87

/-- Two hexadecimal digits give the byte back. -/
theorem hexValue_hexDigit (b : UInt8) :
    hexValue (hexDigit (b >>> 4)) * 16 + hexValue (hexDigit (b &&& 15)) = b := by
  have hall : ∀ n : Fin 256, hexValue (hexDigit ((⟨⟨n⟩⟩ : UInt8) >>> 4)) * 16
      + hexValue (hexDigit ((⟨⟨n⟩⟩ : UInt8) &&& 15)) = ⟨⟨n⟩⟩ := by decide +kernel
  exact hall b.toBitVec.toFin

end Byte

/-! ## Mangled names -/

namespace Name

/-- Takes the spelling of one byte off a mangled name. -/
def takeByte : Bytes → Option (UInt8 × Bytes)
  | [] => none
  | b :: r =>
    if b ≠ Byte.underscore then some (b, r)
    else
      match r with
      | 120 :: high :: low :: r => some (Byte.hexValue high * 16 + Byte.hexValue low, r)
      | r => some (b, r.tail)

/-- The spelling of a byte is read back, whatever comes behind it. -/
theorem takeByte_mangleByte (b : UInt8) (r : Bytes) : takeByte (mangleByte b ++ r) = some (b, r) := by
  unfold mangleByte
  split
  · rename_i hb
    have hne : b ≠ Byte.underscore := by
      rintro rfl
      exact absurd hb (by decide)
    simp [takeByte, hne]
  · split
    · rename_i hb
      subst hb
      rfl
    · simp [takeByte, Byte.hexValue_hexDigit]

/-- The spelling of a byte is not the start of the spelling of another one. -/
theorem mangleByte_append_inj {b c : UInt8} {r s : Bytes} (h : mangleByte b ++ r = mangleByte c ++ s) :
    b = c ∧ r = s := by
  have htake := congrArg takeByte h
  rw [takeByte_mangleByte, takeByte_mangleByte] at htake
  cases htake
  exact ⟨rfl, rfl⟩

theorem mangleByte_ne_nil (b : UInt8) : mangleByte b ≠ [] := by
  unfold mangleByte
  split
  · simp
  · split <;> simp

/-- No two names are mangled alike. -/
theorem mangle_injective (lead : Bytes) : Function.Injective (mangle lead) := by
  intro x y h
  have hflat : x.flatMap mangleByte = y.flatMap mangleByte := List.append_cancel_left h
  clear h
  induction x generalizing y with
  | nil =>
    cases y with
    | nil => rfl
    | cons c y => simp [mangleByte_ne_nil] at hflat
  | cons b x ih =>
    cases y with
    | nil => simp [mangleByte_ne_nil] at hflat
    | cons c y =>
      rw [List.flatMap_cons, List.flatMap_cons] at hflat
      obtain ⟨rfl, hrest⟩ := mangleByte_append_inj hflat
      rw [ih hrest]

theorem ofVariable_injective : Function.Injective ofVariable := mangle_injective _

theorem ofClass_injective : Function.Injective ofClass := mangle_injective _

/-- A mangled name is a word. -/
theorem all_isWord_mangle {lead : Bytes} (h : lead.all Byte.isWord = true) (x : Bytes) :
    (mangle lead x).all Byte.isWord = true := by
  have hall : ∀ n : Fin 256, (mangleByte ⟨⟨n⟩⟩).all Byte.isWord = true := by decide +kernel
  unfold mangle
  rw [List.all_append, h, Bool.true_and, List.all_flatMap, List.all_eq_true]
  exact fun b _ => hall b.toBitVec.toFin

end Name

theorem Bytes.all_isWord_decimal (n : Nat) : (decimal n).all Byte.isWord = true := by
  rw [List.all_eq_true]
  intro b hb
  have hdigit := List.all_eq_true.mp (all_isDigit_decimal n) b hb
  simp [Byte.isWord, Byte.isAlnum, hdigit]

/-! ## Identifiers -/

/-- The third byte of a temporary tells its stem. -/
theorem Temp.stem_append_inj {t t' : Temp} {d d' : Bytes} (h : t.stem ++ d = t'.stem ++ d') :
    t = t' ∧ d = d' := by
  have hthird : ∀ (t : Temp) (d : Bytes), (t.stem ++ d)[2]? = t.stem[2]? := by
    intro t d
    cases t <;> rfl
  have hbyte : t.stem[2]? = t'.stem[2]? := by
    rw [← hthird t d, h, hthird]
  have hstem : t = t' := by
    revert hbyte
    cases t <;> cases t' <;> decide
  subst hstem
  exact ⟨rfl, List.append_cancel_left h⟩

namespace Ident

/-- Identifiers that are made from names and numbers are spelled differently. -/
theorem Spelled.text_inj {x y : Ident} (hx : x.Spelled) (hy : y.Spelled) (h : x.text = y.text) : x = y := by
  -- Source names start with a letter and temporaries with an underscore.
  have hhead : ∀ (a : Bytes) (t : Temp) (k : Nat), (named a).text ≠ (temp t k).text := by
    intro a t k heq
    have hfirst := congrArg List.head? heq
    cases t <;> simp [text, Name.ofVariable, Name.mangle, Temp.stem, ascii] at hfirst
  cases x with
  | named a =>
    cases y with
    | named b => rw [Name.ofVariable_injective h]
    | temp t k => exact absurd h (hhead a t k)
    | verbatim t => exact absurd hy not_false
  | temp t k =>
    cases y with
    | named b => exact absurd h.symm (hhead b t k)
    | temp t' k' =>
      obtain ⟨rfl, hd⟩ := Temp.stem_append_inj h
      rw [Bytes.decimal_injective hd]
    | verbatim t' => exact absurd hy not_false
  | verbatim t => exact absurd hx not_false

/-- A spelled variable consists of letters, digits and underscores. -/
theorem Spelled.all_isWord {x : Ident} (h : x.Spelled) : x.text.all Byte.isWord = true := by
  cases x with
  | named a => exact Name.all_isWord_mangle (by decide) a
  | temp t k =>
    have hstem : t.stem.all Byte.isWord = true := by cases t <;> decide
    rw [text, List.all_append, hstem, Bytes.all_isWord_decimal, Bool.and_true]
  | verbatim t => exact absurd h not_false

end Ident

end Trampoline

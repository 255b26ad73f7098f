import Mathlib.Data.List.Basic
import Trampoline.Bytes

/-!
# Trampoline.Proofs.Decimal -- numbers in decimal

A number in decimal is a text of digits, of which there is at least one, and the first is a zero only if it is
the only one. The digits give the number back, so different numbers have different texts.
-/

namespace Trampoline

/-- The byte of a digit is the digit. -/
theorem Byte.toNat_ofDigit {c : Char} (h : c.isDigit = true) :
    (UInt8.ofNat c.toNat).toNat = c.toNat ∧ 48 ≤ c.toNat ∧ c.toNat ≤ 57 := by
  have hrange : 48 ≤ c.toNat ∧ c.toNat ≤ 57 := by
    simpa [Char.isDigit, UInt32.le_iff_toNat_le] using h
  refine ⟨?_, hrange⟩
  rw [UInt8.toNat_ofNat']
  omega

namespace Bytes

theorem all_isDigit_decimal (n : Nat) : (decimal n).all Byte.isDigit = true := by
  rw [List.all_eq_true]
  intro b hb
  obtain ⟨c, hc, rfl⟩ := List.mem_map.mp hb
  obtain ⟨hbyte, hrange⟩ := Byte.toNat_ofDigit (Nat.isDigit_of_mem_toDigits (by decide) (by decide) hc)
  simpa [Byte.isDigit, UInt8.le_iff_toNat_le, hbyte] using hrange

theorem exists_decimal_cons (n : Nat) :
    ∃ d ds, decimal n = d :: ds ∧ Byte.isDigit d = true ∧ ds.all Byte.isDigit = true := by
  have hall := all_isDigit_decimal n
  cases hd : decimal n with
  | nil =>
    have hnil : Nat.toDigits 10 n = [] := List.map_eq_nil_iff.mp hd
    exact absurd hnil Nat.toDigits_ne_nil
  | cons d ds =>
    rw [hd, List.all_cons, Bool.and_eq_true] at hall
    exact ⟨d, ds, rfl, hall.1, hall.2⟩

/-- The first digit is a zero only if it is the only one. -/
theorem head_decimal_ne_zero {n : Nat} (h : n ≠ 0) : (decimal n).head? ≠ some Byte.digitZero := by
  unfold decimal
  induction n using Nat.strongRecOn with
  | ind n ih =>
    by_cases hlt : n < 10
    · have hall : ∀ m : Fin 10, m ≠ 0 → UInt8.ofNat (Nat.digitChar m).toNat ≠ Byte.digitZero := by decide
      have hdigit := hall ⟨n, hlt⟩ (fun h0 => h (congrArg Fin.val h0))
      rw [Nat.toDigits_of_lt_base hlt]
      exact fun heq => hdigit (Option.some.inj heq)
    · have hfirst := ih (n / 10) (Nat.div_lt_self (by omega) (by decide)) (by omega)
      have hne : (Nat.toDigits 10 (n / 10)).map (fun c => UInt8.ofNat c.toNat) ≠ [] := by
        simp [Nat.toDigits_ne_nil]
      rw [Nat.toDigits_of_base_le (by decide) (by omega), List.map_append,
        List.head?_append_of_ne_nil _ hne]
      exact hfirst

/-- The digits of a number give the number back. -/
theorem digitsValue_decimal (n : Nat) : digitsValue (decimal n) = n := by
  have hvalue : ∀ cs : List Char, (∀ c ∈ cs, c.isDigit) → ∀ v,
      (cs.map fun c => UInt8.ofNat c.toNat).foldl (fun v d => 10 * v + Byte.digitValue d) v =
        Nat.ofDigitChars 10 cs v := by
    intro cs
    induction cs with
    | nil => intro _ v; rfl
    | cons c cs ih =>
      intro hdigits v
      rw [List.forall_mem_cons] at hdigits
      rw [List.map_cons, List.foldl_cons, ih hdigits.2, Byte.digitValue, (Byte.toNat_ofDigit hdigits.1).1]
      rfl
  have hdigits : ∀ c ∈ Nat.toDigits 10 n, c.isDigit :=
    fun c hc => Nat.isDigit_of_mem_toDigits (by decide) (by decide) hc
  exact (hvalue _ hdigits 0).trans Nat.ofDigitChars_ten_toDigits

theorem decimal_injective : Function.Injective decimal :=
  Function.LeftInverse.injective digitsValue_decimal

end Bytes

end Trampoline

import Mathlib.Data.List.Nodup
import Trampoline.Name
import Trampoline.Proofs.Decimal

/-!
# Trampoline.Proofs.Freshness -- when fresh names are distinct

The number of a fresh name has never been drawn before, but nothing marks where the stem ends and the number
begins. So a stem that ends in digits can run into its number and give a name that a shorter stem is to get
later: `x1` with the number 0 is `x` with the number 10. This is the only way in which a name comes twice, and
stems that do not end in a digit are safe from it.
-/

namespace Trampoline

/-! ## Decimals that end in decimals -/

/-- Digits in front of a number do not make it smaller. -/
theorem Bytes.digitsValue_le_append (front digits : Bytes) :
    digitsValue digits ≤ digitsValue (front ++ digits) := by
  have hmono : ∀ (ds : Bytes) (v w : Nat), v ≤ w →
      ds.foldl (fun v d => 10 * v + Byte.digitValue d) v ≤ ds.foldl (fun v d => 10 * v + Byte.digitValue d) w := by
    intro ds
    induction ds with
    | nil => exact fun v w h => h
    | cons d ds ih =>
      intro v w h
      exact ih _ _ (Nat.add_le_add_right (Nat.mul_le_mul_left 10 h) _)
  unfold digitsValue
  rw [List.foldl_append]
  exact hmono digits _ _ (Nat.zero_le _)

/-- A number ends in the digits of another one only if it is no smaller. -/
theorem Bytes.le_of_decimal_eq_append {m n : Nat} {front : Bytes} (h : decimal n = front ++ decimal m) : m ≤ n := by
  have hle := digitsValue_le_append front (decimal m)
  rwa [← h, digitsValue_decimal, digitsValue_decimal] at hle

namespace Name

/-! ## One name drawn twice -/

/-- The stem `s` is the stem `t` and some digits, and with them the number `m` becomes the number `n`. -/
def Blends (s : Bytes) (m : Nat) (t : Bytes) (n : Nat) : Prop :=
  ∃ digits, s = t ++ digits ∧ Bytes.decimal n = digits ++ Bytes.decimal m

/-- Two names are equal only where the first stem and its number run together to the second. -/
theorem fresh_eq_fresh_iff {s t : Bytes} {m n : Nat} (h : m < n) :
    (fresh s m).1 = (fresh t n).1 ↔ Blends s m t n := by
  show s ++ Bytes.decimal m = t ++ Bytes.decimal n ↔ _
  constructor
  · intro heq
    rcases List.append_eq_append_iff.mp heq with ⟨digits, _, hm⟩ | ⟨digits, hs, hn⟩
    · have hle := Bytes.le_of_decimal_eq_append hm
      omega
    · exact ⟨digits, hs, hn⟩
  · rintro ⟨digits, rfl, hn⟩
    rw [hn, List.append_assoc]

/-- A stem that blends ends in a digit. -/
theorem Blends.exists_last {s t : Bytes} {m n : Nat} (h : Blends s m t n) (hmn : m < n) :
    ∃ d, s.getLast? = some d ∧ Byte.isDigit d = true := by
  obtain ⟨digits, rfl, hn⟩ := h
  have hne : digits ≠ [] := by
    rintro rfl
    have := Bytes.decimal_injective hn
    omega
  have hall := Bytes.all_isDigit_decimal n
  rw [hn, List.all_append, Bool.and_eq_true] at hall
  refine ⟨digits.getLast hne, ?_, List.all_eq_true.mp hall.1 _ (List.getLast_mem hne)⟩
  rw [List.getLast?_append_of_ne_nil _ hne, List.getLast?_eq_some_getLast hne]

/-! ## All names of a run -/

theorem getElem?_freshAll (stems : List Bytes) (next i : Nat) :
    (freshAll stems next).1[i]? = stems[i]?.map fun s => (fresh s (next + i)).1 := by
  induction stems generalizing next i with
  | nil => rfl
  | cons s rest ih =>
    cases i with
    | zero => rfl
    | succ i =>
      have hi : next + (i + 1) = next + 1 + i := by omega
      rw [List.getElem?_cons_succ, hi, ← ih (next + 1) i]
      rfl

/-- Names that are drawn in a row are distinct if no two of their stems blend. -/
theorem nodup_freshAll_iff (stems : List Bytes) (next : Nat) :
    (freshAll stems next).1.Nodup ↔
      ∀ i j s t, i < j → stems[i]? = some s → stems[j]? = some t → ¬ Blends s (next + i) t (next + j) := by
  rw [List.nodup_iff_getElem?_ne_getElem?]
  constructor
  · intro hnodup i j s t hij hs ht hblends
    have hname : (freshAll stems next).1[j]? = some (fresh t (next + j)).1 := by
      rw [getElem?_freshAll, ht, Option.map_some]
    refine hnodup i j hij (List.getElem?_eq_some_iff.mp hname).1 ?_
    rw [hname, getElem?_freshAll, hs, Option.map_some, (fresh_eq_fresh_iff (by omega)).mpr hblends]
  · intro hapart i j hij hj heq
    rw [getElem?_freshAll, getElem?_freshAll] at heq
    obtain ⟨name, hname⟩ : ∃ name, (freshAll stems next).1[j]? = some name :=
      ⟨_, List.getElem?_eq_getElem hj⟩
    rw [getElem?_freshAll] at hname
    obtain ⟨t, ht, htname⟩ := Option.map_eq_some_iff.mp hname
    rw [hname] at heq
    obtain ⟨s, hs, hsname⟩ := Option.map_eq_some_iff.mp heq
    exact hapart i j s t hij hs ht ((fresh_eq_fresh_iff (by omega)).mp (hsname.trans htname.symm))

end Name

open Name in
/-- **When fresh names are distinct.** However many names are drawn and whatever their stems are, each is its stem
followed by the next number. Two of them are equal exactly if the stem of the earlier one is the stem of the later
one with the digits that make the later number out of the earlier one. Names whose stems do not end in a digit are
therefore pairwise distinct. -/
theorem freshNames_distinct_iff (stems : List Bytes) (next : Nat) :
    (∀ i, (freshAll stems next).1[i]? = stems[i]?.map (· ++ Bytes.decimal (next + i))) ∧
    ((freshAll stems next).1.Nodup ↔
      ∀ i j s t, i < j → stems[i]? = some s → stems[j]? = some t → ¬ Blends s (next + i) t (next + j)) ∧
    ((∀ s ∈ stems, ∀ b ∈ s.getLast?, Byte.isDigit b = false) → (freshAll stems next).1.Nodup) := by
  refine ⟨getElem?_freshAll stems next, nodup_freshAll_iff stems next, ?_⟩
  intro hstems
  rw [nodup_freshAll_iff]
  intro i j s t hij hs _ hblends
  obtain ⟨d, hlast, hdigit⟩ := hblends.exists_last (by omega)
  rw [hstems s (List.mem_of_getElem? hs) d hlast] at hdigit
  cases hdigit

open Name in
/-- The first stem ends in the digit that makes ten out of zero, so the eleventh name is the first one again. -/
theorem freshNames_repeat :
    ¬ (freshAll (ascii "x1" :: List.replicate 9 (ascii "a") ++ [ascii "x"]) 0).1.Nodup := by
  intro hnodup
  refine (freshNames_distinct_iff _ 0).2.1.mp hnodup 0 10 (ascii "x1") (ascii "x") (by decide) rfl rfl ?_
  exact ⟨ascii "1", rfl, rfl⟩

end Trampoline

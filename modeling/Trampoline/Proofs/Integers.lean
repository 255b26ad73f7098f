import Mathlib.Data.List.Induction
import Mathlib.Data.Nat.Digits.Defs
import Trampoline.Proofs.CodeTokens

/-!
# Trampoline.Proofs.Integers -- the value of an integer, from its atom to the emitted constant

An integer of the source has any number of digits, zeros in front of them included, and its value is what the
digits are in base ten. The reader keeps it or finds it too large for sixty-four bits. Emitted code writes it
as a constant, which has a value of its own: it is cut into tokens, a literal that starts with a zero is octal,
a minus in front is an operator, and no literal and no intermediate result may leave the sixty-four bit range.
The least integer has no literal, so its constant is a difference. All these values agree.
-/

namespace Trampoline

/-! ## Values -/

/-- The number that digits are in a base, the last of them counting one. -/
def positional (base : Nat) (digits : Bytes) : Nat := Nat.ofDigits base (digits.reverse.map Byte.digitValue)

/-- The value of a text that is a sign, or no sign, and digits. -/
def numeralValue (text : Bytes) : Int :=
  let magnitude := positional 10 (text.filter Byte.isDigit)
  if text.head? = some Byte.minus then -magnitude else magnitude

/-- The range of a signed integer of sixty-four bits. -/
def FitsLong (v : Int) : Prop := -2 ^ 63 ≤ v ∧ v ≤ 2 ^ 63 - 1

instance (v : Int) : Decidable (FitsLong v) := inferInstanceAs (Decidable (_ ∧ _))

/-- A sixty-four bit integer fits. -/
theorem fitsLong_toInt (n : Int64) : FitsLong n.toInt := by
  have hlow := n.le_toInt
  have hhigh := n.toInt_lt
  exact ⟨by omega, by omega⟩

/-- A last digit adds its value to the base times the rest. -/
theorem positional_concat (base : Nat) (digits : Bytes) (d : UInt8) :
    positional base (digits ++ [d]) = base * positional base digits + Byte.digitValue d := by
  unfold positional
  rw [List.reverse_append, List.reverse_singleton, List.singleton_append, List.map_cons, Nat.ofDigits_cons,
    Nat.add_comm]

/-- The value of digits is what they stand for in base ten. -/
theorem digitsValue_eq_positional (digits : Bytes) : Bytes.digitsValue digits = positional 10 digits := by
  induction digits using List.reverseRecOn with
  | nil => rfl
  | append_singleton digits d ih =>
    rw [positional_concat, ← ih, Bytes.digitsValue, List.foldl_append]
    rfl

/-- A sign decides the sign of the value. -/
theorem numeralValue_eq_signedValue {sign digits : Bytes}
    (hsign : sign = [] ∨ sign = [Byte.plus] ∨ sign = [Byte.minus])
    (hdigits : ∀ d ∈ digits, Byte.isDigit d = true) :
    numeralValue (sign ++ digits) = signedValue sign digits := by
  have hall : digits.filter Byte.isDigit = digits := List.filter_eq_self.mpr hdigits
  unfold numeralValue signedValue
  rw [digitsValue_eq_positional]
  rcases hsign with rfl | rfl | rfl
  · have hhead : digits.head? ≠ some Byte.minus := by
      intro h
      exact absurd (hdigits _ (List.mem_of_mem_head? h)) (by decide)
    rw [List.nil_append, hall, if_neg hhead, if_neg (by decide)]
  · have hfilter : ([Byte.plus] ++ digits).filter Byte.isDigit = digits := hall
    have hhead : ([Byte.plus] ++ digits).head? ≠ some Byte.minus := fun h => absurd (Option.some.inj h) (by decide)
    rw [hfilter, if_neg hhead, if_neg (by decide)]
  · have hfilter : ([Byte.minus] ++ digits).filter Byte.isDigit = digits := hall
    have hhead : ([Byte.minus] ++ digits).head? = some Byte.minus := rfl
    rw [hfilter, if_pos hhead, if_pos rfl]

/-! ## Constant expressions -/

namespace Constant

/-- A value that must fit. -/
def checked (v : Int) : Option Int := if FitsLong v then some v else none

theorem checked_of_fits {v : Int} (h : FitsLong v) : checked v = some v := if_pos h

/-- The value of an integer literal, with the suffix of a long one or without. Behind a zero it is octal. -/
def literal? (text : Bytes) : Option Int :=
  let digits := if text.getLast? = some 76 then text.dropLast else text
  let base := if digits.head? = some Byte.digitZero then 8 else 10
  if digits ≠ [] ∧ digits.all (fun d => Byte.isDigit d && decide (Byte.digitValue d < base)) then
    checked (positional base digits)
  else none

/-- What waits for an operand. -/
inductive Waiting where
  | negation
  | sum (left : Int)
  | difference (left : Int)
  /-- an open parenthesis, which waits for all operands up to the one that closes it -/
  | parenthesis
  deriving DecidableEq

/-- The operand that has just ended, if one has, and what waits, the innermost first. -/
structure State where
  last : Option Int
  waiting : List Waiting
  deriving DecidableEq

/-- Hands an operand to all that waits for it. A sign binds more tightly than what stands before it, and sums
and differences go from left to right, so nothing waits longer than for one operand. -/
def supply (v : Int) : List Waiting → Option State
  | .negation :: ws => (checked (-v)).bind fun v => supply v ws
  | .sum u :: ws => (checked (u + v)).bind fun v => supply v ws
  | .difference u :: ws => (checked (u - v)).bind fun v => supply v ws
  | ws => some ⟨some v, ws⟩

/-- What a mark does where an operand must come next. -/
def beforeOperand (m : Bytes) (ws : List Waiting) : Option State :=
  if m = ascii "(" then some ⟨none, .parenthesis :: ws⟩
  else if m = ascii "-" then some ⟨none, .negation :: ws⟩
  else if m = ascii "+" then some ⟨none, ws⟩
  else none

/-- What a mark does behind an operand. -/
def behindOperand (m : Bytes) (v : Int) (ws : List Waiting) : Option State :=
  if m = ascii "+" then some ⟨none, .sum v :: ws⟩
  else if m = ascii "-" then some ⟨none, .difference v :: ws⟩
  else if m = ascii ")" then
    match ws with
    | .parenthesis :: ws => supply v ws
    | _ => none
  else none

/-- What a token does. -/
def step (s : State) : CodeToken → Option State
  | .number text => if s.last = none then (literal? text).bind fun v => supply v s.waiting else none
  | .mark m => s.last.elim (beforeOperand m s.waiting) fun v => behindOperand m v s.waiting
  | .newline => some s
  | _ => none

/-- The value of a constant expression. -/
def value? (t : Bytes) : Option Int :=
  ((CodeToken.tokens t).foldlM step ⟨none, []⟩).bind fun s => if s.waiting = [] then s.last else none

-- A sign binds first, differences go from left to right, and a zero in front makes a literal octal. The least
-- integer is no literal with a sign in front of it.
example : value? (ascii "-(7L - 2 - -010L) + 1") = some (-12) ∧ value? (ascii "-9223372036854775808L") = none := by
  decide +kernel

end Constant

/-! ## Tokens of a constant -/

namespace CodeToken

theorem splice_eq_self {t : Bytes} (h : Byte.backslash ∉ t) : splice t = t := by
  fun_induction splice t with
  | case1 => rfl
  | case2 b => rfl
  | case3 b c t hb _ => exact absurd (hb.1 ▸ List.mem_cons_self) h
  | case4 b c t hb ih => rw [ih fun hmem => h (List.mem_cons_of_mem b hmem)]

theorem endNumber_isWord (previous : UInt8) {w : Bytes} (h : w.all Byte.isWord = true) :
    endNumber previous w = (w, []) := by
  induction w generalizing previous with
  | nil => rfl
  | cons b w ih =>
    rw [List.all_cons, Bool.and_eq_true] at h
    rw [endNumber, if_pos (by simp [continuesNumber, h.1]), ih b h.2]

/-- Digits and letters behind a digit are one number. -/
theorem lex_number {d : UInt8} {w : Bytes} (hd : Byte.isDigit d = true) (hw : w.all Byte.isWord = true) :
    lex (d :: w) = [.number (d :: w)] := by
  have hother : ∀ c, Byte.isDigit c = false → d ≠ c := by
    rintro c hc rfl
    rw [hc] at hd
    cases hd
  have hspace : Byte.isSpace d = false := by
    simp only [Byte.isDigit, Bool.and_eq_true, decide_eq_true_eq, UInt8.le_iff_toNat_le] at hd
    have hlow : ¬ d ≤ 13 := by
      rw [UInt8.le_iff_toNat_le]
      exact fun h => absurd (Nat.le_trans hd.1 h) (by decide)
    simp [Byte.isSpace, hlow, hother 32 (by decide)]
  have hstep : step d w = (some (.number (d :: w)), []) := by
    unfold step stepToken
    rw [if_neg (hother _ (by decide)), hspace, if_neg (by decide), if_neg fun h => hother _ (by decide) h.1,
      if_neg fun h => hother _ (by decide) h.1, hd, Bool.true_or, if_pos rfl, endNumber_isWord d hw]
  rw [lex_cons, hstep, lex]
  rfl

/-- A minus before a digit is a mark by itself. -/
theorem lex_minus {d : UInt8} (hd : Byte.isDigit d = true) (t : Bytes) :
    lex (Byte.minus :: d :: t) = .mark (ascii "-") :: lex (d :: t) := by
  have hmarks : d ∉ marks.flatten := by
    have hall : marks.flatten.all (fun b => !Byte.isDigit b) = true := by decide
    intro hmem
    have hnot := List.all_eq_true.mp hall d hmem
    rw [hd] at hnot
    cases hnot
  have hmark : mark? (Byte.minus :: d :: t) = some (ascii "-") :=
    (mark?_append_cons hmarks [Byte.minus] t).trans (by decide)
  have hstep : step Byte.minus (d :: t) = (some (.mark (ascii "-")), d :: t) := by
    show stepMark Byte.minus (d :: t) = _
    rw [stepMark, hmark]
    rfl
  rw [lex_cons, hstep]
  rfl

end CodeToken

/-! ## Decimals as constants -/

namespace Constant

/-- The constant that a number is printed as stands for this number. -/
theorem literal?_decimal {n : Nat} (h : FitsLong n) : literal? (Bytes.decimal n ++ ascii "L") = some ↑n := by
  have hlast : (Bytes.decimal n ++ ascii "L").getLast? = some 76 := List.getLast?_concat
  have hdrop : (Bytes.decimal n ++ ascii "L").dropLast = Bytes.decimal n := List.dropLast_concat
  unfold literal?
  rw [if_pos hlast, hdrop]
  by_cases hn : n = 0
  · subst hn
    exact checked_of_fits h
  · have hdigits : (Bytes.decimal n).all (fun d => Byte.isDigit d && decide (Byte.digitValue d < 10)) = true := by
      rw [List.all_eq_true]
      intro d hd
      have hdigit := List.all_eq_true.mp (Bytes.all_isDigit_decimal n) d hd
      have hvalue : Byte.digitValue d < 10 := by
        simp only [Byte.isDigit, Bool.and_eq_true, decide_eq_true_eq, UInt8.le_iff_toNat_le] at hdigit
        have hhigh : d.toNat ≤ 57 := hdigit.2
        unfold Byte.digitValue
        omega
      simp [hdigit, hvalue]
    have hne : Bytes.decimal n ≠ [] := by
      obtain ⟨d, ds, hd, _⟩ := Bytes.exists_decimal_cons n
      rw [hd]
      exact List.cons_ne_nil d ds
    dsimp only
    rw [if_neg (Bytes.head_decimal_ne_zero hn), if_pos ⟨hne, hdigits⟩, ← digitsValue_eq_positional,
      Bytes.digitsValue_decimal]
    exact checked_of_fits h

/-- A decimal with its suffix is a digit and what can go on with a number. -/
theorem decimal_long (n : Nat) :
    Byte.backslash ∉ Bytes.decimal n ++ ascii "L" ∧
      ∃ d w, Bytes.decimal n ++ ascii "L" = d :: w ∧ Byte.isDigit d = true ∧ w.all Byte.isWord = true := by
  have hwords : (Bytes.decimal n ++ ascii "L").all Byte.isWord = true := by
    rw [List.all_append, Bytes.all_isWord_decimal]
    rfl
  obtain ⟨d, ds, hd, hdigit, _⟩ := Bytes.exists_decimal_cons n
  refine ⟨fun hmem => ?_, d, ds ++ ascii "L", by rw [hd, List.cons_append], hdigit, ?_⟩
  · exact absurd (List.all_eq_true.mp hwords _ hmem) (by decide)
  · rw [hd, List.cons_append, List.all_cons, Bool.and_eq_true] at hwords
    exact hwords.2

theorem tokens_decimal (n : Nat) :
    CodeToken.tokens (Bytes.decimal n ++ ascii "L") = [.number (Bytes.decimal n ++ ascii "L")] := by
  obtain ⟨hback, d, w, hd, hdigit, hw⟩ := decimal_long n
  rw [CodeToken.tokens, CodeToken.splice_eq_self hback, hd, CodeToken.lex_number hdigit hw]

theorem tokens_minus_decimal (n : Nat) :
    CodeToken.tokens (Byte.minus :: (Bytes.decimal n ++ ascii "L")) =
      [.mark (ascii "-"), .number (Bytes.decimal n ++ ascii "L")] := by
  obtain ⟨hback, d, w, hd, hdigit, hw⟩ := decimal_long n
  have hback : Byte.backslash ∉ Byte.minus :: (Bytes.decimal n ++ ascii "L") := by
    rw [List.mem_cons, not_or]
    exact ⟨by decide, hback⟩
  rw [CodeToken.tokens, CodeToken.splice_eq_self hback, hd, CodeToken.lex_minus hdigit,
    CodeToken.lex_number hdigit hw]

theorem value?_decimal {n : Nat} (h : FitsLong n) : value? (Bytes.decimal n ++ ascii "L") = some ↑n := by
  rw [value?, tokens_decimal]
  simp [List.foldlM, step, literal?_decimal h, supply]

/-- A negative constant is the negation of a constant. -/
theorem value?_minus_decimal {n : Nat} (h : FitsLong n) :
    value? (Byte.minus :: (Bytes.decimal n ++ ascii "L")) = some (-↑n) := by
  have hneg : FitsLong (-↑n) := by
    unfold FitsLong at h ⊢
    omega
  have hminus : beforeOperand (ascii "-") [] = some ⟨none, [.negation]⟩ := by decide
  rw [value?, tokens_minus_decimal]
  simp [List.foldlM, hminus, step, literal?_decimal h, supply, checked_of_fits hneg]

/-- Every constant has the value that it is printed for. -/
theorem value?_integerConstant (n : Int64) : value? (integerConstant n) = some n.toInt := by
  obtain ⟨hlow, hhigh⟩ := fitsLong_toInt n
  unfold integerConstant
  split
  · rename_i hmin
    rw [hmin]
    decide +kernel
  · rename_i hmin
    have hne : n.toInt ≠ -2 ^ 63 := fun h => hmin (Int64.toInt_inj.mp (h.trans Int64.toInt_minValue.symm))
    have hfits : FitsLong n.toInt.natAbs := ⟨by omega, by omega⟩
    unfold Bytes.signedDecimal
    split
    · rename_i hneg
      rw [List.cons_append, value?_minus_decimal hfits]
      exact congrArg some (by omega)
    · rename_i hneg
      rw [value?_decimal hfits]
      exact congrArg some (by omega)

end Constant

/-! ## From the atom to the emitted constant -/

/-- The code of an integer fills one fresh slot. -/
theorem lower_integer (cs : Captures) (node : Node) (s : Lowering.State) (n : Int64) :
    Lowering.lower cs node (.literal (.integer n)) s =
      .ok ⟨some node, .temp .number s.next, .value, [.put (.temp .number s.next) (.number n)]⟩
        { s with next := s.next + 1 } := by
  rw [Lowering.lower]
  rfl

/-- The statement that fills a slot with the value of a constant. -/
def emplaceNumber (x constant : Bytes) : Bytes :=
  x ++ ascii "->value.emplace<NUM>(" ++ constant ++ ascii ");"

theorem op_integer (x : Ident) (n : Int64) :
    (Instr.put x (.number n)).op = emplaceNumber x.text (integerConstant n) := by
  have htag : Payload.tag (.number n) = .number := rfl
  simp [Instr.op, Instr.opLines, Bytes.unlines, Payload.statement, Payload.text, htag, emplaceNumber,
    Tag.text, ascii]

/-- A numeral is read as its value, or it is refused because the value does not fit. -/
theorem ofSpan_isNumeral {atom : Bytes} (hatom : IsNumeral atom) (offset : Nat) :
    Literal.ofSpan ⟨offset, atom⟩ =
      if FitsLong (numeralValue atom) then .ok (.integer (Int64.ofInt (numeralValue atom)))
      else .error (.outOfRange ⟨offset, atom⟩) := by
  obtain ⟨sign, digits, hsign, hne, hdigits, rfl⟩ := hatom
  rw [ofSpan_numeral hsign hdigits, readInteger_numeral hsign hdigits hne, Int64.toInt_minValue,
    Int64.toInt_maxValue, numeralValue_eq_signedValue hsign hdigits]
  by_cases hfits : FitsLong (signedValue sign digits)
  · have hin : ¬ (signedValue sign digits < -2 ^ 63 ∨ 2 ^ 63 - 1 < signedValue sign digits) := by
      unfold FitsLong at hfits
      omega
    rw [if_pos hfits, if_neg hin]
    rfl
  · have hout : signedValue sign digits < -2 ^ 63 ∨ 2 ^ 63 - 1 < signedValue sign digits := by
      unfold FitsLong at hfits
      omega
    rw [if_neg hfits, if_pos hout]
    rfl

/-- An atom that is an integer keeps its value if this fits in sixty-four bits: it is read as this value, its
code fills one slot with a constant, and the constant has this value. Otherwise it is refused as a whole for
being too large. -/
theorem integer_survives (atom : Bytes) (hatom : isInteger atom = true) (offset : Nat) :
    IsNumeral atom ∧
    (FitsLong (numeralValue atom) → ∃ n : Int64, Literal.ofSpan ⟨offset, atom⟩ = .ok (.integer n) ∧
      n.toInt = numeralValue atom ∧ Constant.value? (integerConstant n) = some (numeralValue atom) ∧
      ∀ (cs : Captures) (node : Node) (s : Lowering.State),
        ∃ f, Lowering.lower cs node (.literal (.integer n)) s = .ok f { s with next := s.next + 1 } ∧
          f.pairs = [(declareSlot f.value.text, emplaceNumber f.value.text (integerConstant n))]) ∧
    (¬ FitsLong (numeralValue atom) → ∃ err, Literal.ofSpan ⟨offset, atom⟩ = .error err ∧
      err.span = ⟨offset, atom⟩ ∧
      err.description = .around (ascii "integer literal") (ascii "does not fit in 64 bits.")) := by
  have hnumeral := isInteger_iff.mp hatom
  have hread := ofSpan_isNumeral hnumeral offset
  refine ⟨hnumeral, ?_, ?_⟩
  · intro hfits
    have hvalue : (Int64.ofInt (numeralValue atom)).toInt = numeralValue atom := by
      unfold FitsLong at hfits
      exact Int64.toInt_ofInt_of_le (by omega) (by omega)
    rw [if_pos hfits] at hread
    refine ⟨_, hread, hvalue, ?_, ?_⟩
    · rw [Constant.value?_integerConstant, hvalue]
    · intro cs node s
      refine ⟨_, lower_integer cs node s _, ?_⟩
      show [((Instr.put _ _).decl, (Instr.put _ _).op)] = _
      rw [op_integer]
      rfl
  · intro hout
    rw [if_neg hout] at hread
    exact ⟨_, hread, rfl, rfl⟩

/-- The least integer, with zeros in front, and the first one that is too large. -/
theorem integer_survives_limits :
    (∃ n : Int64, Literal.ofSpan ⟨3, ascii "-009223372036854775808"⟩ = .ok (.integer n) ∧
      n.toInt = -2 ^ 63 ∧ Constant.value? (integerConstant n) = some (-2 ^ 63)) ∧
    ∃ err, Literal.ofSpan ⟨0, ascii "+9223372036854775808"⟩ = .error err ∧
      err.span = ⟨0, ascii "+9223372036854775808"⟩ := by
  have hleast : numeralValue (ascii "-009223372036854775808") = -2 ^ 63 := by decide
  have hlarge : numeralValue (ascii "+9223372036854775808") = 2 ^ 63 := by decide
  constructor
  · obtain ⟨_, hkept, _⟩ := integer_survives (ascii "-009223372036854775808") (by decide) 3
    rw [hleast] at hkept
    obtain ⟨n, hread, hn, hvalue, _⟩ := hkept (by decide)
    exact ⟨n, hread, hn, hvalue⟩
  · obtain ⟨_, _, hrefused⟩ := integer_survives (ascii "+9223372036854775808") (by decide) 0
    rw [hlarge] at hrefused
    obtain ⟨err, hread, hspan, _⟩ := hrefused (by decide)
    exact ⟨err, hread, hspan⟩

end Trampoline

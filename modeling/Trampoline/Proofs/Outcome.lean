import Trampoline.Checked
import Trampoline.Proofs.Acceptance
import Trampoline.Proofs.Arity
import Trampoline.Proofs.Reading

/-!
# Trampoline.Proofs.Outcome -- how building a source text can end

Several steps make a promise to the next one: a literal token is a literal, the captures of every lambda
are known when it is lowered, some arity is in use when the classes are printed, the root of a unit makes a
thunk, and a table of mnemonics is asked only for what it holds. Each promise is kept by another part of
the build, so from a source text no internal error is reached: a build ends with a unit, with an error of
the reader, or with a construct or an operator call that has no code.
-/

namespace Trampoline

/-! ## Mnemonics

The running definitions look a mnemonic up and act on the result. Here the test comes first and the look-up
behind it must succeed, and nothing changes. -/

namespace Escape

/-- The bytes that a literal writes with a mnemonic. -/
def mnemonicBytes : List UInt8 := [39, 34, 92, 10, 13, 9, 8, 12, 7, 11]

/-- The letters that may follow a backslash. -/
def mnemonicLetters : List UInt8 := [39, 34, 92, 110, 114, 116, 98, 102, 97, 118]

/-- One byte of a literal, with a look-up that must succeed. -/
def checkedByte (b : UInt8) : Except CompileError Bytes :=
  if b ∈ mnemonicBytes then (mnemonic b).map fun m => [Byte.backslash, m]
  else .ok (if isEscaped b || 128 ≤ b then octal b else [b])

/-- A text as a double-quoted literal, with look-ups that must succeed. -/
def checkedQuoted (t : Bytes) : Except CompileError Bytes := do
  let parts ← t.mapM checkedByte
  pure (Byte.doubleQuote :: parts.flatten ++ [Byte.doubleQuote])

theorem mem_mnemonicBytes {b : UInt8} : b ∈ mnemonicBytes ↔ (mnemonic? b).isSome := by
  rw [mnemonic?, List.lookup_isSome_iff]
  simp [mnemonicBytes, mnemonics]

theorem mem_mnemonicLetters {m : UInt8} : m ∈ mnemonicLetters ↔ (ofMnemonic? m).isSome := by
  rw [ofMnemonic?, List.lookup_isSome_iff]
  simp [mnemonicLetters, meanings]

theorem checkedByte_eq (b : UInt8) : checkedByte b = .ok (escapeByte b) := by
  unfold checkedByte escapeByte
  cases hm : mnemonic? b with
  | some m =>
    have hmem : b ∈ mnemonicBytes := mem_mnemonicBytes.mpr (by rw [hm]; rfl)
    rw [if_pos hmem, mnemonic, hm]
    rfl
  | none =>
    have hmem : b ∉ mnemonicBytes := by
      rw [mem_mnemonicBytes, hm]
      decide
    rw [if_neg hmem]

/-- Printing a literal never asks for a mnemonic that does not exist. -/
theorem checkedQuoted_eq (t : Bytes) : checkedQuoted t = .ok (quoted t) := by
  have hparts : t.mapM checkedByte = .ok (t.map escapeByte) := by
    induction t with
    | nil => rfl
    | cons b rest ih =>
      rw [List.mapM_cons, checkedByte_eq, ih]
      rfl
  unfold checkedQuoted
  rw [hparts]
  show Except.ok _ = _
  rw [quoted, List.flatMap_def]

end Escape

/-- The text that the body of a string stands for, with look-ups that must succeed. -/
def Literal.checkedUnescape (offset : Nat) : Bytes → Except Fault Bytes
  | [] => .ok []
  | b :: rest =>
    if b = Byte.backslash then
      match rest with
      | [] => .error (.read (.badEscape ⟨offset, [b]⟩))
      | m :: rest =>
        if m ∈ Escape.mnemonicLetters then do
          let c ← (Escape.ofMnemonic m).mapError .compile
          let t ← checkedUnescape (offset + 2) rest
          pure (c :: t)
        else .error (.read (.badEscape ⟨offset, [b, m]⟩))
    else do
      let t ← checkedUnescape (offset + 1) rest
      pure (b :: t)

/-- Neither does reading one. -/
theorem Literal.checkedUnescape_eq (offset : Nat) (body : Bytes) :
    checkedUnescape offset body = (unescape offset body).mapError .read := by
  fun_induction unescape offset body with
  | case1 => rfl
  | case2 offset => rfl
  | case3 offset m rest hm =>
    have hmem : m ∉ Escape.mnemonicLetters := by
      rw [Escape.mem_mnemonicLetters, hm]
      decide
    rw [checkedUnescape, if_pos rfl, if_neg hmem]
    rfl
  | case4 offset m rest c hm ih =>
    have hmem : m ∈ Escape.mnemonicLetters := Escape.mem_mnemonicLetters.mpr (by rw [hm]; rfl)
    rw [checkedUnescape, if_pos rfl, if_pos hmem, Escape.ofMnemonic, hm, ih]
    cases unescape (offset + 2) rest <;> rfl
  | case5 offset b rest hb ih =>
    unfold checkedUnescape
    rw [if_neg hb, ih]
    cases unescape (offset + 1) rest <;> rfl

/-! ## Some arity is in use -/

/-- A tail call that is not native code has a call in it. -/
theorem Expr.HasKind.hasCount {e : Expr} (h : e.HasKind .thunk) (he : e.OnlyHalts) :
    ∃ k, e.HasCount argCount? k := by
  induction e using Expr.induction with
  | var x => cases h
  | literal l => cases h
  | lambda name params body _ => cases h
  | app callee args _ _ =>
    cases h with
    | call hf hs => exact ⟨_, [], _, rfl, rfl⟩
    | operate hf hs hn => exact ⟨_, [], _, rfl, rfl⟩
  | cond test a b _ iha _ =>
    cases h with
    | cond ht ha hb =>
      cases he with
      | cond _ hea _ =>
        obtain ⟨k, hk⟩ := iha ha hea
        exact ⟨k, (hasCount_cond rfl).mpr (Or.inl (Or.inr hk))⟩
  | letrec defs body _ ihb =>
    cases h with
    | letrec _ _ hb =>
      cases he with
      | letrec _ heb =>
        obtain ⟨k, hk⟩ := ihb hb heb
        exact ⟨k, (hasCount_letrec rfl).mpr (Or.inr hk)⟩
  | native uses code => exact absurd he not_onlyHalts_native
  | seq exprs _ => cases h
  | assign x value _ => cases h
  | assignThen x value next _ _ => cases h

/-- If some arity is marked, there is a range. -/
theorem ClassTable.arityRange_of_mem {t : ClassTable} {k : Nat} (h : k ∈ t.arities) :
    ∃ range, t.arityRange = .ok range := by
  have hne : t.arities ≠ [] := List.ne_nil_of_mem h
  unfold arityRange
  rw [List.head?_eq_some_head hne, List.getLast?_eq_some_getLast hne]
  exact ⟨_, rfl⟩

/-- A program has a text, because its root is a tail call and every tail call is counted. -/
theorem Build.program_text {e : Expr} {next next' : Nat} {p : Program} (he : e.OnlyHalts)
    (h : Build.program e next = (.ok p, next')) : ∃ text, p.text = .ok text := by
  have hkind : e.HasKind .thunk := Build.program_hasKind h
  obtain ⟨k, hk⟩ := hkind.hasCount he
  obtain ⟨_, harities⟩ := Build.program_arities h
  obtain ⟨range, hrange⟩ := ClassTable.arityRange_of_mem
    ((harities k).mpr (Expr.hasCount_arity.mpr (Or.inr hk)))
  obtain ⟨s, hs, _, _⟩ := Build.program_ok h
  have hroot : p.root.kind = .thunk := (Build.lower_hasKind hs).kind_eq.symm.trans hkind.kind_eq
  unfold Program.text
  rw [if_pos hroot, hrange]
  exact ⟨_, rfl⟩

/-! ## Outcomes -/

/-- How a build can end, given what the reader said. -/
inductive Build.Outcome (read : Except ReadError Expr) : Except Fault Bytes → Prop
  | unread {err : ReadError} (hread : read = .error err) (herr : err.Expected) :
      Outcome read (.error (.read err))
  | unit {e : Expr} {text : Bytes} (hread : read = .ok e) (hkind : e.HasKind .thunk) :
      Outcome read (.ok text)
  | unsupported {e : Expr} {what : Unsupported} (hread : read = .ok e) (hkind : ¬ e.HasKind .thunk) :
      Outcome read (.error (.compile (.unsupported what)))
  | unknownPrimitive {e : Expr} {name : Bytes} {n : Nat} (hread : read = .ok e)
      (hkind : ¬ e.HasKind .thunk) : Outcome read (.error (.compile (.unknownPrimitive name n)))

/-- A tree is built if it is a tail call that has code, and otherwise the error names a construct or an operator
call. -/
theorem Build.unit_outcome {e : Expr} (he : e.OnlyHalts) (next : Nat) :
    (∃ text next', Build.unit e next = (.ok text, next') ∧ e.HasKind .thunk) ∨
    ∃ err next', Build.unit e next = (.error err, next') ∧ ¬ e.HasKind .thunk ∧
      ((∃ what, err = .unsupported what) ∨ ∃ name n, err = .unknownPrimitive name n) := by
  have hunit : Build.unit e next =
      ((Build.program e next).1.bind Program.text, (Build.program e next).2) := rfl
  rw [hunit]
  rcases hp : Build.program e next with ⟨err | p, next'⟩
  · right
    obtain ⟨hkind, hcause⟩ := Build.program_error hp
    refine ⟨err, next', rfl, hkind, ?_⟩
    rcases hcause with (⟨what, _, _, rfl, _⟩ | ⟨f, n, _, _, rfl, _⟩) | ⟨_, rfl⟩
    · exact Or.inl ⟨what, rfl⟩
    · exact Or.inr ⟨f, n, rfl⟩
    · exact Or.inl ⟨_, rfl⟩
  · left
    obtain ⟨text, htext⟩ := Build.program_text he hp
    exact ⟨text, next', congrArg (·, next') htext, Build.program_hasKind hp⟩

/-- **No internal errors.** Building any source text ends with a unit, with an error of the reader other
than a literal token that is no literal, or because a construct or an operator call has no code. It ends
with a unit exactly if the tree that was read is a tail call that has code. The look-ups that must succeed
do so for every string that is printed and for every body of a string that is read. -/
theorem ofSource_outcome (source filename : Bytes) (pretty : Bool) (next : Nat) :
    Build.Outcome (Reader.readProgram source filename next).1
      (Build.ofSource source filename pretty next).1 ∧
    (∀ t, Escape.checkedQuoted t = .ok (Escape.quoted t)) ∧
    ∀ offset body, Literal.checkedUnescape offset body = (Literal.unescape offset body).mapError .read := by
  refine ⟨?_, Escape.checkedQuoted_eq, Literal.checkedUnescape_eq⟩
  have hread := Reader.readProgram_answers source filename next
  rcases hr : Reader.readProgram source filename next with ⟨err | e, next'⟩
  · rw [hr] at hread
    have hsource : (Build.ofSource source filename pretty next).1 = .error (.read err) := by
      simp only [Build.ofSource, bind, StateT.bind, hr]
      rfl
    rw [hsource]
    exact .unread rfl hread
  · rw [hr] at hread
    rcases Build.unit_outcome hread next' with
      ⟨text, _, hunit, hkind⟩ | ⟨err, _, hunit, hkind, hcause⟩
    · have hsource : (Build.ofSource source filename pretty next).1 = .ok (Build.finish pretty text) := by
        simp only [Build.ofSource, bind, StateT.bind, hr, hunit]
        rfl
      rw [hsource]
      exact .unit rfl hkind
    · have hsource : (Build.ofSource source filename pretty next).1 = .error (.compile err) := by
        simp only [Build.ofSource, bind, StateT.bind, hr, hunit]
        rfl
      rw [hsource]
      rcases hcause with ⟨what, rfl⟩ | ⟨name, n, rfl⟩
      · exact .unsupported rfl hkind
      · exact .unknownPrimitive rfl hkind

end Trampoline

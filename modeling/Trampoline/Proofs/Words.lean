import Trampoline.Proofs.CodeTokens

/-!
# Trampoline.Proofs.Words -- the words of emitted code, in their places

Tokens tell which words a text has, but not what the text becomes when some of its words are replaced. So a
text is taken apart into its words and all the bytes around them. The words are those of the tokens: what
stands in a literal or in a number is no word, and what stands in a word is no other word.

What a piece of text gives depends on what comes behind it. A word goes on until another byte comes, two marks
can become one, and behind a literal a word is its suffix. So the pieces are read byte by byte, and what the
next byte may still change is held back. Reading is a function that can be evaluated at fixed texts, and
`Respells` puts texts with names in them together from pieces.
-/

namespace Trampoline

open Byte (doubleQuote singleQuote backslash)

namespace CodeToken

/-! ## Taking a text apart -/

/-- A word of a text, or a byte that is part of no word. -/
inductive Atom where
  | word (w : Bytes)
  | byte (b : UInt8)
  deriving DecidableEq

namespace Atom

/-- The text of an atom, each word replaced. -/
def replaced (ρ : Bytes → Bytes) : Atom → Bytes
  | .word w => ρ w
  | .byte b => [b]

/-- An atom with a word replaced. -/
def respell (ρ : Bytes → Bytes) : Atom → Atom
  | .word w => .word (ρ w)
  | .byte b => .byte b

theorem replaced_respell (ρ : Bytes → Bytes) (a : Atom) : (a.respell ρ).replaced id = a.replaced ρ := by
  cases a <;> rfl

end Atom

/-- The atoms of the token that a step takes. -/
def stepAtoms (b : UInt8) (t : Bytes) : List Atom :=
  match (step b t).1 with
  | some (.word w) => [.word w]
  | _ => ((b :: t).take ((b :: t).length - (step b t).2.length)).map .byte

/-- The atoms of a text whose lines are joined. -/
def lexAtoms (t : Bytes) : List Atom :=
  match t with
  | [] => []
  | b :: t => stepAtoms b t ++ lexAtoms (step b t).2
termination_by t.length
decreasing_by
  have := step_length b t
  simp only [List.length_cons]
  omega

/-- The atoms of a text. -/
def atoms (t : Bytes) : List Atom := lexAtoms (splice t)

/-- A text with all of its words replaced, and nothing else changed but that lines are joined. -/
def replaceWords (ρ : Bytes → Bytes) (t : Bytes) : Bytes := (atoms t).flatMap (Atom.replaced ρ)

example : replaceWords (fun w => w ++ [95]) (ascii "x=\x7bu8\"x\"s, 1e+2\x7d; // x") =
    ascii "x_=\x7bu8\"x\"s, 1e+2\x7d; // x" := by
  decide +kernel

theorem lexAtoms_nil : lexAtoms [] = [] := by
  rw [lexAtoms]

/-- A text is split into atoms one step after the other. -/
theorem lexAtoms_cons (b : UInt8) (t : Bytes) : lexAtoms (b :: t) = stepAtoms b t ++ lexAtoms (step b t).2 := by
  rw [lexAtoms]

/-- A word of the tokens is one of the atoms. -/
theorem word_mem_lexAtoms {t w : Bytes} (h : .word w ∈ lex t) : .word w ∈ lexAtoms t := by
  -- On the length, because a step takes as many bytes as its token has.
  induction hn : t.length using Nat.strong_induction_on generalizing t with
  | _ n ih =>
    cases t with
    | nil => simp [lex] at h
    | cons b t =>
      rw [lex_cons, List.mem_append] at h
      rw [lexAtoms_cons, List.mem_append]
      rcases h with h | h
      · left
        have hfirst : (step b t).1 = some (.word w) := by simpa using h
        simp [stepAtoms, hfirst]
      · right
        have hlength := step_length b t
        exact ih _ (by simp only [List.length_cons] at hn; omega) h rfl

/-! ## What a step takes -/

theorem lexAtoms_of_step {b : UInt8} {w r : Bytes} {k : Option CodeToken} (hstep : step b (w ++ r) = (k, r))
    (hk : ∀ v, k ≠ some (.word v)) : lexAtoms (b :: (w ++ r)) = (b :: w).map .byte ++ lexAtoms r := by
  have htake : (b :: (w ++ r)).take ((b :: (w ++ r)).length - r.length) = b :: w := by
    have hlength : (b :: (w ++ r)).length - r.length = (b :: w).length := by
      simp only [List.length_cons, List.length_append]
      omega
    rw [hlength, ← List.cons_append, List.take_left]
  rw [lexAtoms_cons, stepAtoms, hstep]
  cases k with
  | none => simp only [htake]
  | some k =>
    cases k with
    | word v => exact absurd rfl (hk v)
    | _ => simp only [htake]

/-- A byte that starts no word, no literal, no comment and no number with a point, and joins no lines. -/
def isSafe (b : UInt8) : Bool :=
  !Byte.isWord b && !List.contains [doubleQuote, singleQuote, Byte.slash, Byte.dot, backslash] b

theorem isSafe_iff {b : UInt8} : isSafe b = true ↔ Byte.isWord b = false ∧ b ≠ doubleQuote ∧ b ≠ singleQuote ∧
    b ≠ Byte.slash ∧ b ≠ Byte.dot ∧ b ≠ backslash := by
  simp [isSafe]

theorem isDigit_of_not_isWord {b : UInt8} (h : Byte.isWord b = false) : Byte.isDigit b = false := by
  cases hdigit : Byte.isDigit b with
  | false => rfl
  | true => simp [Byte.isWord, Byte.isAlnum, hdigit] at h

/-- A mark that starts with such a byte has no other bytes. -/
theorem isSafe_mark : ∀ m ∈ marks, m.head?.any isSafe = true → m.all isSafe = true := by
  decide

/-- The step at a mark. -/
theorem stepMark_cases (b : UInt8) (t : Bytes) :
    stepMark b t = (some (.other b), t) ∨
      ∃ w r, b :: w ∈ marks ∧ t = w ++ r ∧ stepMark b t = (some (.mark (b :: w)), r) := by
  unfold stepMark
  cases hmark : mark? (b :: t) with
  | none => exact Or.inl rfl
  | some m =>
    obtain ⟨hmem, hlead⟩ := mem_of_mark? hmark
    obtain ⟨r, hsplit⟩ := List.isPrefixOf_iff_prefix.mp hlead
    cases m with
    | nil => exact absurd rfl (marks_oneLine [] hmem).1
    | cons c w =>
      obtain ⟨rfl, rfl⟩ := List.cons.inj hsplit
      exact Or.inr ⟨w, r, hmem, rfl, by simp⟩

/-- Such a byte is taken alone, or together with others of its kind. -/
theorem step_safe {b : UInt8} (h : isSafe b = true) (t : Bytes) : ∃ k w r, t = w ++ r ∧
    step b t = (k, r) ∧ (∀ v, k ≠ some (.word v)) ∧ w.all isSafe = true := by
  obtain ⟨hword, hdouble, hsingle, hslash, hdot, -⟩ := isSafe_iff.mp h
  have hdigit := isDigit_of_not_isWord hword
  by_cases hline : b = Byte.newline
  · exact ⟨some .newline, [], t, rfl, by simp [step, hline], by simp, rfl⟩
  by_cases hspace : Byte.isSpace b = true
  · exact ⟨none, [], t, rfl, by simp [step, hline, hspace], by simp, rfl⟩
  have hstep : step b t = stepMark b t := by
    simp [step, stepToken, hline, hspace, hslash, hdigit, hdot, hword, hdouble, hsingle]
  rcases stepMark_cases b t with hother | ⟨w, r, hmem, rfl, hmark⟩
  · exact ⟨some (.other b), [], t, rfl, hstep.trans hother, by simp, rfl⟩
  · have hsafe := isSafe_mark (b :: w) hmem (by simpa using h)
    rw [List.all_cons, Bool.and_eq_true] at hsafe
    exact ⟨some (.mark (b :: w)), w, r, rfl, hstep.trans hmark, by simp, hsafe.2⟩

/-- Marks need not be told apart: one by one, their bytes give the same atoms. -/
theorem lexAtoms_safe {b : UInt8} (h : isSafe b = true) (t : Bytes) :
    lexAtoms (b :: t) = .byte b :: lexAtoms t := by
  induction hn : t.length using Nat.strong_induction_on generalizing b t with
  | _ n ih =>
    obtain ⟨k, w, r, rfl, hstep, hk, hw⟩ := step_safe h t
    -- The other bytes of the mark are taken one after the other as well.
    have hrest : ∀ v : Bytes, v.all isSafe = true → v.length ≤ w.length →
        lexAtoms (v ++ r) = v.map .byte ++ lexAtoms r := by
      intro v
      induction v with
      | nil => intro _ _; rfl
      | cons c v ihv =>
        intro hsafe hlength
        rw [List.all_cons, Bool.and_eq_true] at hsafe
        simp only [List.length_cons] at hlength
        have hshort : (v ++ r).length < n := by
          simp only [List.length_append] at hn ⊢
          omega
        rw [List.cons_append, ih _ hshort hsafe.1 (v ++ r) rfl, ihv hsafe.2 (by omega)]
        rfl
    rw [lexAtoms_of_step hstep hk, hrest w hw (Nat.le_refl _)]
    rfl

/-- The first byte of a word or of a number starts neither a line nor a comment. -/
theorem step_isWord {b : UInt8} (h : Byte.isWord b = true) (t : Bytes) : step b t = stepToken b t := by
  have hline : b ≠ Byte.newline := Byte.ne_of_isWord h (by decide)
  have hslash : b ≠ Byte.slash := Byte.ne_of_isWord h (by decide)
  rw [step, if_neg hline, Byte.not_isSpace_of_isWord h, if_neg (by decide), if_neg fun h => hslash h.1,
    if_neg fun h => hslash h.1]

theorem takeWhile_isWord {w : Bytes} (hw : w.all Byte.isWord = true) {c : UInt8}
    (hc : Byte.isWord c = false) (t : Bytes) :
    (w ++ c :: t).takeWhile Byte.isWord = w ∧ (w ++ c :: t).dropWhile Byte.isWord = c :: t := by
  have hall := List.all_eq_true.mp hw
  rw [List.takeWhile_append_of_pos hall, List.dropWhile_append_of_pos hall]
  simp [hc]

/-- A word ends before a byte that is neither part of a word nor a quote. -/
theorem lexAtoms_word {b c : UInt8} {w : Bytes} (hb : Byte.isDigit b = false)
    (hw : (b :: w).all Byte.isWord = true) (hc : Byte.isWord c = false) (hdouble : c ≠ doubleQuote)
    (hsingle : c ≠ singleQuote) (t : Bytes) :
    lexAtoms (b :: (w ++ c :: t)) = .word (b :: w) :: lexAtoms (c :: t) := by
  rw [List.all_cons, Bool.and_eq_true] at hw
  obtain ⟨htake, hdrop⟩ := takeWhile_isWord hw.2 hc t
  have hdot : b ≠ Byte.dot := by
    rintro rfl
    exact absurd hw.1 (by decide)
  have hstep : step b (w ++ c :: t) = (some (.word (b :: w)), c :: t) := by
    rw [step_isWord hw.1, stepToken, hb, Bool.false_or, beq_false_of_ne hdot, Bool.false_and,
      if_neg (by decide), if_pos hw.1, htake, hdrop]
    simp [stepWord, hdouble, hsingle]
  rw [lexAtoms_cons, stepAtoms, hstep]
  rfl

theorem endNumber_stop {w : Bytes} (hw : w.all Byte.isWord = true) {c : UInt8}
    (hc : ∀ previous t, continuesNumber previous c t = false) (previous : UInt8) (t : Bytes) :
    endNumber previous (w ++ c :: t) = (w, c :: t) := by
  induction w generalizing previous with
  | nil =>
    rw [List.nil_append, endNumber, hc]
    rfl
  | cons b w ih =>
    rw [List.all_cons, Bool.and_eq_true] at hw
    rw [List.cons_append, endNumber, ih hw.2]
    simp [continuesNumber, hw.1]

/-- A number ends before a byte that cannot go on with it. -/
theorem lexAtoms_number {b c : UInt8} {w : Bytes} (hb : Byte.isDigit b = true)
    (hw : w.all Byte.isWord = true) (hc : ∀ previous t, continuesNumber previous c t = false) (t : Bytes) :
    lexAtoms (b :: (w ++ c :: t)) = (b :: w).map .byte ++ lexAtoms (c :: t) := by
  have hword : Byte.isWord b = true := by simp [Byte.isWord, Byte.isAlnum, hb]
  refine lexAtoms_of_step (k := some (.number (b :: w))) ?_ (by simp)
  rw [step_isWord hword, stepToken, hb, Bool.true_or, if_pos rfl, endNumber_stop hw hc]

/-- A closed string ends before a byte that cannot be part of its suffix. -/
theorem lexAtoms_string {body : Bytes} {c : UInt8}
    (hbody : ∀ rest, closeLiteral? doubleQuote false (body ++ rest) = some (body, rest))
    (hc : Byte.isWord c = false) (t : Bytes) :
    lexAtoms (doubleQuote :: (body ++ c :: t)) = (doubleQuote :: body).map .byte ++ lexAtoms (c :: t) := by
  have hsuffix : suffix (c :: t) = [] := by
    simp [suffix, hc]
  have hnumber (d : Bool) : ¬ (Byte.isDigit doubleQuote || (doubleQuote == Byte.dot && d)) = true := by
    cases d <;> decide
  refine lexAtoms_of_step (k := some (.literal ([doubleQuote] ++ body))) ?_ (by simp)
  show stepToken doubleQuote (body ++ c :: t) = _
  rw [stepToken, if_neg (hnumber _), if_neg (by decide), if_pos (Or.inl rfl), hbody]
  simp [endLiteral, hsuffix]

/-- Among the marks that start with a dot, only the dot can stand before a word. -/
theorem dot_mark : ∀ m ∈ marks, m.head? = some Byte.dot → m.tail = [] ∨ m.tail.head?.any Byte.isWord = false := by
  decide

/-- A dot before a word is a mark. -/
theorem lexAtoms_dot {c : UInt8} (hword : Byte.isWord c = true) (hdigit : Byte.isDigit c = false) (t : Bytes) :
    lexAtoms (Byte.dot :: c :: t) = .byte Byte.dot :: lexAtoms (c :: t) := by
  have hstep : step Byte.dot (c :: t) = stepMark Byte.dot (c :: t) := by
    have hnumber : ¬ (Byte.isDigit Byte.dot ||
        (Byte.dot == Byte.dot && (c :: t).head?.any Byte.isDigit)) = true := by
      rw [List.head?_cons, Option.any_some, hdigit]
      decide
    show stepToken Byte.dot (c :: t) = _
    rw [stepToken, if_neg hnumber, if_neg (by decide), if_neg (by decide)]
  rcases stepMark_cases Byte.dot (c :: t) with hother | ⟨w, r, hmem, hsplit, hmark⟩
  · exact lexAtoms_of_step (w := []) (hstep.trans hother) (by simp)
  · cases w with
    | nil =>
      cases hsplit
      exact lexAtoms_of_step (w := []) (hstep.trans hmark) (by simp)
    | cons d w =>
      obtain ⟨rfl, -⟩ := List.cons.inj hsplit
      rcases dot_mark _ hmem rfl with hnil | hhead
      · cases hnil
      · rw [List.tail_cons, List.head?_cons, Option.any_some, hword] at hhead
        cases hhead

/-! ## Reading byte by byte -/

/-- What has been read and may still go on. -/
inductive Held where
  | nothing
  | word (w : Bytes)
  | number (d : Bytes)
  /-- a string up to some byte, behind which the next one may be escaped -/
  | opened (body : Bytes) (escaped : Bool)
  /-- a string with the quote that closes it -/
  | closed (body : Bytes)
  | dot
  deriving DecidableEq

namespace Held

def text : Held → Bytes
  | .nothing => []
  | .word w => w
  | .number d => d
  | .opened body _ => doubleQuote :: body
  | .closed body => doubleQuote :: body
  | .dot => [Byte.dot]

/-- The atoms that are held, if they do not go on. -/
def atoms : Held → List Atom
  | .word w => [.word w]
  | h => h.text.map .byte

/-- Whether what is held ends before a byte. -/
def endsBefore : Held → UInt8 → Bool
  | .nothing, _ => true
  -- before a quote, a word is the prefix of a literal
  | .word _, b => !Byte.isWord b && b != doubleQuote && b != singleQuote
  -- a sign goes on with an exponent, and a quote separates digits
  | .number _, b => !Byte.isWord b && !List.contains [Byte.dot, Byte.plus, Byte.minus, singleQuote] b
  | .opened _ _, _ => false
  | .closed _, b => !Byte.isWord b
  | .dot, b => Byte.isWord b && !Byte.isDigit b

/-- What is held after a byte that goes on with it. -/
def extend : Held → UInt8 → Option Held
  | .word w, b => if Byte.isWord b then some (.word (w ++ [b])) else none
  | .number d, b => if Byte.isWord b then some (.number (d ++ [b])) else none
  | .opened body escaped, b =>
    if b = Byte.newline then none
    else if b = doubleQuote ∧ escaped = false then some (.closed (body ++ [b]))
    else some (.opened (body ++ [b]) (!escaped && b == backslash))
  | _, _ => none

/-- What a byte starts when nothing is held. -/
def start (b : UInt8) : Option (Held × List Atom) :=
  if isSafe b then some (.nothing, [.byte b])
  else if Byte.isDigit b then some (.number [b], [])
  else if Byte.isWord b then some (.word [b], [])
  else if b = doubleQuote then some (.opened [] false, [])
  else if b = Byte.dot then some (.dot, [])
  else none

/-- Reads a byte. Gives what is held then, and the atoms that have come to their end. -/
def read (h : Held) (b : UInt8) : Option (Held × List Atom) :=
  match h.extend b with
  | some h' => some (h', [])
  | none => if h.endsBefore b then (start b).map fun p => (p.1, h.atoms ++ p.2) else none

/-- Reads a text. -/
def readAll (h : Held) : Bytes → Option (Held × List Atom)
  | [] => some (h, [])
  | b :: t => do
    let (h, as) ← h.read b
    let (h, bs) ← readAll h t
    return (h, as ++ bs)

/-- What can be held. -/
def Sound : Held → Prop
  | .nothing => True
  | .word w => w.head?.any Byte.isDigit = false ∧ w ≠ [] ∧ w.all Byte.isWord = true
  | .number d => d.head?.any Byte.isDigit = true ∧ d.all Byte.isWord = true
  | .opened body escaped => ∀ rest, closeLiteral? doubleQuote false (body ++ rest) =
      (closeLiteral? doubleQuote escaped rest).map fun p => (body ++ p.1, p.2)
  | .closed body => ∀ rest, closeLiteral? doubleQuote false (body ++ rest) = some (body, rest)
  | .dot => True

theorem readAll_cons {h h' : Held} {b : UInt8} {t : Bytes} {as : List Atom} :
    h.readAll (b :: t) = some (h', as) ↔
      ∃ h₁ as₁ as₂, h.read b = some (h₁, as₁) ∧ h₁.readAll t = some (h', as₂) ∧ as = as₁ ++ as₂ := by
  simp only [readAll, Option.bind_eq_bind, Option.bind_eq_some_iff, Option.pure_def, Option.some.injEq,
    Prod.mk.injEq, Prod.exists]
  constructor
  · rintro ⟨h₁, as₁, hb, _, as₂, ht, rfl, rfl⟩
    exact ⟨h₁, as₁, as₂, hb, ht, rfl⟩
  · rintro ⟨h₁, as₁, as₂, hb, ht, rfl⟩
    exact ⟨h₁, as₁, hb, h', as₂, ht, rfl, rfl⟩

/-- Texts that are read one after the other are read. -/
theorem readAll_append {h h₁ h' : Held} {t u : Bytes} {as bs : List Atom}
    (ht : h.readAll t = some (h₁, as)) (hu : h₁.readAll u = some (h', bs)) :
    h.readAll (t ++ u) = some (h', as ++ bs) := by
  induction t generalizing h as with
  | nil =>
    cases ht
    exact hu
  | cons b t ih =>
    obtain ⟨h₂, as₁, as₂, hb, hrest, rfl⟩ := readAll_cons.mp ht
    rw [List.append_assoc]
    exact readAll_cons.mpr ⟨h₂, as₁, as₂ ++ bs, hb, ih hrest, rfl⟩

/-- What a read does: the byte goes on with what is held, or it ends what is held and starts anew. -/
theorem read_cases {h h' : Held} {b : UInt8} {as : List Atom} (hread : h.read b = some (h', as)) :
    (h.extend b = some h' ∧ as = []) ∨
      ∃ bs, h.endsBefore b = true ∧ start b = some (h', bs) ∧ as = h.atoms ++ bs := by
  unfold read at hread
  cases hextend : h.extend b with
  | some h₁ =>
    rw [hextend] at hread
    cases hread
    exact Or.inl ⟨rfl, rfl⟩
  | none =>
    rw [hextend] at hread
    dsimp only at hread
    split at hread
    · rename_i hends
      obtain ⟨p, hp, heq⟩ := Option.map_eq_some_iff.mp hread
      cases heq
      exact Or.inr ⟨p.2, hends, hp, rfl⟩
    · cases hread

/-- What a byte can start. -/
theorem start_cases {b : UInt8} {h' : Held} {as : List Atom} (hstart : start b = some (h', as)) :
    (isSafe b = true ∧ h' = .nothing ∧ as = [.byte b]) ∨
      (as = [] ∧ h'.text = [b] ∧ h'.Sound ∧ b ≠ backslash) := by
  unfold start at hstart
  split_ifs at hstart with hsafe hdigit hword hquote hdot
  · cases hstart
    exact Or.inl ⟨hsafe, rfl, rfl⟩
  · cases hstart
    have hword : Byte.isWord b = true := by simp [Byte.isWord, Byte.isAlnum, hdigit]
    refine Or.inr ⟨rfl, rfl, ⟨by simpa using hdigit, by simpa using hword⟩, ?_⟩
    rintro rfl
    cases hdigit
  · cases hstart
    refine Or.inr ⟨rfl, rfl, ⟨by simpa using hdigit, by simp, by simpa using hword⟩, ?_⟩
    rintro rfl
    cases hword
  · cases hstart
    subst hquote
    refine Or.inr ⟨rfl, rfl, fun rest => ?_, by decide⟩
    simp
  · cases hstart
    subst hdot
    exact Or.inr ⟨rfl, rfl, trivial, by decide⟩

theorem text_extend {h h' : Held} {b : UInt8} (hextend : h.extend b = some h') : h'.text = h.text ++ [b] := by
  cases h <;> simp only [extend] at hextend
  case word w =>
    split at hextend <;> cases hextend
    rfl
  case number d =>
    split at hextend <;> cases hextend
    rfl
  case opened body escaped =>
    split_ifs at hextend <;> cases hextend <;> rfl
  all_goals cases hextend

theorem Sound.extend {h h' : Held} {b : UInt8} (hh : h.Sound) (hextend : h.extend b = some h') : h'.Sound := by
  cases h <;> simp only [Held.extend] at hextend
  case word w =>
    split at hextend <;> cases hextend
    rename_i hb
    obtain ⟨hdigit, hne, hall⟩ := hh
    refine ⟨?_, by simp, by simp [List.all_append, hall, hb]⟩
    rwa [List.head?_append_of_ne_nil _ hne]
  case number d =>
    split at hextend <;> cases hextend
    rename_i hb
    obtain ⟨hdigit, hall⟩ := hh
    have hne : d ≠ [] := by
      rintro rfl
      cases hdigit
    refine ⟨?_, by simp [List.all_append, hall, hb]⟩
    rwa [List.head?_append_of_ne_nil _ hne]
  case opened body escaped =>
    split_ifs at hextend with hline hclose
    · cases hextend
      intro rest
      rw [List.append_assoc, hh, List.singleton_append, closeLiteral?, if_neg hline, if_pos hclose]
      rfl
    · cases hextend
      intro rest
      rw [List.append_assoc, hh, List.singleton_append, closeLiteral?, if_neg hline, if_neg hclose,
        Option.map_map]
      simp [Function.comp_def]
  all_goals cases hextend

/-- What is held is one token, if the next byte ends it. -/
theorem Sound.lexAtoms {h : Held} (hh : h.Sound) {b : UInt8} (hends : h.endsBefore b = true) (t : Bytes) :
    CodeToken.lexAtoms (h.text ++ b :: t) = h.atoms ++ CodeToken.lexAtoms (b :: t) := by
  cases h with
  | nothing => rfl
  | word w =>
    obtain ⟨hdigit, hne, hall⟩ := hh
    simp only [endsBefore, Bool.and_eq_true, Bool.not_eq_true', bne_iff_ne] at hends
    cases w with
    | nil => exact absurd rfl hne
    | cons c w => exact lexAtoms_word (by simpa using hdigit) hall hends.1.1 hends.1.2 hends.2 t
  | number d =>
    obtain ⟨hdigit, hall⟩ := hh
    cases d with
    | nil => cases hdigit
    | cons c d =>
      rw [List.all_cons, Bool.and_eq_true] at hall
      refine lexAtoms_number (by simpa using hdigit) hall.2 (fun previous t => ?_) t
      simp only [endsBefore, Bool.and_eq_true, Bool.not_eq_true', List.contains_eq_mem, decide_eq_false_iff_not,
        List.mem_cons, List.not_mem_nil, or_false, not_or] at hends
      simp [continuesNumber, hends]
  | opened body escaped => cases hends
  | closed body =>
    simp only [endsBefore, Bool.not_eq_true'] at hends
    exact lexAtoms_string hh hends t
  | dot =>
    simp only [endsBefore, Bool.and_eq_true, Bool.not_eq_true'] at hends
    exact lexAtoms_dot hends.1 hends.2 t

/-- A read keeps the text, and gives the atoms that it has whatever comes behind. -/
theorem Sound.read {h h' : Held} {b : UInt8} {as : List Atom} (hh : h.Sound) (hread : h.read b = some (h', as)) :
    h'.Sound ∧ ∀ t, CodeToken.lexAtoms (h.text ++ b :: t) = as ++ CodeToken.lexAtoms (h'.text ++ t) := by
  rcases read_cases hread with ⟨hextend, rfl⟩ | ⟨bs, hends, hstart, rfl⟩
  · refine ⟨hh.extend hextend, fun t => ?_⟩
    rw [text_extend hextend, List.append_assoc]
    rfl
  · rcases start_cases hstart with ⟨hsafe, rfl, rfl⟩ | ⟨rfl, htext, hsound, -⟩
    · refine ⟨trivial, fun t => ?_⟩
      rw [hh.lexAtoms hends, lexAtoms_safe hsafe, List.append_assoc]
      rfl
    · refine ⟨hsound, fun t => ?_⟩
      rw [hh.lexAtoms hends, htext, List.append_nil]
      rfl

/-- Reading ahead gives the atoms of the text. -/
theorem Sound.readAll {h h' : Held} {t : Bytes} {as : List Atom} (hh : h.Sound)
    (hread : h.readAll t = some (h', as)) :
    h'.Sound ∧ ∀ u, CodeToken.lexAtoms (h.text ++ (t ++ u)) = as ++ CodeToken.lexAtoms (h'.text ++ u) := by
  induction t generalizing h as with
  | nil =>
    cases hread
    exact ⟨hh, fun _ => rfl⟩
  | cons b t ih =>
    obtain ⟨h₁, as₁, as₂, hb, ht, rfl⟩ := readAll_cons.mp hread
    obtain ⟨hh₁, hfirst⟩ := hh.read hb
    obtain ⟨hh', hrest⟩ := ih hh₁ ht
    refine ⟨hh', fun u => ?_⟩
    rw [List.cons_append, hfirst, hrest, List.append_assoc]

/-- The atoms of a read and what is held then are the text that was read. -/
theorem text_readAll {h h' : Held} {t : Bytes} {as : List Atom} (hread : h.readAll t = some (h', as)) :
    h.text ++ t = as.flatMap (Atom.replaced id) ++ h'.text := by
  have hatoms (h : Held) : h.atoms.flatMap (Atom.replaced id) = h.text := by
    have hbytes (w : Bytes) : (w.map Atom.byte).flatMap (Atom.replaced id) = w := by
      induction w with
      | nil => rfl
      | cons b w ih => rw [List.map_cons, List.flatMap_cons, ih]; rfl
    cases h with
    | word w => exact List.append_nil w
    | _ => exact hbytes _
  induction t generalizing h as with
  | nil =>
    cases hread
    exact List.append_nil _
  | cons b t ih =>
    obtain ⟨h₁, as₁, as₂, hb, ht, rfl⟩ := readAll_cons.mp hread
    have hfirst : h.text ++ [b] = as₁.flatMap (Atom.replaced id) ++ h₁.text := by
      rcases read_cases hb with ⟨hextend, rfl⟩ | ⟨bs, -, hstart, rfl⟩
      · exact (text_extend hextend).symm
      · rw [List.flatMap_append, hatoms]
        rcases start_cases hstart with ⟨-, rfl, rfl⟩ | ⟨rfl, htext, -, -⟩
        · rw [List.append_assoc]
          rfl
        · rw [htext, List.append_assoc]
          rfl
    calc h.text ++ b :: t = (h.text ++ [b]) ++ t := by rw [List.append_assoc]; rfl
      _ = as₁.flatMap (Atom.replaced id) ++ (h₁.text ++ t) := by rw [hfirst, List.append_assoc]
      _ = (as₁ ++ as₂).flatMap (Atom.replaced id) ++ h'.text := by
        rw [ih ht, List.flatMap_append, List.append_assoc]

/-- Text that can be read joins no lines: a backslash stands in a string only. -/
theorem splice_of_readAll {h : Held} {t : Bytes} {as : List Atom} (hread : h.readAll t = some (.nothing, as)) :
    splice t = t := by
  induction t generalizing h as with
  | nil => rfl
  | cons b t ih =>
    obtain ⟨h₁, as₁, as₂, hb, ht, rfl⟩ := readAll_cons.mp hread
    cases t with
    | nil => rfl
    | cons c t =>
      rw [splice, if_neg, ih ht]
      -- A backslash goes on with an open string, which a line end cannot do; nothing else reads it.
      rintro ⟨rfl, rfl⟩
      obtain ⟨h₂, _, _, hc, -, -⟩ := readAll_cons.mp ht
      rcases read_cases hb with ⟨hextend, rfl⟩ | ⟨bs, -, hstart, rfl⟩
      · cases h <;> simp only [extend] at hextend
        case opened body escaped =>
          rw [if_neg (by decide), if_neg fun h => absurd h.1 (by decide)] at hextend
          cases hextend
          cases hc
        all_goals cases hextend
      · cases hstart

end Held

end CodeToken

end Trampoline

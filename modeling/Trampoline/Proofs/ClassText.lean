import Trampoline.Proofs.Mangling
import Trampoline.Proofs.Outcome
import Trampoline.Proofs.Sections
import Trampoline.Proofs.Traversal
import Trampoline.Session

/-!
# Trampoline.Proofs.ClassText -- what can be read off the text of a class

A class names what its lambda captures four times: as parameters of its constructor, as the members that the
constructor fills, as private fields, and as the arguments with which its closures are made elsewhere. Here
the four lists are read off the emitted texts by cutting lines at commas, blanks and parentheses. For every
lambda of a tree that is lowered all four of them are the names that occur free in it, in ascending order.
The classes themselves are those of the lambdas of the tree, each once, in the order in which they are met.
-/

namespace Trampoline

open Bytes

/-! ## Cutting texts -/

/-- What stands before and what stands behind the first byte of some value. -/
def cut (b : UInt8) (t : Bytes) : Bytes × Bytes :=
  (t.takeWhile (· != b), (t.dropWhile (· != b)).drop 1)

/-- What stands in the first parentheses. -/
def arguments (t : Bytes) : Bytes := (cut Byte.closeParen (cut Byte.openParen t).2).1

/-- What commas separate, without the blanks behind them. -/
def items (t : Bytes) : List Bytes :=
  if t = [] then [] else (t.splitOn Byte.comma).map trimLeft

theorem cut_append {b : UInt8} {front : Bytes} (h : b ∉ front) (back : Bytes) :
    cut b (front ++ b :: back) = (front, back) := by
  have hfront : ∀ c ∈ front, (c != b) = true := fun c hc => bne_iff_ne.mpr fun hcb => h (hcb ▸ hc)
  have hstop : (b != b) = false := bne_self_eq_false b
  unfold cut
  rw [List.takeWhile_append_of_pos hfront, List.dropWhile_append_of_pos hfront,
    List.takeWhile_cons_of_neg (by simp), List.dropWhile_cons_of_neg (by simp), List.append_nil]
  rfl

/-- What stands between the first pair of parentheses is found, whatever comes behind it. -/
theorem arguments_append {front inner : Bytes} (hfront : Byte.openParen ∉ front)
    (hinner : Byte.closeParen ∉ inner) (back : Bytes) :
    arguments (front ++ Byte.openParen :: (inner ++ Byte.closeParen :: back)) = inner := by
  rw [arguments, cut_append hfront, cut_append hinner]

/-- A text that can stand in a list: it is not empty, has no comma and does not start with a blank. -/
structure Item (x : Bytes) : Prop where
  ne_nil : x ≠ []
  comma : Byte.comma ∉ x
  head : ∀ b ∈ x.head?, Byte.isSpace b = false

theorem Item.trimLeft {x : Bytes} (h : Item x) : Bytes.trimLeft x = x := by
  cases x with
  | nil => rfl
  | cons b x => exact List.dropWhile_cons_of_neg (by simp [h.head b rfl])

theorem commaList_cons (x : Bytes) (xs : List Bytes) :
    commaList (x :: xs) = x ++ xs.flatMap fun y => Byte.comma :: Byte.space :: y := by
  induction xs generalizing x with
  | nil => simp [commaList]
  | cons y xs ih =>
    have hrest := ih y
    unfold commaList at hrest ⊢
    rw [List.intercalate_cons_cons, hrest]
    simp [ascii]

/-- Texts without commas are found again between commas. -/
theorem splitOn_commas {x : Bytes} {ys : List Bytes} (hx : Byte.comma ∉ x)
    (hys : ∀ y ∈ ys, Byte.comma ∉ y) :
    (x ++ ys.flatMap fun y => Byte.comma :: y).splitOn Byte.comma = x :: ys := by
  induction ys generalizing x with
  | nil =>
    rw [List.flatMap_nil, List.append_nil]
    exact List.splitOn_eq_singleton hx
  | cons y ys ih =>
    obtain ⟨hy, hys⟩ := List.forall_mem_cons.mp hys
    have hfirst (t : Bytes) : (x ++ Byte.comma :: t).splitOn Byte.comma =
        x.splitOn Byte.comma ++ t.splitOn Byte.comma :=
      List.splitOnP_append_cons x t (beq_self_eq_true Byte.comma)
    rw [List.flatMap_cons, List.cons_append, hfirst, List.splitOn_eq_singleton hx, ih hy hys]
    rfl

/-- A list that is written with commas is read back. -/
theorem items_commaList {xs : List Bytes} (h : ∀ x ∈ xs, Item x) : items (commaList xs) = xs := by
  cases xs with
  | nil => rfl
  | cons x xs =>
    obtain ⟨hx, hxs⟩ := List.forall_mem_cons.mp h
    have hne : commaList (x :: xs) ≠ [] := by
      rw [commaList_cons]
      exact List.append_ne_nil_of_left_ne_nil hx.ne_nil _
    have hspaced : ∀ y ∈ xs.map (Byte.space :: ·), Byte.comma ∉ y := by
      intro y hy
      obtain ⟨z, hz, rfl⟩ := List.mem_map.mp hy
      exact List.not_mem_cons_of_ne_of_not_mem (by decide) (hxs z hz).comma
    have hsplit := splitOn_commas hx.comma hspaced
    rw [List.flatMap_map, ← commaList_cons] at hsplit
    rw [items, if_neg hne, hsplit, List.map_cons, hx.trimLeft, List.map_map]
    congr 1
    calc xs.map (Bytes.trimLeft ∘ (Byte.space :: ·))
        = xs.map id := List.map_congr_left fun y hy => (hxs y hy).trimLeft
      _ = xs := List.map_id xs

theorem not_mem_commaList {b : UInt8} {xs : List Bytes} (hcomma : b ≠ Byte.comma) (hspace : b ≠ Byte.space)
    (h : ∀ x ∈ xs, b ∉ x) : b ∉ commaList xs := by
  cases xs with
  | nil => exact List.not_mem_nil
  | cons x xs =>
    obtain ⟨hx, hxs⟩ := List.forall_mem_cons.mp h
    rw [commaList_cons, List.mem_append, not_or]
    refine ⟨hx, fun hmem => ?_⟩
    obtain ⟨y, hy, hb⟩ := List.mem_flatMap.mp hmem
    simp only [List.mem_cons, hcomma, hspace, false_or] at hb
    exact hxs y hy hb

/-! ## Words -/

/-- A text of letters, digits and underscores. -/
structure IsName (x : Bytes) : Prop where
  ne_nil : x ≠ []
  word : ∀ b ∈ x, Byte.isWord b = true

theorem IsName.not_mem {x : Bytes} (h : IsName x) {b : UInt8} (hb : Byte.isWord b = false) : b ∉ x := by
  intro hmem
  rw [h.word b hmem] at hb
  cases hb

/-- A name can stand in a list with commas. -/
theorem IsName.item {x : Bytes} (h : IsName x) : Item x := by
  refine ⟨h.ne_nil, h.not_mem (by decide), ?_⟩
  intro b hb
  exact Byte.not_isSpace_of_isWord (h.word b (List.mem_of_mem_head? hb))

/-- A mangled name is a name. -/
theorem isName_mangle {lead : Bytes} (hne : lead ≠ []) (hlead : lead.all Byte.isWord = true) (x : Bytes) :
    IsName (Name.mangle lead x) :=
  ⟨List.append_ne_nil_of_left_ne_nil hne _, List.all_eq_true.mp (Name.all_isWord_mangle hlead x)⟩

theorem isName_ofVariable (x : Bytes) : IsName (Name.ofVariable x) := isName_mangle (by decide) (by decide) x

theorem isName_ofClass (x : Bytes) : IsName (Name.ofClass x) := isName_mangle (by decide) (by decide) x

theorem isName_temp (t : Temp) (n : Nat) : IsName (Ident.text (.temp t n)) := by
  refine ⟨List.append_ne_nil_of_left_ne_nil (by cases t <;> decide) _, ?_⟩
  exact List.all_eq_true.mp (Ident.Spelled.all_isWord (x := .temp t n) trivial)

/-! ## Classes and call operators -/

/-- What the definition of a class says: its name, the types and names of the constructor's parameters, the
members that the constructor fills, each with what it is filled with, and the types and names of the private
fields. -/
structure ClassText where
  name : Bytes
  parameters : List (Bytes × Bytes)
  initialisers : List (Bytes × Bytes)
  fields : List (Bytes × Bytes)

/-- The types and names in a list of parameters. -/
def parametersIn (t : Bytes) : List (Bytes × Bytes) := (items (arguments t)).map (cut Byte.space)

/-- Reads the definition of a class. The constructor is on its third line. -/
def ClassText.read (text : Bytes) : ClassText :=
  let head := (lines text).headD []
  let constructor := (lines text).getD 2 []
  -- From the colon behind the parameters to the blank before the braces.
  let members := (cut Byte.openBrace ((cut Byte.closeParen constructor).2.drop 3)).1.dropLast
  let fields := (((lines text).dropWhile (· != ascii "private:")).drop 1).takeWhile (· != ascii "\x7d;")
  { name := (cut Byte.space (cut Byte.space head).2).1
    parameters := parametersIn constructor
    initialisers := (items members).map fun m => ((cut Byte.openParen m).1, arguments m)
    fields := fields.map fun l => cut Byte.space (cut Byte.semicolon l).1 }

/-- What the head of a call operator says: the name of its class, and the types and names of its
parameters. -/
structure OperatorText where
  name : Bytes
  parameters : List (Bytes × Bytes)

/-- Reads the head of a call operator. Its parameters are in the second parentheses. -/
def OperatorText.read (text : Bytes) : OperatorText :=
  let head := (lines text).headD []
  { name := (cut Byte.colon (cut Byte.space head).2).1
    parameters := parametersIn (cut Byte.closeParen head).2 }

/-- Names of slots with their type. -/
def slots (names : List Bytes) : List (Bytes × Bytes) := names.map fun x => (ascii "SCHEMETYPE_T", x)

/-- Named parameters are a type and a name each. -/
theorem formals_names (names : List Bytes) :
    formals names.length names = commaList (names.map fun x => ascii "SCHEMETYPE_T " ++ x) := by
  unfold formals
  congr 1
  apply List.ext_getElem
  · simp
  · intro i hi _
    have hlt : i < names.length := by simpa using hi
    simp [hlt, ascii]

theorem item_parameter {x : Bytes} (h : IsName x) : Item (ascii "SCHEMETYPE_T " ++ x) := by
  refine ⟨by simp [ascii], ?_, ?_⟩
  · rw [List.mem_append, not_or]
    exact ⟨by decide, h.not_mem (by decide)⟩
  · intro b hb
    cases hb
    decide

/-- A list of parameters with names has no parentheses and no braces. -/
theorem not_mem_formals {names : List Bytes} (h : ∀ x ∈ names, IsName x) {b : UInt8}
    (hb : b ∉ ascii "SCHEMETYPE_T ") (hcomma : b ≠ Byte.comma) (hword : Byte.isWord b = false) :
    b ∉ formals names.length names := by
  rw [formals_names]
  refine not_mem_commaList hcomma (fun hspace => hb (hspace ▸ by decide)) ?_
  intro y hy
  obtain ⟨x, hx, rfl⟩ := List.mem_map.mp hy
  rw [List.mem_append, not_or]
  exact ⟨hb, (h x hx).not_mem hword⟩

/-- Parameters in the first parentheses of a text. -/
theorem parametersIn_formals {names : List Bytes} (h : ∀ x ∈ names, IsName x) {front : Bytes}
    (hfront : Byte.openParen ∉ front) (back : Bytes) :
    parametersIn (front ++ Byte.openParen :: (formals names.length names ++ Byte.closeParen :: back)) =
      slots names := by
  have hclosed := not_mem_formals h (b := Byte.closeParen) (by decide) (by decide) (by decide)
  rw [parametersIn, arguments_append hfront hclosed, formals_names, items_commaList]
  · rw [List.map_map]
    refine List.map_congr_left fun x hx => ?_
    show cut Byte.space (ascii "SCHEMETYPE_T" ++ Byte.space :: x) = _
    exact cut_append (by decide) x
  · intro y hy
    obtain ⟨x, hx, rfl⟩ := List.mem_map.mp hy
    exact item_parameter (h x hx)

/-- A member with what it is filled with. -/
def memberText (m : Bytes × Bytes) : Bytes := m.1 ++ Byte.openParen :: (m.2 ++ [Byte.closeParen])

/-- The member is a name, and so is what it is filled with, or it is a number. -/
structure IsMember (m : Bytes × Bytes) : Prop where
  name : IsName m.1
  word : ∀ b ∈ m.2, Byte.isWord b = true

theorem IsMember.not_mem {m : Bytes × Bytes} (h : IsMember m) {b : UInt8} (hword : Byte.isWord b = false)
    (hopen : b ≠ Byte.openParen) (hclose : b ≠ Byte.closeParen) : b ∉ memberText m := by
  intro hmem
  simp only [memberText, List.mem_append, List.mem_cons, List.not_mem_nil, or_false, hopen, hclose,
    false_or] at hmem
  rcases hmem with hmem | hmem
  · exact h.name.not_mem hword hmem
  · rw [h.word b hmem] at hword
    cases hword

theorem IsMember.item {m : Bytes × Bytes} (h : IsMember m) : Item (memberText m) := by
  refine ⟨by simp [memberText], h.not_mem (by decide) (by decide) (by decide), ?_⟩
  intro b hb
  rw [memberText, List.head?_append_of_ne_nil _ h.name.ne_nil] at hb
  exact h.name.item.head b hb

/-- A member and its initial value are read back. -/
theorem IsMember.read {m : Bytes × Bytes} (h : IsMember m) :
    ((cut Byte.openParen (memberText m)).1, arguments (memberText m)) = m := by
  have hopen : Byte.openParen ∉ m.1 := h.name.not_mem (by decide)
  have hclose : Byte.closeParen ∉ m.2 := by
    intro hmem
    exact absurd (h.word _ hmem) (by decide)
  rw [memberText, cut_append hopen, arguments_append hopen hclose]

/-- The members that the constructor of a class fills: the base with the number of parameters, and each
captured name with the parameter of this name. -/
def Closure.members (c : Closure) : List (Bytes × Bytes) :=
  (ascii "lambda_t", decimal c.params.length) :: (c.captured.map Name.ofVariable).map fun h => (h, h)

theorem isName_fields (captured : List Bytes) : ∀ x ∈ captured.map Name.ofVariable, IsName x := by
  intro x hx
  obtain ⟨y, _, rfl⟩ := List.mem_map.mp hx
  exact isName_ofVariable y

/-- All members of a closure can be read back. -/
theorem Closure.isMember (c : Closure) : ∀ m ∈ c.members, IsMember m := by
  have hdigits : ∀ b ∈ decimal c.params.length, Byte.isWord b = true :=
    List.all_eq_true.mp (all_isWord_decimal _)
  have hbase : IsName (ascii "lambda_t") := ⟨by decide, List.all_eq_true.mp (by decide)⟩
  refine List.forall_mem_cons.mpr ⟨⟨hbase, hdigits⟩, ?_⟩
  intro m hm
  obtain ⟨h, hh, rfl⟩ := List.mem_map.mp hm
  have hname := isName_fields c.captured h hh
  exact ⟨hname, hname.word⟩

/-- The constructor line in the parts that it is read by. -/
theorem Closure.constructorLine_eq (name : Bytes) (c : Closure) :
    c.constructorLine name =
      Name.ofClass name ++ Byte.openParen ::
        (formals (c.captured.map Name.ofVariable).length (c.captured.map Name.ofVariable)
          ++ Byte.closeParen :: (ascii " : " ++ (commaList (c.members.map memberText) ++
            Byte.space :: Byte.openBrace :: ascii " \x7d"))) := by
  rw [members, List.map_cons, commaList_cons, List.flatMap_map]
  simp [constructorLine, memberText, ascii, List.flatMap_map]

/-- The parameters of the constructor are the captured names. -/
theorem Closure.read_parameters (name : Bytes) (c : Closure) :
    parametersIn (c.constructorLine name) = slots (c.captured.map Name.ofVariable) := by
  rw [c.constructorLine_eq name]
  exact parametersIn_formals (isName_fields c.captured) ((isName_ofClass name).not_mem (by decide)) _

/-- The members that the constructor initialises are those of the closure. -/
theorem Closure.read_members (name : Bytes) (c : Closure) :
    (items (cut Byte.openBrace ((cut Byte.closeParen (c.constructorLine name)).2.drop 3)).1.dropLast).map
      (fun m => ((cut Byte.openParen m).1, arguments m)) = c.members := by
  have hitems : ∀ t ∈ c.members.map memberText, Item t := by
    intro t ht
    obtain ⟨m, hm, rfl⟩ := List.mem_map.mp ht
    exact (c.isMember m hm).item
  have hfront : Byte.closeParen ∉ Name.ofClass name ++ Byte.openParen ::
      formals (c.captured.map Name.ofVariable).length (c.captured.map Name.ofVariable) := by
    rw [List.mem_append, List.mem_cons, not_or, not_or]
    exact ⟨(isName_ofClass name).not_mem (by decide), by decide,
      not_mem_formals (isName_fields c.captured) (by decide) (by decide) (by decide)⟩
  have hbrace : Byte.openBrace ∉ commaList (c.members.map memberText) ++ [Byte.space] := by
    rw [List.mem_append, not_or]
    refine ⟨not_mem_commaList (by decide) (by decide) ?_, by decide⟩
    intro t ht
    obtain ⟨m, hm, rfl⟩ := List.mem_map.mp ht
    exact (c.isMember m hm).not_mem (by decide) (by decide) (by decide)
  have hdrop (t : Bytes) : (ascii " : " ++ t).drop 3 = t := rfl
  rw [c.constructorLine_eq name, ← List.cons_append, ← List.append_assoc, cut_append hfront, hdrop,
    List.append_cons, cut_append hbrace, List.dropLast_concat, items_commaList hitems, List.map_map]
  calc c.members.map ((fun m => ((cut Byte.openParen m).1, arguments m)) ∘ memberText)
      = c.members.map id := List.map_congr_left fun m hm => (c.isMember m hm).read
    _ = c.members := List.map_id _

/-- The lines of the private fields are those between the label and the brace that closes the class. -/
theorem Closure.read_fields (name : Bytes) (c : Closure) :
    ((((lines (c.decl name)).dropWhile (· != ascii "private:")).drop 1).takeWhile
      (· != ascii "\x7d;")).map (fun l => cut Byte.space (cut Byte.semicolon l).1) =
      slots (c.captured.map Name.ofVariable) := by
  have hother {l : Bytes} (b : UInt8) (hl : l.head? = some b) {m : Bytes} (hm : m.head? ≠ some b) :
      (l != m) = true := by
    rw [bne_iff_ne]
    rintro rfl
    exact hm hl
  have hbefore : ∀ l ∈ [ascii "class " ++ Name.ofClass name ++ ascii " : public lambda_t \x7b",
      ascii "public:", c.constructorLine name, ascii "using lambda_t::operator();",
      overrideLine c.params.length], (l != ascii "private:") = true := by
    intro l hl
    simp only [List.mem_cons, List.not_mem_nil, or_false] at hl
    rcases hl with rfl | rfl | rfl | rfl | rfl
    · exact hother 99 rfl (by decide)
    · decide
    · exact hother 99 rfl (by decide)
    · decide
    · exact hother 84 rfl (by decide)
  have hfields : ∀ l ∈ (c.captured.map Name.ofVariable).map declareReference,
      (l != ascii "\x7d;") = true := by
    intro l hl
    obtain ⟨h, _, rfl⟩ := List.mem_map.mp hl
    exact hother 83 rfl (by decide)
  rw [c.lines_decl name, List.append_assoc, List.dropWhile_append_of_pos hbefore]
  unfold fieldLines
  by_cases hnil : c.captured.map Name.ofVariable = []
  · rw [if_pos hnil, hnil]
    rfl
  · rw [if_neg hnil, List.cons_append, List.dropWhile_cons_of_neg (by simp), List.drop_one, List.tail_cons,
      List.takeWhile_append_of_pos hfields, List.takeWhile_cons_of_neg (by simp), List.append_nil,
      List.map_map]
    refine List.map_congr_left fun x hx => ?_
    have hname := isName_fields c.captured x hx
    have hsemi : Byte.semicolon ∉ ascii "SCHEMETYPE_T" ++ Byte.space :: x := by
      rw [List.mem_append, List.mem_cons, not_or, not_or]
      exact ⟨by decide, by decide, hname.not_mem (by decide)⟩
    show cut Byte.space (cut Byte.semicolon ((ascii "SCHEMETYPE_T" ++ Byte.space :: x)
      ++ Byte.semicolon :: [])).1 = _
    rw [cut_append hsemi, cut_append (by decide)]

/-- What is read off the definition of a class. -/
theorem Closure.read_decl (name : Bytes) (c : Closure) :
    ClassText.read (c.decl name) =
      { name := Name.ofClass name
        parameters := slots (c.captured.map Name.ofVariable)
        initialisers := c.members
        fields := slots (c.captured.map Name.ofVariable) } := by
  have hlines := c.lines_decl name
  have hhead : (lines (c.decl name)).headD [] =
      ascii "class" ++ Byte.space :: (Name.ofClass name ++ Byte.space :: ascii ": public lambda_t \x7b") := by
    rw [hlines]
    simp [ascii]
  have hconstructor : (lines (c.decl name)).getD 2 [] = c.constructorLine name := by
    rw [hlines]
    rfl
  unfold ClassText.read
  dsimp only
  rw [hhead, hconstructor, c.read_parameters name, c.read_members name, c.read_fields name,
    cut_append (by decide), cut_append ((isName_ofClass name).not_mem (by decide))]

/-- What is read off the head of a call operator, whatever its code is. -/
theorem Closure.read_op (name : Bytes) (c : Closure) :
    OperatorText.read (c.op name) =
      { name := Name.ofClass name, parameters := slots (c.params.map Name.ofVariable) } := by
  have hhead : (lines (c.op name)).headD [] = c.operatorLine name := by
    have htext : ∃ rest, c.op name = c.operatorLine name ++ Byte.newline :: rest :=
      ⟨closed c.body.decls ++ closed c.body.ops ++ ascii "return std::move(" ++ c.body.value.text
        ++ ascii ");\n\x7d", by simp [op, operatorLine, ascii]⟩
    obtain ⟨rest, htext⟩ := htext
    rw [htext, lines_line (c.oneLine_operatorLine name)]
    rfl
  have hline : c.operatorLine name = ascii "THUNK_T" ++ Byte.space :: (Name.ofClass name ++ Byte.colon ::
      (ascii ":operator(" ++ Byte.closeParen :: ([] ++ Byte.openParen ::
        (formals (c.params.map Name.ofVariable).length (c.params.map Name.ofVariable)
          ++ Byte.closeParen :: ascii " const \x7b")))) := by
    simp [operatorLine, ascii]
  have hfront : Byte.closeParen ∉ ascii "THUNK_T" ++ Byte.space :: (Name.ofClass name ++ Byte.colon ::
      ascii ":operator(") := by
    simp only [List.mem_append, List.mem_cons, not_or]
    exact ⟨by decide, by decide, (isName_ofClass name).not_mem (by decide), by decide, by decide⟩
  unfold OperatorText.read
  dsimp only
  rw [hhead]
  congr 1
  · rw [hline, cut_append (by decide), cut_append ((isName_ofClass name).not_mem (by decide))]
  · have hcut := cut_append hfront ([] ++ Byte.openParen ::
      (formals (c.params.map Name.ofVariable).length (c.params.map Name.ofVariable)
        ++ Byte.closeParen :: ascii " const \x7b"))
    simp only [List.append_assoc, List.cons_append] at hcut
    rw [hline, hcut]
    exact parametersIn_formals (isName_fields c.params) List.not_mem_nil _

/-! ## Places where closures are made -/

abbrev Byte.less : UInt8 := 60

abbrev Byte.greater : UInt8 := 62

/-- What an expression that makes a shared object says: the name of the class, and the arguments that its
constructor is given. -/
def madeObject (t : Bytes) : Bytes × List Bytes :=
  ((cut Byte.greater (cut Byte.less t).2).1, items (arguments t))

/-- Reads the statement that makes a closure, one in which a name is followed by the tag of closures. -/
def site? (op : Bytes) : Option (Bytes × List Bytes) :=
  if (cut Byte.openParen op).1 = op.takeWhile Byte.isWord ++ ascii "->value.emplace<LAM>" then
    some (madeObject (cut Byte.openParen op).2)
  else none

mutual

/-- An instruction and those of its arms. -/
def Instr.flat : Instr → List Instr
  | .branch dst kind test thenCode thenValue elseCode elseValue =>
    .branch dst kind test thenCode thenValue elseCode elseValue ::
      (Instr.flatAll thenCode ++ Instr.flatAll elseCode)
  | i => [i]

/-- The same for instructions in order. -/
def Instr.flatAll : List Instr → List Instr
  | [] => []
  | i :: is => i.flat ++ Instr.flatAll is

end

theorem Instr.flatAll_append (a b : List Instr) :
    Instr.flatAll (a ++ b) = Instr.flatAll a ++ Instr.flatAll b := by
  induction a with
  | nil => rfl
  | cons i a ih => rw [List.cons_append, flatAll, flatAll, ih, List.append_assoc]

/-- The places where closures are made in code, in order. -/
def Instr.sites (code : List Instr) : List (Bytes × List Bytes) :=
  (Instr.flatAll code).filterMap fun i => site? i.op

namespace Instr

@[simp]
theorem sites_append (a b : List Instr) : sites (a ++ b) = sites a ++ sites b := by
  rw [sites, flatAll_append, List.filterMap_append]
  rfl

/-- A statement starts with a name, and the name is followed by a byte that is in none. -/
theorem takeWhile_name {x : Bytes} (h : IsName x) {b : UInt8} (hb : Byte.isWord b = false) (t : Bytes) :
    (x ++ b :: t).takeWhile Byte.isWord = x := by
  rw [List.takeWhile_append_of_pos h.word, List.takeWhile_cons_of_neg (by simp [hb]), List.append_nil]

/-- What a statement does with the name it starts with decides whether it makes a closure. -/
theorem site?_name {x verb : Bytes} (h : IsName x) (hverb : Byte.openParen ∉ verb)
    (hhead : ∃ b ∈ verb.head?, Byte.isWord b = false) (rest : Bytes) :
    site? (x ++ verb ++ Byte.openParen :: rest) =
      if verb = ascii "->value.emplace<LAM>" then some (madeObject rest) else none := by
  obtain ⟨b, hmem, hb⟩ := hhead
  have hfront : Byte.openParen ∉ x ++ verb := by
    rw [List.mem_append, not_or]
    exact ⟨h.not_mem (by decide), hverb⟩
  have hname : (x ++ verb ++ Byte.openParen :: rest).takeWhile Byte.isWord = x := by
    cases verb with
    | nil => cases hmem
    | cons c verb =>
      cases hmem
      rw [List.append_assoc, List.cons_append]
      exact takeWhile_name h hb _
  unfold site?
  rw [hname, cut_append hfront]
  simp only [List.append_cancel_left_eq]

theorem op_put (dst : Ident) (p : Payload) :
    (Instr.put dst p).op = dst.text ++ (ascii "->value.emplace<" ++ p.tag.text ++ ascii ">")
      ++ Byte.openParen :: (p.text ++ ascii ");") := by
  simp [op, opLines, unlines, Payload.statement, ascii]

/-- Only what makes a closure is a construction site. -/
theorem site?_put {dst : Ident} (hdst : IsName dst.text) (p : Payload) :
    site? (Instr.put dst p).op =
      if p.tag = .closure then some (madeObject (p.text ++ ascii ");")) else none := by
  have hhead : ∃ b ∈ (ascii "->value.emplace<" ++ p.tag.text ++ ascii ">").head?, Byte.isWord b = false :=
    ⟨Byte.minus, rfl, by decide⟩
  rw [op_put, site?_name hdst (by cases p.tag <;> decide) hhead]
  congr 1
  cases p.tag <;> decide

/-- The statement that makes a closure names its class and hands over what it captures. -/
theorem site?_closure {dst : Ident} (hdst : IsName dst.text) (lambda : Bytes) (captured : List Bytes) :
    site? (Instr.put dst (.closure lambda (captured.map .named))).op =
      some (Name.ofClass lambda, captured.map Name.ofVariable) := by
  have htexts : (captured.map Ident.named).map Ident.text = captured.map Name.ofVariable := by
    rw [List.map_map]
    rfl
  have hnames := isName_fields captured
  have hmade : Payload.text (.closure lambda (captured.map .named)) ++ ascii ");" =
      ascii "std::make_shared" ++ Byte.less :: (Name.ofClass lambda ++ Byte.greater ::
        ([] ++ Byte.openParen ::
          (commaList (captured.map Name.ofVariable) ++ Byte.closeParen :: ascii ");"))) := by
    simp [Payload.text, htexts, ascii]
  have hargs : ascii "std::make_shared" ++ Byte.less :: (Name.ofClass lambda ++ Byte.greater ::
        ([] ++ Byte.openParen ::
          (commaList (captured.map Name.ofVariable) ++ Byte.closeParen :: ascii ");"))) =
      (ascii "std::make_shared" ++ Byte.less :: (Name.ofClass lambda ++ [Byte.greater])) ++ Byte.openParen ::
        (commaList (captured.map Name.ofVariable) ++ Byte.closeParen :: ascii ");") := by
    simp
  have hfront : Byte.openParen ∉
      ascii "std::make_shared" ++ Byte.less :: (Name.ofClass lambda ++ [Byte.greater]) := by
    simp only [List.mem_append, List.mem_cons, not_or]
    exact ⟨by decide, by decide, (isName_ofClass lambda).not_mem (by decide), by decide, List.not_mem_nil⟩
  have hclose : Byte.closeParen ∉ commaList (captured.map Name.ofVariable) :=
    not_mem_commaList (by decide) (by decide) fun x hx => (hnames x hx).not_mem (by decide)
  have htag : Payload.tag (.closure lambda (captured.map .named)) = .closure := rfl
  rw [site?_put hdst, if_pos htag, hmade, madeObject]
  congr 2
  · rw [cut_append (by decide), cut_append ((isName_ofClass lambda).not_mem (by decide))]
  · rw [hargs, arguments_append hfront hclose, items_commaList fun x hx => (hnames x hx).item]

theorem sites_put {dst : Ident} (hdst : IsName dst.text) {p : Payload} (hp : p.tag ≠ .closure) :
    sites [.put dst p] = [] := by
  have hnone : site? (Instr.put dst p).op = none := by rw [site?_put hdst, if_neg hp]
  simp [sites, flatAll, flat, hnone]

theorem sites_call {dst callee : Ident} (hdst : IsName dst.text) (args : List Ident) :
    sites [.call dst callee args] = [] := by
  have htext : (Instr.call dst callee args).op = dst.text ++ ascii " = make_thunk" ++ Byte.openParen ::
      (callee.text ++ ascii ", \x7b" ++ commaList (args.map Ident.text) ++ ascii "\x7d);") := by
    simp [op, opLines, unlines, ascii]
  have hnone : site? (Instr.call dst callee args).op = none := by
    rw [htext, site?_name hdst (by decide) ⟨Byte.space, rfl, by decide⟩, if_neg (by decide)]
  simp [sites, flatAll, flat, hnone]

/-- The sites of a conditional are those of its arms. -/
theorem sites_branch (dst : Ident) (kind : Kind) (test : Ident) (a : List Instr) (x : Ident)
    (b : List Instr) (y : Ident) : sites [.branch dst kind test a x b y] = sites a ++ sites b := by
  have htext : ∃ rest, (Instr.branch dst kind test a x b y).op =
      ascii "if" ++ ascii " " ++ Byte.openParen :: rest := by
    rw [op, opLines, unlines_cons]
    exact ⟨_, by simp [ascii]; rfl⟩
  have hif : IsName (ascii "if") := ⟨by decide, List.all_eq_true.mp (by decide)⟩
  have hnone : site? (Instr.branch dst kind test a x b y).op = none := by
    obtain ⟨rest, htext⟩ := htext
    rw [htext, site?_name hif (by decide) ⟨Byte.space, rfl, by decide⟩, if_neg (by decide)]
  simp [sites, flatAll, flat, hnone]

theorem sites_slots (ds : List (Bytes × Expr)) :
    sites (ds.map fun d => .slot (.named d.1)) = [] := by
  induction ds with
  | nil => rfl
  | cons d ds ih =>
    rw [List.map_cons, ← List.singleton_append, sites_append, ih, List.append_nil]
    rfl

theorem sites_copy (dst src : Ident) : sites [.copy dst src] = [] := by
  have htext : (Instr.copy dst src).op = 42 :: (dst.text ++ ascii " = *" ++ src.text ++ ascii ";") := by
    simp [op, opLines, unlines, ascii]
  have hnone : site? (Instr.copy dst src).op = none := by
    have hname (t : Bytes) : (42 :: t).takeWhile Byte.isWord = [] := List.takeWhile_cons_of_neg (by decide)
    have hstar : (42 != Byte.openParen) = true := by decide
    have hfront (t : Bytes) : (cut Byte.openParen (42 :: t)).1 = 42 :: (cut Byte.openParen t).1 := by
      simp only [cut, List.takeWhile_cons, hstar, if_true]
    rw [htext, site?, hname, hfront]
    exact if_neg fun h => absurd (List.cons.inj h).1 (by decide)
  simp [sites, flatAll, flat, hnone]

end Instr

mutual

/-- The closures that the code of a tree makes itself, those of its outermost lambdas, in the order in which
they are met: the name of the class, and the names that occur free in the lambda. Native code makes those that
it makes. -/
def Expr.sites : Expr → List (Bytes × List Bytes)
  | .lambda name params body =>
    [(Name.ofClass name, (Names.without body.free params).map Name.ofVariable)]
  | .app _ args => Expr.sitesList args
  | .cond test a b => test.sites ++ (a.sites ++ b.sites)
  | .letrec defs body => Expr.sitesDefs defs ++ body.sites
  | .native _ code => Instr.sites code.code
  | _ => []

def Expr.sitesList : List Expr → List (Bytes × List Bytes)
  | [] => []
  | e :: es => e.sites ++ Expr.sitesList es

def Expr.sitesDefs : List (Bytes × Expr) → List (Bytes × List Bytes)
  | [] => []
  | (_, e) :: ds => e.sites ++ Expr.sitesDefs ds

end

namespace Lowering

open Instr (sites)

variable {cs : Captures}

/-- The construction sites in the code of a list are those of its members, in order. -/
theorem LowersList.sites_eq {node : Node} {i : Nat} {es : List Expr}
    (ih : ∀ e ∈ es, ∀ {node n f n' C A}, Known cs node e → Lowers cs node e n f n' C A →
      sites f.code = e.sites)
    {n n' : Nat} {fs : List Fragment} {C : List ClassEntry} {A : List Nat}
    (hk : ∀ (j : Nat) (e : Expr), es[j]? = some e → Known cs (node.child (j + i)) e)
    (h : LowersList cs node i es n fs n' C A) :
    sites (fs.flatMap Fragment.code) = Expr.sitesList es := by
  induction es generalizing i n fs C A with
  | nil =>
    cases h
    rfl
  | cons e es ihs =>
    cases h with
    | cons he hs =>
      obtain ⟨ihe, ihes⟩ := List.forall_mem_cons.mp ih
      have hown : Known cs (node.child i) e := Nat.zero_add i ▸ hk 0 e rfl
      have hrest : ∀ (j : Nat) (a : Expr), es[j]? = some a → Known cs (node.child (j + (i + 1))) a := by
        intro j a ha
        have hj : j + (i + 1) = j + 1 + i := by omega
        exact hj ▸ hk (j + 1) a ha
      rw [List.flatMap_cons, Instr.sites_append, ihe hown he, ihs ihes hrest hs, Expr.sitesList]

/-- The same for the values of bindings. -/
theorem LowersDefs.sites_eq {node : Node} {i : Nat} {ds : List (Bytes × Expr)}
    (ih : ∀ d ∈ ds, ∀ {node n f n' C A}, Known cs node d.2 → Lowers cs node d.2 n f n' C A →
      sites f.code = d.2.sites)
    {n n' : Nat} {code : List Instr} {C : List ClassEntry} {A : List Nat}
    (hk : ∀ (j : Nat) (d : Bytes × Expr), ds[j]? = some d → Known cs (node.child (j + i)) d.2)
    (h : LowersDefs cs node i ds n code n' C A) : sites code = Expr.sitesDefs ds := by
  induction ds generalizing i n code C A with
  | nil =>
    cases h
    rfl
  | cons d ds ihs =>
    cases h with
    | @cons _ _ _ _ _ x e _ _ _ _ _ _ _ hx he hkind hs =>
      obtain ⟨ihe, ihes⟩ := List.forall_mem_cons.mp ih
      have hown : Known cs (node.child i) e := Nat.zero_add i ▸ hk 0 (x, e) rfl
      have hrest : ∀ (j : Nat) (d : Bytes × Expr), ds[j]? = some d →
          Known cs (node.child (j + (i + 1))) d.2 := by
        intro j d hd
        have hj : j + (i + 1) = j + 1 + i := by omega
        exact hj ▸ hk (j + 1) d hd
      rw [Instr.sites_append, Instr.sites_append, ihe hown he, Instr.sites_copy, ihs ihes hrest hs,
        List.append_nil, Expr.sitesDefs]

/-- The code of a tree makes a closure of each of its outermost lambdas, in order, over what it captures. -/
theorem Lowers.sites_eq {node : Node} {e : Expr} {n n' : Nat} {f : Fragment} {C : List ClassEntry}
    {A : List Nat} (hk : Known cs node e) (h : Lowers cs node e n f n' C A) :
    sites f.code = e.sites := by
  induction e using Expr.induction generalizing node n f n' C A with
  | var x =>
    cases h
    rfl
  | literal l =>
    cases h with
    | @literal _ _ _ t p hl =>
      have hp : p.tag ≠ .closure := by
        cases l with
        | integer k =>
          cases hl
          exact nofun
        | boolean b =>
          cases hl
          exact nofun
        | string t =>
          cases hl
          exact nofun
        | unspecified => cases hl
      exact Instr.sites_put (isName_temp _ _) hp
  | lambda name params body _ =>
    cases h with
    | @lambda _ _ _ _ _ n' captured _ _ _ hc hb hkind =>
      obtain rfl := hk.captured_eq hc
      have hsite := Instr.site?_closure (isName_temp .closure n') name (Names.without body.free params)
      simp [sites, Instr.flatAll, Instr.flat, hsite, Expr.sites]
  | app callee args _ ihs =>
    have hargs : ∀ (j : Nat) (a : Expr), args[j]? = some a → Known cs (node.child (j + 1)) a :=
      fun j a ha => hk.child (i := j + 1) ha
    cases h with
    | call hf hs =>
      rw [Instr.sites_append, hs.sites_eq (fun a ha => ihs a ha) hargs, Instr.sites_call (isName_temp _ _),
        List.append_nil, Expr.sites]
    | @operate _ _ _ _ n' _ _ prim _ _ hf hs hp =>
      have hprim : Payload.tag (.primitive prim) ≠ .closure := by
        show prim.tag ≠ _
        cases prim with
        | unary p a =>
          cases p
          exact nofun
        | binary p a b => cases p <;> exact nofun
      rw [Instr.sites_append, hs.sites_eq (fun a ha => ihs a ha) hargs, ← List.singleton_append,
        Instr.sites_append, Instr.sites_put (isName_temp _ _) hprim, Instr.sites_call (isName_temp _ _),
        List.append_nil, List.append_nil, Expr.sites]
  | cond test a b iht iha ihb =>
    cases h with
    | cond ht ha hb hkind =>
      rw [Instr.sites_append, Instr.sites_branch, iht (hk.child (i := 0) rfl) ht,
        iha (hk.child (i := 1) rfl) ha, ihb (hk.child (i := 2) rfl) hb, Expr.sites]
  | letrec defs body ihs ihb =>
    have hdefs : ∀ (j : Nat) (d : Bytes × Expr), defs[j]? = some d → Known cs (node.child (j + 1)) d.2 :=
      fun j d hd => hk.child (i := j + 1) (Option.map_eq_some_iff.mpr ⟨d, hd, rfl⟩)
    cases h with
    | letrec hd hb =>
      rw [Instr.sites_append, Instr.sites_append, Instr.sites_slots,
        hd.sites_eq (fun d hd => ihs d hd) hdefs, ihb (hk.child (i := 0) rfl) hb, List.nil_append, Expr.sites]
  | native uses code =>
    cases h
    rfl
  | seq exprs _ => cases h
  | assign x value _ => cases h
  | assignThen x value next _ _ => cases h

end Lowering

/-! ## The class table of a tree -/

/-- The texts of a class say what its lambda captures: the names that occur free in it, in ascending order,
are the parameters of the constructor, what it fills behind the base, and the private fields, and the
parameters of the lambda are those of the call operator. The code of the call operator makes the closures
that the body of the lambda asks for. -/
structure ClassEntry.Declares (c : ClassEntry) (name : Bytes) (params : List Bytes) (body : Expr) : Prop where
  ascending : Names.Strict (Names.without body.free params)
  decl : ClassText.read c.decl =
    { name := Name.ofClass name
      parameters := slots ((Names.without body.free params).map Name.ofVariable)
      initialisers := (ascii "lambda_t", decimal params.length) ::
        ((Names.without body.free params).map Name.ofVariable).map fun h => (h, h)
      fields := slots ((Names.without body.free params).map Name.ofVariable) }
  op : OperatorText.read c.op =
    { name := Name.ofClass name, parameters := slots (params.map Name.ofVariable) }
  sites : ∃ clo, c.closure = some clo ∧ Instr.sites clo.body.code = body.sites

/-- A class table lists the lambdas of a tree, for which some code was emitted. -/
structure ClassTable.Lists (t : ClassTable) (e : Expr) (f : Fragment) : Prop where
  /-- every lambda has a class, and every class has a lambda -/
  places : ∀ path, (∃ c ∈ t.entries, c.node = Node.root.descend path) ↔
    ∃ name params body, e.reach? path = some (.lambda name params body)
  /-- no lambda has two classes -/
  nodup : (t.entries.map ClassEntry.node).Nodup
  /-- one class stands before another one exactly if its lambda is met before -/
  order : ∀ (i j : Nat) (c d : ClassEntry), t.entries[i]? = some c → t.entries[j]? = some d →
    (i < j ↔ e.MetBefore c.node.path d.node.path)
  declares : ∀ c ∈ t.entries, ∀ name params body, e.at? c.node = some (.lambda name params body) →
    c.Declares name params body
  sites : Instr.sites f.code = e.sites
  /-- if the tree has a lambda or a tail call, there are texts: the base comes first, and each class comes
  once, in order -/
  texts : (∃ k, e.HasCount Expr.arity? k) → ∃ range, t.arityRange = .ok range ∧
    t.texts = .ok (unlines (baseDecl range :: t.entries.map ClassEntry.decl),
      unlines (baseOps range :: t.entries.map ClassEntry.op))
  /-- if it has neither, there are none -/
  noTexts : (¬ ∃ k, e.HasCount Expr.arity? k) → t.texts = .error (.internal .noArity)

section

variable {e : Expr}

/-- A list of places is in order exactly as the places are met. -/
theorem Expr.lt_iff_metBefore {nodes : List Node} (h : nodes.Pairwise (e.Meets .root)) {i j : Nat}
    {m n : Node} (hi : nodes[i]? = some m) (hj : nodes[j]? = some n) :
    i < j ↔ e.MetBefore m.path n.path := by
  have hstep : ∀ {i j : Nat} {m n : Node}, nodes[i]? = some m → nodes[j]? = some n → i < j →
      e.MetBefore m.path n.path := by
    intro i j m n hi hj hlt
    obtain ⟨hi', rfl⟩ := List.getElem?_eq_some_iff.mp hi
    obtain ⟨hj', rfl⟩ := List.getElem?_eq_some_iff.mp hj
    obtain ⟨p, q, hp, hq, hpq⟩ := List.pairwise_iff_getElem.mp h i j hi' hj' hlt
    rw [hp, hq]
    simpa [Node.descend, Node.root] using hpq
  refine ⟨hstep hi hj, fun hmet => ?_⟩
  rcases Nat.lt_trichotomy i j with hlt | rfl | hlt
  · exact hlt
  · rw [hi] at hj
    cases hj
    exact absurd hmet hmet.asymm
  · exact absurd hmet (hstep hj hi hlt).asymm

/-- The places that have captures are those of the lambdas of the tree. -/
theorem Expr.mem_nodes_captures {path : List Nat} :
    Node.root.descend path ∈ (e.captures .root).map Capture.node ↔
      ∃ name params body, e.reach? path = some (.lambda name params body) := by
  rw [List.mem_map]
  constructor
  · rintro ⟨c, hc, hnode⟩
    obtain ⟨path', body, hr, hnode', _⟩ := Expr.mem_captures_iff.mp hc
    have hpath : path' = path := by
      simpa [Node.descend, Node.root] using congrArg Node.path (hnode'.symm.trans hnode)
    exact ⟨c.name, c.params, body, hpath ▸ hr⟩
  · rintro ⟨name, params, body, hr⟩
    exact ⟨⟨_, name, params, Names.without body.free params⟩,
      Expr.mem_captures_iff.mpr ⟨path, body, hr, rfl, rfl⟩, rfl⟩

/-- The texts of a class, from the derivation that it comes from. -/
theorem Lowering.ClassOf.declares {c : ClassEntry} (h : ClassOf (e.captures .root) .root e c) {name : Bytes}
    {params : List Bytes} {body : Expr} (hat : e.at? c.node = some (.lambda name params body)) :
    c.Declares name params body := by
  obtain ⟨path, body', clo, n, n', C, A, hr, hnode, hclo, hcap, _, hL⟩ := h
  have hpath : c.node.path = path := by
    rw [hnode]
    simp [Node.descend, Node.root]
  rw [Expr.at?, hpath, hr] at hat
  obtain ⟨rfl, rfl, rfl⟩ := Expr.lambda.inj (Option.some.inj hat)
  have hknown : Known (e.captures .root) c.node (.lambda c.name clo.params body') :=
    hnode ▸ (known_captures e).reach hr
  have hcaptured := hknown.captured_eq hcap
  have hdecl : c.decl = clo.decl c.name := ClassDef.decl_filled hclo
  have hop : c.op = clo.op c.name := ClassDef.op_filled hclo
  exact {
    ascending := Names.strict_without (Expr.strict_free body') clo.params
    decl := by rw [hdecl, clo.read_decl, Closure.members, hcaptured]
    op := by rw [hop, clo.read_op]
    sites := ⟨clo, hclo, hL.sites_eq (hknown.child (i := 0) rfl)⟩ }

/-- **One class for each lambda.** The class table of a tree that is lowered lists the lambdas of the tree in
the order in which they are met. The class of each one names its captures in the same way wherever it names
them, and so does every place where its closures are made. -/
theorem lower_lists {next : Nat} {f : Fragment} {s : Lowering.State} (h : Build.lower e next = .ok f s) :
    s.table.Lists e f := by
  obtain ⟨A, hL, hgrow⟩ := Build.lower_ok h
  have hnodes := hL.nodes
  have hmet : (s.table.entries.map ClassEntry.node).Pairwise (e.Meets .root) := by
    rw [hnodes, List.pairwise_map]
    exact Expr.asMet_captures e .root
  have harities : ∀ k, k ∈ s.table.arities ↔ e.HasCount Expr.arity? k := by
    intro k
    rw [hgrow, ClassTable.mem_arities_grow, hL.mem_arities]
    exact or_iff_left List.not_mem_nil
  refine ⟨?_, ?_, ?_, ?_, ?_, ?_, ?_⟩
  · intro path
    rw [← Expr.mem_nodes_captures, ← hnodes, List.mem_map]
  · rw [hnodes, List.Nodup, List.pairwise_map]
    exact Expr.onePerPlace_captures e .root
  · intro i j c d hc hd
    have hentry : ∀ {i : Nat} {c : ClassEntry}, s.table.entries[i]? = some c →
        (s.table.entries.map ClassEntry.node)[i]? = some c.node := by
      intro i c hc
      rw [List.getElem?_map, hc]
      rfl
    exact Expr.lt_iff_metBefore hmet (hentry hc) (hentry hd)
  · intro c hc name params body hat
    exact (hL.classOf c hc).declares hat
  · exact hL.sites_eq (Lowering.known_captures e)
  · rintro ⟨k, hk⟩
    obtain ⟨range, hrange⟩ := ClassTable.arityRange_of_mem ((harities k).mpr hk)
    refine ⟨range, hrange, ?_⟩
    have hdefs := ClassTable.defs_of_eq_grow hgrow
    rw [ClassTable.texts, hrange, unlines_cons, unlines_cons, List.flatMap_map, List.flatMap_map]
    show Except.ok (s.table.decls range, s.table.ops range) = _
    rw [ClassTable.decls, ClassTable.ops, hdefs, List.flatMap_map, List.flatMap_map]
    rfl
  · intro hnone
    have hempty : s.table.arities = [] :=
      List.eq_nil_iff_forall_not_mem.mpr fun k hk => hnone ⟨k, (harities k).mp hk⟩
    rw [ClassTable.texts, ClassTable.arityRange, hempty]
    rfl

end

/-- A lambda that is defined and one that is passed to it:
`(letrec ((f (lambda (x k) (k x y)))) (f (lambda (z) (k z))))`. -/
def definedAndPassed : Expr :=
  .letrec [([102], .lambda [97] [[120], [107]] (.app (.var [107]) [.var [120], .var [121]]))]
    (.app (.var [102]) [.lambda [98] [[122]] (.app (.var [107]) [.var [122]])])

/-- The body of a `letrec` is at position zero, but the lambda in the definition comes first. -/
theorem lower_lists_definedAndPassed :
    ∃ f s, Build.lower definedAndPassed 0 = .ok f s ∧ s.table.Lists definedAndPassed f ∧
      s.table.entries.map (fun c => c.node.path) = [[1], [1, 0]] :=
  ⟨_, _, rfl, lower_lists rfl, rfl⟩

/-- A constant is lowered, but then no arity is in use and there are no texts, not even that of the base. -/
theorem constant_noTexts :
    ∃ f s, Build.lower (.literal (.integer 5)) 0 = .ok f s ∧ s.table.texts = .error (.internal .noArity) :=
  ⟨_, _, rfl, rfl⟩

end Trampoline

import Trampoline.Program
import Trampoline.Proofs.Decimal
import Trampoline.Proofs.Kinds

/-!
# Trampoline.Proofs.Lines -- the lines of emitted text

A unit is put together from pieces that hold newlines, end in them or have none. This module cuts it up
again. Names and numbers are spelled without newlines and strings escape theirs, so every instruction of
a lowered tree prints on lines of its own, and the start of each line tells what it is: `Instr.leads`
lists all starts. `lines_textFor` then gives the lines of a whole unit, section by section.
-/

namespace Trampoline

namespace Bytes

/-! ## Texts that are put together -/

/-- The text has no newline. -/
def OneLine (t : Bytes) : Prop := Byte.newline ∉ t

instance (t : Bytes) : Decidable t.OneLine := inferInstanceAs (Decidable (_ ∉ _))

@[simp]
theorem oneLine_nil : OneLine [] := List.not_mem_nil

@[simp]
theorem oneLine_cons {b : UInt8} {t : Bytes} : OneLine (b :: t) ↔ b ≠ Byte.newline ∧ OneLine t := by
  simp only [OneLine, List.mem_cons, not_or, ne_comm, ne_eq]

@[simp]
theorem oneLine_append {a b : Bytes} : OneLine (a ++ b) ↔ OneLine a ∧ OneLine b := by
  simp only [OneLine, List.mem_append, not_or]

theorem oneLine_flatMap {α : Type} {xs : List α} {f : α → Bytes} (h : ∀ x ∈ xs, OneLine (f x)) :
    OneLine (xs.flatMap f) := by
  intro hmem
  obtain ⟨x, hx, hb⟩ := List.mem_flatMap.mp hmem
  exact h x hx hb

/-- A list of texts without newlines has no newline. -/
theorem oneLine_commaList {ts : List Bytes} (h : ∀ t ∈ ts, OneLine t) : OneLine (commaList ts) := by
  induction ts with
  | nil => exact oneLine_nil
  | cons t ts ih =>
    obtain ⟨ht, hts⟩ := List.forall_mem_cons.mp h
    cases ts with
    | nil => simpa [commaList] using ht
    | cons t' ts' =>
      have hrest := ih hts
      unfold commaList at hrest ⊢
      rw [List.intercalate_cons_cons]
      simp +decide [ht, hrest]

theorem oneLine_decimal (n : Nat) : OneLine (decimal n) := by
  intro hmem
  have hdigit := List.all_eq_true.mp (all_isDigit_decimal n) _ hmem
  exact absurd hdigit (by decide)

/-- Lines are what newlines separate. -/
theorem lines_eq_splitOn (t : Bytes) : lines t = t.splitOn Byte.newline := by
  unfold List.splitOn
  induction t with
  | nil => rfl
  | cons b rest ih =>
    rw [lines, List.splitOnP_cons_eq_if_modifyHead, ← ih]
    by_cases hb : b = Byte.newline
    · simp [hb]
    · cases hl : lines rest with
      | nil => exact absurd hl (lines_ne_nil rest)
      | cons l ls => simp [hb]

/-- A newline separates the lines before it from those behind it. -/
theorem lines_append_newline (a b : Bytes) : lines (a ++ Byte.newline :: b) = lines a ++ lines b := by
  simp only [lines_eq_splitOn, List.splitOn]
  exact List.splitOnP_append_cons a b (beq_self_eq_true _)

theorem lines_of_oneLine {t : Bytes} (h : OneLine t) : lines t = [t] := by
  rw [lines_eq_splitOn]
  exact List.splitOn_eq_singleton h

/-- A line holds no newline. -/
theorem oneLine_of_mem_lines {t l : Bytes} (h : l ∈ lines t) : OneLine l := by
  induction t generalizing l with
  | nil =>
    rw [lines, List.mem_singleton] at h
    simp [h]
  | cons b rest ih =>
    rw [lines] at h
    split at h
    · rcases List.mem_cons.mp h with rfl | h
      · exact oneLine_nil
      · exact ih h
    · rename_i hb
      cases hrest : lines rest with
      | nil => exact absurd hrest (lines_ne_nil rest)
      | cons u us =>
        rw [hrest] at h ih
        rcases List.mem_cons.mp h with rfl | h
        · exact oneLine_cons.mpr ⟨hb, ih List.mem_cons_self⟩
        · exact ih (List.mem_cons_of_mem u h)

/-- The usual step when a text is cut up: its first line is known. -/
theorem lines_line {l t : Bytes} (h : OneLine l) : lines (l ++ Byte.newline :: t) = l :: lines t := by
  rw [lines_append_newline, lines_of_oneLine h, List.singleton_append]

theorem lines_newline (t : Bytes) : lines (Byte.newline :: t) = [] :: lines t := lines_append_newline [] t

/-- Texts that each end in a newline. -/
theorem lines_flatMap {α : Type} (xs : List α) (f : α → Bytes) (t : Bytes) :
    lines (xs.flatMap (fun x => f x ++ [Byte.newline]) ++ t) = xs.flatMap (fun x => lines (f x)) ++ lines t := by
  induction xs with
  | nil => rfl
  | cons x xs ih =>
    simp only [List.flatMap_cons, List.append_assoc, List.cons_append, List.nil_append]
    rw [lines_append_newline, ih]

/-- Texts that each start with a newline. -/
theorem lines_append_flatMap {α : Type} (xs : List α) (f : α → Bytes) (t : Bytes) :
    lines (t ++ xs.flatMap (fun x => Byte.newline :: f x)) = lines t ++ xs.flatMap (fun x => lines (f x)) := by
  induction xs generalizing t with
  | nil => simp
  | cons x xs ih =>
    rw [List.flatMap_cons, List.cons_append, lines_append_newline, ih, List.flatMap_cons]

theorem unlines_cons (t : Bytes) (ts : List Bytes) :
    unlines (t :: ts) = t ++ ts.flatMap fun u => Byte.newline :: u := by
  induction ts generalizing t with
  | nil => simp [unlines]
  | cons u ts ih =>
    have hrest := ih u
    unfold unlines at hrest ⊢
    rw [List.intercalate_cons_cons, hrest]
    simp

/-- Joined texts have their lines one after the other. -/
theorem lines_unlines {ts : List Bytes} (h : ts ≠ []) : lines (unlines ts) = ts.flatMap lines := by
  cases ts with
  | nil => exact absurd rfl h
  | cons t ts => rw [unlines_cons, lines_append_flatMap, List.flatMap_cons]

theorem unlines_ne_nil {ls : List Bytes} (h : ls ≠ []) (hne : ∀ l ∈ ls, l ≠ []) : unlines ls ≠ [] := by
  cases ls with
  | nil => exact absurd rfl h
  | cons l ls =>
    rw [unlines_cons]
    exact List.append_ne_nil_of_left_ne_nil (hne l List.mem_cons_self) _

/-- Texts of one line each are their own lines. -/
theorem flatMap_lines {α : Type} {xs : List α} {f : α → Bytes} (h : ∀ x ∈ xs, OneLine (f x)) :
    xs.flatMap (fun x => lines (f x)) = xs.map f := by
  induction xs with
  | nil => rfl
  | cons x xs ih =>
    obtain ⟨hx, hxs⟩ := List.forall_mem_cons.mp h
    rw [List.flatMap_cons, lines_of_oneLine hx, ih hxs, List.singleton_append, List.map_cons]

/-- Lines that are joined and closed come apart as they were. -/
theorem lines_closed_unlines {ls : List Bytes} (h : ∀ l ∈ ls, OneLine l) (hne : ∀ l ∈ ls, l ≠ [])
    (t : Bytes) : lines (closed (unlines ls) ++ t) = ls ++ lines t := by
  by_cases hls : ls = []
  · subst hls
    rfl
  · rw [closed, if_neg (unlines_ne_nil hls hne), List.append_assoc, List.singleton_append,
      lines_append_newline, lines_unlines hls]
    have hself : ls.flatMap lines = ls.map id := flatMap_lines (f := id) h
    rw [hself, List.map_id]

end Bytes

open Bytes

/-! ## Names and numbers -/

theorem Name.oneLine_mangleByte (b : UInt8) : OneLine (Name.mangleByte b) := by
  have hall : ∀ n : Fin 256, OneLine (Name.mangleByte ⟨⟨n⟩⟩) := by decide +kernel
  exact hall b.toBitVec.toFin

/-- Mangled names have no newline, whatever was mangled. -/
theorem Name.oneLine_mangle {lead : Bytes} (h : OneLine lead) (x : Bytes) :
    OneLine (Name.mangle lead x) :=
  oneLine_append.mpr ⟨h, oneLine_flatMap fun b _ => oneLine_mangleByte b⟩

theorem Name.oneLine_ofVariable (x : Bytes) : OneLine (Name.ofVariable x) :=
  oneLine_mangle (by decide) x

theorem Name.oneLine_ofClass (x : Bytes) : OneLine (Name.ofClass x) :=
  oneLine_mangle (by decide) x

/-- The identifier is made from a name or a number. -/
def Ident.Spelled : Ident → Prop
  | .verbatim _ => False
  | _ => True

theorem Ident.Spelled.oneLine {x : Ident} (h : x.Spelled) : OneLine x.text := by
  cases x with
  | named x => exact Name.oneLine_ofVariable x
  | temp t n =>
    unfold Ident.text
    refine oneLine_append.mpr ⟨?_, oneLine_decimal n⟩
    cases t <;> decide
  | verbatim t => exact absurd h not_false

/-- An identifier starts as all of its family do. -/
theorem Ident.Spelled.led {x : Ident} (h : x.Spelled) :
    ascii "s_" <+: x.text ∨ ascii "__" <+: x.text := by
  cases x with
  | named x => exact Or.inl (List.prefix_append _ _)
  | temp t n =>
    refine Or.inr (List.IsPrefix.trans ?_ (List.prefix_append t.stem _))
    cases t <;> decide
  | verbatim t => exact absurd h not_false

theorem oneLine_formals (n : Nat) {names : List Bytes} (h : ∀ x ∈ names, OneLine x) :
    OneLine (formals n names) := by
  refine oneLine_commaList fun t ht => ?_
  obtain ⟨i, _, rfl⟩ := List.mem_map.mp ht
  cases hx : names[i]? with
  | none => simp +decide
  | some x => simp +decide [h x (List.mem_of_getElem? hx)]

/-! ## Contents of slots -/

/-- A literal has no newline, whatever it holds. -/
theorem Escape.oneLine_quoted (t : Bytes) : OneLine (Escape.quoted t) := by
  have hall : ∀ n : Fin 256, OneLine (Escape.escapeByte ⟨⟨n⟩⟩) := by decide +kernel
  have hbytes : OneLine (t.flatMap Escape.escapeByte) := oneLine_flatMap fun b _ => hall b.toBitVec.toFin
  simp +decide [Escape.quoted, hbytes]

theorem oneLine_integerConstant (n : Int64) : OneLine (integerConstant n) := by
  unfold integerConstant Bytes.signedDecimal
  split
  · decide
  · split <;> simp +decide [oneLine_decimal]

theorem PrimCall.oneLine_text {call : PrimCall} (h : ∀ x ∈ call.operands, x.Spelled) :
    OneLine call.text := by
  have hoperand : ∀ x ∈ call.operands, OneLine x.text := fun x hx => (h x hx).oneLine
  cases call with
  | unary p a =>
    have ha : OneLine a.text := hoperand a List.mem_cons_self
    cases p
    simp +decide [text, number, ha]
  | binary p a b =>
    have ha : OneLine a.text := hoperand a List.mem_cons_self
    have hb : OneLine b.text := hoperand b (List.mem_cons_of_mem a List.mem_cons_self)
    cases p <;> simp +decide [text, number, string, ha, hb]

/-- The content of a slot is written on one line. -/
theorem Payload.oneLine_text {p : Payload} (h : ∀ x ∈ p.reads, x.Spelled) : OneLine p.text := by
  cases p with
  | number n => exact oneLine_integerConstant n
  | boolean b => cases b <;> decide
  | string s => simp +decide [text, Escape.oneLine_quoted, oneLine_decimal]
  | closure lambda captured =>
    have hcaptured : OneLine (commaList (captured.map Ident.text)) := by
      refine oneLine_commaList fun t ht => ?_
      obtain ⟨x, hx, rfl⟩ := List.mem_map.mp ht
      exact (h x hx).oneLine
    simp +decide [text, Name.oneLine_ofClass, hcaptured]
  | primitive call => exact PrimCall.oneLine_text h

namespace Instr

/-! ## Instructions -/

theorem EverywhereAll.mem {P : Instr → Prop} {is : List Instr} (h : EverywhereAll P is) {i : Instr}
    (hi : i ∈ is) : i.Everywhere P := by
  obtain ⟨pre, post, rfl⟩ := List.append_of_mem hi
  exact h.pair

/-- The identifiers of an instruction are made from names and numbers, and so is all of its text. -/
def Spelled : Instr → Prop
  | .put dst p => dst.Spelled ∧ ∀ x ∈ p.reads, x.Spelled
  | .call dst callee args => dst.Spelled ∧ callee.Spelled ∧ ∀ x ∈ args, x.Spelled
  | .branch dst _ test _ av _ bv => dst.Spelled ∧ test.Spelled ∧ av.Spelled ∧ bv.Spelled
  | .slot dst => dst.Spelled
  | .copy dst src => dst.Spelled ∧ src.Spelled
  | .halt arg => arg.Spelled
  | .verbatim _ _ => False

/-- How the lines of an instruction start. -/
def leads : List Bytes :=
  [ ascii "s_", ascii "__", ascii "SCHEMETYPE_T ", ascii "THUNK_T s_", ascii "THUNK_T __",
    ascii "int retval", ascii "if (", ascii "\x7d", ascii "*", ascii "switch (", ascii "case NUM:",
    ascii "case LAM:", ascii "case STR:", ascii "printf(", ascii "break;", ascii "fwrite(",
    ascii "default:", ascii "fprintf(", ascii "retval", ascii "exit(" ]

/-- The text is a line as instructions print them. -/
structure IsLine (l : Bytes) : Prop where
  oneLine : OneLine l
  led : ∃ lead ∈ leads, lead <+: l

instance (l : Bytes) : Decidable (IsLine l) :=
  decidable_of_iff (OneLine l ∧ ∃ lead ∈ leads, lead <+: l) ⟨fun h => ⟨h.1, h.2⟩, fun h => ⟨h.1, h.2⟩⟩

/-- A text on one line with a lead is a line of code. -/
theorem isLine_of_lead {lead rest : Bytes} (h : OneLine (lead ++ rest)) (hlead : lead ∈ leads) :
    IsLine (lead ++ rest) :=
  ⟨h, lead, hlead, List.prefix_append lead rest⟩

theorem IsLine.ne_nil {l : Bytes} (h : IsLine l) : l ≠ [] := by
  rintro rfl
  obtain ⟨lead, hlead, hprefix⟩ := h.led
  have hne : ∀ lead ∈ leads, lead ≠ [] := by decide
  exact hne lead hlead (List.prefix_nil.mp hprefix)

theorem isLine_ident {x : Ident} (hx : x.Spelled) {rest : Bytes} (h : OneLine rest) :
    IsLine (x.text ++ rest) := by
  refine ⟨oneLine_append.mpr ⟨hx.oneLine, h⟩, ?_⟩
  rcases hx.led with hlead | hlead
  · exact ⟨_, by simp [leads], hlead.trans (List.prefix_append _ _)⟩
  · exact ⟨_, by simp [leads], hlead.trans (List.prefix_append _ _)⟩

theorem isLine_declareSlot {x : Bytes} (h : OneLine x) : IsLine (declareSlot x) := by
  unfold declareSlot
  rw [List.append_assoc]
  exact isLine_of_lead (by simp +decide [h]) (by simp [leads])

theorem isLine_declareReference {x : Bytes} (h : OneLine x) : IsLine (declareReference x) := by
  unfold declareReference
  rw [List.append_assoc]
  exact isLine_of_lead (by simp +decide [h]) (by simp [leads])

theorem isLine_declareThunk {x : Ident} (h : x.Spelled) : IsLine (declareThunk x.text) := by
  unfold declareThunk
  refine ⟨by simp +decide [h.oneLine], ?_⟩
  rw [List.append_assoc]
  -- The start goes on into the identifier.
  rcases h.led with hlead | hlead
  · refine ⟨ascii "THUNK_T s_", by simp [leads], ?_⟩
    exact (List.prefix_append_right_inj (ascii "THUNK_T ")).mpr (hlead.trans (List.prefix_append _ _))
  · refine ⟨ascii "THUNK_T __", by simp [leads], ?_⟩
    exact (List.prefix_append_right_inj (ascii "THUNK_T ")).mpr (hlead.trans (List.prefix_append _ _))

/-- A declaration that has a text is a line of code. -/
theorem isLine_decl {i : Instr} (h : i.Spelled) (hne : i.decl ≠ []) : IsLine i.decl := by
  cases i with
  | put dst p => exact isLine_declareSlot h.1.oneLine
  | call dst callee args => exact isLine_declareThunk h.1
  | branch dst kind test a av b bv =>
    cases kind with
    | value => exact isLine_declareReference h.1.oneLine
    | thunk => exact isLine_declareThunk h.1
  | slot dst => exact isLine_declareSlot (Ident.Spelled.oneLine h)
  | copy dst src => exact absurd rfl hne
  | halt arg => exact (by decide : IsLine (ascii "int retval = 0;"))
  | verbatim d o => exact absurd h not_false

theorem isLine_declLines {is : List Instr} (h : ∀ i ∈ is, i.Spelled) : ∀ l ∈ declLines is, IsLine l := by
  intro l hl
  obtain ⟨i, hi, hl⟩ := List.mem_flatMap.mp hl
  unfold Bytes.line at hl
  by_cases hne : i.decl = []
  · rw [if_pos hne] at hl
    exact absurd hl List.not_mem_nil
  · rw [if_neg hne] at hl
    rw [List.mem_singleton.mp hl]
    exact isLine_decl (h i hi) hne

theorem isLine_assignResult {kind : Kind} {dst value : Ident} (hd : dst.Spelled) (hv : value.Spelled) :
    IsLine (assignResult kind dst value) := by
  cases kind with
  | value =>
    unfold assignResult
    simp only [List.append_assoc]
    exact isLine_ident hd (by simp +decide [hv.oneLine])
  | thunk =>
    unfold assignResult
    simp only [List.append_assoc]
    exact isLine_ident hd (by simp +decide [hv.oneLine])

/-- So are the lines of a halt. -/
theorem isLine_haltLines {arg : Ident} (h : arg.Spelled) : ∀ l ∈ haltLines arg, IsLine l := by
  have harg : OneLine arg.text := h.oneLine
  simp only [haltLines, List.forall_mem_cons, List.append_assoc]
  -- All lines but three are fixed.
  refine ⟨?switch, by decide, ?number, by decide, by decide, by decide, by decide, by decide, ?string,
    by decide, by decide, by decide, by decide, by decide, by decide, by decide, by decide,
    fun l hl => absurd hl List.not_mem_nil⟩
  case switch => exact isLine_of_lead (by simp +decide [harg]) (by simp [leads])
  case number => exact ⟨by simp +decide [harg], ascii "printf(", by simp [leads], ⟨_, rfl⟩⟩
  case string => exact isLine_of_lead (by simp +decide [harg]) (by simp [leads])

mutual

/-- The operation of an instruction is printed on lines of their own. -/
theorem isLine_opLines : ∀ {i : Instr}, i.Everywhere Spelled → ∀ l ∈ i.opLines, IsLine l
  | .put dst p, h => by
    intro l hl
    rw [opLines, List.mem_singleton] at hl
    rw [hl, Payload.statement]
    simp only [List.append_assoc]
    refine isLine_ident h.1 ?_
    have htag : OneLine p.tag.text := by cases p.tag <;> decide
    simp +decide [htag, Payload.oneLine_text h.2]
  | .call dst callee args, h => by
    intro l hl
    rw [opLines, List.mem_singleton] at hl
    rw [hl]
    simp only [List.append_assoc]
    refine isLine_ident h.1 ?_
    have hargs : OneLine (commaList (args.map Ident.text)) := by
      refine oneLine_commaList fun t ht => ?_
      obtain ⟨x, hx, rfl⟩ := List.mem_map.mp ht
      exact (h.2.2 x hx).oneLine
    simp +decide [h.2.1.oneLine, hargs]
  | .branch dst kind test a av b bv, h => by
    obtain ⟨⟨hdst, htest, hav, hbv⟩, ha, hb⟩ := h
    intro l hl
    rw [opLines] at hl
    simp only [List.mem_cons, List.mem_append, List.not_mem_nil, or_false] at hl
    rcases hl with rfl | hl | hl | rfl | rfl | hl | hl | rfl | rfl
    · rw [List.append_assoc]
      exact isLine_of_lead (by simp +decide [htest.oneLine]) (by simp [leads])
    · exact isLine_declLines (fun i hi => (ha.mem hi).own) l hl
    · exact isLine_opLinesAll ha l hl
    · exact isLine_assignResult hdst hav
    · decide
    · exact isLine_declLines (fun i hi => (hb.mem hi).own) l hl
    · exact isLine_opLinesAll hb l hl
    · exact isLine_assignResult hdst hbv
    · decide
  | .slot dst, _ => fun l hl => absurd hl List.not_mem_nil
  | .copy dst src, h => by
    intro l hl
    rw [opLines, List.mem_singleton] at hl
    rw [hl]
    simp only [List.append_assoc]
    exact isLine_of_lead (by simp +decide [h.1.oneLine, h.2.oneLine]) (by simp [leads])
  | .halt arg, h => isLine_haltLines h
  | .verbatim d o, h => absurd h not_false

/-- So are the lines of all operations. -/
theorem isLine_opLinesAll :
    ∀ {is : List Instr}, EverywhereAll Spelled is → ∀ l ∈ opLinesAll is, IsLine l
  | [], _ => fun l hl => absurd hl List.not_mem_nil
  | i :: is, h => by
    intro l hl
    rw [opLinesAll, List.mem_append] at hl
    rcases hl with hl | hl
    · exact isLine_opLines h.1 l hl
    · exact isLine_opLinesAll h.2 l hl

end

end Instr

/-! ## Lowered trees -/

/-- A piece of code that prints line by line. -/
structure Fragment.Printable (f : Fragment) : Prop where
  code : Instr.EverywhereAll Instr.Spelled f.code
  value : OneLine f.value.text

namespace Fragment.Printable

variable {f : Fragment}

theorem isLine_declLines (h : f.Printable) : ∀ l ∈ Instr.declLines f.code, Instr.IsLine l :=
  Instr.isLine_declLines fun _ hi => (h.code.mem hi).own

theorem isLine_opLines (h : f.Printable) : ∀ l ∈ Instr.opLinesAll f.code, Instr.IsLine l :=
  Instr.isLine_opLinesAll h.code

/-- All declarations and then all operations, each on lines of its own. -/
theorem lines_closed (h : f.Printable) (t : Bytes) :
    lines (closed f.decls ++ (closed f.ops ++ t)) =
      Instr.declLines f.code ++ (Instr.opLinesAll f.code ++ lines t) := by
  have hdecls := h.isLine_declLines
  have hops := h.isLine_opLines
  unfold Fragment.decls Fragment.ops
  rw [lines_closed_unlines (fun l hl => (hdecls l hl).oneLine) fun l hl => (hdecls l hl).ne_nil,
    lines_closed_unlines (fun l hl => (hops l hl).oneLine) fun l hl => (hops l hl).ne_nil]

end Fragment.Printable

theorem printable_haltCode (p : Bytes) : (Expr.haltCode p).Printable :=
  ⟨⟨trivial, trivial⟩, (by decide : OneLine (ascii "THUNK_T(nullptr)"))⟩

namespace Lowering

variable {cs : Captures}

open Instr (EverywhereAll everywhereAll_append)

/-- Code whose identifiers are all made from names and numbers, and so is its result. -/
def Spelled (f : Fragment) : Prop := EverywhereAll Instr.Spelled f.code ∧ f.value.Spelled

/-- In the code of a list all variables are spelled. -/
theorem LowersList.spelled {node : Node} {i : Nat} {es : List Expr}
    (ih : ∀ e ∈ es, ∀ {node n f n' C A}, Lowers cs node e n f n' C A → Spelled f) {n n' : Nat}
    {fs : List Fragment} {C : List ClassEntry} {A : List Nat}
    (h : LowersList cs node i es n fs n' C A) :
    EverywhereAll Instr.Spelled (fs.flatMap Fragment.code) ∧ ∀ x ∈ fs.map Fragment.value, x.Spelled := by
  induction es generalizing i n fs C A with
  | nil =>
    cases h
    exact ⟨trivial, fun x hx => absurd hx List.not_mem_nil⟩
  | cons e es ihs =>
    cases h with
    | cons he hs =>
      obtain ⟨ihe, ihes⟩ := List.forall_mem_cons.mp ih
      obtain ⟨hcode, hvalue⟩ := ihe he
      obtain ⟨hcodes, hvalues⟩ := ihs ihes hs
      rw [List.flatMap_cons, List.map_cons, everywhereAll_append, List.forall_mem_cons]
      exact ⟨⟨hcode, hcodes⟩, hvalue, hvalues⟩

/-- So are they in the code of bindings. -/
theorem LowersDefs.spelled {node : Node} {i : Nat} {ds : List (Bytes × Expr)}
    (ih : ∀ d ∈ ds, ∀ {node n f n' C A}, Lowers cs node d.2 n f n' C A → Spelled f) {n n' : Nat}
    {code : List Instr} {C : List ClassEntry} {A : List Nat}
    (h : LowersDefs cs node i ds n code n' C A) : EverywhereAll Instr.Spelled code := by
  induction ds generalizing i n code C A with
  | nil =>
    cases h
    trivial
  | cons d ds ihs =>
    cases h with
    | cons hx he hk hs =>
      obtain ⟨ihe, ihes⟩ := List.forall_mem_cons.mp ih
      obtain ⟨hcode, hvalue⟩ := ihe he
      rw [everywhereAll_append, everywhereAll_append]
      exact ⟨⟨hcode, ⟨trivial, hvalue⟩, trivial⟩, ihs ihes hs⟩

/-- The variables of emitted code are spelled. -/
theorem Lowers.spelled {node : Node} {e : Expr} {n n' : Nat} {f : Fragment} {C : List ClassEntry}
    {A : List Nat} (h : Lowers cs node e n f n' C A) (he : e.OnlyHalts) : Spelled f := by
  induction e using Expr.induction generalizing node n f n' C A with
  | var x =>
    cases h
    exact ⟨trivial, trivial⟩
  | literal l =>
    cases h with
    | literal hl =>
      refine ⟨⟨⟨trivial, ?_⟩, trivial⟩, trivial⟩
      rw [constant_reads hl]
      exact fun x hx => absurd hx List.not_mem_nil
  | lambda name params body ih =>
    cases h with
    | lambda hc hb hk =>
      refine ⟨⟨⟨trivial, fun x hx => ?_⟩, trivial⟩, trivial⟩
      obtain ⟨y, _, rfl⟩ := List.mem_map.mp hx
      trivial
  | app callee args _ ihs =>
    have ihargs : ∀ a ∈ args, ∀ {node n f n' C A}, Lowers cs node a n f n' C A → Spelled f :=
      fun a ha _ _ _ _ _ _ h => ihs a ha h (he.args a ha)
    cases h with
    | call hf hs =>
      obtain ⟨hcode, hvalues⟩ := hs.spelled ihargs
      exact ⟨everywhereAll_append.mpr ⟨hcode, ⟨trivial, trivial, hvalues⟩, trivial⟩, trivial⟩
    | operate hf hs hp =>
      obtain ⟨hcode, hvalues⟩ := hs.spelled ihargs
      rw [List.map_append, List.forall_mem_append] at hvalues
      obtain ⟨hoperands, hcont⟩ := hvalues
      rw [← operands_of_ofName? hp] at hoperands
      refine ⟨everywhereAll_append.mpr ⟨hcode, ⟨trivial, hoperands⟩, ⟨trivial, ?_, ?_⟩, trivial⟩, trivial⟩
      · exact hcont _ List.mem_cons_self
      · intro x hx
        rw [List.mem_singleton.mp hx]
        trivial
  | cond test a b iht iha ihb =>
    cases he with
    | cond het hea heb =>
      cases h with
      | cond ht ha hb hk =>
        obtain ⟨hct, hvt⟩ := iht ht het
        obtain ⟨hca, hva⟩ := iha ha hea
        obtain ⟨hcb, hvb⟩ := ihb hb heb
        exact ⟨everywhereAll_append.mpr
          ⟨hct, ⟨⟨trivial, hvt, hva, hvb⟩, hca, hcb⟩, trivial⟩, trivial⟩
  | letrec defs body ihs ihb =>
    cases he with
    | letrec hed heb =>
      cases h with
      | letrec hd hb =>
        have ihdefs : ∀ d ∈ defs, ∀ {node n f n' C A}, Lowers cs node d.2 n f n' C A → Spelled f :=
          fun d hmem _ _ _ _ _ _ h => ihs d hmem h (hed d hmem)
        obtain ⟨hcode, hvalue⟩ := ihb hb heb
        exact ⟨everywhereAll_append.mpr
          ⟨everywhereAll_append.mpr ⟨Instr.everywhereAll_slots (fun _ => trivial) defs, hd.spelled ihdefs⟩,
            hcode⟩, hvalue⟩
  | native uses code => exact absurd he Expr.not_onlyHalts_native
  | seq exprs _ => cases h
  | assign x value _ => cases h
  | assignThen x value next _ _ => cases h

/-- Emitted code can be printed line by line. -/
theorem Lowers.printable {node : Node} {e : Expr} {n n' : Nat} {f : Fragment} {C : List ClassEntry}
    {A : List Nat} (h : Lowers cs node e n f n' C A) (he : e.OnlyHalts) : f.Printable :=
  ⟨(h.spelled he).1, (h.spelled he).2.oneLine⟩

/-- So can the code of a class. -/
theorem ClassOf.printable {node : Node} {e : Expr} {c : ClassEntry} {clo : Closure}
    (h : ClassOf cs node e c) (he : e.OnlyHalts) (hclo : c.closure = some clo) : clo.body.Printable := by
  obtain ⟨path, body, clo', _, _, hclo', _, hbody⟩ := h.body he
  rw [hclo] at hclo'
  cases hclo'
  rcases hbody with ⟨hb, _, _, _, _, hL⟩ | ⟨p, _, hp⟩
  · exact hL.printable hb
  · rw [hp]
    exact printable_haltCode p

end Lowering

end Trampoline

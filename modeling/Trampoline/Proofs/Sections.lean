import Trampoline.Proofs.Lines

/-!
# Trampoline.Proofs.Sections -- the sections of a unit, line by line

A unit is a list of sections: fixed texts, the base class and the classes of all lambdas, the call
operators of all of these, the step of a thunk and the main function. For each section that is not fixed
there is an equation that lists its lines, and `lines_textFor` puts the sections in their order. A line
is told from others by how it starts; `Foreign` lines are those that do not look like a declaration or a
definition of a call operator of the base class.
-/

namespace Trampoline

open Bytes

/-! ## Classes -/

theorem oneLine_fields (captured : List Bytes) : ∀ x ∈ captured.map Name.ofVariable, OneLine x := by
  intro x hx
  obtain ⟨y, _, rfl⟩ := List.mem_map.mp hx
  exact Name.oneLine_ofVariable y

/-- The line of a class that defines its constructor. It hands the number of parameters to the base. -/
def Closure.constructorLine (name : Bytes) (c : Closure) : Bytes :=
  Name.ofClass name ++ ascii "(" ++ formals c.captured.length (c.captured.map Name.ofVariable)
    ++ ascii ") : lambda_t(" ++ Bytes.decimal c.params.length ++ ascii ")"
    ++ (c.captured.map Name.ofVariable).flatMap (fun h => ascii ", " ++ h ++ ascii "(" ++ h ++ ascii ")")
    ++ ascii " \x7b \x7d"

/-- The line of a class that declares its call operator. -/
def overrideLine (n : Nat) : Bytes :=
  ascii "THUNK_T operator()(" ++ formals n [] ++ ascii ") const override;"

/-- The lines of a class that declare its fields. -/
def fieldLines (fields : List Bytes) : List Bytes :=
  if fields = [] then [] else ascii "private:" :: fields.map declareReference

theorem lines_fields {fields : List Bytes} (h : ∀ x ∈ fields, OneLine x) (t : Bytes) :
    lines ((if fields = [] then []
      else ascii "private:\n" ++ fields.flatMap fun x => declareReference x ++ [Byte.newline]) ++ t)
      = fieldLines fields ++ lines t := by
  unfold fieldLines
  by_cases hf : fields = []
  · rw [if_pos hf, if_pos hf]
    rfl
  · rw [if_neg hf, if_neg hf]
    have hprivate : ascii "private:\n" = ascii "private:" ++ [Byte.newline] := by decide
    have hrefs : ∀ x ∈ fields, OneLine (declareReference x) :=
      fun x hx => (Instr.isLine_declareReference (h x hx)).oneLine
    rw [hprivate, List.append_assoc, List.append_assoc, List.singleton_append, lines_append_newline,
      lines_flatMap, flatMap_lines hrefs, lines_of_oneLine (by decide)]
    rfl

theorem Closure.oneLine_constructorLine (name : Bytes) (c : Closure) :
    OneLine (c.constructorLine name) := by
  have hfields := oneLine_fields c.captured
  have hinits : OneLine ((c.captured.map Name.ofVariable).flatMap fun h =>
      ascii ", " ++ h ++ ascii "(" ++ h ++ ascii ")") :=
    oneLine_flatMap fun h hh => by simp +decide [hfields h hh]
  simp +decide [constructorLine, -List.append_assoc, Name.oneLine_ofClass, oneLine_formals _ hfields,
    oneLine_decimal, hinits]

theorem oneLine_overrideLine (n : Nat) : OneLine (overrideLine n) := by
  have hnone : ∀ x ∈ ([] : List Bytes), OneLine x := fun x hx => absurd hx List.not_mem_nil
  simp +decide [overrideLine, oneLine_formals n hnone]

/-- The lines of a class. -/
theorem Closure.lines_decl (name : Bytes) (c : Closure) :
    lines (c.decl name) =
      [ascii "class " ++ Name.ofClass name ++ ascii " : public lambda_t \x7b", ascii "public:",
        c.constructorLine name, ascii "using lambda_t::operator();", overrideLine c.params.length]
        ++ fieldLines (c.captured.map Name.ofVariable) ++ [ascii "\x7d;"] := by
  have hhead : OneLine (ascii "class " ++ Name.ofClass name ++ ascii " : public lambda_t \x7b") := by
    simp +decide [Name.oneLine_ofClass]
  have hpublic : ascii " : public lambda_t \x7b\npublic:\n" =
      ascii " : public lambda_t \x7b" ++ Byte.newline :: (ascii "public:" ++ [Byte.newline]) := by decide
  have husing : ascii " \x7b \x7d\nusing lambda_t::operator();\nTHUNK_T operator()(" =
      ascii " \x7b \x7d" ++ Byte.newline ::
        (ascii "using lambda_t::operator();" ++ Byte.newline :: ascii "THUNK_T operator()(") := by decide
  have hoverride : ascii ") const override;\n" = ascii ") const override;" ++ [Byte.newline] := by decide
  have htext : c.decl name =
      (ascii "class " ++ Name.ofClass name ++ ascii " : public lambda_t \x7b") ++ Byte.newline ::
        (ascii "public:" ++ Byte.newline :: (c.constructorLine name ++ Byte.newline ::
          (ascii "using lambda_t::operator();" ++ Byte.newline ::
            (overrideLine c.params.length ++ Byte.newline ::
              ((if c.captured.map Name.ofVariable = [] then []
                else ascii "private:\n" ++ (c.captured.map Name.ofVariable).flatMap
                  fun x => declareReference x ++ [Byte.newline]) ++ ascii "\x7d;"))))) := by
    simp only [decl, constructorLine, overrideLine, List.length_map, hpublic, husing, hoverride,
      List.append_assoc, List.cons_append, List.nil_append]
  rw [htext, lines_line hhead, lines_line (by decide), lines_line (c.oneLine_constructorLine name),
    lines_line (by decide), lines_line (oneLine_overrideLine _), lines_fields (oneLine_fields _),
    lines_of_oneLine (by decide)]
  rfl

/-- The constructor and the call operator of a class stand together. -/
theorem Closure.members_infix (name : Bytes) (c : Closure) :
    [c.constructorLine name, ascii "using lambda_t::operator();", overrideLine c.params.length]
      <:+: lines (c.decl name) := by
  rw [c.lines_decl name]
  exact ⟨[ascii "class " ++ Name.ofClass name ++ ascii " : public lambda_t \x7b", ascii "public:"],
    fieldLines (c.captured.map Name.ofVariable) ++ [ascii "\x7d;"], by simp⟩

/-- The line that opens the call operator of a class. -/
def Closure.operatorLine (name : Bytes) (c : Closure) : Bytes :=
  ascii "THUNK_T " ++ Name.ofClass name ++ ascii "::operator()("
    ++ formals c.params.length (c.params.map Name.ofVariable) ++ ascii ") const \x7b"

/-- The line that hands over the result of a call operator. -/
def returnLine (value : Ident) : Bytes := ascii "return std::move(" ++ value.text ++ ascii ");"

theorem Closure.oneLine_operatorLine (name : Bytes) (c : Closure) : OneLine (c.operatorLine name) := by
  simp +decide [operatorLine, Name.oneLine_ofClass, oneLine_formals _ (oneLine_fields c.params)]

/-- The lines of a call operator. -/
theorem Closure.lines_op (name : Bytes) {c : Closure} (h : c.body.Printable) :
    lines (c.op name) =
      c.operatorLine name :: (Instr.declLines c.body.code ++ (Instr.opLinesAll c.body.code ++
        [returnLine c.body.value, ascii "\x7d"])) := by
  have hopen : ascii ") const \x7b\n" = ascii ") const \x7b" ++ [Byte.newline] := by decide
  have hclose : ascii ");\n\x7d" = ascii ");" ++ Byte.newline :: ascii "\x7d" := by decide
  have hreturn : OneLine (returnLine c.body.value) := by
    simp +decide [returnLine, h.value]
  have htext : c.op name = c.operatorLine name ++ Byte.newline ::
      (closed c.body.decls ++ (closed c.body.ops ++
        (returnLine c.body.value ++ Byte.newline :: ascii "\x7d"))) := by
    simp only [op, operatorLine, returnLine, hopen, hclose, List.append_assoc, List.cons_append,
      List.nil_append]
  rw [htext, lines_line (c.oneLine_operatorLine name), h.lines_closed, lines_line hreturn,
    lines_of_oneLine (by decide)]

namespace ClassTable

/-! ## Lines of the base class -/

/-- How the lines start that declare the call operators of the base class. -/
def declareStart : Bytes := ascii "virtual THUNK_T operator()("

/-- How the lines start that define them. -/
def defineStart : Bytes := ascii "THUNK_T lambda_t::operator()("

def declareLine (n : Nat) : Bytes := declareStart ++ formals n [] ++ ascii ") const;"

def defineLine (n : Nat) : Bytes := defineStart ++ formals n [] ++ ascii ") const \x7b"

theorem oneLine_types (n : Nat) : OneLine (formals n []) :=
  oneLine_formals n fun _ hx => absurd hx List.not_mem_nil

theorem oneLine_declareLine (n : Nat) : OneLine (declareLine n) := by
  simp +decide [declareLine, oneLine_types]

theorem oneLine_defineLine (n : Nat) : OneLine (defineLine n) := by
  simp +decide [defineLine, oneLine_types]

/-- The lines of the base class around its call operators. -/
def classHead : List Bytes :=
  [ascii "class lambda_t \x7b", ascii "public:",
    ascii "explicit lambda_t(std::size_t arity) : arity(arity) \x7b \x7d",
    ascii "virtual ~lambda_t() = default;"]

def classTail : List Bytes := [ascii "const std::size_t arity;", ascii "\x7d;"]

/-- The lines of the base class. -/
theorem lines_baseDecl (range : Nat × Nat) :
    lines (baseDecl range) = classHead ++ ((span range).map declareLine ++ classTail) := by
  have hhead : ascii "class lambda_t \x7b\npublic:\nexplicit lambda_t(std::size_t arity) : arity(arity) \x7b \x7d\n"
      ++ ascii "virtual ~lambda_t() = default;\n" = unlines classHead ++ [Byte.newline] := by decide
  have htail : lines (ascii "const std::size_t arity;\n\x7d;") = classTail := by decide
  have hclassHead : lines (unlines classHead) = classHead := by decide
  have hend : ascii ") const;\n" = ascii ") const;" ++ [Byte.newline] := by decide
  have htext : baseDecl range = unlines classHead ++ Byte.newline ::
      ((span range).flatMap (fun n => declareLine n ++ [Byte.newline])
        ++ ascii "const std::size_t arity;\n\x7d;") := by
    simp only [baseDecl, hhead, hend, declareLine, declareStart, List.append_assoc, List.cons_append,
      List.nil_append]
  rw [htext, lines_append_newline, hclassHead, lines_flatMap,
    flatMap_lines fun n _ => oneLine_declareLine n, htail]

/-- The line in which a call operator of the base class complains. -/
def complainLine (n : Nat) : Bytes := ascii "arity_error(arity, " ++ decimal n ++ ascii ");"

/-- The lines of its call operators. -/
theorem lines_baseOps {range : Nat × Nat} (h : span range ≠ []) :
    lines (baseOps range) =
      (span range).flatMap fun n => [defineLine n, complainLine n, ascii "\x7d"] := by
  have hopen : ascii ") const \x7b\narity_error(arity, " =
      ascii ") const \x7b" ++ Byte.newline :: ascii "arity_error(arity, " := by decide
  have hclose : ascii ");\n\x7d" = ascii ");" ++ Byte.newline :: ascii "\x7d" := by decide
  have htext : ∀ n, ascii "THUNK_T lambda_t::operator()(" ++ formals n []
      ++ ascii ") const \x7b\narity_error(arity, " ++ decimal n ++ ascii ");\n\x7d" =
        defineLine n ++ Byte.newline :: (complainLine n ++ Byte.newline :: ascii "\x7d") := by
    intro n
    simp only [hopen, hclose, defineLine, defineStart, complainLine, List.append_assoc, List.cons_append]
  have hlines : ∀ n, lines (defineLine n ++ Byte.newline :: (complainLine n ++ Byte.newline ::
      ascii "\x7d")) = [defineLine n, complainLine n, ascii "\x7d"] := by
    intro n
    have hcomplain : OneLine (complainLine n) := by
      simp +decide [complainLine, oneLine_decimal]
    rw [lines_line (oneLine_defineLine n), lines_line hcomplain, lines_of_oneLine (by decide)]
  unfold baseOps
  simp only [htext]
  rw [lines_unlines (by simpa using h), List.flatMap_map]
  simp only [hlines]

end ClassTable

namespace Program

/-! ## Lines of a thunk's step -/

def caseLine (n : Nat) : Bytes := ascii "case " ++ decimal n ++ ascii ":"

/-- The call with the first `n` arguments, in order. -/
def callLine (n : Nat) : Bytes :=
  ascii "return (*next)("
    ++ commaList ((List.range n).map fun i => ascii "args[" ++ decimal i ++ ascii "]") ++ ascii ");"

def stepHead : List Bytes :=
  [ascii "THUNK_T thunk_t::operator()() \x7b",
    ascii "if (args.size() != next->arity) arity_error(next->arity, args.size());",
    ascii "switch (next->arity) \x7b"]

def stepTail : List Bytes :=
  [ascii "default:", ascii "arity_error(next->arity, args.size());", ascii "\x7d", ascii "\x7d", []]

/-- The lines of the step of a thunk. -/
theorem lines_thunkStep (range : Nat × Nat) :
    lines (thunkStep range) =
      stepHead ++ ((ClassTable.span range).flatMap (fun n => [caseLine n, callLine n]) ++ stepTail) := by
  have hhead : ascii "THUNK_T thunk_t::operator()() \x7b\n"
      ++ ascii "if (args.size() != next->arity) arity_error(next->arity, args.size());\n"
      ++ ascii "switch (next->arity) \x7b\n" = unlines stepHead ++ [Byte.newline] := by decide
  have hstepHead : lines (unlines stepHead) = stepHead := by decide
  have htail : lines (ascii "default:\narity_error(next->arity, args.size());\n\x7d\n\x7d\n") = stepTail := by
    decide
  have hcase : ∀ n, callCase n = (caseLine n ++ Byte.newline :: callLine n) ++ [Byte.newline] := by
    intro n
    have hlabel : ascii ":\nreturn (*next)(" = ascii ":" ++ Byte.newline :: ascii "return (*next)(" := by
      decide
    have hend : ascii ");\n" = ascii ");" ++ [Byte.newline] := by decide
    simp only [callCase, caseLine, callLine, hlabel, hend, List.append_assoc, List.cons_append]
  have hlines : ∀ n, lines (caseLine n ++ Byte.newline :: callLine n) = [caseLine n, callLine n] := by
    intro n
    have hlabel : OneLine (caseLine n) := by
      simp +decide [caseLine, oneLine_decimal]
    have hargs : OneLine (commaList ((List.range n).map fun i => ascii "args[" ++ decimal i ++ ascii "]")) := by
      refine oneLine_commaList fun t ht => ?_
      obtain ⟨i, _, rfl⟩ := List.mem_map.mp ht
      simp +decide [oneLine_decimal]
    have hcall : OneLine (callLine n) := by
      simp +decide [callLine, -List.append_assoc, hargs]
    rw [lines_line hlabel, lines_of_oneLine hcall]
  have htext : thunkStep range = unlines stepHead ++ Byte.newline ::
      ((ClassTable.span range).flatMap (fun n => (caseLine n ++ Byte.newline :: callLine n) ++ [Byte.newline])
        ++ ascii "default:\narity_error(next->arity, args.size());\n\x7d\n\x7d\n") := by
    unfold thunkStep
    rw [hhead, show callCase = _ from funext hcase, List.append_assoc, List.append_assoc,
      List.singleton_append]
  rw [htext, lines_append_newline, hstepHead, lines_flatMap, htail]
  simp only [hlines]

/-! ## The main function and the unit -/

/-- The line that makes the first thunk. -/
def firstLine (value : Ident) : Bytes := ascii "THUNK_T next = std::move(" ++ value.text ++ ascii ");"

/-- What follows the first thunk. -/
def loopLines : List Bytes :=
  [ascii "while (next) \x7b", ascii "next = (*next)();", ascii "\x7d", ascii "return 0;", ascii "\x7d", []]

/-- The lines of the main function. -/
theorem lines_mainFunction {root : Fragment} (h : root.Printable) :
    lines (mainFunction root) = ascii "int main() \x7b" :: (Instr.declLines root.code ++
      (Instr.opLinesAll root.code ++ firstLine root.value :: loopLines)) := by
  have hopen : ascii "int main() \x7b\n" = ascii "int main() \x7b" ++ [Byte.newline] := by decide
  have hclose : ascii ");\n" = ascii ");" ++ [Byte.newline] := by decide
  have hfirst : OneLine (firstLine root.value) := by
    simp +decide [firstLine, h.value]
  have hloop : lines (ascii "while (next) \x7b\nnext = (*next)();\n\x7d\nreturn 0;\n\x7d\n") = loopLines := by
    decide
  have htext : mainFunction root = ascii "int main() \x7b" ++ Byte.newline ::
      (closed root.decls ++ (closed root.ops ++ (firstLine root.value ++ Byte.newline ::
        ascii "while (next) \x7b\nnext = (*next)();\n\x7d\nreturn 0;\n\x7d\n"))) := by
    simp only [mainFunction, firstLine, hopen, hclose, List.append_assoc, List.cons_append,
      List.nil_append]
  rw [htext, lines_line (by decide), h.lines_closed, lines_line hfirst, hloop]

/-- The lines of a unit, section by section. -/
theorem lines_textFor (p : Program) (range : Nat × Nat) :
    lines (p.textFor range) =
      lines headers ++ (lines typeNames ++
        (lines (ClassTable.baseDecl range) ++ (p.table.defs.flatMap (fun d => lines d.decl) ++ ([[]] ++
          (lines valueTypes ++ (lines supportFunctions ++
            (lines (ClassTable.baseOps range) ++ (p.table.defs.flatMap (fun d => lines d.op) ++ ([[]] ++
              (lines (thunkStep range) ++ lines (mainFunction p.root))))))))))) := by
  have hnewline : ascii "\n" = [Byte.newline] := by decide
  have hnewlines : ascii "\n\n" = [Byte.newline, Byte.newline] := by decide
  have htext : p.textFor range = headers ++ Byte.newline :: (typeNames ++ Byte.newline ::
      (p.table.decls range ++ Byte.newline :: (Byte.newline :: (valueTypes ++ Byte.newline ::
        (supportFunctions ++ Byte.newline :: (p.table.ops range ++ Byte.newline :: (Byte.newline ::
          (thunkStep range ++ Byte.newline :: mainFunction p.root)))))))) := by
    simp only [textFor, hnewline, hnewlines, List.append_assoc, List.cons_append, List.nil_append]
  rw [htext]
  simp only [lines_append_newline, lines_newline]
  simp only [ClassTable.decls, ClassTable.ops, lines_append_flatMap, List.append_assoc,
    List.singleton_append]

end Program

/-! ## Call operators of the base class -/

/-- The line neither declares nor defines a call operator of the base class. -/
def Foreign (l : Bytes) : Prop := ¬ ClassTable.declareStart <+: l ∧ ¬ ClassTable.defineStart <+: l

instance (l : Bytes) : Decidable (Foreign l) := inferInstanceAs (Decidable (_ ∧ _))

/-- The start already differs from both starts of the call operators. -/
def Apart (lead : Bytes) : Prop :=
  Foreign lead ∧ ¬ lead <+: ClassTable.declareStart ∧ ¬ lead <+: ClassTable.defineStart

instance (lead : Bytes) : Decidable (Apart lead) := inferInstanceAs (Decidable (_ ∧ _))

/-- A text that starts in one way does not start in another, unless one goes on from the other. -/
theorem not_prefix_of_apart (lead : Bytes) {start l : Bytes} (h : ¬ start <+: lead) (h' : ¬ lead <+: start)
    (hl : lead <+: l) : ¬ start <+: l := by
  intro hstart
  rcases List.prefix_or_prefix_of_prefix hstart hl with hp | hp
  · exact h hp
  · exact h' hp

theorem Apart.foreign {lead l : Bytes} (h : Apart lead) (hl : lead <+: l) : Foreign l :=
  ⟨not_prefix_of_apart lead h.1.1 h.2.1 hl, not_prefix_of_apart lead h.1.2 h.2.2 hl⟩

/-- A line of code is never taken for a line of the base class or of the step of a thunk. -/
theorem Instr.IsLine.foreign {l : Bytes} (h : Instr.IsLine l) : Foreign l := by
  have hleads : ∀ lead ∈ Instr.leads, Apart lead := by decide
  obtain ⟨lead, hlead, hl⟩ := h.led
  exact (hleads lead hlead).foreign hl

theorem foreign_fixed :
    ∀ t ∈ [Program.headers, Program.typeNames, Program.valueTypes, Program.supportFunctions],
      ∀ l ∈ lines t, Foreign l := by
  decide +kernel

theorem Closure.foreign_decl (name : Bytes) (c : Closure) : ∀ l ∈ lines (c.decl name), Foreign l := by
  have hclass : Apart (ascii "class ") := by decide
  have hmember : Apart (ascii "c_") := by decide
  have hoverride : Apart (ascii "THUNK_T operator()(") := by decide
  have hfield : Apart (ascii "SCHEMETYPE_T ") := by decide
  have hfields : ∀ l ∈ fieldLines (c.captured.map Name.ofVariable), Foreign l := by
    unfold fieldLines
    split
    · exact fun l hl => absurd hl List.not_mem_nil
    · refine List.forall_mem_cons.mpr ⟨by decide, fun l hl => ?_⟩
      obtain ⟨x, _, rfl⟩ := List.mem_map.mp hl
      exact hfield.foreign ⟨_, (List.append_assoc _ _ _).symm⟩
  rw [c.lines_decl name]
  simp only [List.forall_mem_append, List.forall_mem_cons, List.not_mem_nil, false_implies,
    implies_true, and_true]
  refine ⟨⟨⟨?_, by decide, ?_, by decide, ?_⟩, hfields⟩, by decide⟩
  · exact hclass.foreign ⟨_, (List.append_assoc _ _ _).symm⟩
  · refine hmember.foreign ?_
    unfold Closure.constructorLine Name.ofClass Name.mangle
    simp only [List.append_assoc]
    exact List.prefix_append _ _
  · exact hoverride.foreign ⟨_, (List.append_assoc _ _ _).symm⟩

/-- Nor is a line of a call operator. -/
theorem Closure.foreign_op (name : Bytes) {c : Closure} (h : c.body.Printable) :
    ∀ l ∈ lines (c.op name), Foreign l := by
  have hopen : Apart (ascii "THUNK_T c_") := by decide
  have hreturn : Apart (ascii "return std::move(") := by decide
  rw [c.lines_op name h]
  simp only [List.forall_mem_append, List.forall_mem_cons, List.not_mem_nil, false_implies,
    implies_true, and_true]
  refine ⟨?_, fun l hl => (h.isLine_declLines l hl).foreign, fun l hl => (h.isLine_opLines l hl).foreign,
    ?_, by decide⟩
  · refine hopen.foreign ?_
    unfold Closure.operatorLine Name.ofClass Name.mangle
    simp only [List.append_assoc]
    exact (List.prefix_append_right_inj (ascii "THUNK_T ")).mpr (List.prefix_append _ _)
  · exact hreturn.foreign ⟨_, (List.append_assoc _ _ _).symm⟩

theorem Program.foreign_mainFunction {root : Fragment} (h : root.Printable) :
    ∀ l ∈ lines (Program.mainFunction root), Foreign l := by
  have hfirst : Apart (ascii "THUNK_T next") := by decide
  have hloop : ∀ l ∈ Program.loopLines, Foreign l := by decide
  rw [Program.lines_mainFunction h]
  simp only [List.forall_mem_append, List.forall_mem_cons]
  refine ⟨by decide, fun l hl => (h.isLine_declLines l hl).foreign,
    fun l hl => (h.isLine_opLines l hl).foreign, ?_, hloop⟩
  exact hfirst.foreign ⟨_, (List.append_assoc _ _ _).symm⟩

theorem Program.foreign_thunkStep (range : Nat × Nat) :
    ∀ l ∈ lines (Program.thunkStep range), Foreign l := by
  have hcase : Apart (ascii "case ") := by decide
  have hcall : Apart (ascii "return (*next)(") := by decide
  have hhead : ∀ l ∈ Program.stepHead, Foreign l := by decide
  have htail : ∀ l ∈ Program.stepTail, Foreign l := by decide
  rw [Program.lines_thunkStep]
  simp only [List.forall_mem_append]
  refine ⟨hhead, fun l hl => ?_, htail⟩
  obtain ⟨n, _, hl⟩ := List.mem_flatMap.mp hl
  simp only [List.mem_cons, List.not_mem_nil, or_false] at hl
  rcases hl with rfl | rfl
  · exact hcase.foreign ⟨_, (List.append_assoc _ _ _).symm⟩
  · exact hcall.foreign ⟨_, (List.append_assoc _ _ _).symm⟩

/-! ## Lines that start in a given way -/

theorem filter_eq_nil {ls : List Bytes} {start : Bytes} (h : ∀ l ∈ ls, ¬ start <+: l) :
    ls.filter (startsWith · start) = [] := by
  rw [List.filter_eq_nil_iff]
  intro l hl
  unfold startsWith
  rw [List.isPrefixOf_iff_prefix]
  exact h l hl

theorem filter_eq_self {ls : List Bytes} {start : Bytes} (h : ∀ l ∈ ls, start <+: l) :
    ls.filter (startsWith · start) = ls := by
  rw [List.filter_eq_self]
  intro l hl
  unfold startsWith
  rw [List.isPrefixOf_iff_prefix]
  exact h l hl

namespace Program

/-- A program whose code prints line by line. -/
structure Printable (p : Program) : Prop where
  root : p.root.Printable
  classes : ∀ d ∈ p.table.defs, ∃ clo, d.closure = some clo ∧ clo.body.Printable

/-- The lines of the unit that are about the call operators of the base class stand in its sections. -/
theorem Printable.filter_textFor {p : Program} (h : p.Printable) (range : Nat × Nat) {start : Bytes}
    (hstart : ∀ l, Foreign l → ¬ start <+: l) :
    (lines (p.textFor range)).filter (startsWith · start) =
      (lines (ClassTable.baseDecl range)).filter (startsWith · start) ++
        (lines (ClassTable.baseOps range)).filter (startsWith · start) := by
  have hnone : ∀ ls : List Bytes, (∀ l ∈ ls, Foreign l) → ls.filter (startsWith · start) = [] :=
    fun ls hls => filter_eq_nil fun l hl => hstart l (hls l hl)
  have hdecls : ∀ l ∈ p.table.defs.flatMap (fun d => lines d.decl), Foreign l := by
    intro l hl
    obtain ⟨d, hd, hl⟩ := List.mem_flatMap.mp hl
    obtain ⟨clo, hclo, _⟩ := h.classes d hd
    rw [ClassDef.decl_filled hclo] at hl
    exact clo.foreign_decl d.name l hl
  have hops : ∀ l ∈ p.table.defs.flatMap (fun d => lines d.op), Foreign l := by
    intro l hl
    obtain ⟨d, hd, hl⟩ := List.mem_flatMap.mp hl
    obtain ⟨clo, hclo, hbody⟩ := h.classes d hd
    rw [ClassDef.op_filled hclo] at hl
    exact clo.foreign_op d.name hbody l hl
  obtain ⟨hheaders, htypes, hvalues, hsupport⟩ :
      (∀ l ∈ lines headers, Foreign l) ∧ (∀ l ∈ lines typeNames, Foreign l) ∧
        (∀ l ∈ lines valueTypes, Foreign l) ∧ ∀ l ∈ lines supportFunctions, Foreign l := by
    simpa using foreign_fixed
  rw [p.lines_textFor range]
  simp only [List.filter_append, hnone [[]] (by decide), hnone _ hheaders, hnone _ htypes, hnone _ hvalues,
    hnone _ hsupport, hnone _ hdecls, hnone _ hops, hnone _ (foreign_thunkStep range),
    hnone _ (foreign_mainFunction h.root), List.nil_append, List.append_nil]

theorem infix_flatMap {α β : Type} {xs : List α} {x : α} (hx : x ∈ xs) (f : α → List β) :
    f x <:+: xs.flatMap f := by
  obtain ⟨pre, post, rfl⟩ := List.append_of_mem hx
  refine ⟨pre.flatMap f, post.flatMap f, ?_⟩
  rw [List.flatMap_append, List.flatMap_cons, List.append_assoc]

/-- The step of a thunk stands in the unit in one piece. -/
theorem step_infix (p : Program) (range : Nat × Nat) :
    lines (thunkStep range) <:+: lines (p.textFor range) := by
  rw [p.lines_textFor range]
  simp only [← List.append_assoc]
  exact List.infix_append _ _ _

/-- So does the definition of each class. -/
theorem decl_infix {p : Program} (range : Nat × Nat) {d : ClassDef} (hd : d ∈ p.table.defs) :
    lines d.decl <:+: lines (p.textFor range) := by
  refine (infix_flatMap hd fun d => lines d.decl).trans ?_
  rw [p.lines_textFor range]
  refine List.IsInfix.trans ?_ (List.suffix_append (lines headers) _).isInfix
  refine List.IsInfix.trans ?_ (List.suffix_append (lines typeNames) _).isInfix
  refine List.IsInfix.trans ?_ (List.suffix_append (lines (ClassTable.baseDecl range)) _).isInfix
  exact (List.prefix_append _ _).isInfix

end Program

/-- The program of a tree prints line by line. -/
theorem Build.program_printable {e : Expr} {next next' : Nat} {p : Program} (he : e.OnlyHalts)
    (h : Build.program e next = (.ok p, next')) : p.Printable := by
  obtain ⟨s, hs, htable, _⟩ := Build.program_ok h
  obtain ⟨A, hL, hgrow⟩ := Build.lower_ok hs
  refine ⟨hL.printable he, fun d hd => ?_⟩
  rw [htable, ClassTable.defs_of_eq_grow hgrow] at hd
  obtain ⟨c, hc, rfl⟩ := List.mem_map.mp hd
  have hclass := hL.classOf c hc
  obtain ⟨_, _, clo, _, _, hclo, _⟩ := hclass.body he
  exact ⟨clo, hclo, hclass.printable he hclo⟩

end Trampoline

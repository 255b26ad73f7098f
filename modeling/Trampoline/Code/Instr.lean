import Trampoline.Bytes.Escape
import Trampoline.Code.Primitive

/-!
# Trampoline.Code.Instr -- emitted code before it is text

An instruction prints as a declaration and an operation. All declarations of a fragment come before
all of its operations, which is why the two are separate texts. Values live in slots, shared cells
holding a number, a closure or a string; a tail call is a thunk, which is moved and never shared.
-/

namespace Trampoline

/-- What a fragment's result is: a slot, or a tail call yet to be made. -/
inductive Kind where
  | value
  | thunk
  deriving DecidableEq, Repr

/-- What is put into a fresh slot. -/
inductive Payload where
  | number (n : Int64)
  | boolean (b : Bool)
  | string (s : Bytes)
  /-- a closure of the class of the lambda `lambda`, over the slots it captures -/
  | closure (lambda : Bytes) (captured : List Ident)
  | primitive (call : PrimCall)
  deriving DecidableEq

/-- An emitted instruction. -/
inductive Instr where
  /-- declares a slot and fills it -/
  | put (dst : Ident) (p : Payload)
  /-- declares a thunk: a call of `callee` with `args` -/
  | call (dst callee : Ident) (args : List Ident)
  /-- declares a result and computes it in one of two arms, by the number in `test` -/
  | branch (dst : Ident) (kind : Kind) (test : Ident)
      (thenCode : List Instr) (thenValue : Ident) (elseCode : List Instr) (elseValue : Ident)
  /-- declares an empty slot -/
  | slot (dst : Ident)
  /-- copies the content of a slot into another one -/
  | copy (dst src : Ident)
  /-- prints the content of a slot and ends the run -/
  | halt (arg : Ident)
  /-- a declaration and an operation taken as they stand -/
  | verbatim (decl op : Bytes)

/-- An integer constant. The least one has no literal of its own. -/
def integerConstant (n : Int64) : Bytes :=
  if n = Int64.minValue then ascii "(-9223372036854775807L - 1)"
  else Bytes.signedDecimal n.toInt ++ ascii "L"

namespace Payload

/-- The kind of value put into the slot; truth values are numbers. -/
def tag : Payload → Tag
  | .number _ => .number
  | .boolean _ => .number
  | .string _ => .string
  | .closure _ _ => .closure
  | .primitive call => call.tag

/-- The expression that builds the content. -/
def text : Payload → Bytes
  | .number n => integerConstant n
  | .boolean b => if b then ascii "1" else ascii "0"
  | .string s =>
    ascii "std::make_shared<std::string>(" ++ Escape.quoted s ++ ascii ", " ++ Bytes.decimal s.length
      ++ ascii ")"
  | .closure lambda captured =>
    ascii "std::make_shared<" ++ Name.ofClass lambda ++ ascii ">("
      ++ Bytes.commaList (captured.map Ident.text) ++ ascii ")"
  | .primitive call => call.text

/-- The statement that puts the content into a slot. -/
def statement (dst : Ident) (p : Payload) : Bytes :=
  dst.text ++ ascii "->value.emplace<" ++ p.tag.text ++ ascii ">(" ++ p.text ++ ascii ");"

end Payload

/-! ## Declarations -/

/-- The declaration of a fresh slot. -/
def declareSlot (x : Bytes) : Bytes :=
  ascii "SCHEMETYPE_T " ++ x ++ ascii " = std::make_shared<schemetype_t>();"

/-- The declaration of a reference to a slot that is chosen later. -/
def declareReference (x : Bytes) : Bytes := ascii "SCHEMETYPE_T " ++ x ++ ascii ";"

/-- The declaration of a thunk that is made later. -/
def declareThunk (x : Bytes) : Bytes := ascii "THUNK_T " ++ x ++ ascii ";"

/-- The declaration of a result of either kind. -/
def declareResult : Kind → Bytes → Bytes
  | .value => declareReference
  | .thunk => declareThunk

/-- The declaration text of an instruction, empty if it declares nothing. -/
def Instr.decl : Instr → Bytes
  | .put dst _ => declareSlot dst.text
  | .call dst _ _ => declareThunk dst.text
  | .branch dst kind _ _ _ _ _ => declareResult kind dst.text
  | .slot dst => declareSlot dst.text
  | .copy _ _ => []
  | .halt _ => ascii "int retval = 0;"
  | .verbatim decl _ => decl

/-! ## Operations -/

/-- Hands a result of either kind over to an identifier: a slot is shared and a thunk is moved. -/
def assignResult (kind : Kind) (dst value : Ident) : Bytes :=
  match kind with
  | .value => dst.text ++ ascii " = " ++ value.text ++ ascii ";"
  | .thunk => dst.text ++ ascii " = std::move(" ++ value.text ++ ascii ");"

/-- Prints what a slot holds, by its tag, and ends the run. -/
def haltLines (arg : Ident) : List Bytes :=
  let x := arg.text
  [ ascii "switch (" ++ x ++ ascii "->type()) \x7b",
    ascii "case NUM:",
    ascii "printf(\"%ld\\n\", " ++ x ++ ascii "->num());",
    ascii "break;",
    ascii "case LAM:",
    ascii "printf(\"#<procedure>\\n\");",
    ascii "break;",
    ascii "case STR:",
    ascii "fwrite(" ++ x ++ ascii "->str()->data(), 1, " ++ x ++ ascii "->str()->size(), stdout);",
    ascii "printf(\"\\n\");",
    ascii "break;",
    ascii "default:",
    ascii "fprintf(stderr, \"error: halt received a value of unknown type\\n\");",
    ascii "retval = 1;",
    ascii "break;",
    ascii "\x7d",
    ascii "exit(retval);" ]

/-- The declarations of instructions, one a line. -/
def Instr.declLines (is : List Instr) : List Bytes := is.flatMap fun i => Bytes.line i.decl

mutual

/-- The lines of an instruction's operation, none if it only declares. -/
def Instr.opLines : Instr → List Bytes
  | .put dst p => [p.statement dst]
  | .call dst callee args =>
    [dst.text ++ ascii " = make_thunk(" ++ callee.text ++ ascii ", \x7b"
      ++ Bytes.commaList (args.map Ident.text) ++ ascii "\x7d);"]
  | .branch dst kind test thenCode thenValue elseCode elseValue =>
    (ascii "if (" ++ test.text ++ ascii "->num()) \x7b") ::
      (Instr.declLines thenCode ++ (Instr.opLinesAll thenCode ++
        assignResult kind dst thenValue :: ascii "\x7d else \x7b" ::
          (Instr.declLines elseCode ++ (Instr.opLinesAll elseCode ++
            [assignResult kind dst elseValue, ascii "\x7d"]))))
  | .slot _ => []
  | .copy dst src => [ascii "*" ++ dst.text ++ ascii " = *" ++ src.text ++ ascii ";"]
  | .halt arg => haltLines arg
  | .verbatim _ op => Bytes.line op

/-- The lines of the operations of instructions in order. -/
def Instr.opLinesAll : List Instr → List Bytes
  | [] => []
  | i :: is => i.opLines ++ Instr.opLinesAll is

end

/-- The operation text of an instruction, empty if it only declares. -/
def Instr.op (i : Instr) : Bytes := Bytes.unlines i.opLines

end Trampoline

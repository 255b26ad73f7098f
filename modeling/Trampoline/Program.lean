import Trampoline.Lowering.ClassTable

/-!
# Trampoline.Program -- the text of a whole unit

A unit holds everything that a program needs to run: the headers, the value and thunk types, the
classes of all lambdas, the step of a thunk, which tells cases apart by the number of its arguments,
and a main function that makes the first thunk and runs thunks until there is none. Calls never nest:
each returns the next thunk to the loop in the main function.
-/

namespace Trampoline

/-- Lowered code: the classes of its lambdas, and the fragment that makes the first thunk. -/
structure Program where
  table : ClassTable
  root : Fragment

namespace Program

def headers : Bytes :=
  ascii "#include <cstdio>\n#include <cstdlib>\n#include <memory>\n#include <string>\n"
    ++ ascii "#include <utility>\n#include <variant>\n#include <vector>\n"

def typeNames : Bytes :=
  ascii "enum type_t \x7b NUM, LAM, STR \x7d;\n"
    ++ ascii "class lambda_t;\nclass schemetype_t;\nclass thunk_t;\n"
    ++ ascii "typedef std::shared_ptr<lambda_t> LAMBDA_T;\n"
    ++ ascii "typedef std::shared_ptr<schemetype_t> SCHEMETYPE_T;\n"
    ++ ascii "typedef std::unique_ptr<thunk_t> THUNK_T;\n"
    ++ ascii "[[noreturn]] void arity_error(std::size_t arity, std::size_t given);\n"
    ++ ascii "[[noreturn]] void type_error(const char *expected);\n"

/-- A slot holds one of three kinds of value and checks which before it gives it out; a thunk holds a
closure and the arguments to call it with. -/
def valueTypes : Bytes :=
  ascii "class schemetype_t \x7b\npublic:\n"
    ++ ascii "std::variant<long, LAMBDA_T, std::shared_ptr<std::string>> value;\n"
    ++ ascii "type_t type() const \x7b return static_cast<type_t>(value.index()); \x7d\n"
    ++ ascii "long num() const \x7b\nif (value.index() != NUM) type_error(\"number\");\n"
    ++ ascii "return std::get<NUM>(value);\n\x7d\n"
    ++ ascii "const LAMBDA_T &lam() const \x7b\nif (value.index() != LAM) type_error(\"procedure\");\n"
    ++ ascii "return std::get<LAM>(value);\n\x7d\n"
    ++ ascii "const std::shared_ptr<std::string> &str() const \x7b\n"
    ++ ascii "if (value.index() != STR) type_error(\"string\");\n"
    ++ ascii "return std::get<STR>(value);\n\x7d\n\x7d;\n"
    ++ ascii "class thunk_t \x7b\npublic:\n"
    ++ ascii "thunk_t(LAMBDA_T next, std::vector<SCHEMETYPE_T> args)"
    ++ ascii " : next(std::move(next)), args(std::move(args)) \x7b \x7d\n"
    ++ ascii "THUNK_T operator()();\nprivate:\nLAMBDA_T next;\nstd::vector<SCHEMETYPE_T> args;\n\x7d;\n"

def supportFunctions : Bytes :=
  ascii "void arity_error(std::size_t arity, std::size_t given) \x7b\n"
    ++ ascii "fprintf(stderr, \"error: closure of arity %zu called with %zu arguments\\n\", arity, given);\n"
    ++ ascii "exit(1);\n\x7d\n"
    ++ ascii "void type_error(const char *expected) \x7b\n"
    ++ ascii "fprintf(stderr, \"error: expected a %s\\n\", expected);\n"
    ++ ascii "exit(1);\n\x7d\n"
    ++ ascii "THUNK_T make_thunk(const SCHEMETYPE_T &f, std::vector<SCHEMETYPE_T> args) \x7b\n"
    ++ ascii "return std::make_unique<thunk_t>(f->lam(), std::move(args));\n\x7d\n"

/-- The call of a closure with `n` arguments. -/
def callCase (n : Nat) : Bytes :=
  ascii "case " ++ Bytes.decimal n ++ ascii ":\nreturn (*next)("
    ++ Bytes.commaList ((List.range n).map fun i => ascii "args[" ++ Bytes.decimal i ++ ascii "]")
    ++ ascii ");\n"

/-- The step of a thunk: it calls its closure, by the number of arguments. -/
def thunkStep (range : Nat × Nat) : Bytes :=
  ascii "THUNK_T thunk_t::operator()() \x7b\n"
    ++ ascii "if (args.size() != next->arity) arity_error(next->arity, args.size());\n"
    ++ ascii "switch (next->arity) \x7b\n"
    ++ (ClassTable.span range).flatMap callCase
    ++ ascii "default:\narity_error(next->arity, args.size());\n\x7d\n\x7d\n"

/-- The main function: it makes the first thunk and runs thunks until there is none. -/
def mainFunction (root : Fragment) : Bytes :=
  ascii "int main() \x7b\n" ++ Bytes.closed root.decls ++ Bytes.closed root.ops
    ++ ascii "THUNK_T next = std::move(" ++ root.value.text ++ ascii ");\n"
    ++ ascii "while (next) \x7b\nnext = (*next)();\n\x7d\nreturn 0;\n\x7d\n"

/-- The text of the unit, for a range of arities. -/
def textFor (p : Program) (range : Nat × Nat) : Bytes :=
  headers ++ ascii "\n" ++ typeNames ++ ascii "\n" ++ p.table.decls range ++ ascii "\n\n"
    ++ valueTypes ++ ascii "\n" ++ supportFunctions ++ ascii "\n" ++ p.table.ops range ++ ascii "\n\n"
    ++ thunkStep range ++ ascii "\n" ++ mainFunction p.root

/-- The text of the unit. The root must make a thunk, and some arity must be in use. -/
def text (p : Program) : Except CompileError Bytes :=
  if p.root.kind = .thunk then p.table.arityRange.map p.textFor
  else .error (.internal .valueRoot)

end Program

end Trampoline

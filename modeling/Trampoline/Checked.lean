import Trampoline.Bytes.Escape
import Trampoline.Code.Primitive
import Trampoline.Lowering.Error
import Trampoline.Token.Tokenizer

/-!
# Trampoline.Checked -- look-ups that must succeed

Some tables are asked only for what they hold: a byte that has a mnemonic, an index that is a tag, a
kind of token that exists. Whoever asks for anything else has broken a promise, and the answer is an
internal error.
-/

namespace Trampoline

/-- The result of a look-up that must not fail. -/
def require {α : Type} (cause : Internal) : Option α → Except CompileError α
  | some a => .ok a
  | none => .error (.internal cause)

/-- The mnemonic of a byte that has one. -/
def Escape.mnemonic (b : UInt8) : Except CompileError UInt8 := require .noMnemonic (mnemonic? b)

/-- The byte of a letter that is a mnemonic. -/
def Escape.ofMnemonic (m : UInt8) : Except CompileError UInt8 := require .noMnemonic (ofMnemonic? m)

/-- The spelling of the tag with an index. -/
def Tag.textAt (index : Nat) : Except CompileError Bytes :=
  (require .noTag (ofIndex? index)).map Tag.text

namespace Tokenizer

/-- Fails unless the head is of a kind, which must exist. -/
def check (kind : Option TokenKind) (tk : Tokenizer) : Except Fault Tokenizer :=
  match kind with
  | some k => (tk.expect k).mapError .read
  | none => .error (.compile (.internal .noTokenKind))

end Tokenizer

end Trampoline

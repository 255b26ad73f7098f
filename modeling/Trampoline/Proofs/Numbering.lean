import Trampoline.Proofs.Mangling
import Trampoline.Proofs.Classes
import Trampoline.Proofs.Parsing
import Trampoline.Proofs.Scope

/-!
# Trampoline.Proofs.Numbering -- the reader numbers lambdas apart

Source text does not name lambdas. The reader does, by the next number when it has read the body, and the
count goes through the whole source. So the lambdas of a program have names of their own, whatever the
program is and wherever the count starts.
-/

namespace Trampoline

/-- The name of a lambda with a number. -/
def lambdaName (k : Nat) : Bytes := ascii "lambda_" ++ Bytes.decimal k

/-- The names are those of lambdas that were numbered while the count went from `n` to `m`. -/
structure Numbered (n m : Nat) (names : List Bytes) : Prop where
  le : n ≤ m
  numbers : ∃ ks, names = ks.map lambdaName ∧ Fresh n m ks

namespace Numbered

variable {n k m : Nat} {xs ys : List Bytes}

theorem nil : Numbered n n [] := ⟨Nat.le_refl n, [], rfl, .nil⟩

/-- Ranges that follow each other are one range. -/
theorem append (hx : Numbered n k xs) (hy : Numbered k m ys) : Numbered n m (xs ++ ys) := by
  obtain ⟨hnk, ks, rfl, hks⟩ := hx
  obtain ⟨hkm, ls, rfl, hls⟩ := hy
  refine ⟨Nat.le_trans hnk hkm, ks ++ ls, ?_, hks.append hls hnk hkm⟩
  rw [List.map_append]

/-- A lambda is numbered behind those in its body. -/
theorem cons (h : Numbered n m xs) : Numbered n (m + 1) (lambdaName m :: xs) := by
  obtain ⟨hnm, ks, rfl, hks⟩ := h
  exact ⟨Nat.le_succ_of_le hnm, m :: ks, rfl, hks.cons_last hnm⟩

/-- Numbered names are distinct. -/
theorem nodup (h : Numbered n m xs) : xs.Nodup := by
  obtain ⟨_, ks, rfl, hks⟩ := h
  refine hks.distinct.map fun k l heq => ?_
  exact Bytes.decimal_injective (List.append_cancel_left heq)

end Numbered

namespace Phrase

/-- The lambdas of what the phrase stands for are numbered while it is read. -/
def Numbers (p : Phrase) : Prop :=
  ∀ (n m : Nat) (e : Expr), p.denote n = (e, m) →
    ∀ node, Numbered n m ((e.captures node).map Capture.name)

/-- The lambdas of a list are numbered if those of its members are. -/
theorem denoteAll_numbered {ps : List Phrase} (h : ∀ p ∈ ps, p.Numbers) {n m : Nat} {es : List Expr}
    (hread : denoteAll ps n = (es, m)) (node : Node) (i : Nat) :
    Numbered n m ((Expr.capturesList node i es).map Capture.name) := by
  induction ps generalizing n es i with
  | nil =>
    rw [denoteAll] at hread
    obtain ⟨rfl, rfl⟩ := state_pure.mp hread
    exact .nil
  | cons p ps ih =>
    obtain ⟨hp, hps⟩ := List.forall_mem_cons.mp h
    rw [denoteAll] at hread
    obtain ⟨e, k, he, hread⟩ := state_bind.mp hread
    obtain ⟨rest, l, hrest, hread⟩ := state_bind.mp hread
    obtain ⟨rfl, rfl⟩ := state_pure.mp hread
    rw [Expr.capturesList, List.map_append]
    exact (hp n k e he _).append (ih hps hrest (i + 1))

/-- The same for bindings. -/
theorem denoteDefs_numbered {ds : List (Bytes × Phrase)} (h : ∀ d ∈ ds, d.2.Numbers) {n m : Nat}
    {es : List (Bytes × Expr)} (hread : denoteDefs ds n = (es, m)) (node : Node) (i : Nat) :
    Numbered n m ((Expr.capturesDefs node i es).map Capture.name) := by
  induction ds generalizing n es i with
  | nil =>
    rw [denoteDefs] at hread
    obtain ⟨rfl, rfl⟩ := state_pure.mp hread
    exact .nil
  | cons d ds ih =>
    obtain ⟨hd, hds⟩ := List.forall_mem_cons.mp h
    rw [denoteDefs] at hread
    obtain ⟨e, k, he, hread⟩ := state_bind.mp hread
    obtain ⟨rest, l, hrest, hread⟩ := state_bind.mp hread
    obtain ⟨rfl, rfl⟩ := state_pure.mp hread
    rw [Expr.capturesDefs, List.map_append]
    exact (hd n k e he _).append (ih hds hrest (i + 1))

/-- Reading numbers the lambdas of a proper phrase, each with a number of its own from the range that it draws.
-/
theorem Proper.numbers {p : Phrase} (hp : p.Proper) : p.Numbers := by
  induction hp with
  | var hx =>
    intro n m e hread node
    rw [denote] at hread
    obtain ⟨rfl, rfl⟩ := state_pure.mp hread
    exact .nil
  | literal text =>
    intro n m e hread node
    rw [denote] at hread
    obtain ⟨rfl, rfl⟩ := state_pure.mp hread
    exact .nil
  | halt =>
    intro n m e hread node
    rw [denote] at hread
    cases hread
    -- The first of the two numbers went to the parameter.
    have hname : Numbered (n + 1) (n + 2) [lambdaName (n + 1)] := Numbered.nil.cons
    exact ⟨Nat.le_add_right n 2, hname.numbers.imp fun ks h =>
      ⟨h.1, h.2.mono (Nat.le_succ n) (Nat.le_refl _)⟩⟩
  | void =>
    intro n m e hread node
    rw [denote] at hread
    obtain ⟨rfl, rfl⟩ := state_pure.mp hread
    exact .nil
  | lambda params hbody ih =>
    intro n m e hread node
    rw [denote] at hread
    obtain ⟨b, k, hb, hread⟩ := state_bind.mp hread
    cases hread
    exact (ih n k b hb _).cons
  | cond htest ha hb iht iha ihb =>
    intro n m e hread node
    rw [denote] at hread
    obtain ⟨t, k, ht, hread⟩ := state_bind.mp hread
    obtain ⟨x, l, hx, hread⟩ := state_bind.mp hread
    obtain ⟨y, j, hy, hread⟩ := state_bind.mp hread
    obtain ⟨rfl, rfl⟩ := state_pure.mp hread
    rw [Expr.captures, List.map_append, List.map_append]
    exact ((iht n k t ht _).append (iha k l x hx _)).append (ihb l m y hy _)
  | letrec hdefs hbody ihs ihb =>
    intro n m e hread node
    rw [denote] at hread
    obtain ⟨ds, k, hds, hread⟩ := state_bind.mp hread
    obtain ⟨b, l, hb, hread⟩ := state_bind.mp hread
    obtain ⟨rfl, rfl⟩ := state_pure.mp hread
    rw [Expr.captures, List.map_append]
    exact (denoteDefs_numbered ihs hds _ _).append (ihb k m b hb _)
  | seq hitems ihs =>
    intro n m e hread node
    rw [denote] at hread
    obtain ⟨es, k, hes, hread⟩ := state_bind.mp hread
    obtain ⟨rfl, rfl⟩ := state_pure.mp hread
    exact denoteAll_numbered ihs hes _ _
  | assign x hvalue ih =>
    intro n m e hread node
    rw [denote] at hread
    obtain ⟨v, k, hv, hread⟩ := state_bind.mp hread
    obtain ⟨rfl, rfl⟩ := state_pure.mp hread
    exact ih n m v hv _
  | assignThen x hvalue hnext ihv ihn =>
    intro n m e hread node
    rw [denote] at hread
    obtain ⟨v, k, hv, hread⟩ := state_bind.mp hread
    obtain ⟨c, l, hc, hread⟩ := state_bind.mp hread
    obtain ⟨rfl, rfl⟩ := state_pure.mp hread
    rw [Expr.captures, List.map_append]
    exact (ihv n k v hv _).append (ihn k m c hc _)
  | app hcallee hhead hargs ihf ihs =>
    intro n m e hread node
    rw [denote] at hread
    obtain ⟨f, k, hf, hread⟩ := state_bind.mp hread
    obtain ⟨es, l, hes, hread⟩ := state_bind.mp hread
    obtain ⟨rfl, rfl⟩ := state_pure.mp hread
    rw [Expr.captures, List.map_append]
    exact (ihf n k f hf _).append (denoteAll_numbered ihs hes _ _)

end Phrase

/-- A program that is read is the tree of a derivation. -/
theorem Reader.readProgram_denotes {source filename : Bytes} {n m : Nat} {e : Expr}
    (h : readProgram source filename n = (.ok e, m)) : ∃ p : Phrase, p.Proper ∧ p.denote n = (e, m) := by
  obtain ⟨ps, stop, hcut⟩ := exists_cut 0 source
  have hend := readProgram_concludes filename n hcut
  rw [h] at hend
  cases hend with
  | tree _ hconsumes =>
    obtain ⟨p, hp, hdenote⟩ := hconsumes.reads []
    exact ⟨p, hp.1, hdenote⟩

/-- The lambdas of a program that is read have names of their own. -/
theorem Reader.readProgram_namedApart {source filename : Bytes} {n m : Nat} {e : Expr}
    (h : readProgram source filename n = (.ok e, m)) : e.LambdasNamedApart := by
  obtain ⟨p, hp, hdenote⟩ := readProgram_denotes h
  exact Expr.lambdasNamedApart_iff.mpr (hp.numbers n m e hdenote .root).nodup

end Trampoline

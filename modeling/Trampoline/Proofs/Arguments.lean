import Mathlib.Data.List.TakeWhile
import Trampoline.Command

/-!
# Trampoline.Proofs.Arguments -- what arguments ask for

Options are looked for among all words of the command line, the values of other options included, and only the
first occurrence of an option counts. If it is the last word, it has no value. What a request holds is said here
in these terms, so that proofs about the command need not look at the words again.
-/

namespace Trampoline

theorem Bytes.zero_notMem_zeroTerminated (t : Bytes) : 0 ∉ zeroTerminated t := by
  intro h
  simpa using List.mem_takeWhile_imp h

namespace Command

/-! ## Words and options -/

/-- No word of a command line holds a zero byte. -/
theorem zero_notMem_of_mem_words {argv : List Bytes} {w : Bytes} (hw : w ∈ words argv) : 0 ∉ w := by
  obtain ⟨arg, _, rfl⟩ := List.mem_map.mp hw
  exact Bytes.zero_notMem_zeroTerminated arg

/-- The words give an option a value: it is the word behind the first occurrence of the option. -/
def Gives (argv : List Bytes) (option value : Bytes) : Prop :=
  ∃ front back, argv = front ++ option :: value :: back ∧ option ∉ front

/-- The value of an option: the one that is given, or the default if none is given. -/
def IsValue (argv : List Bytes) (option default value : Bytes) : Prop :=
  Gives argv option value ∨ (value = default ∧ ∀ other, ¬ Gives argv option other)

/-- The value of an option is what stands behind it where words are skipped up to the option. -/
theorem Gives.dropWhile {argv : List Bytes} {option value : Bytes} (h : Gives argv option value) :
    ∃ back, argv.dropWhile (· != option) = option :: value :: back := by
  obtain ⟨front, back, rfl, hfront⟩ := h
  refine ⟨back, ?_⟩
  have hskipped : ∀ w ∈ front, (w != option) = true := by
    intro w hw
    rw [bne_iff_ne]
    rintro rfl
    exact hfront hw
  rw [List.dropWhile_append_of_pos hskipped]
  exact List.dropWhile_cons_of_neg (by simp)

/-- Conversely, two words that are left when words are skipped up to an option are the option and its value. -/
theorem gives_of_dropWhile {argv back : List Bytes} {option first value : Bytes}
    (h : argv.dropWhile (· != option) = first :: value :: back) : Gives argv option value := by
  have hfirst : first = option := by
    have hne : argv.dropWhile (· != option) ≠ [] := by simp [h]
    have hstop := List.head_dropWhile_not (· != option) hne
    simpa [h] using hstop
  refine ⟨argv.takeWhile (· != option), back, ?_, ?_⟩
  · rw [← hfirst, ← h, hfirst, List.takeWhile_append_dropWhile]
  · intro hmem
    simpa using List.mem_takeWhile_imp hmem

/-- The function gives the value of an option. -/
theorem isValue_valueOf (argv : List Bytes) {option : Bytes} (hoption : Bytes.zeroTerminated option = option)
    (default : Bytes) : IsValue argv option default (valueOf argv option default) := by
  unfold valueOf
  rw [hoption]
  split
  · rename_i first value back hdrop
    exact Or.inl (gives_of_dropWhile hdrop)
  · rename_i hnone
    refine Or.inr ⟨rfl, fun other hgives => ?_⟩
    obtain ⟨back, hdrop⟩ := hgives.dropWhile
    exact hnone _ _ _ hdrop

theorem IsValue.zero_notMem {argv : List Bytes} {option default value : Bytes}
    (h : IsValue (words argv) option default value) (hdefault : 0 ∉ default) : 0 ∉ value := by
  rcases h with ⟨front, back, heq, _⟩ | ⟨rfl, _⟩
  · exact zero_notMem_of_mem_words (heq ▸ List.mem_append_right _ (List.mem_cons_of_mem _ List.mem_cons_self))
  · exact hdefault

/-- Where nothing is the default, a value that is not empty was given. -/
theorem IsValue.ne_nil_iff {argv : List Bytes} {option value : Bytes} (h : IsValue argv option [] value) :
    value ≠ [] ↔ ∃ given, given ≠ [] ∧ Gives argv option given := by
  rcases h with hgives | ⟨rfl, hnone⟩
  · refine ⟨fun hne => ⟨value, hne, hgives⟩, ?_⟩
    rintro ⟨given, hne, hgiven⟩ rfl
    obtain ⟨back, hdrop⟩ := hgives.dropWhile
    obtain ⟨back', hdrop'⟩ := hgiven.dropWhile
    rw [hdrop] at hdrop'
    cases hdrop'
    exact hne rfl
  · refine ⟨fun hne => absurd rfl hne, ?_⟩
    rintro ⟨given, _, hgiven⟩
    exact absurd hgiven (hnone given)

/-! ## Requests -/

/-- Nothing is asked for: behind the command's name there is no argument, or the first one looks like an option. -/
def Misused (argv : List Bytes) : Prop := ∀ first ∈ argv[1]?, first.head? = some Byte.minus

/-- An executable is asked for: its option has a value, and not an empty one. -/
def WantsExecutable (argv : List Bytes) : Prop := ∃ exe, exe ≠ [] ∧ Gives (words argv) (ascii "-exe") exe

/-- What the arguments ask for. -/
structure Asks (argv : List Bytes) (r : Request) : Prop where
  source : argv[1]?.map Bytes.zeroTerminated = some r.source
  target : IsValue (words argv) (ascii "-o") (ascii "/tmp/scm_output.cc") r.target
  executable : IsValue (words argv) (ascii "-exe") [] r.executable
  compiler : IsValue (words argv) (ascii "-cxx") (ascii "c++") r.compiler
  pretty : r.pretty = true ↔ ascii "-no-pretty" ∉ words argv
  dump : r.dump = true ↔ ascii "-dump-ast" ∈ words argv

theorem head?_zeroTerminated_eq_minus (t : Bytes) :
    (Bytes.zeroTerminated t).head? = some Byte.minus ↔ t.head? = some Byte.minus := by
  cases t with
  | nil => rfl
  | cons b t =>
    unfold Bytes.zeroTerminated
    by_cases hb : b = 0
    · subst hb
      exact ⟨fun h => (by cases h), fun h => absurd (Option.some.inj h) (by decide)⟩
    · rw [List.takeWhile_cons_of_pos (by simpa using hb)]
      rfl

/-- The arguments are misused, or they make a request. -/
theorem request?_cases (argv : List Bytes) :
    (Misused argv ∧ request? argv = none) ∨ (¬ Misused argv ∧ ∃ r, request? argv = some r ∧ Asks argv r) := by
  rcases argv with _ | ⟨name, _ | ⟨first, args⟩⟩
  · exact Or.inl ⟨fun first hfirst => (by cases hfirst), rfl⟩
  · exact Or.inl ⟨fun first hfirst => (by cases hfirst), rfl⟩
  · by_cases hminus : first.head? = some Byte.minus
    · refine Or.inl ⟨fun w hw => Option.some.inj hw ▸ hminus, ?_⟩
      exact if_pos ((head?_zeroTerminated_eq_minus first).mpr hminus)
    · refine Or.inr ⟨fun h => hminus (h first rfl), _,
        if_neg fun h => hminus ((head?_zeroTerminated_eq_minus first).mp h), ?_⟩
      exact
        { source := rfl
          target := isValue_valueOf _ rfl _
          executable := isValue_valueOf _ rfl _
          compiler := isValue_valueOf _ rfl _
          pretty := by simp [occurs]
          dump := by simp [occurs] }

/-- A request holds what the arguments ask for. -/
theorem asks_of_request? {argv : List Bytes} {r : Request} (h : request? argv = some r) : Asks argv r := by
  rcases request?_cases argv with ⟨_, hnone⟩ | ⟨_, r', hr', hasks⟩
  · rw [hnone] at h
    cases h
  · rw [hr'] at h
    cases h
    exact hasks

end Command

end Trampoline

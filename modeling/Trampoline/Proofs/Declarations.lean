import Trampoline.Proofs.Homes
import Trampoline.Proofs.Hygiene
import Trampoline.Proofs.Mangling
import Trampoline.Proofs.Numbering

/-!
# Trampoline.Proofs.Declarations -- nothing is declared twice

The names of a unit come from three sources: source names are mangled, temporaries are numbered while a tree
is lowered, and classes are numbered while it is read. Here they are looked at as the unit prints them. A
declaration line is a type and an identifier. A function is a block, and the arms of a conditional are blocks
inside of it; what a block declares stands at its start, so an arm is inside of all declarations of the blocks
around it. `InScope` lists what is declared in a block and around it.

If no two binders of one name belong to one lambda or to nested ones, then no such list has a repetition, and
the fields of a class can be put in front of it. The proof goes through identifiers: the code of a tree
declares different ones (`Lowers.ownedWithin`), and different identifiers are spelled differently.
-/

namespace Trampoline

open Lowering (Lowers ClassOf)

namespace Instr

/-! ## Declarations as they are printed -/

/-- The identifier of a declaration: the word behind the type. -/
def declaredName (decl : Bytes) : Bytes :=
  ((decl.dropWhile (· != Byte.space)).drop 1).takeWhile Byte.isWord

mutual

/-- The declaration lines of a pair, the arms of a conditional included. -/
def declarations : Instr → List Bytes
  | .branch dst kind _ a _ b _ =>
    Bytes.line (declareResult kind dst.text) ++ (declarationsAll a ++ declarationsAll b)
  | i => Bytes.line i.decl

def declarationsAll : List Instr → List Bytes
  | [] => []
  | i :: is => i.declarations ++ declarationsAll is

end

theorem declarations_eq (i : Instr) :
    i.declarations = Bytes.line i.decl ++ i.arms.flatMap fun arm => declarationsAll arm.code := by
  cases i <;> simp [declarations, decl, arms]

theorem declarationsAll_eq (code : List Instr) : declarationsAll code = code.flatMap declarations := by
  induction code with
  | nil => simp [declarationsAll]
  | cons i is ih => rw [declarationsAll, ih, List.flatMap_cons]

/-- The name is found behind the first space of a declaration. -/
theorem declaredName_append {lead x rest : Bytes}
    (hlead : lead.dropWhile (· != Byte.space) = [Byte.space]) (hx : x.all Byte.isWord = true)
    (hrest : rest.takeWhile Byte.isWord = []) : declaredName (lead ++ x ++ rest) = x := by
  unfold declaredName
  rw [List.append_assoc, List.dropWhile_append, hlead]
  show (x ++ rest).takeWhile Byte.isWord = x
  rw [List.takeWhile_append_of_pos (List.all_eq_true.mp hx), hrest, List.append_nil]

theorem declaredName_slot {x : Ident} (h : x.Spelled) : declaredName (declareSlot x.text) = x.text :=
  declaredName_append (by decide) h.all_isWord (by decide)

theorem declaredName_result {x : Ident} (h : x.Spelled) (kind : Kind) :
    declaredName (declareResult kind x.text) = x.text := by
  cases kind with
  | value => exact declaredName_append (by decide) h.all_isWord (by decide)
  | thunk => exact declaredName_append (by decide) h.all_isWord (by decide)

/-- The declaration line of a pair gives its variable back. -/
theorem Spelled.line_names {i : Instr} (h : i.Spelled) :
    (Bytes.line i.decl).map declaredName = i.declares.map fun d => d.1.text := by
  have hline (hne : i.decl ≠ []) : Bytes.line i.decl = [i.decl] := if_neg hne
  cases i with
  | put dst p =>
    rw [hline (isLine_declareSlot h.1.oneLine).ne_nil, List.map_singleton, decl, declaredName_slot h.1]
    rfl
  | call dst callee args =>
    have hdst : declaredName (declareThunk dst.text) = dst.text := declaredName_result h.1 .thunk
    rw [hline (isLine_declareThunk h.1).ne_nil, List.map_singleton, decl, hdst]
    rfl
  | branch dst kind test a av b bv =>
    have hne : declareResult kind dst.text ≠ [] := by
      cases kind with
      | value => exact (isLine_declareReference h.1.oneLine).ne_nil
      | thunk => exact (isLine_declareThunk h.1).ne_nil
    rw [hline hne, List.map_singleton, decl, declaredName_result h.1]
    rfl
  | slot dst =>
    rw [hline (isLine_declareSlot (Ident.Spelled.oneLine h)).ne_nil, List.map_singleton, decl,
      declaredName_slot h]
    rfl
  | copy dst src => rfl
  | halt arg =>
    show (Bytes.line (ascii "int retval = 0;")).map declaredName = [ascii "retval"]
    decide
  | verbatim d o => exact absurd h not_false

/-- The lines at the start of a block are some of its declarations. -/
theorem declLines_sublist (code : List Instr) : (declLines code).Sublist (declarationsAll code) := by
  rw [declarationsAll_eq]
  induction code with
  | nil => exact List.Sublist.slnil
  | cons i is ih =>
    rw [List.flatMap_cons, declarations_eq]
    exact (List.sublist_append_left _ _).append ih

/-! ## Scopes -/

/-- The identifiers that a block declares. -/
def blockNames (code : List Instr) : List Bytes := (declLines code).map declaredName

end Instr

open Instr

/-- `InScope outer code names`: the code, or an arm at any depth of one of its conditionals, is a block with
`names` declared in it and around it, where `outer` are declared around the code. -/
inductive InScope : List Bytes → List Instr → List Bytes → Prop
  | own (outer : List Bytes) (code : List Instr) : InScope outer code (outer ++ blockNames code)
  | arm {outer names : List Bytes} {code : List Instr} {i : Instr} {arm : Block} (hi : i ∈ code)
      (harm : arm ∈ i.arms) (h : InScope (outer ++ blockNames code) arm.code names) :
      InScope outer code names

/-- What an arm declares comes on top of the lines at the start of the block around it. -/
theorem arm_declarations {code : List Instr} {i : Instr} {arm : Block} (hi : i ∈ code)
    (harm : arm ∈ i.arms) :
    ∃ ls : List Bytes, ls.Perm (declLines code ++ declarationsAll arm.code) ∧ ls.Sublist (declarationsAll code) := by
  obtain ⟨pre, post, rfl⟩ := List.append_of_mem hi
  have hsplit : declLines (pre ++ i :: post) = declLines pre ++ (Bytes.line i.decl ++ declLines post) := by
    unfold declLines
    rw [List.flatMap_append, List.flatMap_cons]
  have harms : (declarationsAll arm.code).Sublist (i.arms.flatMap fun arm => declarationsAll arm.code) :=
    List.sublist_flatten_of_mem (List.mem_map_of_mem harm)
  refine ⟨declLines pre ++ ((Bytes.line i.decl ++ declarationsAll arm.code) ++ declLines post), ?_, ?_⟩
  · refine List.perm_iff_count.mpr fun l => ?_
    simp only [hsplit, List.count_append]
    omega
  · have hall : declarationsAll (pre ++ i :: post) =
        declarationsAll pre ++ (i.declarations ++ declarationsAll post) := by
      simp only [declarationsAll_eq, List.flatMap_append, List.flatMap_cons]
    rw [hall, declarations_eq i]
    exact (declLines_sublist pre).append
      (((List.Sublist.refl _).append harms).append (declLines_sublist post))

/-- If nothing is declared twice at any depth, no block sees a name twice. -/
theorem InScope.nodup {outer names : List Bytes} {code : List Instr} (h : InScope outer code names)
    (hnodup : (outer ++ (declarationsAll code).map declaredName).Nodup) : names.Nodup := by
  induction h with
  | own outer code =>
    exact hnodup.sublist ((List.Sublist.refl outer).append ((declLines_sublist code).map declaredName))
  | @arm outer names code i arm hi harm h ih =>
    apply ih
    obtain ⟨ls, hperm, hsub⟩ := arm_declarations hi harm
    have hls : (outer ++ ls.map declaredName).Nodup :=
      hnodup.sublist ((List.Sublist.refl outer).append (hsub.map declaredName))
    rw [((hperm.map declaredName).append_left outer).nodup_iff, List.map_append] at hls
    rwa [List.append_assoc]

/-! ## Spellings -/

namespace Instr

theorem declaresWithin_eq (i : Instr) :
    i.declaresWithin = i.declares.map Prod.fst ++ i.arms.flatMap fun arm => declaresWithinAll arm.code := by
  cases i <;> simp [declaresWithin, declares, arms]

theorem Spelled.declarations_names {i : Instr} (h : i.Spelled)
    (harms : ∀ arm ∈ i.arms,
      (declarationsAll arm.code).map declaredName = (declaresWithinAll arm.code).map Ident.text) :
    i.declarations.map declaredName = i.declaresWithin.map Ident.text := by
  rw [declarations_eq, declaresWithin_eq, List.map_append, List.map_append, h.line_names,
    List.map_flatMap, List.map_flatMap, List.map_map]
  exact congrArg _ (List.flatMap_congr harms)

mutual

/-- The declaration lines of code give all variables back that it declares, at any depth. -/
theorem Everywhere.declarations_names :
    ∀ {i : Instr}, i.Everywhere Spelled → i.declarations.map declaredName = i.declaresWithin.map Ident.text
  | .branch dst kind test a av b bv, h => by
    refine Spelled.declarations_names h.1 fun arm harm => ?_
    rcases List.mem_cons.mp harm with rfl | harm
    · exact EverywhereAll.declarations_names h.2.1
    · rw [List.mem_singleton.mp harm]
      exact EverywhereAll.declarations_names h.2.2
  | .put _ _, h => Spelled.declarations_names h fun _ harm => absurd harm List.not_mem_nil
  | .call _ _ _, h => Spelled.declarations_names h fun _ harm => absurd harm List.not_mem_nil
  | .slot _, h => Spelled.declarations_names h fun _ harm => absurd harm List.not_mem_nil
  | .copy _ _, h => Spelled.declarations_names h fun _ harm => absurd harm List.not_mem_nil
  | .halt _, h => Spelled.declarations_names h fun _ harm => absurd harm List.not_mem_nil
  | .verbatim _ _, h => absurd h not_false

/-- The declaration lines of code give back what it declares at any depth. -/
theorem EverywhereAll.declarations_names :
    ∀ {is : List Instr}, EverywhereAll Spelled is →
      (declarationsAll is).map declaredName = (declaresWithinAll is).map Ident.text
  | [], _ => rfl
  | i :: is, h => by
    rw [declarationsAll, declaresWithinAll, List.map_append, List.map_append,
      Everywhere.declarations_names h.1, EverywhereAll.declarations_names h.2]

end

end Instr

/-- Different identifiers, made from names and numbers, have different texts. -/
theorem texts_nodup {xs : List Ident} (h : xs.Nodup) (hs : ∀ x ∈ xs, x.Spelled) :
    (xs.map Ident.text).Nodup :=
  h.map_on fun _ hx _ hy heq => (hs _ hx).text_inj (hs _ hy) heq

/-- Variables that code may own are spelled. -/
theorem Owned.spelled {n n' : Nat} {P : Bytes → Prop} {xs : List Ident} (h : Owned n n' P xs) :
    ∀ x ∈ xs, x.Spelled := by
  intro x hx
  rcases h.origin x hx with ⟨t, k, rfl, _⟩ | ⟨y, rfl, _⟩
  · trivial
  · trivial

/-- Names that the code does not declare can stand around it. -/
theorem Owned.around {n n' : Nat} {P : Bytes → Prop} {xs : List Ident} {outer : List Bytes}
    (h : Owned n n' P xs) (houter : outer.Nodup) (hapart : ∀ x ∈ outer, ¬ P x) :
    (outer.map Name.ofVariable ++ xs.map Ident.text).Nodup := by
  have hnodup : (outer.map Ident.named ++ xs).Nodup := by
    refine List.nodup_append.mpr ⟨houter.map fun x y heq => Ident.named.inj heq, h.distinct, ?_⟩
    rintro y hy z hz rfl
    obtain ⟨x, hx, rfl⟩ := List.mem_map.mp hy
    rcases h.origin _ hz with ⟨t, k, heq, _⟩ | ⟨x', heq, hP⟩
    · cases heq
    · cases heq
      exact hapart x hx hP
  have hspelled : ∀ x ∈ outer.map Ident.named ++ xs, x.Spelled := by
    intro x hx
    rcases List.mem_append.mp hx with hx | hx
    · obtain ⟨y, _, rfl⟩ := List.mem_map.mp hx
      trivial
    · exact h.spelled x hx
  have htexts := texts_nodup hnodup hspelled
  rwa [List.map_append, List.map_map] at htexts

/-! ## Temporaries -/

/-- The identifier is spelled as temporaries are. -/
def isTemporary (x : Bytes) : Bool := Bytes.startsWith x (ascii "__")

/-- Only a temporary looks like one. -/
theorem isTemporary_text {x : Ident} (hx : x.Spelled ∨ x = exitStatus) (h : isTemporary x.text = true) :
    ∃ t k, x = .temp t k := by
  cases x with
  | temp t k => exact ⟨t, k, rfl⟩
  | named y => simp [isTemporary, Bytes.startsWith, Ident.text, Name.ofVariable, Name.mangle, ascii] at h
  | verbatim t =>
    rcases hx with hx | hx
    · exact absurd hx not_false
    · rw [hx] at h
      exact absurd h (by decide)

/-- Temporaries with different numbers have different texts. -/
theorem temporaryTexts_nodup {xs : List Ident} (h : (xs.filterMap Ident.number?).Nodup)
    (hs : ∀ x ∈ xs, x.Spelled ∨ x = exitStatus) : ((xs.map Ident.text).filter isTemporary).Nodup := by
  rw [List.Nodup, List.pairwise_filterMap] at h
  rw [List.Nodup, List.pairwise_filter, List.pairwise_map]
  refine h.imp_of_mem fun {x y} hx hy hne htx hty heq => ?_
  obtain ⟨t, k, rfl⟩ := isTemporary_text (hs x hx) htx
  obtain ⟨t', k', rfl⟩ := isTemporary_text (hs y hy) hty
  have hsame : Ident.temp t k = Ident.temp t' k' := Ident.Spelled.text_inj (x := .temp t k) trivial trivial heq
  cases hsame
  exact hne k rfl k rfl rfl

/-! ## Functions -/

/-- A function with `outer` declared around its code: its declaration lines give its variables back, and all
of them and the names around it are spelled differently. -/
structure Tidy (outer : List Bytes) (code : List Instr) : Prop where
  names : (declarationsAll code).map declaredName = (declaresWithinAll code).map Ident.text
  known : ∀ x ∈ declaresWithinAll code, x.Spelled ∨ x = exitStatus
  nodup : (outer ++ (declaresWithinAll code).map Ident.text).Nodup

/-- No two declarations of one scope have the same name. -/
theorem Tidy.inScope {outer names : List Bytes} {code : List Instr} (h : Tidy outer code)
    (hscope : InScope outer code names) : names.Nodup :=
  hscope.nodup (h.names ▸ h.nodup)

/-- The code of a halt continuation declares its exit status only. -/
theorem tidy_haltCode (p : Bytes) : Tidy [Name.ofVariable p] (Expr.haltCode p).code where
  names := (printable_haltCode p).code.declarations_names
  known x hx := Or.inr (List.mem_singleton.mp hx)
  nodup := by
    have hne : Name.ofVariable p ≠ ascii "retval" := by
      intro heq
      have hfirst := congrArg List.head? heq
      simp [Name.ofVariable, Name.mangle, ascii] at hfirst
    exact List.nodup_cons.mpr ⟨fun hmem => hne (List.mem_singleton.mp hmem), List.pairwise_singleton _ _⟩

section

variable {e : Expr} (he : e.OnlyHalts) (hbinders : e.WrittenApart)

include he hbinders

/-- The call operator of a class, inside the fields of the class. -/
theorem tidy_operator (hclosed : e.free = []) {c : ClassEntry}
    (h : ClassOf (e.captures .root) .root e c) :
    ∃ clo, c.closure = some clo ∧
      Tidy ((clo.captured ++ clo.params).map Name.ofVariable) clo.body.code := by
  obtain ⟨path, body, clo, n, n', C, A, hr, hnode, hclo, hcap, _, hL⟩ := h
  refine ⟨clo, hclo, ?_⟩
  have hcaptured : clo.captured = Names.without body.free clo.params := by
    rw [hnode, Lowering.known_captures e path c.name clo.params body hr] at hcap
    exact (Option.some.inj hcap).symm
  rcases he.body_of_reach hr with hbody | ⟨p, hp, rfl⟩
  · have hbelow : e.reach? (0 :: path) = some body := by
      rw [Expr.reach?, hr]
      rfl
    have howned := hL.ownedWithin hbody (hbinders.hoistsApart hbelow)
    have hnames := (hL.printable hbody).code.declarations_names
    refine ⟨hnames, fun x hx => Or.inl (howned.spelled x hx), howned.around ?_ ?_⟩
    · refine List.nodup_append.mpr ⟨?_, hbinders.params_nodup hr hbody, ?_⟩
      · rw [hcaptured]
        exact (Names.strict_without (Expr.strict_free body) clo.params).nodup
      · rintro x hx y hy rfl
        rw [hcaptured] at hx
        exact (Names.mem_without.mp hx).2 hy
    · intro x hx
      rcases List.mem_append.mp hx with hx | hx
      · rw [hcaptured] at hx
        exact hbinders.captured_not_hoisted hclosed hr hx
      · refine hbinders.not_hoisted hr (List.suffix_refl path) hr ?_
        rw [Expr.written_lambda hbody]
        exact hx
  · -- The halt continuation captures nothing.
    have hnone : clo.captured = [] := by
      rw [hcaptured, hp, List.eq_nil_iff_forall_not_mem]
      intro x hx
      obtain ⟨hfree, hparam⟩ := Names.mem_without.mp hx
      exact hparam (Names.mem_ofList.mp hfree)
    rw [(Lowering.lowers_native hL).1, hnone, hp]
    exact tidy_haltCode p

/-- The main function, with the thunk that its loop runs. -/
theorem tidy_main {n n' : Nat} {f : Fragment} {C : List ClassEntry} {A : List Nat}
    (h : Lowers (e.captures .root) .root e n f n' C A) : Tidy [ascii "next"] f.code := by
  have howned := h.ownedWithin he (hbinders.hoistsApart (rfl : e.reach? [] = some e))
  refine ⟨(h.printable he).code.declarations_names, fun x hx => Or.inl (howned.spelled x hx), ?_⟩
  refine List.nodup_cons.mpr ⟨?_, texts_nodup howned.distinct howned.spelled⟩
  intro hmem
  obtain ⟨x, hx, hnext⟩ := List.mem_map.mp hmem
  have hled := (howned.spelled x hx).led
  rw [hnext] at hled
  revert hled
  decide

end

/-! ## Whole units -/

namespace Program

/-- The code of all functions of a unit that were made from the program. -/
def functions (p : Program) : List (List Instr) := p.root.code :: classCode p.table.entries

/-- The temporaries that are declared anywhere in a unit. -/
def temporaries (p : Program) : List Bytes :=
  (p.functions.flatMap fun code => (declarationsAll code).map declaredName).filter isTemporary

/-- The names of all classes of a unit. -/
def classNames (p : Program) : List Bytes :=
  [ascii "lambda_t", ascii "schemetype_t", ascii "thunk_t"]
    ++ p.table.entries.map fun c => Name.ofClass c.name

/-- No identifier of the unit is declared twice where one declaration would hide or repeat the other. The
parameters of a call operator are around its code, and the fields of the class are around them. -/
structure NoClash (p : Program) : Prop where
  temporaries : p.temporaries.Nodup
  classes : p.classNames.Nodup
  main : ∀ names, InScope [ascii "next"] p.root.code names → names.Nodup
  operators : ∀ c ∈ p.table.entries, ∃ clo, c.closure = some clo ∧
    ∀ names, InScope ((clo.captured ++ clo.params).map Name.ofVariable) clo.body.code names → names.Nodup

/-- Lambdas with different names have classes with different names. -/
theorem classNames_nodup {p : Program} (h : (p.table.entries.map ClassEntry.name).Nodup) :
    p.classNames.Nodup := by
  have hclasses : (p.table.entries.map fun c => Name.ofClass c.name).Nodup := by
    have := h.map Name.ofClass_injective
    rwa [List.map_map] at this
  refine List.nodup_append.mpr ⟨by decide, hclasses, ?_⟩
  rintro x hx y hy rfl
  obtain ⟨c, _, hc⟩ := List.mem_map.mp hy
  -- The first byte of a lambda's class is that of no other.
  have hfirst : x.head? = some 99 := by
    rw [← hc]
    rfl
  revert hfirst
  simp only [List.mem_cons, List.not_mem_nil, or_false] at hx
  rcases hx with rfl | rfl | rfl <;> decide

/-- Where numbers are distinct, so are the names of temporaries. -/
theorem temporaries_nodup {p : Program} (h : (p.functions.flatMap numbers).Nodup)
    (htidy : ∀ code ∈ p.functions, ∃ outer, Tidy outer code) : p.temporaries.Nodup := by
  have htexts : (p.functions.flatMap fun code => (declarationsAll code).map declaredName) =
      (p.functions.flatMap declaresWithinAll).map Ident.text := by
    rw [List.map_flatMap]
    refine List.flatMap_congr fun code hcode => ?_
    obtain ⟨_, ht⟩ := htidy code hcode
    exact ht.names
  unfold temporaries
  rw [htexts]
  refine temporaryTexts_nodup ?_ fun x hx => ?_
  · rwa [List.filterMap_flatMap]
  · obtain ⟨code, hcode, hx⟩ := List.mem_flatMap.mp hx
    obtain ⟨_, ht⟩ := htidy code hcode
    exact ht.known x hx

end Program

/-- What the unit of a source text has come from. -/
theorem Build.ofSource_ok {source filename : Bytes} {pretty : Bool} {n m n' : Nat} {e : Expr} {text : Bytes}
    (hread : Reader.readProgram source filename n = (.ok e, m))
    (h : Build.ofSource source filename pretty n = (.ok text, n')) :
    ∃ unit, Build.unit e m = (.ok unit, n') ∧ text = Build.finish pretty unit := by
  simp only [Build.ofSource, bind, StateT.bind, hread] at h
  rcases hunit : Build.unit e m with ⟨err | unit, k⟩
  · rw [hunit] at h
    cases h
  · rw [hunit] at h
    cases h
    exact ⟨unit, rfl, rfl⟩

/-- **Nothing is declared twice.** Take a closed source text that builds and in which two binders of one name
belong to different lambdas, neither of which encloses the other. In its unit all temporaries are different
and all classes have different names. In the main function, in the call operator of every class with its
parameters, and in every arm of a conditional with all blocks around it, no identifier is declared twice, and
none of them is a field of the class. -/
theorem ofSource_noClash {source filename : Bytes} {pretty : Bool} {n m n' : Nat} {e : Expr} {text : Bytes}
    (hread : Reader.readProgram source filename n = (.ok e, m)) (hclosed : e.free = [])
    (hbinders : e.WrittenApart) (hbuild : Build.ofSource source filename pretty n = (.ok text, n')) :
    ∃ p range, Build.program e m = (.ok p, n') ∧ text = Build.finish pretty (p.textFor range) ∧
      p.NoClash := by
  have he : e.OnlyHalts := by
    have hanswers := Reader.readProgram_answers source filename n
    rw [hread] at hanswers
    exact hanswers
  obtain ⟨unit, hunit, rfl⟩ := Build.ofSource_ok hread hbuild
  obtain ⟨p, range, hprogram, _, _, rfl⟩ := Build.unit_ok hunit
  obtain ⟨s, hlower, hs, rfl⟩ := Build.program_ok hprogram
  obtain ⟨A, hL, _⟩ := Build.lower_ok hlower
  rw [← hs] at hL
  have hoperators := fun c hc => tidy_operator he hbinders hclosed (hL.classOf c hc)
  have hmain := tidy_main he hbinders hL
  refine ⟨p, range, hprogram, rfl, ?_, ?_, fun names => hmain.inScope, fun c hc => ?_⟩
  · refine Program.temporaries_nodup (hL.fresh he).distinct fun code hcode => ?_
    rcases List.mem_cons.mp hcode with rfl | hcode
    · exact ⟨_, hmain⟩
    · obtain ⟨c, hc, hcode⟩ := List.mem_filterMap.mp hcode
      obtain ⟨clo, hclo, htidy⟩ := hoperators c hc
      rw [hclo] at hcode
      cases hcode
      exact ⟨_, htidy⟩
  · apply Program.classNames_nodup
    rw [hL.names]
    exact Expr.lambdasNamedApart_iff.mp (Reader.readProgram_namedApart hread)
  · obtain ⟨clo, hclo, htidy⟩ := hoperators c hc
    exact ⟨clo, hclo, fun names => htidy.inScope⟩

/-- Two lambdas with parameters of the same names, one of which has a name in an arm and another lambda. -/
def sharedNames : Bytes :=
  ascii "(letrec ((k %halt) (f (lambda (x c) (if x (letrec ((y 1)) (c y)) (g x (lambda (z) (c z))))))"
    ++ ascii " (g (lambda (x c) (c x)))) (f 0 k))"

/-- Two lambdas use the same parameter, and still nothing clashes. -/
theorem ofSource_noClash_sharedNames :
    ∃ e m text n', Reader.readProgram sharedNames (ascii "shared") 0 = (.ok e, m) ∧ e.free = [] ∧
      e.WrittenApart ∧ Build.ofSource sharedNames (ascii "shared") false 0 = (.ok text, n') ∧
      ∃ p range, Build.program e m = (.ok p, n') ∧ text = Build.finish false (p.textFor range) ∧
        p.NoClash := by
  have hread : ((Reader.readProgram sharedNames (ascii "shared") 0).1.toOption.map fun e =>
      decide (e.free = [] ∧ e.WrittenApart)) = some true := by decide +kernel
  have hbuild : ((Build.ofSource sharedNames (ascii "shared") false 0).1.toOption.map fun _ => ()) =
      some () := by decide +kernel
  obtain ⟨e, m, hread, hconds⟩ := Build.exists_ok hread
  obtain ⟨hclosed, hbinders⟩ := of_decide_eq_true hconds
  obtain ⟨text, n', hbuild, _⟩ := Build.exists_ok hbuild
  exact ⟨e, m, text, n', hread, hclosed, hbinders, hbuild, ofSource_noClash hread hclosed hbinders hbuild⟩

end Trampoline

import Trampoline.Bench
import Trampoline.Proofs.Places

/-!
# Trampoline.Proofs.Benches -- what operations do to a tokenizer

All that any operation does to a tokenizer is to advance it, or to try to, which skips a gap. This is said once
for every operation, and what holds of tokenizers at all times follows from it. A tokenizer stands on a piece of
its source with the other pieces ahead of it, or at the end. And one that cannot advance never can again, since
the gap that it skips does not change what comes next: it keeps its head, and each attempt to take the head fails
for the same reason.
-/

namespace Trampoline

/-! ## Gaps are skipped once -/

theorem skipGap_skipGap (t : Bytes) : skipGap false (skipGap false t) = skipGap false t := by
  obtain ⟨gap, after, rfl, hgap, hsolid⟩ := (exists_gap t).1
  rw [skipGap_of_gap hgap hsolid, skipGap_solid hsolid]

theorem skipGap_suffix (t : Bytes) : skipGap false t <:+ t := by
  obtain ⟨gap, after, rfl, hgap, hsolid⟩ := (exists_gap t).1
  rw [skipGap_of_gap hgap hsolid]
  exact List.suffix_append gap after

/-- A gap before a token makes no difference to the scanner. -/
theorem scan_skipGap (source t : Bytes) : scan source (skipGap false t) = scan source t := by
  simp only [scan, skipGap_skipGap]

/-- A flaw behind a gap is the same flaw where the gap is skipped. -/
theorem Cut.skip {o : Nat} {t : Bytes} {err : ReadError} (h : Cut o t [] (.error err)) :
    Cut (o + (t.length - (skipGap false t).length)) (skipGap false t) [] (.error err) := by
  cases h with
  | @flaw _ gap bad after cause hgap hbad =>
    have hflaw : Cut (o + gap.length) ([] ++ (bad ++ after)) []
        (.error (cause ⟨o + gap.length + ([] : Bytes).length, bad⟩)) := .flaw (.nil _) hbad
    have hskipped : (gap ++ (bad ++ after)).length - (bad ++ after).length = gap.length := by
      simp only [List.length_append]
      omega
    rw [skipGap_of_gap hgap hbad.solid, hskipped]
    simpa using hflaw

namespace Tokenizer

theorem advance_skip (tk : Tokenizer) : tk.skip.advance = tk.advance := by
  rw [advance_eq_ofScan, advance_eq_ofScan]
  show ofScan tk.source tk.filename (scan tk.source (skipGap false tk.unread)) = _
  rw [scan_skipGap]

/-! ## What can become of a tokenizer -/

/-- The tokenizer is advanced some times, and some times in vain. -/
inductive Becomes : Tokenizer → Tokenizer → Prop
  | refl (tk : Tokenizer) : Becomes tk tk
  | advance {tk next last : Tokenizer} (h : tk.advance = .ok next) (hrest : Becomes next last) : Becomes tk last
  | skip {tk last : Tokenizer} {err : ReadError} (h : tk.advance = .error err) (hrest : Becomes tk.skip last) :
      Becomes tk last

/-- What a tokenizer becomes in two stages it becomes. -/
theorem Becomes.trans {tk next last : Tokenizer} (h : Becomes tk next) (h' : Becomes next last) :
    Becomes tk last := by
  induction h with
  | refl => exact h'
  | advance hadv _ ih => exact .advance hadv (ih h')
  | skip hadv _ ih => exact .skip hadv (ih h')

/-- Draining a tokenizer only advances it. -/
theorem drain_becomes (tk : Tokenizer) : tk.Becomes tk.drain.2 := by
  fun_induction drain tk with
  | case1 tk hend => exact .refl tk
  | case2 tk hend err hadv => exact .skip hadv (.refl _)
  | case3 tk hend next hadv tokens last hdrain ih =>
    rw [hdrain] at ih
    exact .advance hadv ih
  | case4 tk hend next hadv err last hdrain ih =>
    rw [hdrain] at ih
    exact .advance hadv ih

end Tokenizer

/-- So does reading an expression, whether it succeeds or fails. -/
theorem Reader.run_becomes (goal : Goal) (stack : List Frame) (s : State) :
    s.tokens.Becomes (run goal stack s).2.tokens := by
  fun_induction run goal stack s with
  | case1 goal stack s err hstep => exact .refl _
  | case2 goal stack s move hstep err hadv => exact .skip hadv (.refl _)
  | case3 goal stack s move hstep tokens hadv err next hperform => exact .advance hadv (.refl _)
  | case4 goal stack s move hstep tokens hadv e next hperform => exact .advance hadv (.refl _)
  | case5 goal stack s move hstep tokens hadv goal' stack' next hperform ih => exact .advance hadv ih

namespace Bench

/-- All tokenizers of a bench. -/
def tokenizers (d : Bench) : List Tokenizer := d.tokens :: d.saved.map Prod.snd

/-- An advance of the bench leaves the saved tokenizers alone. -/
theorem advance_becomes (d : Bench) (answer : Answer) :
    d.tokens.Becomes (d.advance answer).2.tokens ∧ (d.advance answer).2.saved = d.saved := by
  unfold advance
  split
  · rename_i tk hadv
    exact ⟨.advance hadv (.refl tk), rfl⟩
  · rename_i err hadv
    exact ⟨.skip hadv (.refl _), rfl⟩

/-- What an operation does: it leads the tokenizer on and keeps the copies, it adds a copy, or it takes one back. -/
theorem step_cases (d : Bench) (op : Op) :
    (d.tokens.Becomes (d.step op).2.tokens ∧ (d.step op).2.saved = d.saved) ∨
    (∃ slot, op = .save slot ∧ (d.step op).2 = { d with saved := (slot, d.tokens) :: d.saved }) ∨
    (∃ slot tk, op = .load slot ∧ tk ∈ d.tokenizers ∧ (d.step op).2 = { d with tokens := tk }) := by
  cases op with
  | pop => exact Or.inl (advance_becomes d _)
  | expectPop kind =>
    left
    rw [step]
    split
    · exact advance_becomes d _
    · exact ⟨.refl _, rfl⟩
  | read => exact Or.inl ⟨Reader.run_becomes .expr [] ⟨d.tokens, d.next⟩, rfl⟩
  | drain => exact Or.inl ⟨d.tokens.drain_becomes, rfl⟩
  | save slot => exact Or.inr (Or.inl ⟨slot, rfl, rfl⟩)
  | load slot =>
    right
    right
    rw [step]
    split
    · rename_i tk hlookup
      obtain ⟨front, back, hsaved, _⟩ := List.lookup_eq_some_iff.mp hlookup
      refine ⟨slot, tk, rfl, ?_, rfl⟩
      simp [tokenizers, hsaved]
    · exact ⟨slot, d.tokens, rfl, List.mem_cons_self, rfl⟩
  | _ => exact Or.inl ⟨.refl _, rfl⟩

/-- Every tokenizer of a bench has become of one that was there before. -/
theorem step_tokenizers (d : Bench) (op : Op) {tk : Tokenizer} (h : tk ∈ (d.step op).2.tokenizers) :
    ∃ tk₀ ∈ d.tokenizers, tk₀.Becomes tk := by
  rcases step_cases d op with ⟨hbecomes, hsaved⟩ | ⟨slot, _, hstep⟩ | ⟨slot, copy, _, hcopy, hstep⟩
  · rw [tokenizers, hsaved] at h
    rcases List.mem_cons.mp h with rfl | h
    · exact ⟨d.tokens, List.mem_cons_self, hbecomes⟩
    · exact ⟨tk, List.mem_cons_of_mem _ h, .refl tk⟩
  · rw [hstep] at h
    have hmem : tk ∈ d.tokenizers := by simpa [tokenizers] using h
    exact ⟨tk, hmem, .refl tk⟩
  · rw [hstep] at h
    rcases List.mem_cons.mp h with rfl | h
    · exact ⟨tk, hcopy, .refl tk⟩
    · exact ⟨tk, List.mem_cons_of_mem _ h, .refl tk⟩

/-- Every tokenizer of a bench after a run has become of one that was there before. -/
theorem run_tokenizers (d : Bench) (ops : List Op) {tk : Tokenizer} (h : tk ∈ (d.run ops).2.tokenizers) :
    ∃ tk₀ ∈ d.tokenizers, tk₀.Becomes tk := by
  induction ops generalizing d with
  | nil => exact ⟨tk, h, .refl tk⟩
  | cons op ops ih =>
    obtain ⟨middle, hmiddle, hrest⟩ := ih (d.step op).2 h
    obtain ⟨tk₀, htk₀, hfirst⟩ := step_tokenizers d op hmiddle
    exact ⟨tk₀, htk₀, hfirst.trans hrest⟩

/-- Unless a copy is taken back, the tokenizer itself is led on. -/
theorem step_becomes {d : Bench} {op : Op} (h : ∀ slot, op ≠ .load slot) :
    d.tokens.Becomes (d.step op).2.tokens := by
  rcases step_cases d op with ⟨hbecomes, _⟩ | ⟨slot, _, hstep⟩ | ⟨slot, _, hload, _⟩
  · exact hbecomes
  · rw [hstep]
    exact .refl _
  · exact absurd hload (h slot)

end Bench

/-! ## Where tokenizers stand -/

namespace Tokenizer

/-- The head is one of the pieces that a source is cut into, and the pieces behind it are ahead; or all is read and
the head is the end of the input. -/
inductive On (source : Bytes) (ps : List Piece) (stop : Except ReadError Bytes) (tk : Tokenizer) : Prop
  | piece {used rest : List Piece} {p : Piece} (hps : ps = used ++ p :: rest) (hhead : tk.head = p.token)
      (hbefore : p.token.offset + p.token.text.length + tk.unread.length ≤ source.length)
      (hahead : tk.Ahead rest stop) : On source ps stop tk
  | last {gap : Bytes} (hstop : stop = .ok gap) (hhead : tk.head = Token.endOf source) (hunread : tk.unread = []) :
      On source ps stop tk

/-- The tokenizer goes through a source that is cut into pieces. -/
structure Follows (source : Bytes) (ps : List Piece) (stop : Except ReadError Bytes) (tk : Tokenizer) : Prop where
  source_eq : tk.source = source
  suffix : tk.unread <:+ source
  on : tk.On source ps stop

variable {source : Bytes} {ps : List Piece} {stop : Except ReadError Bytes} {tk next : Tokenizer}

/-- A scan from where some pieces are ahead leads to the first of them, or to the end. -/
theorem follows_ofScan {filename unread : Bytes} {used rest : List Piece} (hps : ps = used ++ rest)
    (hsuffix : unread <:+ source) (hcut : Cut (source.length - unread.length) unread rest stop)
    (h : ofScan source filename (scan source unread) = .ok next) : next.Follows source ps stop := by
  have hle := hsuffix.length_le
  rw [scan_eq_scanFrom hle] at h
  rcases hcut.first with
    ⟨_, hstop, hscan⟩ | ⟨err, _, _, hscan⟩ | ⟨p, rest', after, hrest, _, ht, hoffset, hscan, hcut'⟩
  · rw [hscan] at h
    cases h
    refine ⟨rfl, List.nil_suffix, .last hstop ?_ rfl⟩
    show (⟨⟨source.length - unread.length + unread.length, []⟩, .endOfInput⟩ : Token) = _
    rw [Nat.sub_add_cancel hle, Token.endOf]
  · rw [hscan] at h
    cases h
  · rw [hscan] at h
    cases h
    have hlength : unread.length = p.gap.length + (p.token.text.length + after.length) := by
      rw [ht, List.length_append, List.length_append]
    have hplace : source.length - unread.length + p.gap.length + p.token.text.length =
        source.length - after.length := by omega
    have hafter : after <:+ unread := by
      rw [ht, ← List.append_assoc]
      exact List.suffix_append _ after
    rw [hplace] at hcut'
    refine ⟨rfl, hafter.trans hsuffix, .piece (hps.trans (congrArg _ hrest)) rfl ?_ ⟨?_, hcut'⟩⟩
    · show p.token.offset + p.token.text.length + after.length ≤ source.length
      omega
    · show after.length ≤ source.length
      omega

/-- A new tokenizer stands at the first piece. -/
theorem start_follows {filename : Bytes} (hcut : Cut 0 source ps stop) (h : start source filename = .ok tk) :
    tk.Follows source ps stop := by
  rw [start_eq_ofScan] at h
  refine follows_ofScan (List.nil_append ps).symm List.suffix_rfl ?_ h
  rwa [Nat.sub_self]

/-- An advance leads from one piece to the next. -/
theorem Follows.advance (h : tk.Follows source ps stop) (hadv : tk.advance = .ok next) :
    next.Follows source ps stop := by
  obtain ⟨rfl, hsuffix, hon⟩ := h
  rw [advance_eq_ofScan] at hadv
  cases hon with
  | @piece used rest p hps _ _ hahead =>
    exact follows_ofScan (hps.trans (List.append_cons used p rest)) hsuffix hahead.2 hadv
  | last hstop hhead hunread =>
    rw [hunread] at hadv
    cases hadv
    exact ⟨rfl, List.nil_suffix, .last hstop rfl rfl⟩

/-- The token is the last one of a source before its flaw. -/
def LastBeforeFlaw (source : Bytes) (err : ReadError) (t : Token) : Prop :=
  ∃ used p, Cut 0 source (used ++ [p]) (.error err) ∧ t = p.token

/-- Where the gap before a flaw is skipped, the flaw is still ahead. -/
theorem Ahead.skip {err : ReadError} (h : tk.Ahead [] (.error err)) : tk.skip.Ahead [] (.error err) := by
  obtain ⟨hle, hcut⟩ := h
  have hskip_le := (skipGap_suffix tk.unread).length_le
  have hplace : tk.source.length - tk.unread.length + (tk.unread.length - (skipGap false tk.unread).length) =
      tk.source.length - (skipGap false tk.unread).length := by omega
  have hflaw := hcut.skip
  rw [hplace] at hflaw
  exact ⟨Nat.le_trans hskip_le hle, hflaw⟩

/-- A tokenizer that cannot advance stands on the last token before the flaw, and so it does with the gap skipped. -/
theorem Follows.skip {err : ReadError} (hcut : Cut 0 source ps stop) (h : tk.Follows source ps stop)
    (hadv : tk.advance = .error err) :
    tk.skip.Follows source ps stop ∧ LastBeforeFlaw source err tk.head := by
  obtain ⟨rfl, hsuffix, hon⟩ := h
  cases hon with
  | @piece used rest p hps hhead hbefore hahead =>
    have hlead := advance_leads hahead
    rw [hadv] at hlead
    cases hlead with
    | flaw =>
      have hskip := skipGap_suffix tk.unread
      refine ⟨⟨rfl, hskip.trans hsuffix, .piece hps hhead ?_ hahead.skip⟩, used, p, hps ▸ hcut, hhead⟩
      have hskip_le := hskip.length_le
      show _ + (skipGap false tk.unread).length ≤ _
      omega
  | last _ _ hunread =>
    rw [advance_eq_ofScan, hunread] at hadv
    cases hadv

/-- On the last token before the flaw nothing is ahead but the flaw: every piece ahead starts behind the head. -/
theorem Follows.advance_eq_error {err : ReadError} {used : List Piece} {p : Piece}
    (hcut : Cut 0 source (used ++ [p]) (.error err)) (h : tk.Follows source (used ++ [p]) (.error err))
    (hlast : tk.head = p.token) : tk.advance = .error err := by
  obtain ⟨rfl, _, hon⟩ := h
  cases hon with
  | @piece used' rest p' hps hhead hbefore hahead =>
    have hlead := advance_leads hahead
    rcases List.eq_nil_or_concat rest with rfl | ⟨front, q, rfl⟩
    · generalize tk.advance = result at hlead
      cases hlead with
      | flaw => rfl
    · -- The last piece would be the head and ahead of it too, but what is ahead starts where the head has ended.
      exfalso
      rw [List.concat_eq_append] at hps hahead
      rw [← List.cons_append, ← List.append_assoc] at hps
      obtain ⟨_, hq⟩ := List.append_inj' hps rfl
      obtain rfl : p = q := List.singleton_inj.mp hq
      obtain ⟨lead, _, _, hplace⟩ := hahead.2.token_pieceOf (List.mem_append_right front List.mem_cons_self)
      have hoffset : p.token.offset = tk.source.length - tk.unread.length + lead.length := hplace
      obtain ⟨_, hlexeme⟩ := hcut.lexeme (List.mem_append_right used List.mem_cons_self)
      have hpos := hlexeme.length_pos
      rw [hhead.symm.trans hlast] at hbefore
      omega
  | last hstop _ _ => cases hstop

/-- Whatever a tokenizer becomes, it stands at one of the pieces. -/
theorem Follows.becomes (hcut : Cut 0 source ps stop) (h : tk.Follows source ps stop) (hbecomes : tk.Becomes next) :
    next.Follows source ps stop := by
  induction hbecomes with
  | refl => exact h
  | advance hadv _ ih => exact ih (h.advance hadv)
  | skip hadv _ ih => exact ih (h.skip hcut hadv).1

/-- The unread text is an end of the source, and the head is a token of the source, or the end of the input, that
lies before it. -/
structure StandsIn (source : Bytes) (tk : Tokenizer) : Prop where
  source_eq : tk.source = source
  suffix : tk.unread <:+ source
  token : ∃ ps stop, Cut 0 source ps stop ∧
    ((∃ p ∈ ps, tk.head = p.token) ∨ (∃ gap, stop = .ok gap) ∧ tk.head = Token.endOf source)
  before : tk.head.offset + tk.head.text.length + tk.unread.length ≤ source.length

theorem Follows.standsIn (hcut : Cut 0 source ps stop) (h : tk.Follows source ps stop) : tk.StandsIn source := by
  cases h.on with
  | @piece used rest p hps hhead hbefore _ =>
    refine ⟨h.source_eq, h.suffix, ⟨ps, stop, hcut, Or.inl ⟨p, ?_, hhead⟩⟩, ?_⟩
    · rw [hps]
      exact List.mem_append_right used List.mem_cons_self
    · rw [hhead]
      exact hbefore
  | last hstop hhead hunread =>
    refine ⟨h.source_eq, h.suffix, ⟨ps, stop, hcut, Or.inr ⟨⟨_, hstop⟩, hhead⟩⟩, ?_⟩
    rw [hhead, hunread]
    exact Nat.le_refl source.length

/-! ## Tokenizers that are stuck -/

/-- The tokenizer cannot advance, for a reason, and has a head. -/
structure Stuck (err : ReadError) (head : Token) (tk : Tokenizer) : Prop where
  advance_eq : tk.advance = .error err
  head_eq : tk.head = head

/-- A tokenizer that cannot advance stays as it is. -/
theorem Stuck.becomes {err : ReadError} {head : Token} (h : tk.Stuck err head) (hbecomes : tk.Becomes next) :
    next.Stuck err head := by
  induction hbecomes with
  | refl => exact h
  | advance hadv _ _ =>
    rw [h.advance_eq] at hadv
    cases hadv
  | skip _ _ ih => exact ih ⟨(advance_skip _).trans h.advance_eq, h.head_eq⟩

end Tokenizer

namespace Bench

/-- The operation takes the head, if it can: it is a plain pop, or one that expects what the head is. -/
def Op.Takes (head : Token) : Op → Prop
  | .pop => True
  | .expectPop kind => kind = some head.kind
  | _ => False

theorem Op.Takes.ne_load {head : Token} {op : Op} (h : op.Takes head) (slot : Bytes) : op ≠ .load slot := by
  rintro rfl
  exact h

variable {d : Bench} {op : Op}

theorem check_head (tk : Tokenizer) : tk.check (some tk.head.kind) = .ok tk := by
  simp [Tokenizer.check, Tokenizer.expect, Except.mapError]

/-- A kind that the head is not of is refused without further ado. -/
theorem check_error {tk : Tokenizer} {kind : Option TokenKind} (h : kind ≠ some tk.head.kind) :
    ∃ fault, tk.check kind = .error fault := by
  cases kind with
  | none => exact ⟨_, rfl⟩
  | some k =>
    have hk : tk.head.kind ≠ k := fun hk => h (congrArg some hk.symm)
    refine ⟨.read (.expected k tk.head.toSpan), ?_⟩
    simp [Tokenizer.check, Tokenizer.expect, hk, Except.mapError]

/-- An operation that takes the head advances the tokenizer. -/
theorem step_takes (h : op.Takes d.tokens.head) : ∃ answer, d.step op = d.advance answer := by
  cases op with
  | pop => exact ⟨_, rfl⟩
  | expectPop kind =>
    obtain rfl : kind = some d.tokens.head.kind := h
    refine ⟨.nothing, ?_⟩
    rw [step, check_head]
  | _ => cases h

/-- An operation that takes the head of a stuck tokenizer fails, always with the same error. -/
theorem step_stuck {err : ReadError} {head : Token} (h : d.tokens.Stuck err head) (hop : op.Takes head) :
    (d.step op).1 = .error (.read err) := by
  obtain ⟨answer, hstep⟩ := step_takes (d := d) (h.head_eq ▸ hop)
  rw [hstep, advance, h.advance_eq]

/-- Nothing but a tokenizer that cannot advance makes an operation fail that takes the head. -/
theorem step_fails {fault : Fault} (h : op.Takes d.tokens.head) (hfault : (d.step op).1 = .error fault) :
    ∃ err, fault = .read err ∧ d.tokens.advance = .error err := by
  obtain ⟨answer, hstep⟩ := step_takes h
  rw [hstep, advance] at hfault
  cases hadv : d.tokens.advance with
  | ok tk =>
    rw [hadv] at hfault
    cases hfault
  | error err =>
    rw [hadv] at hfault
    cases hfault
    exact ⟨err, rfl, rfl⟩

/-- Whatever is done, unless a copy is taken back, the head stays and is never taken. -/
theorem run_stuck {err : ReadError} {head : Token} {ops : List Op} (h : d.tokens.Stuck err head)
    (hops : ∀ slot, .load slot ∉ ops) :
    (d.run ops).2.tokens.Stuck err head ∧
      ∀ (i : Nat) (op : Op), ops[i]? = some op → op.Takes head →
        (d.run ops).1[i]? = some (.error (.read err)) := by
  induction ops generalizing d with
  | nil => exact ⟨h, fun i op hi => by cases hi⟩
  | cons op ops ih =>
    -- Being stuck is the invariant: no operation but a load can end it, not even a read that tries to go on.
    have hop : ∀ slot, op ≠ .load slot := by
      rintro slot rfl
      exact hops slot List.mem_cons_self
    have hnext := h.becomes (step_becomes hop)
    obtain ⟨hlast, hanswers⟩ := ih hnext fun slot hmem => hops slot (List.mem_cons_of_mem op hmem)
    refine ⟨hlast, ?_⟩
    intro i op' hi htakes
    cases i with
    | zero =>
      cases hi
      exact congrArg some (step_stuck h htakes)
    | succ i => exact hanswers i op' hi htakes

/-- The bench is reached by operations from the start of a source. -/
def Reached (source filename : Bytes) (d : Bench) : Prop :=
  ∃ n d₀ ops, start source filename n = .ok d₀ ∧ (d₀.run ops).2 = d

/-- Every tokenizer that a bench has reached stands at one of the pieces of its source. -/
theorem Reached.follows {source filename : Bytes} {ps : List Piece} {stop : Except ReadError Bytes}
    (h : d.Reached source filename) (hcut : Cut 0 source ps stop) :
    ∀ tk ∈ d.tokenizers, tk.Follows source ps stop := by
  obtain ⟨n, d₀, ops, hstart, rfl⟩ := h
  intro tk htk
  obtain ⟨tk₀, htk₀, hbecomes⟩ := run_tokenizers d₀ ops htk
  obtain ⟨first, hfirst, rfl⟩ := map_ok.mp hstart
  obtain rfl : tk₀ = first := List.mem_singleton.mp htk₀
  exact (Tokenizer.start_follows hcut hfirst).becomes hcut hbecomes

end Bench

open Bench in
/-- **A failing step is atomic and sticky.** At any bench that operations lead to, every tokenizer stands in the
source. A kind that the head is not of is refused, and nothing changes. An operation that takes the head fails if
and only if the head is the last token before the flaw of the source, and then it fails for that flaw. The head
stays, and from then on, unless a copy is taken back, it stays whatever is done and every operation that takes it
fails for the same flaw. -/
theorem bench_atomic (source filename : Bytes) (d : Bench) (hd : d.Reached source filename) :
    (∀ tk ∈ d.tokenizers, tk.StandsIn source) ∧
    (∀ kind, kind ≠ some d.tokens.head.kind →
      ∃ fault, d.step (.expectPeek kind) = (.error fault, d) ∧ d.step (.expectPop kind) = (.error fault, d)) ∧
    (∀ op, op.Takes d.tokens.head →
      (∀ fault, (d.step op).1 = .error fault ↔
        ∃ err, fault = .read err ∧ Tokenizer.LastBeforeFlaw source err d.tokens.head) ∧
      ∀ err d', d.step op = (.error (.read err), d') →
        d'.tokens.head = d.tokens.head ∧
        ∀ ops, (∀ slot, .load slot ∉ ops) →
          (d'.run ops).2.tokens.head = d.tokens.head ∧
          ∀ (i : Nat) (op : Op), ops[i]? = some op → op.Takes d.tokens.head →
            (d'.run ops).1[i]? = some (.error (.read err))) := by
  obtain ⟨ps, stop, hcut⟩ := exists_cut 0 source
  have hfollows := hd.follows hcut
  refine ⟨fun tk htk => (hfollows tk htk).standsIn hcut, ?_, ?_⟩
  · intro kind hkind
    obtain ⟨fault, hcheck⟩ := check_error hkind
    refine ⟨fault, ?_, ?_⟩
    · rw [step, hcheck]
      rfl
    · rw [step, hcheck]
  · intro op hop
    refine ⟨?_, ?_⟩
    · intro fault
      constructor
      · intro hfault
        obtain ⟨err, rfl, hadv⟩ := step_fails hop hfault
        exact ⟨err, rfl, ((hfollows d.tokens List.mem_cons_self).skip hcut hadv).2⟩
      · rintro ⟨err, rfl, used, p, hflaw, hhead⟩
        have hadv := (hd.follows hflaw d.tokens List.mem_cons_self).advance_eq_error hflaw hhead
        exact step_stuck ⟨hadv, rfl⟩ hop
    · intro err d' hstep
      obtain ⟨err', herr, hadv⟩ := step_fails hop (congrArg Prod.fst hstep)
      cases herr
      have hstuck : d'.tokens.Stuck err d.tokens.head := by
        have hbecomes := step_becomes (d := d) hop.ne_load
        rw [hstep] at hbecomes
        exact Tokenizer.Stuck.becomes ⟨hadv, rfl⟩ hbecomes
      refine ⟨hstuck.head_eq, ?_⟩
      intro ops hops
      obtain ⟨hlast, hanswers⟩ := run_stuck hstuck hops
      exact ⟨hlast.head_eq, hanswers⟩

open Bench in
/-- The name can be seen but not taken, since a string is not closed behind a comment. -/
theorem bench_atomic_openString :
    let d : Bench := ⟨⟨ascii "(a ;c\n \"b", ascii "x", ascii " ;c\n \"b", ⟨⟨1, ascii "a"⟩, .identifier⟩⟩, 0, []⟩
    d.Reached (ascii "(a ;c\n \"b") (ascii "x") ∧ (d.step .pop).2 ≠ d ∧
    (d.step .pop).1 = .error (.read (.unterminated ⟨7, ascii "\"b"⟩)) ∧
    Tokenizer.LastBeforeFlaw (ascii "(a ;c\n \"b") (.unterminated ⟨7, ascii "\"b"⟩) d.tokens.head ∧
    ∀ ops, (∀ slot, .load slot ∉ ops) →
      ((d.step .pop).2.run ops).2.tokens.head = ⟨⟨1, ascii "a"⟩, .identifier⟩ := by
  intro d
  have hd : d.Reached (ascii "(a ;c\n \"b") (ascii "x") := ⟨0, _, [.pop], rfl, rfl⟩
  have hpop : d.step .pop = (.error (.read (.unterminated ⟨7, ascii "\"b"⟩)), _) := rfl
  obtain ⟨hfails, hsticky⟩ := (bench_atomic _ _ d hd).2.2 .pop trivial
  obtain ⟨err, herr, hlast⟩ := (hfails _).mp (congrArg Prod.fst hpop)
  cases herr
  exact ⟨hd, by decide, congrArg Prod.fst hpop, hlast, fun ops hops => ((hsticky _ _ hpop).2 ops hops).1⟩

end Trampoline

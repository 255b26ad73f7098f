import Mathlib.Logic.Function.Basic
import Trampoline.Command.Machine
import Trampoline.Proofs.Arguments
import Trampoline.Proofs.Outcome

/-!
# Trampoline.Proofs.Effects -- what the command does to its surroundings, and what it says about it

The command is run in a world, which is a host together with what its operations do to files and to the record of
command lines that were run. Nothing else is known of a world: what its files are, which paths lead to them, what
can be read or opened for writing, how a command line ends and what it does to files are up to it. What the command
itself has written by then is told by the files that the command line finds. A machine in memory is a world.

How a run can go is said once, by cases, with the exit status and all effects of each case. That the two agree is
read off these cases.
-/

namespace Trampoline

open Command (Request Misused Asks WantsExecutable words request? compilerLine)
open Shell (WaitStatus)

/-! ## Worlds -/

/-- What files hold, and the command lines that were run, each with what files held when it started. -/
structure Snapshot (File : Type) where
  files : File → Option Bytes
  executed : List (Bytes × (File → Option Bytes))

namespace Snapshot

variable {File : Type}

/-- A file is written. -/
def wrote [DecidableEq File] (v : Snapshot File) (f : File) (text : Bytes) : Snapshot File :=
  { v with files := Function.update v.files f (some text) }

/-- A command line is run, which may leave any files behind. -/
def ran (v : Snapshot File) (line : Bytes) (left : File → Option Bytes) : Snapshot File :=
  ⟨left, v.executed ++ [(line, v.files)]⟩

variable (v : Snapshot File) (line : Bytes) (left : File → Option Bytes)

@[simp] theorem executed_ran : (v.ran line left).executed = v.executed ++ [(line, v.files)] := rfl

variable [DecidableEq File] (f : File) (text : Bytes)

@[simp] theorem files_wrote : (v.wrote f text).files = Function.update v.files f (some text) := rfl

@[simp] theorem executed_wrote : (v.wrote f text).executed = v.executed := rfl

/-- A command line that was run leaves its trace. -/
theorem ran_wrote_ne : (v.wrote f text).ran line left ≠ v := by
  intro h
  simpa using congrArg executed h

end Snapshot

/-- A host over states, with what can be seen of a state and what the operations do to it. What a path reads as,
which file it opens for writing, and how a command line ends may depend on what all files hold. -/
structure World where
  State : Type
  File : Type
  [decEq : DecidableEq File]
  host : Host (StateM State)
  view : State → Snapshot File
  reading : (File → Option Bytes) → Bytes → Except Unreadable Bytes
  opening : (File → Option Bytes) → Bytes → Option File
  ending : (File → Option Bytes) → Bytes → WaitStatus
  read_eq (path : Bytes) (s : State) : host.read path s = (reading (view s).files path, s)
  /-- a file that can be opened can be written -/
  write_opened {path : Bytes} {s : State} {f : File} (h : opening (view s).files path = some f) (text : Bytes) :
    (host.write path text s).1 = true ∧ view (host.write path text s).2 = (view s).wrote f text
  write_refused {path : Bytes} {s : State} (h : opening (view s).files path = none) (text : Bytes) :
    (host.write path text s).1 = false ∧ view (host.write path text s).2 = view s
  view_complain (text : Bytes) (s : State) : view (host.complain text s).2 = view s
  execute_eq (line : Bytes) (s : State) :
    (host.execute line s).1 = ending (view s).files line ∧
    ∃ left, view (host.execute line s).2 = (view s).ran line left

attribute [instance] World.decEq

attribute [simp] World.view_complain

/-- The exit status that the end of a command line is passed on as. -/
def Shell.WaitStatus.passedOn : WaitStatus → UInt8
  | .exited code => code
  | .signalled _ => 1

/-- What the command returns for the end of a command line. -/
theorem Shell.WaitStatus.passedOn_eq (st : WaitStatus) :
    (if st.isSuccess then 0 else st.failureCode) = st.passedOn := by
  cases st with
  | signalled n => rfl
  | exited code =>
    by_cases h : code = 0
    · subst h
      rfl
    · simp [WaitStatus.isSuccess, WaitStatus.failureCode, passedOn, h]

theorem Shell.WaitStatus.passedOn_eq_zero {st : WaitStatus} : st.passedOn = 0 ↔ st = .exited 0 := by
  cases st <;> simp [passedOn]

namespace World

variable (w : World)

/-! ## How a run can go -/

/-- What becomes of the source: it cannot be read, or it is read and built, which may fail. -/
def built (files : w.File → Option Bytes) (r : Request) : Except Unreadable (Except Fault Bytes) :=
  (w.reading files r.source).map fun source => (Build.ofSource source r.source false 0).1

/-- How a run can go: its exit status, and what there is to be seen behind it. -/
inductive Runs (argv : List Bytes) (v : Snapshot w.File) : UInt8 → Snapshot w.File → Prop
  | misused (hr : request? argv = none) : Runs argv v 2 v
  | unreadable {r : Request} {cause : Unreadable} (hr : request? argv = some r)
      (h : w.built v.files r = .error cause) : Runs argv v 2 v
  | faulty {r : Request} {fault : Fault} (hr : request? argv = some r) (h : w.built v.files r = .ok (.error fault)) :
      Runs argv v 1 v
  | unopened {r : Request} {unit : Bytes} (hr : request? argv = some r) (h : w.built v.files r = .ok (.ok unit))
      (hopen : w.opening v.files r.target = none) : Runs argv v 2 v
  | written {r : Request} {unit : Bytes} {f : w.File} (hr : request? argv = some r)
      (h : w.built v.files r = .ok (.ok unit)) (hopen : w.opening v.files r.target = some f)
      (hexe : r.executable = []) : Runs argv v 0 (v.wrote f (Build.finish r.pretty unit))
  | compiled {r : Request} {unit : Bytes} {f : w.File} (hr : request? argv = some r)
      (h : w.built v.files r = .ok (.ok unit)) (hopen : w.opening v.files r.target = some f)
      (hexe : r.executable ≠ []) (left : w.File → Option Bytes) :
      Runs argv v (w.ending (v.wrote f (Build.finish r.pretty unit)).files (compilerLine r)).passedOn
        ((v.wrote f (Build.finish r.pretty unit)).ran (compilerLine r) left)

variable {w}

/-- A step of a host and what comes behind it. -/
theorem bind_apply {σ α β : Type} (x : StateM σ α) (f : α → StateM σ β) (s : σ) :
    (x >>= f) s = f (x s).1 (x s).2 := rfl

theorem compile_of_nil {r : Request} (h : r.executable = []) (s : w.State) :
    Command.compile w.host r s = (0, s) := by
  unfold Command.compile
  rw [if_pos h]
  rfl

/-- The compiler is run once, on the files as they are, and its end is passed on. -/
theorem compile_of_ne_nil {r : Request} (h : r.executable ≠ []) (s : w.State) :
    (Command.compile w.host r s).1 = (w.ending (w.view s).files (compilerLine r)).passedOn ∧
    ∃ left, w.view (Command.compile w.host r s).2 = (w.view s).ran (compilerLine r) left := by
  unfold Command.compile
  rw [if_neg h, bind_apply, bind_apply]
  obtain ⟨hstatus, left, hview⟩ := w.execute_eq (compilerLine r)
    (w.host.complain (Severity.note.message (compilerLine r)) s).2
  rw [w.view_complain] at hstatus hview
  rw [hstatus, ← WaitStatus.passedOn_eq]
  split
  · exact ⟨rfl, left, hview⟩
  · exact ⟨rfl, left, (w.view_complain _ _).trans hview⟩

/-- A target that can be opened is written before the compiler is run. -/
theorem deliver_opened {r : Request} {s : w.State} {f : w.File} (unit : Bytes)
    (h : w.opening (w.view s).files r.target = some f) :
    ∃ s', w.view s' = (w.view s).wrote f (Build.finish r.pretty unit) ∧
      Command.deliver w.host r unit s = Command.compile w.host r s' := by
  obtain ⟨hopened, hview⟩ := w.write_opened h (Build.finish r.pretty unit)
  refine ⟨(w.host.complain (Severity.note.message (ascii "C++ written to " ++ r.target))
    (w.host.write r.target (Build.finish r.pretty unit) s).2).2, by rw [w.view_complain, hview], ?_⟩
  unfold Command.deliver
  rw [bind_apply, hopened]
  rfl

/-- If the target cannot be opened, nothing changes. -/
theorem deliver_refused {r : Request} {s : w.State} (unit : Bytes)
    (h : w.opening (w.view s).files r.target = none) :
    (Command.deliver w.host r unit s).1 = 2 ∧ w.view (Command.deliver w.host r unit s).2 = w.view s := by
  obtain ⟨hrefused, hview⟩ := w.write_refused h (Build.finish r.pretty unit)
  unfold Command.deliver
  rw [bind_apply, hrefused]
  refine ⟨rfl, ?_⟩
  show w.view (w.host.complain _ _).2 = _
  rw [w.view_complain, hview]

/-- The source is read into a tree, and the tree is built, or one of the two fails. -/
theorem ofSource_cases (source filename : Bytes) :
    (∃ err n, Reader.readProgram source filename 0 = (.error err, n) ∧
      (Build.ofSource source filename false 0).1 = .error (.read err)) ∨
    ∃ e n, Reader.readProgram source filename 0 = (.ok e, n) ∧
      (Build.ofSource source filename false 0).1 = ((Build.unit e n).1.mapError .compile) := by
  rcases hread : Reader.readProgram source filename 0 with ⟨err | e, n⟩
  · refine Or.inl ⟨err, n, rfl, ?_⟩
    simp only [Build.ofSource, bind, StateT.bind, hread]
    rfl
  · refine Or.inr ⟨e, n, rfl, ?_⟩
    simp only [Build.ofSource, bind, StateT.bind, hread]
    rcases Build.unit e n with ⟨err | unit, n'⟩ <;> rfl

/-- The state in which a tree is built: it may have been shown before. -/
def shown (w : World) (r : Request) (e : Expr) (s : w.State) : w.State :=
  if r.dump then (w.host.complain (e.dump ++ [Byte.newline]) s).2 else s

@[simp] theorem view_shown (r : Request) (e : Expr) (s : w.State) : w.view (w.shown r e s) = w.view s := by
  unfold shown
  split
  · exact w.view_complain _ _
  · rfl

/-- A tree that can be built is delivered. -/
theorem build_of_ok {r : Request} {e : Expr} {n : Nat} {unit : Bytes} (h : (Build.unit e n).1 = .ok unit)
    (s : w.State) : Command.build w.host r e n s = Command.deliver w.host r unit (w.shown r e s) := by
  unfold Command.build shown
  rw [h]
  cases r.dump <;> rfl

/-- A tree that cannot be built leaves everything as it is. -/
theorem build_of_error {r : Request} {e : Expr} {n : Nat} {err : CompileError}
    (h : (Build.unit e n).1 = .error err) (s : w.State) :
    (Command.build w.host r e n s).1 = 1 ∧ w.view (Command.build w.host r e n s).2 = w.view s := by
  have hbuild : Command.build w.host r e n s =
      (1, (w.host.complain (Severity.error.message err.message) (w.shown r e s)).2) := by
    unfold Command.build shown
    rw [h]
    cases r.dump <;> rfl
  rw [hbuild]
  exact ⟨rfl, by rw [w.view_complain, view_shown]⟩

/-- A unit is delivered in one of three ways. -/
theorem deliver_runs {argv : List Bytes} {r : Request} {unit : Bytes} {s : w.State} (hr : request? argv = some r)
    (h : w.built (w.view s).files r = .ok (.ok unit)) :
    w.Runs argv (w.view s) (Command.deliver w.host r unit s).1 (w.view (Command.deliver w.host r unit s).2) := by
  cases hopen : w.opening (w.view s).files r.target with
  | none =>
    obtain ⟨hstatus, hview⟩ := deliver_refused unit hopen
    rw [hstatus, hview]
    exact .unopened hr h hopen
  | some f =>
    obtain ⟨s', hs', hdeliver⟩ := deliver_opened unit hopen
    rw [hdeliver]
    by_cases hexe : r.executable = []
    · rw [compile_of_nil hexe, hs']
      exact .written hr h hopen hexe
    · obtain ⟨hstatus, left, hview⟩ := compile_of_ne_nil hexe s'
      rw [hstatus, hview, hs']
      exact .compiled hr h hopen hexe left

theorem run_of_some {argv : List Bytes} {r : Request} (hr : request? argv = some r) (s : w.State) :
    Command.run w.host argv s = Command.serve w.host r s := by
  unfold Command.run
  rw [hr]

/-- Every run goes in one of these ways. -/
theorem run_runs (w : World) (argv : List Bytes) (s : w.State) :
    w.Runs argv (w.view s) (Command.run w.host argv s).1 (w.view (Command.run w.host argv s).2) := by
  cases hr : request? argv with
  | none =>
    unfold Command.run
    rw [hr]
    show w.Runs argv (w.view s) 2 (w.view (w.host.complain _ s).2)
    rw [w.view_complain]
    exact .misused hr
  | some r =>
    rw [run_of_some hr]
    unfold Command.serve
    rw [bind_apply, w.read_eq]
    cases hread : w.reading (w.view s).files r.source with
    | error cause =>
      show w.Runs argv (w.view s) 2 (w.view (w.host.complain _ s).2)
      rw [w.view_complain]
      exact .unreadable hr (by rw [built, hread]; rfl)
    | ok source =>
      have hbuilt : w.built (w.view s).files r = .ok (Build.ofSource source r.source false 0).1 := by
        rw [built, hread]
        rfl
      rcases ofSource_cases source r.source with ⟨err, n, hprogram, hsource⟩ | ⟨e, n, hprogram, hsource⟩
      · rw [hsource] at hbuilt
        simp only [hprogram]
        show w.Runs argv (w.view s) 1 (w.view (w.host.complain _ s).2)
        rw [w.view_complain]
        exact .faulty hr hbuilt
      · rw [hsource] at hbuilt
        simp only [hprogram]
        cases hunit : (Build.unit e n).1 with
        | error err =>
          rw [hunit] at hbuilt
          obtain ⟨hstatus, hview⟩ := build_of_error (r := r) hunit s
          rw [hstatus, hview]
          exact .faulty hr hbuilt
        | ok unit =>
          rw [hunit, ← view_shown r e s] at hbuilt
          rw [build_of_ok hunit, ← view_shown r e s]
          exact deliver_runs hr hbuilt

/-! ## What the cases say -/

/-- The source is built and the target can be opened, so the target is written. -/
def Writes (w : World) (files : w.File → Option Bytes) (r : Request) : Prop :=
  (∃ unit, w.built files r = .ok (.ok unit)) ∧ ∃ f, w.opening files r.target = some f

section

variable {argv : List Bytes} {v v' : Snapshot w.File} {status : UInt8}

/-- Without a request or a source nothing is done. -/
theorem Runs.refused (h : w.Runs argv v status v')
    (hrefused : request? argv = none ∨ ∃ r cause, request? argv = some r ∧ w.built v.files r = .error cause) :
    status = 2 ∧ v' = v := by
  cases h with
  | misused => exact ⟨rfl, rfl⟩
  | unreadable => exact ⟨rfl, rfl⟩
  | faulty hr h => simp [hr, h] at hrefused
  | unopened => exact ⟨rfl, rfl⟩
  | written hr h => simp [hr, h] at hrefused
  | compiled hr h => simp [hr, h] at hrefused

/-- Status 1 without any effect says that the source could not be built. -/
theorem Runs.rejected (h : w.Runs argv v status v') :
    status = 1 ∧ v' = v ↔ ∃ r fault, request? argv = some r ∧ w.built v.files r = .ok (.error fault) := by
  cases h with
  | misused hr => simp [hr]
  | unreadable hr h => simp [hr, h]
  | faulty hr h => simp [hr, h]
  | unopened hr h => simp [hr, h]
  | written hr h => simp [hr, h]
  | compiled hr h => simp [hr, h, Snapshot.ran_wrote_ne]

theorem Runs.unopened_eq (h : w.Runs argv v status v') {r : Request} {unit : Bytes} (hr : request? argv = some r)
    (hbuilt : w.built v.files r = .ok (.ok unit)) (hopen : w.opening v.files r.target = none) :
    status = 2 ∧ v' = v := by
  cases h with
  | misused => exact ⟨rfl, rfl⟩
  | unreadable => exact ⟨rfl, rfl⟩
  | faulty hr' h => simp_all
  | unopened => exact ⟨rfl, rfl⟩
  | written hr' _ hopen' => simp_all
  | compiled hr' _ hopen' => simp_all

/-- A target that can be opened is written; behind it comes nothing, or the compiler if there is an executable to
make. -/
theorem Runs.opened_eq (h : w.Runs argv v status v') {r : Request} {unit : Bytes} {f : w.File}
    (hr : request? argv = some r) (hbuilt : w.built v.files r = .ok (.ok unit))
    (hopen : w.opening v.files r.target = some f) :
    (r.executable = [] ∧ v' = v.wrote f (Build.finish r.pretty unit)) ∨
      (r.executable ≠ [] ∧ ∃ left, v' = (v.wrote f (Build.finish r.pretty unit)).ran (compilerLine r) left) := by
  cases h with
  | misused hr' => simp_all
  | unreadable hr' h => simp_all
  | faulty hr' h => simp_all
  | unopened hr' _ hopen' => simp_all
  | written hr' h hopen' hexe => simp_all
  | compiled hr' h hopen' hexe left =>
    obtain rfl := Option.some.inj (hr.symm.trans hr')
    obtain rfl := Option.some.inj (hopen.symm.trans hopen')
    obtain rfl : unit = _ := Except.ok.inj (Except.ok.inj (hbuilt.symm.trans h))
    exact Or.inr ⟨hexe, left, rfl⟩

/-- A command line is run only after the target was written, and only for an executable. -/
theorem Runs.executed_iff (h : w.Runs argv v status v') :
    v'.executed ≠ v.executed ↔ ∃ r, request? argv = some r ∧ w.Writes v.files r ∧ r.executable ≠ [] := by
  cases h with
  | misused hr => simp [hr]
  | unreadable hr h => simp [hr, h, Writes]
  | faulty hr h => simp [hr, h, Writes]
  | unopened hr _ hopen => simp [hr, hopen, Writes]
  | written hr _ _ hexe => simp [hr, hexe]
  | compiled hr h hopen hexe => simp [hr, h, hopen, hexe, Writes]

/-- What is run is run once, and its end on the files that it finds becomes the status. -/
theorem Runs.executed_eq (h : w.Runs argv v status v') {r : Request} (hr : request? argv = some r)
    (hran : v'.executed ≠ v.executed) : ∃ found, v'.executed = v.executed ++ [(compilerLine r, found)] ∧
      status = (w.ending found (compilerLine r)).passedOn := by
  cases h with
  | compiled hr' =>
    obtain rfl := Option.some.inj (hr.symm.trans hr')
    exact ⟨_, rfl, rfl⟩
  | _ => exact absurd rfl hran

/-- Status 0 says that all went well. -/
theorem Runs.succeeded (h : w.Runs argv v status v') :
    status = 0 ↔ ∃ r, request? argv = some r ∧ w.Writes v.files r ∧
      (r.executable = [] ∨ ∃ found, v'.executed = v.executed ++ [(compilerLine r, found)] ∧
        w.ending found (compilerLine r) = .exited 0) := by
  cases h with
  | misused hr => simp [hr]
  | unreadable hr h => simp [hr, h, Writes]
  | faulty hr h => simp [hr, h, Writes]
  | unopened hr _ hopen => simp [hr, hopen, Writes]
  | written hr h hopen hexe => simp [hr, h, hopen, hexe, Writes]
  | compiled hr h hopen hexe => simp [hr, h, hopen, hexe, Writes, WaitStatus.passedOn_eq_zero]

end

/-! ## Status and effects -/

/-- The exit status and the effects of a run agree with each other, with the arguments and with the files. -/
structure Agrees (w : World) (argv : List Bytes) (v : Snapshot w.File) (status : UInt8) (v' : Snapshot w.File) :
    Prop where
  /-- there is a request unless the arguments are misused, and it holds what they ask for -/
  asked : (request? argv = none ↔ Misused argv) ∧ ∀ r, request? argv = some r → Asks argv r
  /-- without a source that can be read nothing is done -/
  refused : Misused argv ∨ (∃ r cause, request? argv = some r ∧ w.built v.files r = .error cause) →
    status = 2 ∧ v' = v
  /-- a source that can be read but not built is the one cause of status 1 without any effect -/
  rejected : status = 1 ∧ v' = v ↔ ∃ r fault, request? argv = some r ∧ w.built v.files r = .ok (.error fault)
  /-- a unit that is built is written to the target, if this can be opened, and nothing is written anywhere else:
  that is how the files are left, or, if an executable is asked for, how the compiler finds them -/
  delivered : ∀ r unit, request? argv = some r → w.built v.files r = .ok (.ok unit) →
    (w.opening v.files r.target = none → status = 2 ∧ v' = v) ∧
    ∀ f, w.opening v.files r.target = some f →
      let written := Function.update v.files f
        (some (if ascii "-no-pretty" ∈ words argv then unit else Layout.indent Layout.defaultStep unit))
      (¬ WantsExecutable argv → v'.files = written) ∧
      (WantsExecutable argv → v'.executed = v.executed ++ [(compilerLine r, written)])
  /-- a command line is run if and only if the target is written and an executable is asked for -/
  executed : v'.executed ≠ v.executed ↔
    ∃ r, request? argv = some r ∧ w.Writes v.files r ∧ WantsExecutable argv
  /-- it is the compiler's, it is run once, and its end on the files that it finds becomes the status -/
  compiled : v'.executed ≠ v.executed → ∃ r found, request? argv = some r ∧
    v'.executed = v.executed ++ [(compilerLine r, found)] ∧
    (∀ code, w.ending found (compilerLine r) = .exited code → status = code) ∧
    ∀ signal, w.ending found (compilerLine r) = .signalled signal → status = 1
  /-- status 0 says that the target is written and that the compiler, if it is to be run, ends well -/
  succeeded : status = 0 ↔ ∃ r, request? argv = some r ∧ w.Writes v.files r ∧
    (¬ WantsExecutable argv ∨ ∃ found, v'.executed = v.executed ++ [(compilerLine r, found)] ∧
      w.ending found (compilerLine r) = .exited 0)

end World

namespace Path

/-- The file that a path leads to, if it leads to one. -/
def Target.file? : Target → Option (Location × Bytes)
  | .file l name => some (l, name)
  | .folder _ => none

end Path

namespace Files

variable (fs : Files) (key f : Location × Bytes) (content : Bytes)

theorem lookup_map_of_ne (h : f ≠ key) :
    (fs.map fun e => if e.1 = key then (key, content) else e).lookup f = fs.lookup f := by
  induction fs with
  | nil => rfl
  | cons e fs ih =>
    rw [List.map_cons]
    by_cases he : e.1 = key
    · have hne : f ≠ e.1 := fun heq => h (heq.trans he)
      rw [if_pos he, List.lookup_cons, List.lookup_cons, beq_false_of_ne h, beq_false_of_ne hne]
      exact ih
    · rw [if_neg he, List.lookup_cons, List.lookup_cons, ih]

theorem lookup_map_self (h : fs.any (fun e => e.1 == key) = true) :
    (fs.map fun e => if e.1 = key then (key, content) else e).lookup key = some content := by
  induction fs with
  | nil => cases h
  | cons e fs ih =>
    rw [List.map_cons]
    by_cases he : e.1 = key
    · rw [if_pos he, List.lookup_cons, beq_self_eq_true]
    · have hrest : fs.any (fun e => e.1 == key) = true := by simpa [he] using h
      rw [if_neg he, List.lookup_cons, beq_false_of_ne (Ne.symm he)]
      exact ih hrest

/-- Putting a file changes what this file holds and nothing else. -/
theorem lookup_put :
    (fun f => (fs.put key content).lookup f) = Function.update (fun f => fs.lookup f) key (some content) := by
  funext f
  unfold put
  by_cases hf : f = key
  · subst hf
    rw [Function.update_self]
    split
    · rename_i hany
      exact lookup_map_self fs f content hany
    · rename_i hany
      have hnone : fs.lookup f = none := by
        rw [List.lookup_eq_none_iff]
        intro e he
        rw [bne_iff_ne]
        rintro rfl
        exact hany (List.any_eq_true.mpr ⟨e, he, beq_self_eq_true e.1⟩)
      rw [List.lookup_append, hnone, List.lookup_cons, beq_self_eq_true]
      rfl
  · rw [Function.update_of_ne hf]
    split
    · exact lookup_map_of_ne fs key f content hf
    · rw [List.lookup_append, List.lookup_cons, beq_false_of_ne hf]
      exact Option.or_none

end Files

namespace Machine

/-- What can be seen of a machine. -/
def view (s : Machine) : Snapshot (Location × Bytes) where
  files f := s.files.lookup f
  executed := s.executed.map fun (line, found) => (line, fun f => found.lookup f)

/-- A path that leads to a file can be written. -/
theorem write_file {path : Bytes} {l : Location} {name : Bytes}
    (h : Path.target? (Bytes.zeroTerminated path) = some (.file l name)) (text : Bytes) (s : Machine) :
    (write path text s).1 = true ∧ (write path text s).2.view = s.view.wrote (l, name) text := by
  rw [write, h]
  exact ⟨rfl, congrArg (Snapshot.mk · s.view.executed) (Files.lookup_put s.files (l, name) text)⟩

/-- Any other path cannot. -/
theorem write_of_no_file {path : Bytes} (h : (Path.target? (Bytes.zeroTerminated path)).bind Path.Target.file? = none)
    (text : Bytes) (s : Machine) : write path text s = (false, s) := by
  rw [write]
  split
  · rename_i l name htarget
    rw [htarget] at h
    cases h
  · rfl

/-- A machine in memory is a world, whatever runs its command lines. -/
def world (shell : Interpreter) : World where
  State := Machine
  File := Location × Bytes
  host := host shell
  view := view
  reading files path :=
    (Path.target? (Bytes.zeroTerminated path)).elim (.error .closed) fun t =>
      t.file?.elim (.error .folder) fun f => (files f).elim (.error .closed) .ok
  opening _ path := (Path.target? (Bytes.zeroTerminated path)).bind Path.Target.file?
  ending files line := (shell line files).1.status
  read_eq path s := by
    show (s.files.read path, s) = _
    unfold Files.read
    rcases Path.target? (Bytes.zeroTerminated path) with _ | (l | ⟨l, name⟩)
    · rfl
    · rfl
    · cases h : s.files.lookup (l, name) <;> simp [Path.Target.file?, view, h]
  write_opened h text := by
    obtain ⟨t, htarget, hfile⟩ := Option.bind_eq_some_iff.mp h
    cases t with
    | folder l => cases hfile
    | file l name =>
      cases hfile
      exact write_file htarget text _
  write_refused h text := by
    have hwrite := write_of_no_file h text
    exact ⟨congrArg Prod.fst (hwrite _), congrArg (fun r => r.2.view) (hwrite _)⟩
  view_complain _ _ := rfl
  execute_eq line s := by
    refine ⟨rfl, (execute shell line s).2.view.files, ?_⟩
    show (execute shell line s).2.view = _
    simp [view, execute, Snapshot.ran]

end Machine

end Trampoline

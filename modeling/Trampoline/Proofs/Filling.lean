import Trampoline.Proofs.Variables

/-!
# Trampoline.Proofs.Filling -- running code without contents

The slots of a `letrec` are there before they are filled, and they are filled one after the other, in
the order of the definitions. Until then a slot holds nothing that the program put there. Its reference
may be passed around, as when a closure captures it, but nobody may look into it.

To find out who does, code is run without contents. A `Filling` says to which slot each variable refers
and which slots are filled, and a conditional may take either arm. `ReadsFilledAll` says that on no path
an operation looks into an empty slot.

What a run has changed is said by `Fills` and `Vacates`: which names were filled or emptied, and from
which range of the counter the temporaries are that may refer to something else now.
-/

namespace Trampoline

/-! ## Running code without contents -/

/-- To which slot each variable refers, and which slots are filled. A slot has the name of the variable
that was declared with it. -/
structure Filling where
  refers : Ident → Ident
  filled : Ident → Prop

namespace Filling

/-- Before a function runs. Whatever it can see was filled by those who made it, who have ended. -/
def full : Filling := ⟨id, fun _ => True⟩

/-- Lets a variable refer to a slot. -/
def point (s : Filling) (x y : Ident) : Filling :=
  { s with refers := fun z => if z = x then y else s.refers z }

def fill (s : Filling) (y : Ident) : Filling := { s with filled := fun z => z = y ∨ s.filled z }

def vacate (s : Filling) (y : Ident) : Filling := { s with filled := fun z => z ≠ y ∧ s.filled z }

/-- The slot of a variable is filled. -/
def Ready (s : Filling) (x : Ident) : Prop := s.filled (s.refers x)

end Filling

namespace Instr

/-- The variables whose slots an operation looks into, outside the arms of a conditional. What a closure
captures and what a call passes on are references. -/
def derefs : Instr → List Ident
  | .put _ (.primitive p) => p.operands
  | .call _ callee _ => [callee]
  | .branch _ _ test _ _ _ _ => [test]
  | .copy _ src => [src]
  | .halt arg => [arg]
  | _ => []

mutual

/-- From one filling to another by the operation of a pair. A slot that is declared to be filled later
is empty from its own pair on, before which no operation has its variable. Nothing comes after a halt. -/
def Runs : Instr → Filling → Filling → Prop
  | .put dst _, s, t => t = (s.point dst dst).fill dst
  | .call dst _ _, s, t => t = s.point dst dst
  | .branch dst _ _ a av b bv, s, t =>
    (∃ u, RunsAll a s u ∧ t = u.point dst (u.refers av)) ∨
      ∃ u, RunsAll b s u ∧ t = u.point dst (u.refers bv)
  | .slot dst, s, t => t = (s.point dst dst).vacate dst
  | .copy dst _, s, t => t = s.fill (s.refers dst)
  | .halt _, _, _ => False
  | .verbatim _ _, _, _ => False

def RunsAll : List Instr → Filling → Filling → Prop
  | [], s, t => t = s
  | i :: is, s, t => ∃ u, i.Runs s u ∧ RunsAll is u t

end

mutual

/-- The operation of a pair looks into no empty slot, whichever arm is taken. -/
def ReadsFilled : Instr → Filling → Prop
  | .branch _ _ test a _ b _, s => s.Ready test ∧ ReadsFilledAll a s ∧ ReadsFilledAll b s
  | .put dst p, s => ∀ x ∈ derefs (.put dst p), s.Ready x
  | .call _ callee _, s => s.Ready callee
  | .slot _, _ => True
  | .copy _ src, s => s.Ready src
  | .halt arg, s => s.Ready arg
  | .verbatim _ _, _ => True

/-- On no path an operation looks into an empty slot. -/
def ReadsFilledAll : List Instr → Filling → Prop
  | [], _ => True
  | i :: is, s => i.ReadsFilled s ∧ ∀ t, i.Runs s t → ReadsFilledAll is t

end

/-- If all slots are filled before the code runs, so they are behind it, on all paths. -/
def LeavesFilled (code : List Instr) : Prop := ∀ t, RunsAll code .full t → ∀ x, t.filled x

/-- A run of code is a run of its first part and of the rest. -/
theorem runsAll_append {a b : List Instr} {s t : Filling} :
    RunsAll (a ++ b) s t ↔ ∃ u, RunsAll a s u ∧ RunsAll b u t := by
  induction a generalizing s with
  | nil => simp [RunsAll]
  | cons i is ih =>
    simp only [List.cons_append, RunsAll, ih]
    constructor
    · rintro ⟨u, hi, v, his, hb⟩
      exact ⟨v, ⟨u, hi, his⟩, hb⟩
    · rintro ⟨v, ⟨u, hi, his⟩, hb⟩
      exact ⟨u, hi, v, his, hb⟩

theorem forall_runsAll_append {a b : List Instr} {s : Filling} {Q : Filling → Prop} :
    (∀ t, RunsAll (a ++ b) s t → Q t) ↔
      ∀ u, RunsAll a s u → ∀ t, RunsAll b u t → Q t := by
  constructor
  · intro h u hu t ht
    exact h t (runsAll_append.mpr ⟨u, hu, ht⟩)
  · intro h t ht
    obtain ⟨u, hu, ht⟩ := runsAll_append.mp ht
    exact h u hu t ht

/-- What holds behind a conditional holds behind either arm. -/
theorem forall_runs_branch {dst test av bv : Ident} {kind : Kind} {a b : List Instr} {s : Filling}
    {Q : Filling → Prop} :
    (∀ t, RunsAll [.branch dst kind test a av b bv] s t → Q t) ↔
      (∀ u, RunsAll a s u → Q (u.point dst (u.refers av))) ∧
        ∀ u, RunsAll b s u → Q (u.point dst (u.refers bv)) := by
  constructor
  · intro h
    constructor
    · intro u hu
      exact h _ ⟨_, Or.inl ⟨u, hu, rfl⟩, rfl⟩
    · intro u hu
      exact h _ ⟨_, Or.inr ⟨u, hu, rfl⟩, rfl⟩
  · rintro ⟨ha, hb⟩ t ⟨_, ⟨u, hu, rfl⟩ | ⟨u, hu, rfl⟩, rfl⟩
    · exact ha u hu
    · exact hb u hu

theorem runsAll_singleton {i : Instr} {s t : Filling} : RunsAll [i] s t ↔ i.Runs s t := by
  simp [RunsAll]

/-- Code reads filled slots only if its first part does, and the rest does behind every run of the first part.
-/
theorem readsFilledAll_append {a b : List Instr} {s : Filling} :
    ReadsFilledAll (a ++ b) s ↔
      ReadsFilledAll a s ∧ ∀ t, RunsAll a s t → ReadsFilledAll b t := by
  induction a generalizing s with
  | nil => simp [RunsAll, ReadsFilledAll]
  | cons i is ih =>
    simp only [List.cons_append, RunsAll, ReadsFilledAll, ih]
    constructor
    · rintro ⟨hi, hrest⟩
      refine ⟨⟨hi, fun u hu => (hrest u hu).1⟩, ?_⟩
      rintro t ⟨u, hu, ht⟩
      exact (hrest u hu).2 t ht
    · rintro ⟨⟨hi, his⟩, hb⟩
      exact ⟨hi, fun u hu => ⟨his u hu, fun t ht => hb t ⟨u, hu, ht⟩⟩⟩

theorem readsFilledAll_singleton {i : Instr} {s : Filling} :
    ReadsFilledAll [i] s ↔ i.ReadsFilled s := by
  simp [ReadsFilledAll]

end Instr

/-! ## What the code of a tree changes -/

/-- A temporary that was drawn from a range of the counter. -/
def Ident.DrawnIn (n n' : Nat) (x : Ident) : Prop := ∃ t k, x = .temp t k ∧ n ≤ k ∧ k < n'

theorem Ident.not_drawnIn_temp {n k : Nat} {t : Temp} (h : k < n) (l : Nat) :
    ¬ (Ident.temp t k).DrawnIn n l := by
  rintro ⟨t', k', heq, hk⟩
  cases heq
  omega

theorem Ident.not_drawnIn_named {n n' : Nat} {x : Bytes} : ¬ (Ident.named x).DrawnIn n n' := by
  rintro ⟨t, k, heq, _⟩
  cases heq

namespace Filling

/-- Source names refer to slots of their own, and only such slots can be empty. -/
structure Plain (s : Filling) : Prop where
  named : ∀ x, s.refers (.named x) = .named x
  temp : ∀ t k, s.filled (.temp t k)

/-- Moreover, slots of certain names are not in use, so they are not empty. -/
structure Fits (s : Filling) (P : Bytes → Prop) : Prop extends s.Plain where
  free : ∀ x, P x → s.filled (.named x)

/-- Some names were filled, and variables have changed only if they were drawn from a range. -/
structure Fills (n n' : Nat) (xs : List Bytes) (s t : Filling) : Prop where
  filled : ∀ x, t.filled x ↔ x ∈ xs.map .named ∨ s.filled x
  refers : ∀ x, ¬ x.DrawnIn n n' → t.refers x = s.refers x

variable {s t u : Filling} {n m n' : Nat} {P Q : Bytes → Prop} {xs ys : List Bytes}

theorem fits_full : full.Fits P :=
  { named := fun _ => rfl, temp := fun _ _ => trivial, free := fun _ _ => trivial }

/-- A state fits fewer names as well. -/
theorem Fits.mono (h : s.Fits P) (hPQ : ∀ x, Q x → P x) : s.Fits Q :=
  { h with free := fun x hx => h.free x (hPQ x hx) }

theorem Plain.ready_named (h : s.Plain) (x : Bytes) : s.Ready (.named x) ↔ s.filled (.named x) := by
  rw [Ready, h.named]

theorem ready_point (s : Filling) (x y : Ident) : (s.point x y).Ready x ↔ s.filled y := by
  simp [Ready, point]

/-- Slots of some names were declared and are empty. -/
structure Vacates (xs : List Bytes) (s t : Filling) : Prop where
  filled : ∀ x, t.filled x ↔ x ∉ xs.map .named ∧ s.filled x
  refers : ∀ x, t.refers x = s.refers x

namespace Fills

theorem same (h : Fills n n' [] s t) (x : Ident) : t.filled x ↔ s.filled x := by
  rw [h.filled]
  exact or_iff_right List.not_mem_nil

/-- Where no name is filled, a variable that is not drawn is as ready as before. -/
theorem ready (h : Fills n n' [] s t) {x : Ident} (hx : ¬ x.DrawnIn n n') : t.Ready x ↔ s.Ready x := by
  rw [Ready, Ready, h.refers x hx]
  exact h.same _

theorem refl (n n' : Nat) (s : Filling) : Fills n n' [] s s := ⟨fun x => by simp, fun _ _ => rfl⟩

theorem widen (h : Fills n m xs s t) {l l' : Nat} (hl : l ≤ n) (hl' : m ≤ l') :
    Fills l l' xs s t := by
  refine ⟨h.filled, fun x hx => h.refers x ?_⟩
  rintro ⟨tmp, k, rfl, hk⟩
  exact hx ⟨tmp, k, rfl, by omega, by omega⟩

/-- Fills that follow each other are one fill. -/
theorem trans (h : Fills n m xs s t) (h' : Fills m n' ys t u) (hn : n ≤ m) (hm : m ≤ n') :
    Fills n n' (xs ++ ys) s u := by
  have hwide := h.widen (Nat.le_refl n) hm
  have hwide' := h'.widen hn (Nat.le_refl n')
  constructor
  · intro x
    rw [h'.filled, h.filled, List.map_append, List.mem_append, or_left_comm, or_assoc]
  · intro x hx
    exact (hwide'.refers x hx).trans (hwide.refers x hx)

/-- A temporary from the range may be set to anything. -/
theorem point (h : Fills n n' xs s t) {tmp : Temp} {k : Nat} (hn : n ≤ k) (hk : k < n') (y : Ident) :
    Fills n n' xs s (t.point (.temp tmp k) y) := by
  refine ⟨h.filled, fun x hx => ?_⟩
  have hne : x ≠ .temp tmp k := by
    rintro rfl
    exact hx ⟨tmp, k, rfl, hn, hk⟩
  exact (if_neg hne).trans (h.refers x hx)

/-- The slot of a temporary is filled for good. -/
theorem fill_temp (h : Fills n n' xs s t) (hs : s.Plain) (tmp : Temp) (k : Nat) :
    Fills n n' xs s (t.fill (.temp tmp k)) := by
  refine ⟨fun x => Iff.trans (or_iff_right_of_imp ?_) (h.filled x), h.refers⟩
  rintro rfl
  exact (h.filled _).mpr (Or.inr (hs.temp tmp k))

/-- The copy that fills the slot of a name. -/
theorem copy (h : Fills n n' [] s t) (hs : s.Plain) (x : Bytes) :
    Fills n n' [x] s (t.fill (t.refers (.named x))) := by
  have hx : t.refers (.named x) = .named x := by
    rw [h.refers _ Ident.not_drawnIn_named]
    exact hs.named x
  rw [hx]
  refine ⟨fun y => ?_, h.refers⟩
  rw [List.map_singleton, List.mem_singleton, ← h.same]
  exact Iff.rfl

/-- What fits still fits when slots are filled. -/
theorem fits (h : Fills n n' xs s t) (hs : s.Fits P) : t.Fits P where
  named x := by
    rw [h.refers _ Ident.not_drawnIn_named]
    exact hs.named x
  temp tmp k := (h.filled _).mpr (Or.inr (hs.temp tmp k))
  free x hx := (h.filled _).mpr (Or.inr (hs.free x hx))

end Fills

/-- Declaring a slot empties this slot and no other. -/
theorem Plain.vacate (hs : s.Plain) (x : Bytes) :
    ((s.point (.named x) (.named x)).vacate (.named x)).Plain ∧
      Vacates [x] s ((s.point (.named x) (.named x)).vacate (.named x)) := by
  have hrefers : ∀ y, (s.point (.named x) (.named x)).refers y = s.refers y := by
    intro y
    by_cases hy : y = .named x
    · rw [hy]
      exact (if_pos rfl).trans (hs.named x).symm
    · exact if_neg hy
  refine ⟨⟨fun y => (hrefers _).trans (hs.named y), fun t k => ⟨by simp, hs.temp t k⟩⟩, ?_, hrefers⟩
  intro y
  rw [List.map_singleton, List.mem_singleton]
  exact Iff.rfl

namespace Vacates

theorem refl (s : Filling) : Vacates [] s s := ⟨fun x => by simp, fun _ => rfl⟩

theorem trans (h : Vacates xs s t) (h' : Vacates ys t u) : Vacates (xs ++ ys) s u := by
  refine ⟨fun x => ?_, fun x => (h'.refers x).trans (h.refers x)⟩
  rw [h'.filled, h.filled, List.map_append, List.mem_append, not_or]
  exact and_left_comm.trans and_assoc.symm

/-- What fits still fits if none of its names is vacated. -/
theorem fits (h : Vacates xs s t) (hs : s.Fits P) (hPx : ∀ x, P x → x ∉ xs) : t.Fits P where
  named x := (h.refers _).trans (hs.named x)
  temp tmp k := (h.filled _).mpr ⟨by simp, hs.temp tmp k⟩
  free x hx := (h.filled _).mpr ⟨by simpa using hPx x hx, hs.free x hx⟩

/-- Slots that were emptied and filled again. -/
theorem refill (h : Vacates xs s t) (h' : Fills n n' xs t u) (hs : ∀ x ∈ xs, s.filled (.named x)) :
    Fills n n' [] s u := by
  refine ⟨fun x => ?_, fun x hx => (h'.refers x hx).trans (h.refers x)⟩
  rw [h'.filled, h.filled]
  by_cases hx : x ∈ xs.map .named
  · obtain ⟨y, hy, rfl⟩ := List.mem_map.mp hx
    exact iff_of_true (Or.inl hx) (Or.inr (hs y hy))
  · simp [hx]

end Vacates

end Filling

end Trampoline

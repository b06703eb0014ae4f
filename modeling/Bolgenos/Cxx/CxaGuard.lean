import Mathlib.Tactic

/-!
# Guarded initialization of static objects

The compiler has every caller of a function with a static object look at the guard byte
first and call `__cxa_guard_acquire` only if it is zero. The guard of this runtime is one
boolean, which `acquire` sets before the initializer runs. Callers are tasks and interrupt
handlers; their steps interleave in any order. The fields `completed` and `released` of the
state are not in the code: they count the initializers that ran to their end and tell whether
one of these was followed by `__cxa_guard_release`.
-/

namespace Bolgenos

def compareExchange (value expected desired : Bool) : Bool × Bool :=
  if value = expected then (true, desired) else (false, value)

def cxaGuardAcquire (guard : Bool) : ℕ × Bool :=
  let (exchanged, guard) := compareExchange guard false true
  (if exchanged then 1 else 0, guard)

/-- `__cxa_guard_release` has an empty body. -/
def cxaGuardRelease (guard : Bool) : Bool := guard

def cxaGuardAbort (guard : Bool) : Bool := (compareExchange guard true false).2

/-- Where a caller is: in front of the check, between the check and the call of `acquire`, in
its initializer, behind it with or without success, or on its way to use the object. -/
inductive GuardPhase where
  | outside
  | checked
  | initializing
  | initialized
  | failed
  | uses
  deriving DecidableEq, Repr

inductive GuardAction where
  | check
  | acquire
  | finish
  | fail
  | release
  | abort
  deriving DecidableEq, Repr

structure GuardState (ι : Type) where
  guard : Bool := false
  phase : ι → GuardPhase := fun _ => .outside
  completed : ℕ := 0
  released : Bool := false

def GuardPhase.busy : GuardPhase → Bool
  | .initializing | .initialized | .failed => true
  | _ => false

def GuardAction.tests : GuardAction → Bool
  | .check | .acquire => true
  | _ => false

namespace GuardState

variable {ι : Type} [DecidableEq ι]

def setPhase (s : GuardState ι) (i : ι) (phase : GuardPhase) : GuardState ι :=
  { s with phase := Function.update s.phase i phase }

def step (s : GuardState ι) (i : ι) (a : GuardAction) : Option (GuardState ι) :=
  match s.phase i, a with
  | .outside, .check => some (s.setPhase i (if s.guard then .uses else .checked))
  | .checked, .acquire =>
    let (acquired, guard) := cxaGuardAcquire s.guard
    some ({ s with guard := guard }.setPhase i (if acquired = 1 then .initializing else .uses))
  | .initializing, .finish => some ({ s with completed := s.completed + 1 }.setPhase i .initialized)
  | .initializing, .fail => some (s.setPhase i .failed)
  | .initialized, .release =>
    some ({ s with guard := cxaGuardRelease s.guard, released := true }.setPhase i .uses)
  -- a caller whose initializer failed may try again
  | .failed, .abort => some ({ s with guard := cxaGuardAbort s.guard }.setPhase i .outside)
  | _, _ => none

/-- Runs with their steps: the state before the step, the caller and its action. -/
inductive Run : List (GuardState ι × ι × GuardAction) → GuardState ι → Prop where
  | start : Run [] {}
  | step {steps : List (GuardState ι × ι × GuardAction)} {s s' : GuardState ι} {i : ι}
      {a : GuardAction} : Run steps s → s.step i a = some s' → Run (steps ++ [(s, i, a)]) s'

def Busy (s : GuardState ι) : Prop := ∃ i, (s.phase i).busy = true

/-- At most one initializer has run to its end, and nobody uses the object before an
initializer has completed and released the guard. -/
def Safe (s : GuardState ι) : Prop :=
  s.completed ≤ 1 ∧ ((∃ i, s.phase i = .uses) → s.released = true)

variable {s s' : GuardState ι} {i j : ι} {a : GuardAction} {phase : GuardPhase}

theorem phase_setPhase_self (s : GuardState ι) (i : ι) (phase : GuardPhase) :
    (s.setPhase i phase).phase i = phase := Function.update_self _ _ _

theorem phase_setPhase_of_ne (h : j ≠ i) : (s.setPhase i phase).phase j = s.phase j :=
  Function.update_of_ne h _ _

theorem step_cases (h : s.step i a = some s') :
    (s.phase i = .outside ∧ a = .check ∧ s.guard = false ∧ s' = s.setPhase i .checked) ∨
    (s.phase i = .outside ∧ a = .check ∧ s.guard = true ∧ s' = s.setPhase i .uses) ∨
    (s.phase i = .checked ∧ a = .acquire ∧ s.guard = false ∧
      s' = { s with guard := true }.setPhase i .initializing) ∨
    (s.phase i = .checked ∧ a = .acquire ∧ s.guard = true ∧ s' = s.setPhase i .uses) ∨
    (s.phase i = .initializing ∧ a = .finish ∧
      s' = { s with completed := s.completed + 1 }.setPhase i .initialized) ∨
    (s.phase i = .initializing ∧ a = .fail ∧ s' = s.setPhase i .failed) ∨
    (s.phase i = .initialized ∧ a = .release ∧
      s' = { s with released := true }.setPhase i .uses) ∨
    (s.phase i = .failed ∧ a = .abort ∧ s' = { s with guard := false }.setPhase i .outside) := by
  have habort : cxaGuardAbort s.guard = false := by
    cases s.guard <;> rfl
  unfold step at h
  split at h
  case h_1 hp =>
    cases hg : s.guard with
    | false =>
      rw [hg] at h
      exact Or.inl ⟨hp, rfl, rfl, (Option.some.inj h).symm⟩
    | true =>
      rw [hg] at h
      exact Or.inr (Or.inl ⟨hp, rfl, rfl, (Option.some.inj h).symm⟩)
  case h_2 hp =>
    obtain ⟨guard, phases, completed, released⟩ := s
    cases guard with
    | false => exact Or.inr (Or.inr (Or.inl ⟨hp, rfl, rfl, (Option.some.inj h).symm⟩))
    | true =>
      exact Or.inr (Or.inr (Or.inr (Or.inl ⟨hp, rfl, rfl, (Option.some.inj h).symm⟩)))
  case h_3 hp => simp_all
  case h_4 hp => simp_all
  case h_5 hp => simp_all [cxaGuardRelease]
  case h_6 hp => simp_all
  case h_7 => cases h

/-- The states of the runs: nobody has the guard, one caller has it and runs its initializer,
or the guard has been released. -/
inductive Inv (s : GuardState ι) : Prop where
  | free : s.guard = false → (∀ j, (s.phase j).busy = false) → s.completed = 0 →
      s.released = false → Inv s
  | held (i : ι) : s.guard = true → (∀ j, (s.phase j).busy = true ↔ j = i) →
      s.completed = (if s.phase i = .initialized then 1 else 0) → s.released = false → Inv s
  | done : s.guard = true → (∀ j, (s.phase j).busy = false) → s.completed = 1 →
      s.released = true → Inv s

omit [DecidableEq ι] in
theorem Inv.completed_le (h : Inv s) : s.completed ≤ 1 := by
  cases h with
  | free hguard hphase hcompleted hreleased => omega
  | held i hguard hphase hcompleted hreleased =>
    rw [hcompleted]
    split <;> omega
  | done hguard hphase hcompleted hreleased => omega

omit [DecidableEq ι] in
theorem Inv.released_iff (h : Inv s) (hguard : s.guard = true) :
    s.released = true ↔ ¬ s.Busy := by
  cases h with
  | free hfree hphase hcompleted hreleased => simp [hfree] at hguard
  | held i hset hphase hcompleted hreleased =>
    have hbusy : s.Busy := ⟨i, (hphase i).2 rfl⟩
    simp [hreleased, hbusy]
  | done hset hphase hcompleted hreleased => simp [hreleased, Busy, hphase]

omit [DecidableEq ι] in
theorem Inv.held_of_busy (h : Inv s) (hi : (s.phase i).busy = true) :
    s.guard = true ∧ (∀ j, (s.phase j).busy = true ↔ j = i) ∧
      s.completed = (if s.phase i = .initialized then 1 else 0) ∧ s.released = false := by
  cases h with
  | free hguard hphase hcompleted hreleased => simp [hphase i] at hi
  | held k hguard hphase hcompleted hreleased =>
    obtain rfl := (hphase i).1 hi
    exact ⟨hguard, hphase, hcompleted, hreleased⟩
  | done hguard hphase hcompleted hreleased => simp [hphase i] at hi

omit [DecidableEq ι] in
theorem init_inv : Inv ({} : GuardState ι) :=
  .free rfl (fun _ => rfl) rfl rfl

theorem busy_setPhase (s : GuardState ι) (i j : ι) (phase : GuardPhase) :
    ((s.setPhase i phase).phase j).busy =
      if j = i then phase.busy else (s.phase j).busy := by
  by_cases hj : j = i
  · rw [hj, phase_setPhase_self, if_pos rfl]
  · rw [phase_setPhase_of_ne hj, if_neg hj]

theorem Inv.move (h : Inv s) (hi : (s.phase i).busy = false) (hphase : phase.busy = false) :
    Inv (s.setPhase i phase) := by
  have hsame : ∀ j, ((s.setPhase i phase).phase j).busy = (s.phase j).busy := by
    intro j
    rw [busy_setPhase]
    split
    · next hj => rw [hj, hphase, hi]
    · rfl
  cases h with
  | free hguard hbusy hcompleted hreleased =>
    exact .free hguard (fun j => (hsame j).trans (hbusy j)) hcompleted hreleased
  | held k hguard hbusy hcompleted hreleased =>
    have hk : k ≠ i := by
      intro hki
      rw [← hki, (hbusy k).2 rfl] at hi
      cases hi
    refine .held k hguard (fun j => by rw [hsame j, hbusy j]) ?_ hreleased
    rw [phase_setPhase_of_ne hk]
    exact hcompleted
  | done hguard hbusy hcompleted hreleased =>
    exact .done hguard (fun j => (hsame j).trans (hbusy j)) hcompleted hreleased

theorem Inv.acquire (h : Inv s) (hguard : s.guard = false) :
    Inv ({ s with guard := true }.setPhase i .initializing) := by
  cases h with
  | free hfree hphase hcompleted hreleased =>
    refine .held i rfl (fun j => ?_) ?_ hreleased
    · rw [busy_setPhase]
      split <;> simp_all [GuardPhase.busy]
    · rw [phase_setPhase_self]
      exact hcompleted
  | held k hset hphase hcompleted hreleased => simp [hset] at hguard
  | done hset hphase hcompleted hreleased => simp [hset] at hguard

theorem Inv.hold (h : Inv s) (hi : (s.phase i).busy = true) (hphase : phase.busy = true)
    {completed : ℕ} (hcompleted : completed = if phase = .initialized then 1 else 0) :
    Inv ({ s with completed := completed }.setPhase i phase) := by
  obtain ⟨hguard, hbusy, -, hreleased⟩ := h.held_of_busy hi
  refine .held i hguard (fun j => ?_) ?_ hreleased
  · rw [busy_setPhase]
    split <;> simp_all
  · rw [phase_setPhase_self]
    exact hcompleted

theorem busy_setPhase_of_alone (hbusy : ∀ j, (s.phase j).busy = true ↔ j = i)
    (hphase : phase.busy = false) (j : ι) : ((s.setPhase i phase).phase j).busy = false := by
  rw [busy_setPhase]
  split
  · exact hphase
  · next hj => simpa [hj] using hbusy j

theorem Inv.release (h : Inv s) (hi : s.phase i = .initialized) :
    Inv ({ s with released := true }.setPhase i .uses) := by
  obtain ⟨hguard, hbusy, hcompleted, -⟩ := h.held_of_busy (i := i) (by rw [hi]; rfl)
  rw [if_pos hi] at hcompleted
  exact .done hguard (busy_setPhase_of_alone hbusy rfl) hcompleted rfl

theorem Inv.abort (h : Inv s) (hi : s.phase i = .failed) :
    Inv ({ s with guard := false }.setPhase i .outside) := by
  obtain ⟨-, hbusy, hcompleted, hreleased⟩ := h.held_of_busy (i := i) (by rw [hi]; rfl)
  have hzero : s.completed = 0 := by simpa [hi] using hcompleted
  exact .free rfl (busy_setPhase_of_alone hbusy rfl) hzero hreleased

theorem Inv.step (h : Inv s) (hstep : s.step i a = some s') : Inv s' := by
  rcases step_cases hstep with ⟨hp, -, -, rfl⟩ | ⟨hp, -, -, rfl⟩ | ⟨hp, -, hguard, rfl⟩ |
    ⟨hp, -, -, rfl⟩ | ⟨hp, -, rfl⟩ | ⟨hp, -, rfl⟩ | ⟨hp, -, rfl⟩ | ⟨hp, -, rfl⟩
  · exact h.move (by rw [hp]; rfl) rfl
  · exact h.move (by rw [hp]; rfl) rfl
  · exact h.acquire hguard
  · exact h.move (by rw [hp]; rfl) rfl
  · have hi : (s.phase i).busy = true := by rw [hp]; rfl
    have hzero : s.completed = 0 := by simpa [hp] using (h.held_of_busy hi).2.2.1
    apply h.hold hi rfl
    simp [hzero]
  · have hi : (s.phase i).busy = true := by rw [hp]; rfl
    have hzero : s.completed = 0 := by simpa [hp] using (h.held_of_busy hi).2.2.1
    exact h.hold hi rfl hzero
  · exact h.release hp
  · exact h.abort hp

theorem Run.inv {steps : List (GuardState ι × ι × GuardAction)} (h : Run steps s) : Inv s := by
  induction h with
  | start => exact init_inv
  | step _ hstep ih => exact ih.step hstep

omit [DecidableEq ι] in
theorem Inv.not_busy (h : Inv s) (hguard : s.guard = false) : ¬ s.Busy := by
  cases h with
  | free hfree hphase hcompleted hreleased => simp [Busy, hphase]
  | held k hset hphase hcompleted hreleased => simp [hset] at hguard
  | done hset hphase hcompleted hreleased => simp [hset] at hguard

theorem Safe.setPhase (h : s.Safe) (hphase : phase ≠ .uses) : (s.setPhase i phase).Safe := by
  refine ⟨h.1, fun huses => ?_⟩
  obtain ⟨j, hj⟩ := huses
  have hne : j ≠ i := by
    intro hji
    rw [hji, phase_setPhase_self] at hj
    exact hphase hj
  rw [phase_setPhase_of_ne hne] at hj
  exact h.2 ⟨j, hj⟩

theorem Inv.safe_uses_iff (h : Inv s) (hguard : s.guard = true) :
    (s.setPhase i .uses).Safe ↔ ¬ s.Busy := by
  rw [← h.released_iff hguard]
  constructor
  · intro hsafe
    exact hsafe.2 ⟨i, phase_setPhase_self s i .uses⟩
  · intro hreleased
    exact ⟨h.completed_le, fun _ => hreleased⟩

/-- A step keeps the state safe exactly if it does not look at the guard of a busy holder. -/
theorem safe_step_iff (h : Inv s) (hsafe : s.Safe) (hstep : s.step i a = some s') :
    s'.Safe ↔ (a.tests = true → ¬ s.Busy) := by
  have hle : s'.completed ≤ 1 := (h.step hstep).completed_le
  rcases step_cases hstep with ⟨-, rfl, hguard, rfl⟩ | ⟨-, rfl, hguard, rfl⟩ |
    ⟨-, rfl, hguard, rfl⟩ | ⟨-, rfl, hguard, rfl⟩ | ⟨-, rfl, rfl⟩ | ⟨-, rfl, rfl⟩ |
    ⟨-, rfl, rfl⟩ | ⟨-, rfl, rfl⟩
  · exact iff_of_true (hsafe.setPhase (by decide)) (fun _ => h.not_busy hguard)
  · rw [h.safe_uses_iff hguard]
    simp only [GuardAction.tests, true_implies]
  · have hset : ({ s with guard := true } : GuardState ι).Safe := hsafe
    exact iff_of_true (hset.setPhase (by decide)) (fun _ => h.not_busy hguard)
  · rw [h.safe_uses_iff hguard]
    simp only [GuardAction.tests, true_implies]
  -- the other four do not look at the guard
  · have hdone : ({ s with completed := s.completed + 1 } : GuardState ι).Safe :=
      ⟨hle, hsafe.2⟩
    exact iff_of_true (hdone.setPhase (by decide)) (fun ha => by cases ha)
  · exact iff_of_true (hsafe.setPhase (by decide)) (fun ha => by cases ha)
  · exact iff_of_true ⟨hle, fun _ => rfl⟩ (fun ha => by cases ha)
  · have hclear : ({ s with guard := false } : GuardState ι).Safe := hsafe
    exact iff_of_true (hclear.setPhase (by decide)) (fun ha => by cases ha)

/-- In any interleaving at most one initializer runs to its end. Nobody uses the object early
if and only if no caller looks at the guard, in the inline check or in `__cxa_guard_acquire`,
while another one is between its successful acquire and its release or abort. -/
theorem run_safe_iff {steps : List (GuardState ι × ι × GuardAction)} (h : Run steps s) :
    s.completed ≤ 1 ∧
      ((∀ t ∈ steps.map Prod.fst ++ [s], t.Safe) ↔
        ∀ st ∈ steps, st.2.2.tests = true → ¬ st.1.Busy) := by
  refine ⟨h.inv.completed_le, ?_⟩
  induction h with
  | start =>
    have hinit : Safe ({} : GuardState ι) := by
      refine ⟨Nat.zero_le 1, fun huses => ?_⟩
      obtain ⟨j, hj⟩ := huses
      cases hj
    simpa using hinit
  | @step steps s s' i a hrun hstep ih =>
    have hstates : (∀ t ∈ (steps ++ [(s, i, a)]).map Prod.fst ++ [s'], t.Safe) ↔
        (∀ t ∈ steps.map Prod.fst ++ [s], t.Safe) ∧ s'.Safe := by
      rw [List.map_append, List.forall_mem_append, List.forall_mem_singleton]
      rfl
    rw [hstates, ih, List.forall_mem_append, List.forall_mem_singleton]
    apply and_congr_right
    intro hcond
    have hnow : s.Safe := ih.2 hcond s (by simp)
    exact safe_step_iff hrun.inv hnow hstep

theorem run_safe_after_release :
    ∃ (steps : List (GuardState Bool × Bool × GuardAction)) (s : GuardState Bool),
      Run steps s ∧ s.phase true = .uses ∧ s.completed ≤ 1 ∧
        ∀ t ∈ steps.map Prod.fst ++ [s], t.Safe := by
  have hrun := ((((@Run.start Bool _).step (i := false) (a := .check) rfl).step (i := false)
    (a := .acquire) rfl).step (i := false) (a := .finish) rfl).step (i := false) (a := .release) rfl
  have hrun' := hrun.step (i := true) (a := .check) rfl
  refine ⟨_, _, hrun', rfl, (run_safe_iff hrun').1, (run_safe_iff hrun').2.2 ?_⟩
  simp only [List.nil_append, List.cons_append, List.forall_mem_cons, Busy]
  decide

theorem run_not_safe_during_initializer :
    ¬ ∀ (steps : List (GuardState Bool × Bool × GuardAction)) (s : GuardState Bool),
      Run steps s → s.Safe := by
  intro hall
  have hrun := (((@Run.start Bool _).step (i := false) (a := .check) rfl).step (i := false)
    (a := .acquire) rfl).step (i := true) (a := .check) rfl
  have hreleased := (hall _ _ hrun).2 ⟨true, rfl⟩
  cases hreleased

end GuardState

end Bolgenos

import Bolgenos.Machine

/-!
# Irq guards

The interrupt flag of the CPU is mirrored by the global `interrupts_enabled`, which
`irq::enable` and `irq::disable` keep in step with it. A guard saves what `irq::disable`
returned, and that is the mirror. An interrupt gate clears the flag only, so in a handler
the two differ, and the outermost guard of a handler turns interrupts on when it is closed.
-/

namespace Bolgenos

structure IrqState where
  interruptFlag : Bool
  interruptsEnabled : Bool
  deriving DecidableEq, Repr

namespace IrqState

def sti (i : IrqState) : IrqState := { i with interruptFlag := true }

def cli (i : IrqState) : IrqState := { i with interruptFlag := false }

def popFlags (i : IrqState) (flag : Bool) : IrqState := { i with interruptFlag := flag }

def store (i : IrqState) : IrqState := { i with interruptsEnabled := true }

/-- `interrupts_enabled.exchange(false)`, whose result is the old `interruptsEnabled`. -/
def exchange (i : IrqState) : IrqState := { i with interruptsEnabled := false }

end IrqState

namespace IrqGuard

/-- An open scope: the flag and the mirror when it was opened, and the field of its
`RecursiveIrqLocker`. -/
structure Scope where
  openedFlag : Bool
  openedMirror : Bool
  enableOnUnlock : Bool := false
  deriving DecidableEq, Repr

/-- `locking` is between the two instructions of `irq::disable` in `lock`, `unlocking`
between those of `irq::enable` in `unlock`. -/
inductive Phase where
  | code
  | locking
  | unlocking
  deriving DecidableEq, Repr

structure Context where
  scopes : List Scope := []
  phase : Phase := .code
  deriving DecidableEq, Repr

structure Execution where
  irq : IrqState
  current : Context := {}
  interrupted : List (Bool × Context) := []
  deriving DecidableEq, Repr

inductive Event where
  | opened (flag mirror : Bool)
  | closed (scope : Scope) (after : Bool)
  | other
  deriving DecidableEq, Repr

/-- What task code does to the flag and the mirror outside its scopes: the instructions of
`irq::enable`, of `irq::disable` and of a switch of tasks. -/
inductive Primitive : IrqState → IrqState → Prop
  | store (i : IrqState) : Primitive i i.store
  | sti (i : IrqState) : Primitive i i.sti
  | cli (i : IrqState) : Primitive i i.cli
  | exchange (i : IrqState) : Primitive i i.exchange
  | popFlags (i : IrqState) (flag : Bool) : Primitive i (i.popFlags flag)

inductive Step : Execution → Event → Execution → Prop
  | primitive {x : Execution} {i : IrqState} : x.interrupted = [] → x.current = {} →
      Primitive x.irq i → Step x .other { x with irq := i }
  | lockCli {x : Execution} : x.current.phase = .code →
      Step x (.opened x.irq.interruptFlag x.irq.interruptsEnabled)
        { x with
          irq := x.irq.cli
          current := ⟨⟨x.irq.interruptFlag, x.irq.interruptsEnabled, false⟩ ::
            x.current.scopes, .locking⟩ }
  | lockExchange {x : Execution} {sc : Scope} {rest : List Scope} :
      x.current = ⟨sc :: rest, .locking⟩ →
      Step x .other
        { x with
          irq := x.irq.exchange
          current := ⟨{ sc with enableOnUnlock := x.irq.interruptsEnabled } :: rest, .code⟩ }
  | unlockSkip {x : Execution} {sc : Scope} {rest : List Scope} :
      x.current = ⟨sc :: rest, .code⟩ → sc.enableOnUnlock = false →
      Step x (.closed sc x.irq.interruptFlag) { x with current := ⟨rest, .code⟩ }
  | unlockStore {x : Execution} {sc : Scope} {rest : List Scope} :
      x.current = ⟨sc :: rest, .code⟩ → sc.enableOnUnlock = true →
      Step x .other { x with irq := x.irq.store, current := ⟨sc :: rest, .unlocking⟩ }
  | unlockSti {x : Execution} {sc : Scope} {rest : List Scope} :
      x.current = ⟨sc :: rest, .unlocking⟩ →
      Step x (.closed sc x.irq.sti.interruptFlag)
        { x with irq := x.irq.sti, current := ⟨rest, .code⟩ }
  | interrupt {x : Execution} : x.irq.interruptFlag = true →
      Step x .other
        { irq := x.irq.cli
          current := {}
          interrupted := (x.irq.interruptFlag, x.current) :: x.interrupted }
  | iret {x : Execution} {saved : Bool} {c : Context} {rest : List (Bool × Context)} :
      x.current = {} → x.interrupted = (saved, c) :: rest →
      Step x .other { irq := x.irq.popFlags saved, current := c, interrupted := rest }

inductive Run : Execution → List Event → Execution → Prop
  | nil (x : Execution) : Run x [] x
  | step {x y z : Execution} {es : List Event} {e : Event} :
      Run x es y → Step y e z → Run x (es ++ [e]) z

def Execution.openScopes (x : Execution) : List Scope :=
  x.current.scopes ++ x.interrupted.flatMap (·.2.scopes)

def Transparent (es : List Event) : Prop :=
  ∀ sc after, .closed sc after ∈ es → after = sc.openedFlag

def SyncedAtOpening (es : List Event) : Prop :=
  ∀ flag mirror, .opened flag mirror ∈ es → flag = mirror

/-- Only the outermost scope of some code can have found the mirror set. -/
def Nested : List Scope → Prop
  | [] => True
  | [sc] => sc.enableOnUnlock = sc.openedMirror
  | sc :: rest => sc = ⟨false, false, false⟩ ∧ Nested rest

def CurrentOk (i : IrqState) : Context → Prop
  | ⟨[], phase⟩ => phase = .code
  | ⟨sc :: rest, .code⟩ => i = ⟨false, false⟩ ∧ Nested (sc :: rest)
  | ⟨sc :: rest, .locking⟩ => i = ⟨false, sc.openedMirror⟩ ∧
      Nested ({ sc with enableOnUnlock := sc.openedMirror } :: rest)
  | ⟨sc :: rest, .unlocking⟩ => i = ⟨false, true⟩ ∧ rest = [] ∧ sc.openedMirror = true

structure Inv (x : Execution) : Prop where
  current : CurrentOk x.irq x.current
  interrupted : ∀ p ∈ x.interrupted, p = (true, {})

variable {x y z : Execution} {es : List Event} {e : Event}

theorem nested_open {i : IrqState} {scopes : List Scope} (h : CurrentOk i ⟨scopes, .code⟩) :
    Nested (⟨i.interruptFlag, i.interruptsEnabled, i.interruptsEnabled⟩ :: scopes) := by
  cases scopes with
  | nil => rfl
  | cons sc rest =>
    obtain ⟨hi, hn⟩ := h
    subst hi
    exact ⟨rfl, hn⟩

theorem step_inv (h : Inv x) (hstep : Step x e y) :
    Inv y ∧ ∀ sc after, e = .closed sc after → after = sc.openedMirror := by
  obtain ⟨hcur, hint⟩ := h
  cases hstep with
  | primitive hx hc hp =>
    refine ⟨⟨?_, hint⟩, by simp⟩
    simp only [hc]
    rfl
  | lockCli hphase =>
    refine ⟨⟨⟨rfl, ?_⟩, hint⟩, by simp⟩
    apply nested_open
    rw [← hphase]
    exact hcur
  | @lockExchange sc rest hc =>
    rw [hc] at hcur
    obtain ⟨hi, hn⟩ := hcur
    refine ⟨⟨⟨?_, ?_⟩, hint⟩, by simp⟩
    · rw [hi]
      rfl
    · rw [hi]
      exact hn
  | @unlockSkip sc rest hc hb =>
    rw [hc] at hcur
    obtain ⟨hi, hn⟩ := hcur
    cases rest with
    | nil =>
      refine ⟨⟨rfl, hint⟩, ?_⟩
      intro sc' after he
      cases he
      rw [hi, ← hn, hb]
    | cons sc' rest =>
      refine ⟨⟨⟨hi, hn.2⟩, hint⟩, ?_⟩
      intro sc'' after he
      cases he
      rw [hi, hn.1]
  | @unlockStore sc rest hc hb =>
    rw [hc] at hcur
    obtain ⟨hi, hn⟩ := hcur
    cases rest with
    | nil =>
      refine ⟨⟨⟨?_, rfl, ?_⟩, hint⟩, by simp⟩
      · rw [hi]
        rfl
      · rw [← hn, hb]
    | cons sc' rest =>
      rw [hn.1] at hb
      cases hb
  | @unlockSti sc rest hc =>
    rw [hc] at hcur
    obtain ⟨hi, hrest, hm⟩ := hcur
    subst hrest
    refine ⟨⟨rfl, hint⟩, ?_⟩
    intro sc' after he
    cases he
    exact hm.symm
  | interrupt hflag =>
    have hc : x.current = {} := by
      generalize x.current = c at hcur
      obtain ⟨scopes, phase⟩ := c
      cases scopes with
      | nil =>
        cases hcur
        rfl
      | cons sc rest => cases phase <;> simp [hcur.1] at hflag
    refine ⟨⟨rfl, ?_⟩, by simp⟩
    intro p hp
    rcases List.mem_cons.mp hp with heq | hp
    · rw [heq, hflag, hc]
    · exact hint p hp
  | @iret saved c rest hc hx =>
    rw [hx] at hint
    have hp := hint (saved, c) List.mem_cons_self
    cases hp
    refine ⟨⟨rfl, ?_⟩, by simp⟩
    intro p hp
    exact hint p (List.mem_cons_of_mem _ hp)

def Execution.records (x : Execution) : List (Bool × Bool) :=
  x.openScopes.map fun sc => (sc.openedFlag, sc.openedMirror)

theorem step_records (hstep : Step x e y) :
    match e with
    | .opened flag mirror => y.records = (flag, mirror) :: x.records
    | .closed sc _ => x.records = (sc.openedFlag, sc.openedMirror) :: y.records
    | .other => y.records = x.records := by
  cases hstep with
  | primitive => rfl
  | lockCli => rfl
  | lockExchange hc => simp [Execution.records, Execution.openScopes, hc]
  | unlockSkip hc => simp [Execution.records, Execution.openScopes, hc]
  | unlockStore hc => simp [Execution.records, Execution.openScopes, hc]
  | unlockSti hc => simp [Execution.records, Execution.openScopes, hc]
  | interrupt => simp [Execution.records, Execution.openScopes]
  | iret hc hx => simp [Execution.records, Execution.openScopes, hc, hx]

theorem run_inv (hrun : Run x es y) (h : Inv x) : Inv y := by
  induction hrun with
  | nil => exact h
  | step _ hstep ih => exact (step_inv ih hstep).1

theorem run_closed (hrun : Run x es y) (h : Inv x) :
    ∀ sc after, .closed sc after ∈ es → after = sc.openedMirror := by
  induction hrun with
  | nil => simp
  | step hrun hstep ih =>
    intro sc after hmem
    rcases List.mem_append.mp hmem with hmem | hmem
    · exact ih sc after hmem
    · exact (step_inv (run_inv hrun h) hstep).2 sc after (List.mem_singleton.mp hmem).symm

theorem run_records (hrun : Run x es y) (hx : x.records = []) :
    (∀ r ∈ y.records, .opened r.1 r.2 ∈ es) ∧
    (∀ sc after, .closed sc after ∈ es → .opened sc.openedFlag sc.openedMirror ∈ es) ∧
    ∀ flag mirror, .opened flag mirror ∈ es → (flag, mirror) ∈ y.records ∨
      ∃ sc after, .closed sc after ∈ es ∧ sc.openedFlag = flag ∧ sc.openedMirror = mirror := by
  induction hrun with
  | nil => simp [hx]
  | @step y z es e hrun hstep ih =>
    obtain ⟨ih1, ih2, ih3⟩ := ih
    have hrec := step_records hstep
    cases e with
    | opened flag mirror =>
      simp only at hrec
      rw [hrec]
      grind
    | closed sc after =>
      simp only at hrec
      rw [hrec] at ih1 ih3
      grind
    | other =>
      simp only at hrec
      rw [hrec]
      grind

def HandlerClear (x : Execution) : Prop :=
  x.interrupted ≠ [] → x.interrupted.length = 1 ∧ x.irq.interruptFlag = false ∧
    ∀ sc ∈ x.current.scopes, sc.openedMirror = false

theorem step_handlerClear (hinv : Inv x) (h : HandlerClear x) (hstep : Step x e y)
    (hsync : ∀ flag mirror, e = .opened flag mirror → flag = mirror) : HandlerClear y := by
  have hcur := hinv.current
  cases hstep with
  | primitive hx hc hp =>
    intro hy
    exact absurd hx hy
  | lockCli hphase =>
    intro hy
    obtain ⟨hlen, hflag, hscopes⟩ := h hy
    refine ⟨hlen, rfl, ?_⟩
    intro sc hsc
    rcases List.mem_cons.mp hsc with heq | hsc
    · rw [heq, ← hsync _ _ rfl, hflag]
    · exact hscopes sc hsc
  | @lockExchange sc rest hc =>
    intro hy
    obtain ⟨hlen, hflag, hscopes⟩ := h hy
    rw [hc] at hscopes
    refine ⟨hlen, hflag, ?_⟩
    intro sc' hsc
    rcases List.mem_cons.mp hsc with heq | hsc
    · rw [heq]
      exact hscopes sc List.mem_cons_self
    · exact hscopes sc' (List.mem_cons_of_mem _ hsc)
  | @unlockSkip sc rest hc hb =>
    intro hy
    obtain ⟨hlen, hflag, hscopes⟩ := h hy
    rw [hc] at hscopes
    exact ⟨hlen, hflag, fun sc' hsc => hscopes sc' (List.mem_cons_of_mem _ hsc)⟩
  | @unlockStore sc rest hc hb =>
    intro hy
    obtain ⟨hlen, hflag, hscopes⟩ := h hy
    rw [hc] at hscopes
    exact ⟨hlen, hflag, hscopes⟩
  | @unlockSti sc rest hc =>
    intro hy
    obtain ⟨hlen, hflag, hscopes⟩ := h hy
    rw [hc] at hcur hscopes
    have hclear := hscopes sc List.mem_cons_self
    rw [hcur.2.2] at hclear
    cases hclear
  | interrupt hflag =>
    intro hy
    have hx : x.interrupted = [] := by
      by_contra hx
      rw [(h hx).2.1] at hflag
      cases hflag
    refine ⟨by simp [hx], rfl, by simp⟩
  | @iret saved c rest hc hx =>
    intro hy
    have hlen := (h (by simp [hx])).1
    rw [hx, List.length_cons] at hlen
    have hrest : rest = [] := List.length_eq_zero_iff.mp (by omega)
    exact absurd hrest hy

theorem run_handlerClear (hrun : Run x es y) (hinv : Inv x) (h : HandlerClear x)
    (hsync : SyncedAtOpening es) : HandlerClear y := by
  induction hrun with
  | nil => exact h
  | step hrun hstep ih =>
    refine step_handlerClear (run_inv hrun hinv) (ih ?_) hstep ?_
    · intro flag mirror hmem
      exact hsync flag mirror (List.mem_append_left _ hmem)
    · intro flag mirror he
      exact hsync flag mirror (by simp [he])

theorem Inv.clear (h : Inv x) (ho : x.openScopes ≠ []) : x.irq.interruptFlag = false := by
  have hint : x.interrupted.flatMap (·.2.scopes) = [] := by
    rw [List.flatMap_eq_nil_iff]
    intro p hp
    rw [h.interrupted p hp]
  rw [Execution.openScopes, hint, List.append_nil] at ho
  have hcur := h.current
  generalize x.current = c at hcur ho
  obtain ⟨scopes, phase⟩ := c
  cases scopes with
  | nil => exact absurd rfl ho
  | cons sc rest => cases phase <;> simp [hcur.1]

/-- In every execution the flag is clear while a scope is open. If each scope is opened
where flag and mirror agree, every scope restores the flag and handlers keep it clear; and
where all scopes have been closed, they restored the flag only if that was so. -/
theorem run_transparent {i : IrqState} (hrun : Run { irq := i } es x) :
    (x.openScopes ≠ [] → x.irq.interruptFlag = false) ∧
    (SyncedAtOpening es →
      Transparent es ∧ (x.interrupted ≠ [] → x.irq.interruptFlag = false)) ∧
    (x.openScopes = [] → Transparent es → SyncedAtOpening es) := by
  have hinv : Inv { irq := i } := ⟨rfl, by simp⟩
  have hclosed := run_closed hrun hinv
  obtain ⟨-, hopened, hlast⟩ := run_records hrun rfl
  refine ⟨(run_inv hrun hinv).clear, ?_, ?_⟩
  · intro hsync
    refine ⟨?_, fun hx => (run_handlerClear hrun hinv (fun h => absurd rfl h) hsync hx).2.1⟩
    intro sc after hmem
    rw [hclosed sc after hmem]
    exact (hsync _ _ (hopened sc after hmem)).symm
  · intro hnone htrans flag mirror hmem
    rcases hlast flag mirror hmem with hrec | ⟨sc, after, hc, hf, hm⟩
    · simp [Execution.records, hnone] at hrec
    · rw [← hf, ← hm, ← htrans sc after hc, hclosed sc after hc]

theorem run_transparent_task :
    Transparent [.opened true true, .other, .other, .closed ⟨true, true, true⟩ true] := by
  have hrun : Run { irq := ⟨true, true⟩ }
      [.opened true true, .other, .other, .closed ⟨true, true, true⟩ true]
      { irq := ⟨true, true⟩ } :=
    .step (.step (.step (.step (.nil _) (.lockCli rfl)) (.lockExchange rfl))
      (.unlockStore rfl rfl)) (.unlockSti rfl)
  refine ((run_transparent hrun).2.1 ?_).1
  simp [SyncedAtOpening]

theorem handler_scope_not_transparent :
    ¬ ∀ es x, Run { irq := ⟨true, true⟩ } es x → Transparent es := by
  intro h
  have hrun : Run { irq := ⟨true, true⟩ }
      [.other, .opened false true, .other, .other, .closed ⟨false, true, true⟩ true]
      { irq := ⟨true, true⟩, interrupted := [(true, {})] } :=
    .step (.step (.step (.step (.step (.nil _) (.interrupt rfl)) (.lockCli rfl))
      (.lockExchange rfl)) (.unlockStore rfl rfl)) (.unlockSti rfl)
  have hclosed := h _ _ hrun ⟨false, true, true⟩ true (by simp)
  cases hclosed

end IrqGuard

end Bolgenos

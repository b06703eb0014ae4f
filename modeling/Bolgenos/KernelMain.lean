import Bolgenos.Devices.Ps2Controller

/-!
# The boot of the kernel

`kernel_main` initializes the PS/2 controller before it creates the scheduler. A poll of the
status register that comes too early sleeps, and a sleep yields to the scheduler until
`jiffies` has advanced.
-/

namespace Bolgenos

open FaultState

/-- `init_scheduling` up to the first switch. -/
def initScheduling : BootM Unit :=
  FaultState.modify fun b => { b with scheduling := true }

/-- The rest of `kernel_main` neither sleeps nor reads the registers. -/
def kernelMain (fuel : ℕ) : BootM Unit := do
  FaultState.modify fun b => { b with interruptsEnabled := false }
  FaultState.modify fun b => { b with interruptsEnabled := true }
  Ps2.initializeController fuel
  initScheduling

/-- A poll with time left did not find the awaited value, and the clock stood still in the
sleep that followed. -/
def Stalled (tr : List BootEvent) : Prop :=
  ∃ flag val st start now,
    [.poll flag val true st, .sleep start (msToTicks 1) now] <:+: tr ∧
      Ps2.shows flag val st = false ∧ now < start + msToTicks 1

def EndsLate (tr : List BootEvent) : Prop :=
  ∃ flag val st, [.poll flag val true st] <:+ tr ∧ Ps2.shows flag val st = false

structure Booting (b : Boot) : Prop where
  alone : b.scheduling = false
  yielded : .nullYield ∈ b.trace ↔ Stalled b.trace

variable {b b' : Boot} {fuel : ℕ}

theorem Booting.congr (h : Booting b) (hs : b'.scheduling = b.scheduling)
    (ht : b'.trace = b.trace) : Booting b' := by
  refine ⟨hs.trans h.alone, ?_⟩
  rw [ht]
  exact h.yielded

theorem pair_infix_concat {α : Type} {p q e : α} {tr : List α} :
    [p, q] <:+: tr ++ [e] ↔ [p, q] <:+: tr ∨ q = e ∧ [p] <:+ tr := by
  rw [List.infix_concat_iff, or_comm, List.suffix_concat_iff]
  apply or_congr_right
  constructor
  · intro hcase
    rcases hcase with hnil | ⟨t, ht, hsuf⟩
    · cases hnil
    · have ht : [p] ++ [q] = t ++ [e] := ht
      obtain ⟨hp, hq⟩ := List.append_inj' ht rfl
      cases hq
      exact ⟨rfl, hp ▸ hsuf⟩
  · intro ⟨hq, hsuf⟩
    rw [hq]
    exact .inr ⟨[p], rfl, hsuf⟩

theorem stalled_append {tr : List BootEvent} {e : BootEvent}
    (he : ∀ start now, e = .sleep start (msToTicks 1) now → ¬ now < start + msToTicks 1) :
    Stalled (tr ++ [e]) ↔ Stalled tr := by
  constructor
  · intro ⟨flag, val, st, start, now, hmem, hst, hlt⟩
    rcases pair_infix_concat.mp hmem with hmem | ⟨heq, -⟩
    · exact ⟨flag, val, st, start, now, hmem, hst, hlt⟩
    · exact absurd hlt (he start now heq.symm)
  · intro ⟨flag, val, st, start, now, hmem, hst, hlt⟩
    exact ⟨flag, val, st, start, now, pair_infix_concat.mpr (.inl hmem), hst, hlt⟩

def BootEvent.Plain (e : BootEvent) : Prop :=
  e ≠ .nullYield ∧ ∀ start ticks now, e ≠ .sleep start ticks now

theorem Booting.plain (h : Booting b) {e : BootEvent} (he : e.Plain) :
    Booting { b with trace := b.trace ++ [e] } := by
  obtain ⟨hy, hs⟩ := he
  refine ⟨h.alone, ?_⟩
  rw [stalled_append fun start now heq => absurd heq (hs _ _ _), ← h.yielded]
  simp [hy.symm]

theorem keeps_record {e : BootEvent} (he : e.Plain) : Keeps Booting (record e) :=
  Spec.modify fun _ h => h.plain he

theorem keeps_modify {f : Boot → Boot} (hs : ∀ b, (f b).scheduling = b.scheduling)
    (ht : ∀ b, (f b).trace = b.trace) : Keeps Booting (FaultState.modify f : BootM Unit) :=
  Spec.modify fun b h => h.congr (hs b) (ht b)

theorem keeps_gets {α : Type} {g : Boot → α} : Keeps Booting (gets g : BootM α) :=
  Spec.gets fun _ h => h

theorem schedYield_alone (h : b.scheduling = false) :
    schedYield b = (.error .nullDereference, { b with trace := b.trace ++ [.nullYield] }) := by
  have hgets : (gets Boot.scheduling : BootM Bool) b = (.ok false, b) := by
    rw [← h]
    rfl
  rw [schedYield, bind_apply_ok hgets]
  rfl

theorem sleepLoop_alone {start ticks : UInt32} (h : b.scheduling = false) :
    sleepLoop start ticks (fuel + 1) b =
      if b.env.jiffies b.jiffiesReads < start + ticks then
        (.error .nullDereference, { b with
          jiffiesReads := b.jiffiesReads + 1
          trace := b.trace ++ [.sleep start ticks (b.env.jiffies b.jiffiesReads)] ++
            [.nullYield] })
      else
        (.ok (), { b with
          jiffiesReads := b.jiffiesReads + 1
          trace := b.trace ++ [.sleep start ticks (b.env.jiffies b.jiffiesReads)] }) := by
  rw [sleepLoop, bind_apply_ok (loadJiffies_apply b), bind_apply_ok (record_apply _ _)]
  split_ifs
  · exact bind_apply_error (schedYield_alone h)
  · rfl

theorem spec_sleepLoop {start : UInt32} :
    Spec (fun b => Booting b ∧ EndsLate b.trace) (sleepLoop start (msToTicks 1) fuel)
      (fun _ => Booting) Booting := by
  intro b ⟨hb, flag, val, st, hend, hst⟩
  cases fuel with
  | zero => exact hb
  | succ fuel =>
    rw [sleepLoop_alone hb.alone]
    split_ifs with hnow
    · refine ⟨hb.alone, iff_of_true (by simp) ?_⟩
      refine ⟨flag, val, st, start, _, ?_, hst, hnow⟩
      exact pair_infix_concat.mpr (.inl (pair_infix_concat.mpr (.inr ⟨rfl, hend⟩)))
    · refine ⟨hb.alone, ?_⟩
      rw [stalled_append, ← hb.yielded]
      · simp
      · intro start' now' heq
        cases heq
        exact hnow

theorem spec_sleepMs :
    Spec (fun b => Booting b ∧ EndsLate b.trace) (sleepMs fuel 1) (fun _ => Booting)
      Booting := by
  refine Spec.bind (Q := fun _ b => Booting b ∧ EndsLate b.trace) (Spec.gets fun _ h => h) ?_
  intro enabled
  split_ifs
  · refine Spec.bind (Q := fun _ b => Booting b ∧ EndsLate b.trace) ?_ fun _ => spec_sleepLoop
    refine Spec.bind (Q := fun _ b => Booting b ∧ EndsLate b.trace) (Spec.gets fun _ h => h) ?_
    intro now
    refine Spec.bind (Q := fun _ b => Booting b ∧ EndsLate b.trace) ?_
      fun _ => Spec.pure fun _ h => h
    exact Spec.modify fun b h => ⟨h.1.congr rfl rfl, h.2⟩
  · exact Spec.fail fun _ h => h.1

namespace Ps2

theorem keeps_status : Keeps Booting status :=
  .bind keeps_gets fun _ => .bind (keeps_modify (fun _ => rfl) fun _ => rfl) fun _ => .pure _

theorem plain_poll {flag st : UInt8} {val left : Bool} :
    (BootEvent.poll flag val left st).Plain :=
  ⟨by simp, by simp⟩

theorem keeps_sendByte {byte : UInt8} : Keeps Booting (sendByte byte) :=
  keeps_record ⟨by simp, by simp⟩

theorem keeps_sendCommand {cmd : UInt8} : Keeps Booting (sendCommand cmd) :=
  keeps_record ⟨by simp, by simp⟩

theorem keeps_receiveByte : Keeps Booting receiveByte := by
  refine .bind keeps_gets fun byte => .bind (keeps_modify (fun _ => rfl) fun _ => rfl) fun _ => ?_
  exact .bind (keeps_record ⟨by simp, by simp⟩) fun _ => .pure _

theorem keeps_waitForFlag {flag : UInt8} {val : Bool} {ms : ℕ} :
    Keeps Booting (waitForFlag fuel flag val ms) := by
  induction ms with
  | zero =>
    exact .bind keeps_status fun st => .bind (keeps_record plain_poll) fun _ => .pure _
  | succ ms ih =>
    refine .bind keeps_status fun st => ?_
    refine Spec.bind (Q := fun _ b => Booting b ∧ [.poll flag val true st] <:+ b.trace)
      (Spec.modify fun b h => ⟨h.plain plain_poll, List.suffix_append _ _⟩) fun _ => ?_
    split_ifs with hst
    · exact Spec.pure fun _ h => h.1
    · refine Spec.bind (spec_sleepMs.strengthen ?_) fun _ => ih
      intro b ⟨hb, hend⟩
      exact ⟨hb, flag, val, st, hend, by simpa using hst⟩

theorem keeps_receive {ms : ℕ} : Keeps Booting (receive fuel ms) := by
  refine .bind keeps_waitForFlag fun ready => .ite ?_ (.pure _)
  exact .bind keeps_receiveByte fun _ => .pure _

theorem keeps_waitForOutput {ms : ℕ} : Keeps Booting (waitForOutput fuel ms) :=
  .bind keeps_waitForFlag fun _ => .pure _

theorem keeps_cleanBuffer : Keeps Booting (cleanBuffer fuel) := by
  induction fuel with
  | zero => exact .fail _
  | succ fuel ih =>
    exact .bind keeps_status fun st => .ite (.bind keeps_receiveByte fun _ => ih) (.pure _)

theorem keeps_conf : Keeps Booting conf := .bind keeps_sendCommand fun _ => keeps_receiveByte

theorem keeps_setConf {c : UInt8} : Keeps Booting (setConf c) :=
  .bind keeps_sendCommand fun _ => keeps_sendByte

theorem keeps_doSelftest : Keeps Booting (doSelftest fuel) := by
  refine .bind keeps_sendCommand fun _ => .bind keeps_receive fun reply => ?_
  cases reply with
  | none => exact .pure _
  | some byte => exact .pure _

theorem keeps_test {line : Line} : Keeps Booting (line.test fuel) := by
  refine .bind keeps_sendCommand fun _ => .bind keeps_receive fun reply => ?_
  cases reply with
  | none => exact .pure _
  | some byte => exact .pure _

theorem keeps_send {line : Line} {byte : UInt8} : Keeps Booting (line.send fuel byte) := by
  have hsend : Keeps Booting (do
      if ← waitForOutput fuel outputTimeout then
        sendByte byte
        return ErrorCode.ok
      else return .timeout) :=
    .bind keeps_waitForOutput fun ready =>
      .ite (.bind keeps_sendByte fun _ => .pure _) (.pure _)
  exact .ite (.bind keeps_sendCommand fun _ => hsend) hsend

theorem keeps_sendAck {line : Line} {byte ack : UInt8} :
    Keeps Booting (line.sendAck fuel byte ack) := by
  refine .bind keeps_send fun ret => .ite (.pure _) (.bind keeps_receive fun reply => ?_)
  cases reply with
  | none => exact .pure _
  | some byte => exact .pure _

theorem keeps_identify {ids : List UInt8} : Keeps Booting (identify fuel ids) := by
  induction ids with
  | nil => exact .pure _
  | cons idByte rest ih =>
    refine .bind keeps_receive fun reply => ?_
    cases reply with
    | none => exact .pure _
    | some byte => exact .ite ih (.pure _)

theorem keeps_probe {line : Line} : Keeps Booting (probe fuel line) := by
  refine .bind keeps_cleanBuffer fun _ => .bind keeps_sendAck fun ret => .ite (.pure _) ?_
  refine .bind keeps_sendAck fun ret => .ite (.pure _) ?_
  refine .bind keeps_identify fun known => .ite ?_ (.pure _)
  exact .bind keeps_sendAck fun _ => .pure _

theorem keeps_probeLine {line : Line} : Keeps Booting (probeLine fuel line) := by
  have hcount : Keeps Booting (countActive fuel line knownDevices) :=
    .bind keeps_probe fun _ => .bind (.pure _) fun _ => .pure _
  exact .bind hcount fun count => .ite (.fail _) (.pure _)

theorem keeps_initializeController : Keeps Booting (initializeController fuel) := by
  refine .bind keeps_sendCommand fun _ => .bind keeps_sendCommand fun _ => ?_
  refine .bind keeps_cleanBuffer fun _ => .bind keeps_conf fun c => .bind keeps_setConf fun _ => ?_
  refine .bind keeps_doSelftest fun passed => .ite (.fail _) ?_
  refine .bind keeps_sendCommand fun _ => .bind keeps_conf fun _ => ?_
  refine .bind keeps_sendCommand fun _ => .bind keeps_test fun _ => .bind keeps_test fun _ => ?_
  refine .bind keeps_sendCommand fun _ => .bind keeps_sendCommand fun _ => ?_
  refine .bind keeps_probeLine fun first => .bind keeps_probeLine fun second => ?_
  refine .bind keeps_conf fun c => ?_
  have hlast : ∀ c, Keeps Booting (if (!second) = true then (do
      secondLine.disable
      setConf c) else setConf c) :=
    fun c => .ite (.bind keeps_sendCommand fun _ => keeps_setConf) keeps_setConf
  exact .ite (.bind keeps_sendCommand fun _ => hlast _) (hlast _)

end Ps2

theorem spec_kernelMain : Spec Booting (kernelMain fuel)
    (fun _ b => .nullYield ∈ b.trace ↔ Stalled b.trace)
    (fun b => .nullYield ∈ b.trace ↔ Stalled b.trace) := by
  have hkeep : ∀ {p : BootM Unit}, Keeps Booting p → Spec Booting p (fun _ => Booting)
      (fun b => .nullYield ∈ b.trace ↔ Stalled b.trace) := by
    intro p hp
    exact Spec.weaken hp (fun _ _ h => h) fun _ h => h.yielded
  refine Spec.bind (hkeep (keeps_modify (fun _ => rfl) fun _ => rfl)) fun _ => ?_
  refine Spec.bind (hkeep (keeps_modify (fun _ => rfl) fun _ => rfl)) fun _ => ?_
  refine Spec.bind (hkeep Ps2.keeps_initializeController) fun _ => ?_
  exact Spec.modify fun _ h => h.yielded

def bootTrace (env : Env) (fuel : ℕ) : List BootEvent :=
  (kernelMain fuel { env := env }).2.trace

theorem nullYield_mem_bootTrace {env : Env} :
    .nullYield ∈ bootTrace env fuel ↔ Stalled (bootTrace env fuel) := by
  have hstart : Booting { env := env } := by
    refine ⟨rfl, iff_of_false (by simp) ?_⟩
    intro ⟨flag, val, st, start, now, hmem, _⟩
    simp at hmem
  exact Spec.state spec_kernelMain hstart

/-- The boot does not yield to the scheduler before it exists if and only if no poll
stalls. -/
theorem no_nullYield_iff (env : Env) (fuel : ℕ) :
    .nullYield ∉ bootTrace env fuel ↔ ¬ Stalled (bootTrace env fuel) :=
  not_congr nullYield_mem_bootTrace

theorem no_nullYield_of_on_time {env : Env}
    (h : ∀ flag val st, .poll flag val true st ∈ bootTrace env fuel →
      Ps2.shows flag val st = true) : .nullYield ∉ bootTrace env fuel := by
  rw [nullYield_mem_bootTrace]
  intro ⟨flag, val, st, start, now, hmem, hst, _⟩
  have hshows := h flag val st (hmem.subset (by simp))
  rw [hst] at hshows
  cases hshows

theorem nullYield_late_selftest :
    ¬ ∀ env fuel, .nullYield ∉ bootTrace env fuel := by
  intro h
  exact h ⟨fun _ => 0, fun _ => 0, fun _ => 0⟩ 1 (by decide)

end Bolgenos

import Bolgenos.Machine

/-!
# The backtrace of a crash

`show_backtrace` follows the saved frame pointers. It goes on while a frame lies inside the
stack and its return address inside the code, and stops at a frame that is its own caller.
The memory is any memory; the output of a frame does not change the frames that follow.
-/

namespace Bolgenos

open ByteMemory FuelLoop

/-- The bounds that the linker gives to the kernel's code and stack. -/
structure KernelObject where
  codeBegin : ℕ
  codeEnd : ℕ
  stackBegin : ℕ
  stackEnd : ℕ

/-- A line of the output; an address outside its range is shown as invalid. -/
structure FrameLine where
  frame : ℕ
  ebp : Option ℕ
  eip : Option ℕ
  deriving DecidableEq, Repr

namespace Backtrace

def isInsideCode (ko : KernelObject) (ptr : ℕ) : Bool := ko.codeBegin ≤ ptr ∧ ptr < ko.codeEnd

def isInsideStack (ko : KernelObject) (ptr : ℕ) : Bool := ko.stackBegin ≤ ptr ∧ ptr < ko.stackEnd

def callersEbp (m : Mem) (frame : ℕ) : ℕ := read32 m frame

def returnAddress (m : Mem) (frame : ℕ) : ℕ := read32 m (wrap (frame + 4))

def showFrame (m : Mem) (ko : KernelObject) (frame : ℕ) : FrameLine where
  frame := frame
  ebp := if isInsideStack ko (callersEbp m frame) then some (callersEbp m frame) else none
  eip := if isInsideCode ko (returnAddress m frame) then some (returnAddress m frame) else none

def walkStep (m : Mem) (ko : KernelObject) (s : ℕ × List FrameLine) :
    Result ((ℕ × List FrameLine) ⊕ List FrameLine) :=
  let out := s.2 ++ [showFrame m ko s.1]
  let newFrame := callersEbp m s.1
  if s.1 = newFrame then .ok (.inr out)
  else if isInsideStack ko newFrame && isInsideCode ko (returnAddress m newFrame) then
    .ok (.inl (newFrame, out))
  else .ok (.inr out)

def startEbp (current ebp : ℕ) : ℕ := if ebp = 0 then current else ebp

def writeTmpFrame (m : Mem) (tmp ebp eip : ℕ) : Mem :=
  write32 (write32 m tmp ebp) (wrap (tmp + 4)) eip

def firstFrame (tmp ebp eip : ℕ) : ℕ := if eip = 0 then ebp else tmp

def showBacktrace (n : ℕ) (m : Mem) (ko : KernelObject) (current tmp ebp eip : ℕ) :
    Result (List FrameLine) :=
  let ebp := startEbp current ebp
  let m := writeTmpFrame m tmp ebp eip
  loop .divergence (walkStep m ko) n (firstFrame tmp ebp eip, [])

variable {m : Mem} {ko : KernelObject} {f k : ℕ} {out : List FrameLine}

def frameAt (m : Mem) (f k : ℕ) : ℕ := (callersEbp m)^[k] f

theorem frameAt_succ (m : Mem) (f k : ℕ) : frameAt m f (k + 1) = callersEbp m (frameAt m f k) :=
  Function.iterate_succ_apply' _ _ _

theorem frameAt_add (m : Mem) (f k n : ℕ) : frameAt m f (k + n) = frameAt m (frameAt m f n) k :=
  Function.iterate_add_apply _ _ _ _

def GoesOn (m : Mem) (ko : KernelObject) (f k : ℕ) : Prop :=
  frameAt m f (k + 1) ≠ frameAt m f k ∧ isInsideStack ko (frameAt m f (k + 1)) = true ∧
    isInsideCode ko (returnAddress m (frameAt m f (k + 1))) = true

theorem walkStep_of_goesOn (h : GoesOn m ko f k) (out : List FrameLine) :
    walkStep m ko (frameAt m f k, out) =
      .ok (.inl (frameAt m f (k + 1), out ++ [showFrame m ko (frameAt m f k)])) := by
  obtain ⟨hne, hstack, hcode⟩ := h
  rw [frameAt_succ] at *
  simp only [walkStep, if_neg (Ne.symm hne), hstack, hcode, Bool.and_self, if_true]

theorem walkStep_of_not_goesOn (h : ¬ GoesOn m ko f k) (out : List FrameLine) :
    walkStep m ko (frameAt m f k, out) = .ok (.inr (out ++ [showFrame m ko (frameAt m f k)])) := by
  rw [GoesOn, frameAt_succ] at h
  by_cases heq : frameAt m f k = callersEbp m (frameAt m f k)
  · simp only [walkStep, if_pos heq]
  · have hout : ¬ (isInsideStack ko (callersEbp m (frameAt m f k)) &&
        isInsideCode ko (returnAddress m (callersEbp m (frameAt m f k)))) = true := by
      rw [Bool.and_eq_true]
      intro hin
      exact h ⟨Ne.symm heq, hin⟩
    simp only [walkStep, if_neg heq, if_neg hout]

theorem walk_ends_iff :
    (∃ n out, loop .divergence (walkStep m ko) n (f, []) = .ok out) ↔ ∃ k, ¬ GoesOn m ko f k := by
  constructor
  · intro hends
    obtain ⟨n, out, hrun⟩ := hends
    by_contra hno
    have hall : ∀ k, GoesOn m ko f k := fun k => not_not.mp fun hk => hno ⟨k, hk⟩
    have hdiv := loop_diverges (e := Fault.divergence) (f := walkStep m ko)
      (fun s => ∃ k, s.1 = frameAt m f k) (by
        intro s hs
        obtain ⟨k, hk⟩ := hs
        obtain ⟨frame, out⟩ := s
        simp only at hk
        rw [hk, walkStep_of_goesOn (hall k)]
        exact ⟨_, rfl, k + 1, rfl⟩) n (s := (f, [])) ⟨0, rfl⟩
    rw [hdiv] at hrun
    cases hrun
  · intro hstop
    obtain ⟨k, hk⟩ := hstop
    obtain ⟨out, hrun, -⟩ := loop_total (e := Fault.divergence) (f := walkStep m ko)
      (fun d s => ∃ i, s.1 = frameAt m f i ∧ i + d = k) (fun _ => True) (by
        intro d s hs
        obtain ⟨i, hi, hd⟩ := hs
        obtain ⟨frame, out⟩ := s
        simp only at hi
        rw [hi]
        by_cases hgo : GoesOn m ko f i
        · have hne : i ≠ k := fun hik => hk (hik ▸ hgo)
          rw [walkStep_of_goesOn hgo]
          exact Or.inl ⟨_, d - 1, rfl, ⟨i + 1, rfl, by omega⟩, by omega⟩
        · rw [walkStep_of_not_goesOn hgo]
          exact Or.inr ⟨_, rfl, trivial⟩)
      (n := k + 1) (k := k) (s := (f, [])) ⟨0, rfl, by omega⟩ (Nat.lt_succ_self k)
    exact ⟨k + 1, out, hrun⟩

/-- The walk reaches a frame again, after frames none of which ends it. -/
def Circular (m : Mem) (ko : KernelObject) (f : ℕ) : Prop :=
  ∃ i j, i < j ∧ frameAt m f i = frameAt m f j ∧ ∀ k < j, GoesOn m ko f k

theorem goesOn_congr {i j : ℕ} (h : frameAt m f i = frameAt m f j) :
    GoesOn m ko f i ↔ GoesOn m ko f j := by
  simp only [GoesOn, frameAt_succ, h]

theorem Circular.goesOn (h : Circular m ko f) (k : ℕ) : GoesOn m ko f k := by
  obtain ⟨i, j, hij, heq, hall⟩ := h
  -- from round `j` on every frame is the one `j - i` rounds before it
  induction k using Nat.strong_induction_on with
  | _ k ih =>
    by_cases hk : k < j
    · exact hall k hk
    · have hback : frameAt m f (k - j + i) = frameAt m f (k - j + j) := by
        rw [frameAt_add, frameAt_add, heq]
      rw [Nat.sub_add_cancel (Nat.le_of_not_lt hk)] at hback
      exact (goesOn_congr hback).mp (ih _ (by omega))

/-- The stack is finite, so a walk that never stops comes back to a frame. -/
theorem circular_of_forall (h : ∀ k, GoesOn m ko f k) : Circular m ko f := by
  have hmem : ∀ k, frameAt m f (k + 1) ∈ Set.Ico ko.stackBegin ko.stackEnd := by
    intro k
    have hin := (h k).2.1
    simp only [isInsideStack, decide_eq_true_eq] at hin
    exact hin
  have hinj : ¬ Function.Injective fun k => frameAt m f (k + 1) := by
    intro hinj
    exact Set.infinite_of_injective_forall_mem hinj hmem (Set.finite_Ico _ _)
  simp only [Function.Injective, not_forall] at hinj
  obtain ⟨a, b, heq, hne⟩ := hinj
  rcases Nat.lt_or_gt_of_ne hne with hab | hba
  · exact ⟨a + 1, b + 1, by omega, heq, fun k _ => h k⟩
  · exact ⟨b + 1, a + 1, by omega, heq.symm, fun k _ => h k⟩

theorem exists_not_goesOn_iff : (∃ k, ¬ GoesOn m ko f k) ↔ ¬ Circular m ko f := by
  constructor
  · intro hstop hcirc
    obtain ⟨k, hk⟩ := hstop
    exact hk (hcirc.goesOn k)
  · intro hcirc
    by_contra hno
    exact hcirc (circular_of_forall fun k => not_not.mp fun hk => hno ⟨k, hk⟩)

/-- The backtrace ends unless the saved frame pointers lead into a cycle of two or more frames
of the stack, all with return addresses in the code: only a frame that is its own caller is
recognised. -/
theorem showBacktrace_ends_iff (m : Mem) (ko : KernelObject) (current tmp ebp eip : ℕ) :
    (∃ n out, showBacktrace n m ko current tmp ebp eip = .ok out) ↔
      ¬ Circular (writeTmpFrame m tmp (startEbp current ebp) eip) ko
        (firstFrame tmp (startEbp current ebp) eip) := by
  rw [← exists_not_goesOn_iff, ← walk_ends_iff]
  simp only [showBacktrace]

def pingPong : Mem :=
  write32 (write32 (write32 (write32 (fun _ => 0) 0x300100 0x300200) 0x300104 0x100010)
    0x300200 0x300100) 0x300204 0x100010

def kernelObject : KernelObject where
  codeBegin := 0x100000
  codeEnd := 0x200000
  stackBegin := 0x300000
  stackEnd := 0x301000

theorem showBacktrace_pingPong_diverges :
    ¬ ∃ n out, showBacktrace n pingPong kernelObject 0x300300 0x300308 0x300100 0 = .ok out := by
  have hcirc : Circular (writeTmpFrame pingPong 0x300308 (startEbp 0x300300 0x300100) 0)
      kernelObject (firstFrame 0x300308 (startEbp 0x300300 0x300100) 0) := by
    refine ⟨0, 2, by decide, by decide +kernel, ?_⟩
    intro k hk
    have hk' : k = 0 ∨ k = 1 := by omega
    rcases hk' with rfl | rfl
    · exact ⟨by decide +kernel, by decide +kernel, by decide +kernel⟩
    · exact ⟨by decide +kernel, by decide +kernel, by decide +kernel⟩
  intro hends
  simp only [showBacktrace] at hends
  exact exists_not_goesOn_iff.mp (walk_ends_iff.mp hends) hcirc

end Backtrace

end Bolgenos

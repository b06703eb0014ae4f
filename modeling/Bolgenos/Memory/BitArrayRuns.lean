import Bolgenos.Memory.BitArray
import Bolgenos.Lib.FaultState

/-!
# Bit arrays as arrays of booleans

The operations once more, with every access to a byte checked: an access at an offset from
the start of the array that is not below `expected_size` fails. No operation fails. After any
sequence of `set`, `get` answers what was set last, and `false` where nothing was set.
-/

namespace Bolgenos

open ByteMemory FaultState

def InRange (address bytes x : ℕ) : Prop := sub32 x address < bytes

instance (address bytes : ℕ) : DecidablePred (InRange address bytes) :=
  fun x => inferInstanceAs (Decidable (sub32 x address < bytes))

section Accesses

variable (ok : ℕ → Prop) [DecidablePred ok]

def loadByte (x : ℕ) : FaultState Fault Mem (BitVec 8) :=
  if ok x then gets fun m => m x else fail .outOfBounds

def storeByte (x : ℕ) (v : BitVec 8) : FaultState Fault Mem Unit :=
  if ok x then modify fun m => write8 m x v else fail .outOfBounds

namespace BitArray

def initializeIn (address size : ℕ) : FaultState Fault Mem BitArray := do
  let bytes := alignUp 8 size / 8
  (List.range bytes).forM fun idx => storeByte ok (wrap (address + idx)) 0
  pure ⟨size, address⟩

def getIn (a : BitArray) (index : ℕ) : FaultState Fault Mem Bool := do
  let byte ← loadByte ok (wrap (a.data + index / 8))
  pure (byte &&& mask index ≠ 0)

def setIn (a : BitArray) (index : ℕ) (value : Bool) : FaultState Fault Mem Unit := do
  let byte ← loadByte ok (wrap (a.data + index / 8))
  if value then storeByte ok (wrap (a.data + index / 8)) (byte ||| mask index)
  else storeByte ok (wrap (a.data + index / 8)) (byte &&& ~~~ mask index)

def construct (address size : ℕ) (history : List (ℕ × Bool)) : FaultState Fault Mem BitArray := do
  let a ← initializeIn ok address size
  history.forM fun call => setIn ok a call.1 call.2
  pure a

end BitArray

end Accesses

namespace BitArray

def lastSet (history : List (ℕ × Bool)) (i : ℕ) : Bool :=
  match history.reverse.find? fun call => call.1 = i with
  | some call => call.2
  | none => false

variable {ok : ℕ → Prop} [DecidablePred ok] {m : Mem} {a : BitArray} {i j n address : ℕ}

theorem loadByte_eq {x : ℕ} (h : ok x) : loadByte ok x m = (.ok (m x), m) := by
  rw [loadByte, if_pos h]
  rfl

theorem storeByte_eq {x : ℕ} (h : ok x) (v : BitVec 8) :
    storeByte ok x v m = (.ok (), write8 m x v) := by
  rw [storeByte, if_pos h]
  rfl

theorem getIn_eq (h : ok (wrap (a.data + i / 8))) : getIn ok a i m = (.ok (a.get m i), m) := by
  rw [getIn, bind_apply_ok (loadByte_eq h)]
  rfl

theorem setIn_eq (h : ok (wrap (a.data + i / 8))) (v : Bool) :
    setIn ok a i v m = (.ok (), a.set m i v) := by
  rw [setIn, bind_apply_ok (loadByte_eq h)]
  cases v with
  | false => exact storeByte_eq h _
  | true => exact storeByte_eq h _

theorem sub32_offset {off : ℕ} (h : off < 2 ^ 32) : sub32 (wrap (address + off)) address = off := by
  simp only [sub32, wrap]
  omega

theorem inRange_offset {off bytes : ℕ} (hbytes : bytes ≤ 2 ^ 32) (h : off < bytes) :
    InRange address bytes (wrap (address + off)) := by
  rw [InRange, sub32_offset (h.trans_le hbytes)]
  exact h

theorem expectedSize_lt (hn : n ≤ 2 ^ 32 - 8) : expectedSize n < 2 ^ 32 := by
  rw [expectedSize_eq]
  omega

theorem initializeIn_eq (hn : n ≤ 2 ^ 32 - 8) (m : Mem) (address : ℕ) :
    initializeIn (InRange address (expectedSize n)) address n m =
      (.ok ⟨n, address⟩, (initializeOn m address n).1) := by
  have hbytes : alignUp 8 n / 8 = expectedSize n := alignUp_eight (by omega)
  have hstore : ∀ idx ∈ List.range (alignUp 8 n / 8), ∀ m,
      storeByte (InRange address (expectedSize n)) (wrap (address + idx)) 0 m =
        (.ok (), write8 m (wrap (address + idx)) 0) := by
    intro idx hidx m
    rw [hbytes, List.mem_range] at hidx
    exact storeByte_eq (inRange_offset (expectedSize_lt hn).le hidx) 0
  rw [initializeIn, bind_apply_ok (forM_apply hstore m)]
  rfl

theorem byte_inRange (hn : n ≤ 2 ^ 32 - 8) (hi : i < n) :
    InRange address (expectedSize n) (wrap (address + i / 8)) :=
  inRange_offset (expectedSize_lt hn).le (div_lt_expectedSize hi)

theorem lastSet_concat (history : List (ℕ × Bool)) (call : ℕ × Bool) (i : ℕ) :
    lastSet (history ++ [call]) i = if i = call.1 then call.2 else lastSet history i := by
  simp only [lastSet, List.reverse_append, List.reverse_singleton, List.singleton_append,
    List.find?_cons]
  by_cases heq : call.1 = i
  · simp [heq]
  · simp [heq, Ne.symm heq]

theorem get_foldl_set (hn : n ≤ 2 ^ 32 - 8) (m : Mem) {history : List (ℕ × Bool)}
    (hlt : ∀ call ∈ history, call.1 < n) (hi : i < n) :
    (⟨n, address⟩ : BitArray).get (history.foldl (fun m call => set m ⟨n, address⟩ call.1 call.2)
      (initializeOn m address n).1) i = lastSet history i := by
  induction history using List.reverseRecOn with
  | nil => exact get_initializeOn (by omega) hi
  | append_singleton history call ih =>
    have hcall : call.1 < n := hlt call (by simp)
    rw [List.foldl_append, List.foldl_cons, List.foldl_nil, lastSet_concat]
    rw [get_set_of_byte, ih fun c hc => hlt c (by simp [hc])]
    simp only [wrap]
    omega

theorem foldl_set_of_ne {x : ℕ} {history : List (ℕ × Bool)}
    (hx : ∀ call ∈ history, x ≠ wrap (a.data + call.1 / 8)) (m : Mem) :
    history.foldl (fun m call => set m a call.1 call.2) m x = m x := by
  induction history generalizing m with
  | nil => rfl
  | cons call history ih =>
    rw [List.foldl_cons, ih fun c hc => hx c (List.mem_cons_of_mem call hc)]
    exact set_of_ne m a call.1 call.2 (hx call List.mem_cons_self)

/-- A bit array is an array of booleans, and keeps to the bytes that `expected_size` asks
for. -/
theorem construct_get (hn : n ≤ 2 ^ 32 - 8) (m : Mem) (address : ℕ) {history : List (ℕ × Bool)}
    (hlt : ∀ call ∈ history, call.1 < n) :
    alignUp 8 n / 8 = expectedSize n ∧
    ∃ m', construct (InRange address (expectedSize n)) address n history m =
        (.ok ⟨n, address⟩, m') ∧
      (∀ i < n, getIn (InRange address (expectedSize n)) ⟨n, address⟩ i m' =
        (.ok (lastSet history i), m')) ∧
      ∀ x, ¬ InRange address (expectedSize n) x → m' x = m x := by
  have hset : ∀ call ∈ history, ∀ m,
      setIn (InRange address (expectedSize n)) ⟨n, address⟩ call.1 call.2 m =
        (.ok (), set m ⟨n, address⟩ call.1 call.2) := by
    intro call hcall m
    exact setIn_eq (byte_inRange hn (hlt call hcall)) call.2
  refine ⟨alignUp_eight (by omega), history.foldl (fun m call => set m ⟨n, address⟩ call.1 call.2)
    (initializeOn m address n).1, ?_, ?_, ?_⟩
  · rw [construct, bind_apply_ok (initializeIn_eq hn m address),
      bind_apply_ok (forM_apply hset (initializeOn m address n).1)]
    rfl
  · intro i hi
    rw [← get_foldl_set hn m hlt hi]
    exact getIn_eq (a := ⟨n, address⟩) (byte_inRange hn hi)
  · intro x hx
    have hout : ∀ off < expectedSize n, x ≠ wrap (address + off) := by
      intro off hoff heq
      apply hx
      rw [heq]
      exact inRange_offset (expectedSize_lt hn).le hoff
    rw [foldl_set_of_ne fun call hcall => hout _ (div_lt_expectedSize (hlt call hcall)),
      initializeOn_of_ne (by omega) hout]

theorem construct_get_ten : ∃ m', construct (InRange 4096 (expectedSize 10)) 4096 10
    ((List.range 10).map fun idx => (idx, decide (idx % 2 = 1))) (fun _ => 255) =
      (.ok ⟨10, 4096⟩, m') ∧
    getIn (InRange 4096 (expectedSize 10)) ⟨10, 4096⟩ 7 m' = (.ok true, m') ∧
    getIn (InRange 4096 (expectedSize 10)) ⟨10, 4096⟩ 8 m' = (.ok false, m') := by
  have hlt : ∀ call ∈ (List.range 10).map fun idx => (idx, decide (idx % 2 = 1)),
      call.1 < 10 := by decide
  obtain ⟨-, m', hrun, hget, -⟩ := construct_get (by decide) (fun _ => 255) 4096 hlt
  exact ⟨m', hrun, hget 7 (by decide), hget 8 (by decide)⟩

end BitArray

end Bolgenos

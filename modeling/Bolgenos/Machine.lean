import Bolgenos.Lib.ByteMemory
import Bolgenos.Lib.FuelLoop

/-!
# The i686 target

`size_t`, pointers and `ptrdiff_t` have 32 bits. A pointer and a `size_t` are naturals
below `2 ^ 32`, results of arithmetic are reduced by `wrap`, and `ptrdiff_t` is the
signed reading of a word. Code that cannot go on ends in a `Fault`: a call of `panic`
with its message, an access through a null pointer or to a deleted object, an index outside
an array, or a loop that is never left.
-/

namespace Bolgenos

open ByteMemory

inductive Fault where
  | panic (msg : String)
  | nullDereference
  | outOfBounds
  | divergence
  | useAfterFree
  deriving DecidableEq, Repr

abbrev Result (α : Type) := Except Fault α

theorem Result.bind_ok {α β : Type} {x : Result α} {f : α → Result β} {b : β} :
    (x >>= f) = .ok b ↔ ∃ a, x = .ok a ∧ f a = .ok b := by
  cases x with
  | error e => simp [bind, Except.bind]
  | ok a => simp [bind, Except.bind]

def wrap (n : ℕ) : ℕ := n % 2 ^ 32

def sub32 (a b : ℕ) : ℕ := wrap (a + (2 ^ 32 - wrap b))

def toSigned (n : ℕ) : ℤ := if wrap n < 2 ^ 31 then (wrap n : ℤ) else (wrap n : ℤ) - 2 ^ 32

def toUnsigned (d : ℤ) : ℕ := (d % 2 ^ 32).toNat

/-- `size_t(1) << order`: the shift instruction uses the low five bits of the count. -/
def shiftOne (order : ℕ) : ℕ := wrap (2 ^ (order % 32))

/-- More iterations than there are words: a loop that counts through words or follows
links without changing them is left within this budget, or never. -/
def budget : ℕ := 2 ^ 33

theorem lt_budget {n : ℕ} (h : n ≤ 2 ^ 32) : n < budget := by
  rw [budget]
  omega

def pageSize : ℕ := 4096

def frame (p : ℕ) : ℕ := pageSize * p

def frameAdd (p : ℕ) (n : ℕ) : ℕ := wrap (p + pageSize * n)

/-- `second - first` for pointers to page frames: the signed byte difference in frames. -/
def frameDiff (second first : ℕ) : ℤ := toSigned (sub32 second first) / pageSize

def alignDown (boundary value : ℕ) : ℕ := value / boundary * boundary

/-- `align_up`: the addition of the boundary may wrap around. -/
def alignUp (boundary value : ℕ) : ℕ :=
  if value % boundary ≠ 0 then wrap (alignDown boundary value + boundary) else value

def next (m : Mem) (item : ℕ) : Result ℕ :=
  if item = 0 then .error .nullDereference else .ok (read32 m item)

def setNext (m : Mem) (item value : ℕ) : Result Mem :=
  if item = 0 then .error .nullDereference else .ok (write32 m item value)

theorem next_of_ne {m : Mem} {item : ℕ} (h : item ≠ 0) : next m item = .ok (read32 m item) :=
  if_neg h

theorem setNext_of_ne {m : Mem} {item value : ℕ} (h : item ≠ 0) :
    setNext m item value = .ok (write32 m item value) :=
  if_neg h

theorem wrap_of_lt {n : ℕ} (h : n < 2 ^ 32) : wrap n = n := Nat.mod_eq_of_lt h

theorem sub32_of_le {a b : ℕ} (h : b ≤ a) (ha : a < 2 ^ 32) : sub32 a b = a - b := by
  simp only [sub32, wrap]
  omega

theorem toSigned_of_lt {n : ℕ} (h : n < 2 ^ 31) : toSigned n = n := by
  have hn : wrap n = n := wrap_of_lt (by omega)
  rw [toSigned, hn, if_pos h]

theorem shiftOne_of_lt {k : ℕ} (h : k < 32) : shiftOne k = 2 ^ k := by
  rw [shiftOne, Nat.mod_eq_of_lt h]
  exact wrap_of_lt (Nat.pow_lt_pow_right (by omega) h)

theorem frame_lt_frame {p q : ℕ} : frame p < frame q ↔ p < q := by
  simp only [frame, pageSize]
  omega

theorem frame_ne_zero {p : ℕ} (h : 0 < p) : frame p ≠ 0 := by
  simp only [frame, pageSize]
  omega

theorem frame_lt {p : ℕ} (h : p < 2 ^ 20) : frame p < 2 ^ 32 := by
  simp only [frame, pageSize]
  omega

theorem frameAdd_frame {p n : ℕ} : frameAdd (frame p) n = wrap (frame (p + n)) := by
  simp only [frameAdd, frame, Nat.mul_add]

theorem frameDiff_frame {p q : ℕ} (h : p ≤ q) (hd : q - p < 2 ^ 19) (hq : q < 2 ^ 20) :
    frameDiff (frame q) (frame p) = (q - p : ℕ) := by
  have hs : sub32 (frame q) (frame p) = frame (q - p) := by
    rw [sub32_of_le (by simp only [frame]; exact Nat.mul_le_mul_left _ h) (frame_lt hq)]
    simp only [frame, pageSize]
    omega
  have hlt : frame (q - p) < 2 ^ 31 := by
    simp only [frame, pageSize]
    omega
  rw [frameDiff, hs, toSigned_of_lt hlt]
  simp only [frame, pageSize]
  omega

theorem toUnsigned_natCast {n : ℕ} (h : n < 2 ^ 32) : toUnsigned (n : ℤ) = n := by
  simp only [toUnsigned]
  omega

theorem length_lt_of_pointers {xs : List ℕ} (hnd : xs.Nodup)
    (hptr : ∀ x ∈ xs, x ≠ 0 ∧ x < 2 ^ 32) : xs.length < 2 ^ 32 := by
  have hsub : xs.toFinset ⊆ Finset.Ico 1 (2 ^ 32) := by
    intro x hx
    have hx' := hptr x (List.mem_toFinset.1 hx)
    rw [Finset.mem_Ico]
    omega
  have hcard := Finset.card_le_card hsub
  rw [List.toFinset_card_of_nodup hnd, Nat.card_Ico] at hcard
  omega

theorem alignUp_ge {b v : ℕ} (hb : 0 < b) (h : v + b ≤ 2 ^ 32) :
    v ≤ alignUp b v ∧ alignUp b v < v + b ∧
      b ∣ alignUp b v := by
  have hdiv := Nat.div_add_mod v b
  have hmod := Nat.mod_lt v hb
  have hcomm : v / b * b = b * (v / b) := Nat.mul_comm _ _
  simp only [alignUp, alignDown]
  split_ifs with hz
  · rw [wrap_of_lt (by omega)]
    refine ⟨by omega, by omega, ?_⟩
    exact Dvd.intro_left (v / b + 1) (by ring)
  · exact ⟨le_rfl, by omega, Nat.dvd_of_mod_eq_zero (by omega)⟩

end Bolgenos

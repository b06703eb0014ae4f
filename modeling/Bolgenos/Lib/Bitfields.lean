import Mathlib.Tactic

/-!
# Bit-fields

A record of bit-fields takes its fields from the lowest bit on, without padding. `pack` is the
number such a record is, given the width and the value of each field; a value that is too wide
for its field loses its upper bits. `slice` is what a reader finds at a position. A field is
found at the sum of the widths in front of it.
-/

namespace Bitfields

def pack : List (ℕ × ℕ) → ℕ
  | [] => 0
  | (width, value) :: fields => value % 2 ^ width + 2 ^ width * pack fields

def slice (position width n : ℕ) : ℕ := n / 2 ^ position % 2 ^ width

def position : List (ℕ × ℕ) → ℕ → ℕ
  | [], _ => 0
  | _, 0 => 0
  | (width, _) :: fields, i + 1 => width + position fields i

def width : List (ℕ × ℕ) → ℕ
  | [] => 0
  | (width, _) :: fields => width + Bitfields.width fields

variable {w w' v n p : ℕ} {fields : List (ℕ × ℕ)}

theorem slice_zero_pack : slice 0 w (pack ((w, v) :: fields)) = v % 2 ^ w := by
  rw [slice, pack, pow_zero, Nat.div_one, Nat.add_mul_mod_self_left, Nat.mod_mod]

theorem slice_add_pack :
    slice (w + p) w' (pack ((w, v) :: fields)) = slice p w' (pack fields) := by
  have hlow : v % 2 ^ w < 2 ^ w := Nat.mod_lt _ (by positivity)
  have hdiv : (v % 2 ^ w + 2 ^ w * pack fields) / 2 ^ w = pack fields := by
    rw [Nat.add_mul_div_left _ _ (by positivity), Nat.div_eq_of_lt hlow, Nat.zero_add]
  rw [slice, slice, pack, pow_add, ← Nat.div_div_eq_div_mul, hdiv]

/-- A reader finds a field at the sum of the widths in front of it. -/
theorem slice_pack {i : ℕ} (h : fields[i]? = some (w, v)) (hp : position fields i = p) :
    slice p w (pack fields) = v % 2 ^ w := by
  subst hp
  induction fields generalizing i with
  | nil => simp at h
  | cons field fields ih =>
    cases i with
    | zero =>
      obtain rfl : field = (w, v) := Option.some.inj h
      exact slice_zero_pack
    | succ i => exact slice_add_pack.trans (ih h)

theorem pack_lt (fields : List (ℕ × ℕ)) : pack fields < 2 ^ width fields := by
  induction fields with
  | nil => simp [pack, width]
  | cons field fields ih =>
    have hlow : field.2 % 2 ^ field.1 < 2 ^ field.1 := Nat.mod_lt _ (by positivity)
    simp only [pack, width, pow_add]
    calc field.2 % 2 ^ field.1 + 2 ^ field.1 * pack fields
        < 2 ^ field.1 * (pack fields + 1) := by rw [Nat.mul_add]; omega
      _ ≤ 2 ^ field.1 * 2 ^ width fields := Nat.mul_le_mul_left _ ih

theorem slice_add (n position w w' : ℕ) :
    slice position (w + w') n = slice position w n + 2 ^ w * slice (position + w) w' n := by
  simp only [slice, pow_add, ← Nat.div_div_eq_div_mul]
  exact Nat.mod_mul

theorem slice_of_div_eq {n' k : ℕ} (h : n' / 2 ^ k = n / 2 ^ k) (hk : k ≤ p) :
    slice p w n' = slice p w n := by
  obtain ⟨q, rfl⟩ := Nat.exists_eq_add_of_le hk
  rw [slice, slice, pow_add, ← Nat.div_div_eq_div_mul, h, Nat.div_div_eq_div_mul]

theorem slice_of_mod_eq {n' k : ℕ} (h : n' % 2 ^ k = n % 2 ^ k) (hk : p + w ≤ k) :
    slice p w n' = slice p w n := by
  have hend (x : ℕ) : slice p w x = slice p w (x % 2 ^ k) := by
    rw [slice, slice, ← Nat.mod_mul_right_div_self, ← Nat.mod_mul_right_div_self, ← pow_add,
      Nat.mod_mod_of_dvd _ (Nat.pow_dvd_pow 2 hk)]
  rw [hend n', hend n, h]

end Bitfields

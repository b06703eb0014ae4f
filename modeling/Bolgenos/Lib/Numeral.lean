import Mathlib.Data.Nat.Digits.Lemmas
import Mathlib.Tactic

/-!
# Positional numerals

The numeral of a number in a base, most significant digit first, over an alphabet with a
character for each digit. `read` is the inverse: it reads a nonempty list of digits of the
base and nothing else.
-/

namespace Numeral

variable {α : Type*} {digit : ℕ → α} {value : α → Option ℕ} {base n k : ℕ}

def render (digit : ℕ → α) (base n : ℕ) : List α :=
  if n = 0 then [digit 0] else ((Nat.digits base n).map digit).reverse

def readStep (value : α → Option ℕ) (base n : ℕ) (c : α) : Option ℕ := do
  let d ← value c
  if d < base then some (n * base + d) else none

def read (value : α → Option ℕ) (base : ℕ) : List α → Option ℕ
  | [] => none
  | c :: chars => (c :: chars).foldlM (readStep value base) 0

theorem foldlM_digits (hvalue : ∀ d < base, value (digit d) = some d) {l : List ℕ}
    (hl : ∀ d ∈ l, d < base) :
    ((l.map digit).reverse).foldlM (readStep value base) 0 = some (Nat.ofDigits base l) := by
  induction l with
  | nil => rfl
  | cons d l ih =>
    obtain ⟨hd, hrest⟩ := List.forall_mem_cons.mp hl
    rw [List.map_cons, List.reverse_cons, List.foldlM_append, ih hrest]
    simp only [Option.bind_eq_bind, Option.bind_some, List.foldlM_cons, List.foldlM_nil, readStep,
      hvalue d hd, if_pos hd, Nat.ofDigits_cons]
    simp only [Option.pure_def, Option.some.injEq]
    rw [Nat.mul_comm, Nat.add_comm]

theorem reverse_render (digit : ℕ → α) (base n : ℕ) :
    (render digit base n).reverse = (Nat.digits base n).map digit ++
      if (Nat.digits base n).length = 0 then [digit 0] else [] := by
  rw [render]
  split_ifs with hn hlen hlen
  · simp [hn]
  · simp [hn] at hlen
  · rw [List.length_eq_zero_iff] at hlen
    exact absurd hlen (Nat.digits_ne_nil_iff_ne_zero.mpr hn)
  · rw [List.reverse_reverse, List.append_nil]

theorem render_ne_nil (digit : ℕ → α) (base n : ℕ) : render digit base n ≠ [] := by
  rw [render]
  split_ifs with hn
  · simp
  · rw [ne_eq, List.reverse_eq_nil_iff, List.map_eq_nil_iff]
    exact Nat.digits_ne_nil_iff_ne_zero.mpr hn

theorem read_render (hbase : 1 < base) (hvalue : ∀ d < base, value (digit d) = some d) (n : ℕ) :
    read value base (render digit base n) = some n := by
  have hfold : (render digit base n).foldlM (readStep value base) 0 = some n := by
    rw [render]
    split_ifs with hn
    · have hone := foldlM_digits hvalue (l := [0]) (by simpa using (by omega : 0 < base))
      rw [hn]
      simpa using hone
    · rw [foldlM_digits hvalue fun d hd => Nat.digits_lt_base hbase hd, Nat.ofDigits_digits]
  cases hchars : render digit base n with
  | nil => exact absurd hchars (render_ne_nil digit base n)
  | cons c chars =>
    rw [hchars] at hfold
    exact hfold

theorem head_render (hbase : 1 < base) (hvalue : ∀ d < base, value (digit d) = some d)
    (h : (render digit base n).head? = some (digit 0)) : render digit base n = [digit 0] := by
  rw [render] at h ⊢
  split_ifs at h ⊢ with hn
  · rfl
  · have hne : Nat.digits base n ≠ [] := Nat.digits_ne_nil_iff_ne_zero.mpr hn
    rw [List.head?_reverse, List.getLast?_map, List.getLast?_eq_some_getLast hne, Option.map_some,
      Option.some.injEq] at h
    have hlast := hvalue _ (Nat.digits_lt_base hbase (List.getLast_mem hne))
    rw [h, hvalue 0 (by omega), Option.some.injEq] at hlast
    exact absurd hlast.symm (Nat.getLast_digit_ne_zero base hn)

theorem mem_render (hbase : 1 < base) {c : α} (h : c ∈ render digit base n) :
    ∃ d < base, c = digit d := by
  rw [render] at h
  split_ifs at h with hn
  · exact ⟨0, by omega, List.mem_singleton.1 h⟩
  · rw [List.mem_reverse, List.mem_map] at h
    obtain ⟨d, hd, rfl⟩ := h
    exact ⟨d, Nat.digits_lt_base hbase hd, rfl⟩

/-- Numerals that are filled up to the same width with a character are the same only for the
same number, unless the character is a digit other than zero. -/
theorem fill_render_injective (value : α → Option ℕ) {fill : α} {k l m : ℕ} (hbase : 1 < base)
    (hvalue : ∀ d < base, value (digit d) = some d)
    (hfill : value fill = none ∨ fill = digit 0)
    (h : List.replicate k fill ++ render digit base n =
      List.replicate l fill ++ render digit base m) :
    n = m := by
  wlog hkl : k ≤ l generalizing k l n m with hswap
  · exact (hswap h.symm (Nat.le_of_not_le hkl)).symm
  obtain ⟨j, rfl⟩ := Nat.exists_eq_add_of_le hkl
  rw [List.replicate_add, List.append_assoc] at h
  have hn := List.append_cancel_left h
  cases j with
  | zero =>
    have hread := read_render hbase hvalue n
    rw [hn, List.replicate_zero, List.nil_append, read_render hbase hvalue m] at hread
    exact (Option.some.inj hread).symm
  | succ j =>
    exfalso
    rw [List.replicate_succ, List.cons_append] at hn
    rcases hfill with hnone | rfl
    · obtain ⟨d, hd, hdigit⟩ := mem_render (c := fill) hbase (hn ▸ List.mem_cons_self)
      rw [hdigit, hvalue d hd] at hnone
      cases hnone
    · have hone := head_render hbase hvalue (n := n) (by rw [hn]; rfl)
      rw [hone, List.cons.injEq] at hn
      exact render_ne_nil digit base m (List.append_eq_nil_iff.1 hn.2.symm).2

theorem length_render_le (hbase : 1 < base) (hk : 0 < k) (hn : n < base ^ k) :
    (render digit base n).length ≤ k := by
  rw [render]
  split_ifs with hzero
  · exact hk
  · rw [List.length_reverse, List.length_map]
    exact (Nat.digits_length_le_iff hbase n).mpr hn

end Numeral

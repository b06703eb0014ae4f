import Mathlib.Tactic

/-!
# A ledger of tokens

Tokens are issued in order. A holder holds at most one token, and a token that is given back
is spent. `Balanced` says that every token issued so far is held by one holder or was spent
once, and by nobody else or never again.
-/

namespace Ledger

variable {ι : Type*}

structure Balanced (held : ι → Option ℕ) (next : ℕ) (spent : List ℕ) : Prop where
  held_lt : ∀ {i t}, held i = some t → t < next
  unspent : ∀ {i t}, held i = some t → t ∉ spent
  single : ∀ {i j t}, held i = some t → held j = some t → i = j
  account : ∀ {t}, t < next → (∃ i, held i = some t) ∨ t ∈ spent
  spent_lt : ∀ {t}, t ∈ spent → t < next
  nodup : spent.Nodup

variable {held : ι → Option ℕ} {next t : ℕ} {spent : List ℕ} {i : ι}

theorem balanced_empty : Balanced (fun _ : ι => none) 0 [] where
  held_lt h := by cases h
  unspent h := by cases h
  single h := by cases h
  account h := by omega
  spent_lt h := by cases h
  nodup := List.nodup_nil

theorem Balanced.count_eq_one (h : Balanced held next spent) (hnone : ∀ i, held i = none)
    (ht : t < next) : spent.count t = 1 := by
  rcases h.account ht with ⟨i, hi⟩ | hspent
  · rw [hnone i] at hi
    cases hi
  · exact List.count_eq_one_of_mem h.nodup hspent

variable [DecidableEq ι]

theorem Balanced.issue (h : Balanced held next spent) (hi : held i = none) :
    Balanced (Function.update held i (some next)) (next + 1) spent := by
  have hcases : ∀ {j t}, Function.update held i (some next) j = some t →
      j = i ∧ t = next ∨ j ≠ i ∧ held j = some t := by
    intro j t hj
    by_cases hji : j = i
    · rw [hji, Function.update_self, Option.some.injEq] at hj
      exact Or.inl ⟨hji, hj.symm⟩
    · rw [Function.update_of_ne hji] at hj
      exact Or.inr ⟨hji, hj⟩
  refine ⟨?_, ?_, ?_, ?_, ?_, h.nodup⟩
  · intro j t hj
    rcases hcases hj with ⟨-, rfl⟩ | ⟨-, hj⟩
    · exact Nat.lt_succ_self _
    · exact Nat.lt_succ_of_lt (h.held_lt hj)
  · intro j t hj hspent
    rcases hcases hj with ⟨-, rfl⟩ | ⟨-, hj⟩
    · exact Nat.lt_irrefl _ (h.spent_lt hspent)
    · exact h.unspent hj hspent
  · intro j k t hj hk
    rcases hcases hj with ⟨hji, ht⟩ | ⟨hji, hj⟩
    · rcases hcases hk with ⟨hki, -⟩ | ⟨-, hk⟩
      · rw [hji, hki]
      · exact absurd (h.held_lt hk) (by omega)
    · rcases hcases hk with ⟨-, ht⟩ | ⟨-, hk⟩
      · exact absurd (h.held_lt hj) (by omega)
      · exact h.single hj hk
  · intro t ht
    by_cases hnew : t = next
    · exact Or.inl ⟨i, by rw [Function.update_self, hnew]⟩
    · rcases h.account (show t < next by omega) with ⟨j, hj⟩ | hspent
      · have hji : j ≠ i := by
          intro hji
          rw [hji, hi] at hj
          cases hj
        exact Or.inl ⟨j, by rw [Function.update_of_ne hji, hj]⟩
      · exact Or.inr hspent
  · intro t hspent
    exact Nat.lt_succ_of_lt (h.spent_lt hspent)

theorem Balanced.redeem (h : Balanced held next spent) (hi : held i = some t) :
    Balanced (Function.update held i none) next (spent ++ [t]) := by
  have hcases : ∀ {j u}, Function.update held i none j = some u → j ≠ i ∧ held j = some u := by
    intro j u hj
    by_cases hji : j = i
    · rw [hji, Function.update_self] at hj
      cases hj
    · rw [Function.update_of_ne hji] at hj
      exact ⟨hji, hj⟩
  refine ⟨?_, ?_, ?_, ?_, ?_, ?_⟩
  · intro j u hj
    exact h.held_lt (hcases hj).2
  · intro j u hj hspent
    obtain ⟨hji, hj⟩ := hcases hj
    rcases List.mem_append.mp hspent with hspent | hlast
    · exact h.unspent hj hspent
    · rw [List.mem_singleton.mp hlast] at hj
      exact hji (h.single hj hi)
  · intro j k u hj hk
    exact h.single (hcases hj).2 (hcases hk).2
  · intro u hu
    rcases h.account hu with ⟨j, hj⟩ | hspent
    · by_cases hji : j = i
      · rw [hji, hi, Option.some.injEq] at hj
        exact Or.inr (List.mem_append_right _ (List.mem_singleton.mpr hj.symm))
      · exact Or.inl ⟨j, by rw [Function.update_of_ne hji, hj]⟩
    · exact Or.inr (List.mem_append_left _ hspent)
  · intro u hspent
    rcases List.mem_append.mp hspent with hspent | hlast
    · exact h.spent_lt hspent
    · rw [List.mem_singleton.mp hlast]
      exact h.held_lt hi
  · refine List.nodup_append.mpr ⟨h.nodup, List.nodup_singleton t, ?_⟩
    intro u hu v hv huv
    rw [List.mem_singleton.mp hv] at huv
    exact h.unspent hi (huv ▸ hu)

end Ledger

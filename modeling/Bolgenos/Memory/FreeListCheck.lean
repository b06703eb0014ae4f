import Bolgenos.Memory.FreeList

/-!
# The sanity check of free lists

Links are words, so a walk along them arrives at null or comes back to an item, and two
pointers of different speed find out which. The check panics with one message on every list
that runs into a cycle, with the other one on every list whose length is not the one in the
statistics, and on no other lists.
-/

namespace Bolgenos

open ByteMemory FuelLoop LinkedChain

namespace FreeList

variable {m : Mem} {fl : FreeList} {q : ℕ} {xs : List ℕ}

theorem iterate_read32_lt (hq : q < 2 ^ 32) (i : ℕ) : (read32 m)^[i] q < 2 ^ 32 := by
  cases i with
  | zero => exact hq
  | succ i =>
    rw [Function.iterate_succ_apply']
    exact read32_lt m _

theorem lt_of_chain (h : Chain 0 (read32 m) q xs) (hq : q < 2 ^ 32) : ∀ x ∈ xs, x < 2 ^ 32 := by
  induction xs generalizing q with
  | nil => simp
  | cons y xs ih =>
    obtain ⟨rfl, -, htail⟩ := h
    intro x hx
    rcases List.mem_cons.1 hx with heq | hx
    · rw [heq]
      exact hq
    · exact ih htail (read32_lt m q) x hx

theorem length_lt_of_chain (h : Chain 0 (read32 m) q xs) (hq : q < 2 ^ 32) :
    xs.length < 2 ^ 32 := by
  apply length_lt_of_pointers (chain_nodup h)
  intro x hx
  exact ⟨segment_ne_null h x hx, lt_of_chain h hq x hx⟩

/-- The walk of the two pointers on a list that never ends: they meet. After `i` rounds they
are `i` and `2 * i` links away from the head. -/
theorem chase_of_meeting {d : ℕ} (hne : ∀ i, (read32 m)^[i] q ≠ 0)
    (hmeet : (read32 m)^[d] q = (read32 m)^[2 * d] q) (hpos : 0 < d) (hlen : d < budget) :
    ∃ s : ℕ × ℕ, loop .divergence (chaseStep m) budget (q, q) = .ok s ∧ s.1 = s.2 ∧ s.1 ≠ 0 := by
  have hadv : ∀ i, advance m ((read32 m)^[i] q) = .ok ((read32 m)^[i + 1] q) := by
    intro i
    rw [advance, if_pos (hne i), next_of_ne (hne i), Function.iterate_succ_apply']
  refine loop_total (fun n s => ∃ i, n + i + 1 = d ∧
    s = ((read32 m)^[i] q, (read32 m)^[2 * i] q)) _ ?_ (k := d - 1) ⟨0, by omega, rfl⟩ (by omega)
  intro n s hinv
  obtain ⟨i, hi, rfl⟩ := hinv
  have hbody : chaseStep m ((read32 m)^[i] q, (read32 m)^[2 * i] q) =
      let t := ((read32 m)^[i + 1] q, (read32 m)^[2 * (i + 1)] q)
      if t.1 ≠ 0 ∧ t.2 ≠ 0 ∧ t.1 ≠ t.2 then .ok (.inl t) else .ok (.inr t) := by
    simp only [chaseStep, hadv, bind, Except.bind]
    rfl
  by_cases heq : (read32 m)^[i + 1] q = (read32 m)^[2 * (i + 1)] q
  · refine Or.inr ⟨((read32 m)^[i + 1] q, (read32 m)^[2 * (i + 1)] q), ?_, heq, hne (i + 1)⟩
    rw [hbody]
    exact if_neg fun hgo => hgo.2.2 heq
  · have hlt : i + 1 ≠ d := by
      intro heq
      subst heq
      exact heq hmeet
    refine Or.inl ⟨_, n - 1, ?_, ⟨i + 1, by omega, rfl⟩, by omega⟩
    rw [hbody]
    exact if_pos ⟨hne _, hne _, heq⟩

theorem exists_repeat (hq : q < 2 ^ 32) : ∃ i j, i < j ∧ j ≤ 2 ^ 32 ∧
    (read32 m)^[i] q = (read32 m)^[j] q := by
  have hwords : ∀ i, (read32 m)^[i] q ∈ Finset.range (2 ^ 32) := fun i =>
    Finset.mem_range.2 (iterate_read32_lt hq i)
  obtain ⟨i, j, hij, hj, heq⟩ := exists_iterate_eq (Finset.range (2 ^ 32)) hwords
  rw [Finset.card_range] at hj
  exact ⟨i, j, hij, hj, heq⟩

theorem sanityCheck_cyclic (h : Cyclic 0 (read32 m) fl.list) (hlist : fl.list < 2 ^ 32) :
    sanityCheck m fl = .error (.panic "FreeList loop detected!") := by
  obtain ⟨i, j, hij, hj, heq⟩ := exists_repeat (m := m) hlist
  obtain ⟨d, hpos, hdj, hmeet⟩ := iterate_meet hij heq
  obtain ⟨s, hchase, heq, hs⟩ :=
    chase_of_meeting h.iterate_ne hmeet hpos (lt_budget (hdj.trans hj))
  simp only [sanityCheck, hchase, bind, Except.bind, if_pos (And.intro heq hs)]

theorem sanityCheck_chain (h : Chain 0 (read32 m) fl.list xs) (hlist : fl.list < 2 ^ 32) :
    sanityCheck m fl =
      if xs.length = fl.items then .ok () else .error (.panic "FreeList stats are invalid!") := by
  have hlen := length_lt_of_chain h hlist
  obtain ⟨s, hchase, hs⟩ := chase_of_chain h (lt_budget hlen.le)
  simp only [sanityCheck, hchase, length_of_chain h hlen, bind, Except.bind, if_neg hs]
  by_cases hitems : xs.length = fl.items
  · rw [if_neg (not_not.2 hitems), if_pos hitems]
  · rw [if_pos hitems, if_neg hitems]

theorem cyclic_or_chain (m : Mem) (hq : q < 2 ^ 32) :
    Cyclic 0 (read32 m) q ∨ ∃ xs, Chain 0 (read32 m) q xs := by
  by_cases hne : ∀ i, (read32 m)^[i] q ≠ 0
  · obtain ⟨i, j, hij, -, heq⟩ := exists_repeat (m := m) hq
    exact Or.inl (cyclic_of_iterate hne hij heq)
  · obtain ⟨n, hn⟩ := not_forall.1 hne
    exact Or.inr (exists_chain (not_not.1 hn))

/-- The sanity check comes to an end on every list, without an access through null, and tells
the lists that run into a cycle and those of the wrong length from the good ones. -/
theorem sanityCheck_decides (m : Mem) (fl : FreeList) (hlist : fl.list < 2 ^ 32) :
    (sanityCheck m fl = .error (.panic "FreeList loop detected!") ∨
      sanityCheck m fl = .error (.panic "FreeList stats are invalid!") ∨
      sanityCheck m fl = .ok ()) ∧
    (sanityCheck m fl = .error (.panic "FreeList loop detected!") ↔
      Cyclic 0 (read32 m) fl.list) ∧
    (sanityCheck m fl = .error (.panic "FreeList stats are invalid!") ↔
      ∃ xs, Chain 0 (read32 m) fl.list xs ∧ xs.length ≠ fl.items) ∧
    (sanityCheck m fl = .ok () ↔
      ∃ xs, Chain 0 (read32 m) fl.list xs ∧ xs.length = fl.items) := by
  rcases cyclic_or_chain m hlist with hcyclic | ⟨xs, hchain⟩
  · have hnone : ∀ xs, ¬ Chain 0 (read32 m) fl.list xs := hcyclic.not_chain
    simp [sanityCheck_cyclic hcyclic hlist, hcyclic, hnone]
  · have hnot : ¬ Cyclic 0 (read32 m) fl.list := fun h => h.not_chain xs hchain
    have hunique : ∀ P : List ℕ → Prop, (∃ ys, Chain 0 (read32 m) fl.list ys ∧ P ys) ↔ P xs := by
      intro P
      constructor
      · intro hexists
        obtain ⟨ys, hys, hP⟩ := hexists
        rw [chain_unique hchain hys]
        exact hP
      · intro hP
        exact ⟨xs, hchain, hP⟩
    rw [sanityCheck_chain hchain hlist, hunique fun ys => ys.length ≠ fl.items,
      hunique fun ys => ys.length = fl.items]
    by_cases hitems : xs.length = fl.items
    · simp [hitems, hnot]
    · simp [hitems, hnot]

theorem sanityCheck_decides_self :
    sanityCheck (write32 (fun _ => 0) 4096 4096) { list := 4096, items := 1 } =
      .error (.panic "FreeList loop detected!") := by
  have hlist : 4096 < 2 ^ 32 := by decide
  refine (sanityCheck_decides _ { list := 4096, items := 1 } hlist).2.1.2
    ⟨[], 4096, [4096], rfl, ⟨rfl, by decide, ?_⟩, by decide⟩
  exact read32_write32 hlist

end FreeList

end Bolgenos

import Mathlib.Tactic

/-!
# Doubly linked rings

`Linked next prev a xs b` says that the nodes `a`, `xs`, `b` are linked in this order in
both directions. A ring through `a` with the further nodes `xs` is `Linked next prev a xs a`.
The lemmas describe a node linked in behind `a` and a node taken out.
-/

namespace LinkedRing

variable {α : Type*}

def Linked (next prev : α → α) : α → List α → α → Prop
  | a, [], b => next a = b ∧ prev b = a
  | a, x :: xs, b => (next a = x ∧ prev x = a) ∧ Linked next prev x xs b

variable {next prev next' prev' : α → α} {a b v x : α} {xs ys : List α}

theorem linked_append :
    Linked next prev a (xs ++ x :: ys) b ↔
      Linked next prev a xs x ∧ Linked next prev x ys b := by
  induction xs generalizing a with
  | nil => exact Iff.rfl
  | cons y xs ih =>
    simp only [List.cons_append, Linked, ih]
    exact and_assoc.symm

theorem linked_congr (h : Linked next prev a xs b) (hn : ∀ y ∈ a :: xs, next' y = next y)
    (hp : ∀ y ∈ xs ++ [b], prev' y = prev y) : Linked next' prev' a xs b := by
  induction xs generalizing a with
  | nil =>
    obtain ⟨h1, h2⟩ := h
    exact ⟨(hn a (by simp)).trans h1, (hp b (by simp)).trans h2⟩
  | cons y xs ih =>
    obtain ⟨⟨h1, h2⟩, htail⟩ := h
    refine ⟨⟨(hn a (by simp)).trans h1, (hp y (by simp)).trans h2⟩, ih htail ?_ ?_⟩
    · intro z hz
      exact hn z (List.mem_cons_of_mem _ hz)
    · intro z hz
      exact hp z (by rw [List.cons_append]; exact List.mem_cons_of_mem _ hz)

theorem linked_next (h : Linked next prev a xs b) : next a = (xs ++ [b]).headD a := by
  cases xs with
  | nil => exact h.1
  | cons y xs => exact h.1.1

theorem linked_prev_next (h : Linked next prev a xs b) : ∀ x ∈ a :: xs, prev (next x) = x := by
  induction xs generalizing a with
  | nil =>
    intro x hx
    rw [List.mem_singleton.1 hx, h.1, h.2]
  | cons y xs ih =>
    intro x hx
    rcases List.mem_cons.1 hx with heq | hx
    · rw [heq, h.1.1, h.1.2]
    · exact ih h.2 x hx

theorem linked_next_prev (h : Linked next prev a xs b) : ∀ x ∈ xs ++ [b], next (prev x) = x := by
  induction xs generalizing a with
  | nil =>
    intro x hx
    rw [List.mem_singleton.1 hx, h.2, h.1]
  | cons y xs ih =>
    intro x hx
    rcases List.mem_cons.1 hx with heq | hx
    · rw [heq, h.1.2, h.1.1]
    · exact ih h.2 x hx

theorem linked_isChain (h : Linked next prev a xs b) :
    (a :: xs).IsChain fun x y => next x = y := by
  induction xs generalizing a with
  | nil => exact List.isChain_singleton a
  | cons y xs ih => exact List.isChain_cons_cons.2 ⟨h.1.1, ih h.2⟩

theorem linked_rotate (h : Linked next prev a (x :: xs) a) :
    Linked next prev x (xs ++ [a]) x :=
  linked_append.2 ⟨h.2, h.1⟩

theorem linked_replace {p : α} (h : Linked next prev v ys b) (h1 : next' p = next v)
    (h2 : prev' (next v) = p) (hn : ∀ y ∈ ys, next' y = next y)
    (hp : ∀ y ∈ (ys ++ [b]).tail, prev' y = prev y) : Linked next' prev' p ys b := by
  cases ys with
  | nil =>
    obtain ⟨hv, -⟩ := h
    rw [hv] at h1 h2
    exact ⟨h1, h2⟩
  | cons y ys =>
    obtain ⟨⟨hv, -⟩, htail⟩ := h
    rw [hv] at h1 h2
    exact ⟨⟨h1, h2⟩, linked_congr htail hn hp⟩

theorem ring_insert (h : Linked next prev a xs a) (hnd : (a :: xs).Nodup) (hv : v ∉ a :: xs)
    (h1 : next' a = v) (h2 : next' v = next a) (h3 : prev' v = a) (h4 : prev' (next a) = v)
    (hn : ∀ y, y ≠ a → y ≠ v → next' y = next y)
    (hp : ∀ y, y ≠ v → y ≠ next a → prev' y = prev y) :
    Linked next' prev' a (v :: xs) a := by
  obtain ⟨ha, hxs⟩ := List.nodup_cons.mp hnd
  have hva : ∀ y ∈ a :: xs, y ≠ v := by
    intro y hy heq
    rw [heq] at hy
    exact hv hy
  refine ⟨⟨h1, h3⟩, linked_replace h h2 h4 ?_ ?_⟩
  · intro y hy
    refine hn y ?_ (hva y (List.mem_cons_of_mem _ hy))
    intro heq
    rw [heq] at hy
    exact ha hy
  · intro y hy
    cases xs with
    | nil => simp at hy
    | cons x xs =>
      rw [List.cons_append, List.tail_cons, List.mem_append, List.mem_singleton] at hy
      have hnext : next a = x := h.1.1
      rw [hnext] at hp
      rcases hy with hy | hy
      · apply hp y (hva y (by simp [hy]))
        intro heq
        rw [heq] at hy
        exact (List.nodup_cons.mp hxs).1 hy
      · rw [hy]
        apply hp a (hva a (by simp))
        intro heq
        exact ha (by simp [heq])

theorem linked_bypass (h : Linked next prev v ys b) (hnd : (v :: (ys ++ [b])).Nodup)
    (hprev : prev v ∉ v :: ys) (h1 : next' (prev v) = next v) (h2 : prev' (next v) = prev v)
    (hn : ∀ y, y ≠ prev v → y ≠ v → next' y = next y)
    (hp : ∀ y, y ≠ next v → y ≠ v → prev' y = prev y) : Linked next' prev' (prev v) ys b := by
  obtain ⟨hv, hys⟩ := List.nodup_cons.mp hnd
  apply linked_replace h h1 h2
  · intro y hy
    apply hn y
    · intro heq
      rw [heq] at hy
      exact hprev (List.mem_cons_of_mem _ hy)
    · intro heq
      rw [heq] at hy
      exact hv (by simp [hy])
  · intro y hy
    apply hp y
    · -- `next v` is the first of the nodes behind `v`, and `y` a later one
      intro heq
      rw [linked_next h] at heq
      cases hlist : ys ++ [b] with
      | nil => simp at hlist
      | cons z zs =>
        rw [hlist] at hys heq hy
        simp only [List.headD_cons] at heq
        rw [heq] at hy
        exact (List.nodup_cons.mp hys).1 hy
    · intro heq
      rw [heq] at hy
      exact hv (List.mem_of_mem_tail hy)

theorem ring_remove (h : Linked next prev a (xs ++ v :: ys) a)
    (hnd : (a :: (xs ++ v :: ys)).Nodup) (h1 : next' (prev v) = next v)
    (h2 : prev' (next v) = prev v) (hn : ∀ y, y ≠ prev v → y ≠ v → next' y = next y)
    (hp : ∀ y, y ≠ next v → y ≠ v → prev' y = prev y) :
    Linked next' prev' a (xs ++ ys) a := by
  obtain ⟨hleft, hright⟩ := linked_append.mp h
  have hnext := linked_next hright
  have hnd' : (xs ++ v :: ys ++ [a]).Nodup := by
    rw [List.nodup_append_comm]
    exact hnd
  have hbehind : (v :: (ys ++ [a])).Nodup := by
    rw [List.append_assoc, List.cons_append] at hnd'
    exact (List.nodup_append.mp hnd').2.1
  have hbridge : prev v ∉ v :: ys → Linked next' prev' (prev v) ys a :=
    fun hprev => linked_bypass hright hbehind hprev h1 h2 hn hp
  rcases List.eq_nil_or_concat' xs with hxs | ⟨zs, p, hxs⟩
  · subst hxs
    have hprev : prev v = a := hleft.2
    rw [hprev] at hbridge
    exact hbridge (List.nodup_cons.mp hnd).1
  · subst hxs
    rw [List.append_assoc, List.singleton_append] at hnd ⊢
    obtain ⟨hzs, hpv⟩ := linked_append.mp hleft
    rw [linked_append]
    obtain ⟨ha, hrest⟩ := List.nodup_cons.mp hnd
    obtain ⟨-, hpnd, hdisj⟩ := List.nodup_append.mp hrest
    have hprev : prev v = p := hpv.2
    have hmem : next v ∈ ys ++ [a] := by
      rw [hnext]
      cases ys <;> simp
    rw [hprev] at hbridge hn
    refine ⟨linked_congr hzs ?_ ?_, hbridge (List.nodup_cons.mp hpnd).1⟩
    · intro y hy
      rcases List.mem_cons.mp hy with heq | hy
      · rw [heq]
        refine hn a ?_ ?_ <;>
        · intro hap
          exact ha (by simp [hap])
      · exact hn y (hdisj y hy p (by simp)) (hdisj y hy v (by simp))
    · intro y hy
      have hyv : y ∉ v :: ys ∧ y ≠ a := by
        rcases List.mem_append.mp hy with hy | hy
        · refine ⟨fun hy' => hdisj y hy y (List.mem_cons_of_mem _ hy') rfl, ?_⟩
          intro heq
          rw [heq] at hy
          exact ha (by simp [hy])
        · rw [List.mem_singleton.mp hy]
          refine ⟨(List.nodup_cons.mp hpnd).1, ?_⟩
          intro heq
          exact ha (by simp [heq])
      apply hp y
      · intro heq
        rw [← heq, List.mem_append, List.mem_singleton] at hmem
        rcases hmem with hmem | hmem
        · exact hyv.1 (List.mem_cons_of_mem _ hmem)
        · exact hyv.2 hmem
      · intro heq
        exact hyv.1 (by simp [heq])

end LinkedRing

import Mathlib.Order.Filter.AtTopBot.Basic
import Mathlib.Tactic

/-!
# While loops with an explicit budget

`loop out body n s` runs `body` from the state `s`. An iteration answers `.inl s'`
to go round again from `s'` and `.inr b` to leave the loop with `b`; an error of the
body ends the run. The value `out` marks a run that used up its budget of `n`
iterations. `loop_total` is the rule of total correctness (an invariant and a
decreasing measure), `loop_diverges` the rule for loops that are never left. `Rounds`
lists the states that a run goes through. `Returns` is the answer of a run made of several
such loops, each with the same budget, once the budget is large enough.
-/

namespace FuelLoop

variable {ε σ β : Type*}

def loop (out : ε) (body : σ → Except ε (σ ⊕ β)) : ℕ → σ → Except ε β
  | 0, _ => .error out
  | n + 1, s =>
    match body s with
    | .error e => .error e
    | .ok (.inl s') => loop out body n s'
    | .ok (.inr b) => .ok b

variable {e : ε} {f : σ → Except ε (σ ⊕ β)}

theorem loop_next {s s' : σ} (h : f s = .ok (.inl s')) (n : ℕ) :
    loop e f (n + 1) s = loop e f n s' := by
  simp only [loop, h]

theorem loop_exit {s : σ} {b : β} (h : f s = .ok (.inr b)) (n : ℕ) :
    loop e f (n + 1) s = .ok b := by
  simp only [loop, h]

theorem loop_next_of_lt {k n : ℕ} {s s' : σ} (hn : k < n) (h : f s = .ok (.inl s')) :
    loop e f n s = loop e f (n - 1) s' := by
  cases n with
  | zero => omega
  | succ n => exact loop_next h n

theorem loop_exit_of_lt {k n : ℕ} {s : σ} {b : β} (hn : k < n) (h : f s = .ok (.inr b)) :
    loop e f n s = .ok b := by
  cases n with
  | zero => omega
  | succ n => exact loop_exit h n

theorem loop_map {σ' β' : Type*} {f' : σ' → Except ε (σ' ⊕ β')} {g : σ → σ'} {r : β → β'}
    (h : ∀ s, f' (g s) = (f s).map (Sum.map g r)) (n : ℕ) (s : σ) :
    loop e f' n (g s) = (loop e f n s).map r := by
  induction n generalizing s with
  | zero => rfl
  | succ n ih =>
    rw [loop, loop, h]
    cases f s with
    | error e => rfl
    | ok x =>
      cases x with
      | inl s' => exact ih s'
      | inr b => rfl

/-- An invariant `I` indexed by a measure that falls in every iteration: the loop is
left within any budget above the measure, and the answer meets `Q`. -/
theorem loop_total (I : ℕ → σ → Prop) (Q : β → Prop)
    (step : ∀ k s, I k s → (∃ s' j, f s = .ok (.inl s') ∧ I j s' ∧ j < k) ∨
      ∃ b, f s = .ok (.inr b) ∧ Q b)
    {n k : ℕ} {s : σ} (hs : I k s) (hn : k < n) :
    ∃ b, loop e f n s = .ok b ∧ Q b := by
  induction n generalizing s k with
  | zero => omega
  | succ n ih =>
    rcases step k s hs with ⟨s', j, hb, hI, hlt⟩ | ⟨b, hb, hQ⟩
    · obtain ⟨b, hrun, hQ⟩ := ih hI (by omega)
      exact ⟨b, by rw [loop_next hb, hrun], hQ⟩
    · exact ⟨b, loop_exit hb n, hQ⟩

theorem loop_mono {n : ℕ} {s : σ} {b : β} (h : loop e f n s = .ok b)
    {k : ℕ} (hk : n ≤ k) : loop e f k s = .ok b := by
  induction n generalizing s k with
  | zero => simp [loop] at h
  | succ n ih =>
    obtain ⟨k, rfl⟩ : ∃ j, k = j + 1 := ⟨k - 1, by omega⟩
    rw [loop] at h ⊢
    cases hb : f s with
    | error c => simp [hb] at h
    | ok r =>
      cases r with
      | inl s' =>
        simp only [hb] at h ⊢
        exact ih h (by omega)
      | inr c => simpa only [hb] using h

/-- A set of states that the body never leaves and never answers from: every budget
is used up. -/
theorem loop_diverges (I : σ → Prop)
    (step : ∀ s, I s → ∃ s', f s = .ok (.inl s') ∧ I s')
    (n : ℕ) {s : σ} (hs : I s) : loop e f n s = .error e := by
  induction n generalizing s with
  | zero => rfl
  | succ n ih =>
    obtain ⟨s', hb, hI⟩ := step s hs
    rw [loop_next hb, ih hI]

theorem loop_error {s : σ} {c : ε} (h : f s = .error c) (n : ℕ) :
    loop e f (n + 1) s = .error c := by
  simp only [loop, h]

inductive Rounds (f : σ → Except ε (σ ⊕ β)) : σ → List σ → β → Prop where
  | exit {s : σ} {b : β} : f s = .ok (.inr b) → Rounds f s [s] b
  | next {s s' : σ} {ss : List σ} {b : β} :
      f s = .ok (.inl s') → Rounds f s' ss b → Rounds f s (s :: ss) b

theorem exists_rounds {n : ℕ} {s : σ} {b : β} (h : loop e f n s = .ok b) :
    ∃ ss, Rounds f s ss b := by
  induction n generalizing s with
  | zero => simp [loop] at h
  | succ n ih =>
    rw [loop] at h
    cases hb : f s with
    | error c => simp [hb] at h
    | ok r =>
      cases r with
      | inl s' =>
        simp only [hb] at h
        obtain ⟨ss, hss⟩ := ih h
        exact ⟨s :: ss, .next hb hss⟩
      | inr c =>
        simp only [hb, Except.ok.injEq] at h
        rw [h] at hb
        exact ⟨[s], .exit hb⟩

theorem Rounds.forall {P : σ → Prop} {s : σ} {ss : List σ} {b : β} (h : Rounds f s ss b)
    (hP : ∀ s r, f s = .ok r → P s) : ∀ t ∈ ss, P t := by
  induction h with
  | exit hb => simpa using hP _ _ hb
  | next hb _ ih =>
    intro t ht
    rcases List.mem_cons.mp ht with rfl | ht
    · exact hP _ _ hb
    · exact ih t ht

theorem Rounds.invariant {P : σ → Prop} {s : σ} {ss : List σ} {b : β} (h : Rounds f s ss b)
    (hs : P s) (hP : ∀ s s', P s → f s = .ok (.inl s') → P s') : ∀ t ∈ ss, P t := by
  induction h with
  | exit _ => simpa using hs
  | next hb _ ih =>
    intro t ht
    rcases List.mem_cons.mp ht with rfl | ht
    · exact hs
    · exact ih (hP _ _ hs hb) t ht

def Returns (p : ℕ → Except ε β) (b : β) : Prop := ∀ᶠ n in Filter.atTop, p n = .ok b

section Returns

universe u

variable {α : Type*} {β γ : Type u} {p : ℕ → Except ε β} {f : σ → Except ε (σ ⊕ β)}

theorem Returns.of_forall {b : β} (h : ∀ n, p n = .ok b) : Returns p b :=
  Filter.Eventually.of_forall h

@[simp] theorem returns_const {x : Except ε β} {b : β} : Returns (fun _ => x) b ↔ x = .ok b :=
  Filter.eventually_const

theorem Returns.of_loop {n : ℕ} {s : σ} {b : β} (h : loop e f n s = .ok b) :
    Returns (fun n => loop e f n s) b :=
  Filter.eventually_atTop.2 ⟨n, fun _ hk => loop_mono h hk⟩

theorem Returns.bind {q : ℕ → β → Except ε γ} {a : β} {b : γ} (hp : Returns p a)
    (hq : Returns (fun n => q n a) b) : Returns (fun n => p n >>= q n) b := by
  filter_upwards [hp, hq] with n hpn hqn
  rw [hpn]
  exact hqn

theorem exists_returns_foldlM {R : σ → List α → Prop} {g : ℕ → σ → α → Except ε σ}
    (step : ∀ s done x, R s done → ∃ s', Returns (fun n => g n s x) s' ∧ R s' (done ++ [x]))
    {s : σ} {done : List α} (hs : R s done) (xs : List α) :
    ∃ s', Returns (fun n => xs.foldlM (g n) s) s' ∧ R s' (done ++ xs) := by
  induction xs generalizing s done with
  | nil => exact ⟨s, .of_forall fun _ => rfl, by rwa [List.append_nil]⟩
  | cons x xs ih =>
    obtain ⟨s₁, hstep, hone⟩ := step s done x hs
    obtain ⟨s', hrun, hall⟩ := ih hone
    refine ⟨s', ?_, by rwa [List.append_cons]⟩
    simp only [List.foldlM_cons]
    exact hstep.bind hrun

end Returns

end FuelLoop

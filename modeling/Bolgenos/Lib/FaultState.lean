import Mathlib.Tactic

/-!
# Computations with a state that survives a failure

`FaultState ε σ α` is a computation over a state `σ` that returns a value or fails, and in
both cases leaves a state. `Spec P p Q E` says that from a state in `P` it either returns
with `Q` or fails in a state in `E`.
-/

def FaultState (ε σ α : Type) := σ → Except ε α × σ

namespace FaultState

variable {ε σ α β : Type}

instance : Monad (FaultState ε σ) where
  pure a := fun s => (.ok a, s)
  bind p f := fun s =>
    match p s with
    | (.ok a, s') => f a s'
    | (.error e, s') => (.error e, s')

def fail (e : ε) : FaultState ε σ α := fun s => (.error e, s)

def modify (f : σ → σ) : FaultState ε σ Unit := fun s => (.ok (), f s)

def lift (x : Except ε α) : FaultState ε σ α := fun s => (x, s)

def gets (f : σ → α) : FaultState ε σ α := fun s => (.ok (f s), s)

theorem bind_apply_ok {p : FaultState ε σ α} {f : α → FaultState ε σ β} {a : α} {s s' : σ}
    (h : p s = (.ok a, s')) : (p >>= f) s = f a s' := by
  simp only [Bind.bind, h]

theorem bind_apply_error {p : FaultState ε σ α} {f : α → FaultState ε σ β} {e : ε} {s s' : σ}
    (h : p s = (.error e, s')) : (p >>= f) s = (.error e, s') := by
  simp only [Bind.bind, h]

/-- A loop of calls that each return is the fold of what they do to the state. -/
theorem forM_apply {f : β → FaultState ε σ Unit} {g : σ → β → σ} {xs : List β}
    (h : ∀ x ∈ xs, ∀ s, f x s = (.ok (), g s x)) (s : σ) :
    xs.forM f s = (.ok (), xs.foldl g s) := by
  induction xs generalizing s with
  | nil => rfl
  | cons x xs ih =>
    have hcons : (x :: xs).forM f s = (f x >>= fun _ => xs.forM f) s := rfl
    rw [hcons, bind_apply_ok (h x List.mem_cons_self s), List.foldl_cons]
    exact ih (fun y hy => h y (List.mem_cons_of_mem x hy)) (g s x)

def Spec (P : σ → Prop) (p : FaultState ε σ α) (Q : α → σ → Prop) (E : σ → Prop) : Prop :=
  ∀ s, P s →
    match p s with
    | (.ok a, s') => Q a s'
    | (.error _, s') => E s'

def Keeps (I : σ → Prop) (p : FaultState ε σ α) : Prop := Spec I p (fun _ => I) I

variable {P I E : σ → Prop} {p : FaultState ε σ α} {f : α → FaultState ε σ β}
  {Q : α → σ → Prop} {R : β → σ → Prop}

theorem Spec.pure {a : α} (h : ∀ s, P s → Q a s) :
    Spec P (pure a : FaultState ε σ α) Q E :=
  h

theorem Spec.fail {e : ε} (h : ∀ s, P s → E s) : Spec P (fail e : FaultState ε σ α) Q E :=
  h

theorem Spec.modify {g : σ → σ} {Q : Unit → σ → Prop} (h : ∀ s, P s → Q () (g s)) :
    Spec P (modify g : FaultState ε σ Unit) Q E :=
  h

theorem Spec.gets {g : σ → α} (h : ∀ s, P s → Q (g s) s) :
    Spec P (gets g : FaultState ε σ α) Q E :=
  h

theorem Spec.bind (hp : Spec P p Q E) (hf : ∀ a, Spec (Q a) (f a) R E) :
    Spec P (p >>= f) R E := by
  intro s hs
  have h := hp s hs
  simp only [Bind.bind]
  split at h
  · exact hf _ _ h
  · exact h

theorem Spec.strengthen {P' : σ → Prop} (h : Spec P p Q E) (hP : ∀ s, P' s → P s) :
    Spec P' p Q E :=
  fun s hs => h s (hP s hs)

theorem Spec.weaken {Q' : α → σ → Prop} {E' : σ → Prop} (h : Spec P p Q E)
    (hQ : ∀ a s, Q a s → Q' a s) (hE : ∀ s, E s → E' s) : Spec P p Q' E' := by
  intro s hs
  have hspec := h s hs
  split at hspec
  · exact hQ _ _ hspec
  · exact hE _ hspec

theorem Keeps.pure (a : α) : Keeps I (pure a : FaultState ε σ α) := Spec.pure fun _ hs => hs

theorem Keeps.fail (e : ε) : Keeps I (fail e : FaultState ε σ α) := Spec.fail fun _ hs => hs

theorem Keeps.bind (hp : Keeps I p) (hf : ∀ a, Keeps I (f a)) : Keeps I (p >>= f) :=
  Spec.bind hp hf

theorem Keeps.ite {c : Prop} [Decidable c] {q : FaultState ε σ α} (hp : Keeps I p)
    (hq : Keeps I q) : Keeps I (if c then p else q) := by
  split_ifs
  · exact hp
  · exact hq

theorem Spec.state (h : Spec P p (fun _ => I) I) {s : σ} (hs : P s) : I (p s).2 := by
  have hspec := h s hs
  split at hspec
  · rename_i heq
    rw [heq]
    exact hspec
  · rename_i heq
    rw [heq]
    exact hspec

end FaultState

import Bolgenos.Lib.Ledger
import Bolgenos.Machine

/-!
# Optional values

`lib::optional` keeps the storage of a value and the flag that says whether there is one apart,
and updates them in six special members. The values are any type with a state that a move leaves
behind; each construction of a value gets a number of its own, so that a value that is never
destroyed, or destroyed twice, can be told. A family of objects goes through any history of
constructions, assignments and destructions.
-/

namespace Bolgenos

structure Stored (α : Type) where
  id : ℕ
  value : α
  deriving DecidableEq, Repr

/-- `lib::optional`. The storage is `none` before a value is constructed in it and after the
value was destroyed. -/
structure Optional (α : Type) where
  storage : Option (Stored α) := none
  hasValue : Bool := false
  deriving DecidableEq, Repr

namespace Optional

variable {α : Type}

def value (o : Optional α) : Result (Stored α) :=
  if o.hasValue then
    match o.storage with
    | some x => .ok x
    | none => .error .useAfterFree
  else .error (.panic "bad_optional_access")

/-- `if (has_value()) value().T::~T()`, with the numbers of the values destroyed. -/
def destroyValue (o : Optional α) : Result (Optional α × List ℕ) :=
  if o.hasValue then do
    let x ← o.value
    .ok ({ o with storage := none }, [x.id])
  else .ok (o, [])

def toOption (o : Optional α) : Option α := if o.hasValue then o.storage.map Stored.value else none

end Optional

/-- The objects that are alive, the number of the next value, and the numbers of the values
destroyed so far. -/
structure Family (ι α : Type) where
  objects : ι → Option (Optional α)
  next : ℕ
  destroyed : List ℕ

inductive OptionalOp (ι α : Type) where
  | default (i : ι)
  | ofValue (i : ι) (u : α)
  | moveConstruct (i other : ι)
  | moveAssign (i other : ι)
  | assign (i : ι) (u : α)
  | destroy (i : ι)

namespace Family

variable {ι α : Type}

def empty : Family ι α := ⟨fun _ => none, 0, []⟩

def get (w : Family ι α) (i : ι) : Result (Optional α) :=
  match w.objects i with
  | some o => .ok o
  | none => .error .useAfterFree

def state (w : Family ι α) (i : ι) : Option α := (w.objects i).bind Optional.toOption

section Operations

variable [DecidableEq ι]

def set (w : Family ι α) (i : ι) (o : Option (Optional α)) : Family ι α :=
  { w with objects := Function.update w.objects i o }

def construct (w : Family ι α) (i : ι) (u : α) (hasValue : Bool) : Family ι α :=
  { w.set i (some ⟨some ⟨w.next, u⟩, hasValue⟩) with next := w.next + 1 }

/-- `lib::move(other.value())`: the value is taken, and `moved` of it is left behind. -/
def moveFrom (moved : α → α) (w : Family ι α) (other : ι) : Result (α × Family ι α) := do
  let o ← w.get other
  let x ← o.value
  .ok (x.value, w.set other (some { o with storage := some ⟨x.id, moved x.value⟩ }))

def clear (w : Family ι α) (i : ι) : Result (Family ι α) := do
  let o ← w.get i
  let (o, ids) ← o.destroyValue
  .ok { w.set i (some o) with destroyed := w.destroyed ++ ids }

def step (moved : α → α) (w : Family ι α) : OptionalOp ι α → Result (Family ι α)
  | .default i => .ok (w.set i (some {}))
  | .ofValue i u => .ok (w.construct i u true)
  | .moveConstruct i other => do
    let o ← w.get other
    if o.hasValue then do
      let (u, w) ← w.moveFrom moved other
      -- the flag of the new object is not set here
      .ok (w.construct i u false)
    else .ok (w.set i (some {}))
  | .moveAssign i other => do
    let w ← w.clear i
    let (u, w) ← w.moveFrom moved other
    .ok (w.construct i u true)
  | .assign i u => do
    let w ← w.clear i
    .ok (w.construct i u true)
  | .destroy i => do
    let w ← w.clear i
    .ok (w.set i none)

/-- The rules of the language: an object is constructed when it is not alive, and used and
destroyed when it is. -/
def Valid (w : Family ι α) : OptionalOp ι α → Prop
  | .default i => w.objects i = none
  | .ofValue i _ => w.objects i = none
  | .moveConstruct i other => w.objects i = none ∧ w.objects other ≠ none
  | .moveAssign i other => w.objects i ≠ none ∧ w.objects other ≠ none
  | .assign i _ => w.objects i ≠ none
  | .destroy i => w.objects i ≠ none

def MovesTo (w w' : Family ι α) : OptionalOp ι α → Prop
  | .moveConstruct i other => w'.state i = w.state other
  | .moveAssign i other => w'.state i = w.state other
  | _ => True

def Clean (w : Family ι α) : Prop :=
  (∀ i, w.objects i = none) → ∀ id < w.next, w.destroyed.count id = 1

def ValidHistory (moved : α → α) : Family ι α → List (OptionalOp ι α) → Prop
  | _, [] => True
  | w, op :: ops => Valid w op ∧ ∀ w', step moved w op = .ok w' → ValidHistory moved w' ops

/-- No operation of the history fails, moves are right, and no value is lost or destroyed
twice. -/
def Lawful (moved : α → α) : Family ι α → List (OptionalOp ι α) → Prop
  | w, [] => Clean w
  | w, op :: ops =>
    Clean w ∧ ∃ w', step moved w op = .ok w' ∧ MovesTo w w' op ∧ Lawful moved w' ops

/-- The moves that the class gets right: construction from an empty object, and assignment
from an engaged one to another object. -/
def Safe (w : Family ι α) : OptionalOp ι α → Prop
  | .moveConstruct _ other => w.state other = none
  | .moveAssign i other => w.state other ≠ none ∧ i ≠ other
  | _ => True

def SafeHistory (moved : α → α) : Family ι α → List (OptionalOp ι α) → Prop
  | _, [] => True
  | w, op :: ops => Safe w op ∧ ∀ w', step moved w op = .ok w' → SafeHistory moved w' ops

end Operations

def idOf (o : Option (Optional α)) : Option ℕ := o.bind fun o => o.storage.map Stored.id

def held (w : Family ι α) (i : ι) : Option ℕ := idOf (w.objects i)

def Flagged (o : Optional α) : Prop := o.hasValue = o.storage.isSome

structure Inv (w : Family ι α) : Prop where
  flagged : ∀ i o, w.objects i = some o → Flagged o
  balanced : Ledger.Balanced w.held w.next w.destroyed

variable {moved : α → α} {w w' : Family ι α} {i other : ι} {o : Optional α} {u : α}

theorem inv_empty : Inv (empty : Family ι α) where
  flagged i o h := by cases h
  balanced := Ledger.balanced_empty

theorem Inv.clean (h : Inv w) : Clean w := by
  intro hdead id hid
  apply h.balanced.count_eq_one ?_ hid
  intro i
  rw [held, hdead i]
  rfl

theorem Flagged.state_eq (h : Flagged o) (hi : w.objects i = some o) :
    w.state i = o.storage.map Stored.value := by
  obtain ⟨storage, hasValue⟩ := o
  rw [Flagged] at h
  simp only at h
  subst h
  rw [state, hi]
  cases storage with
  | none => rfl
  | some x => rfl

theorem Inv.engaged (h : Inv w) (hs : w.state other ≠ none) :
    ∃ x, w.objects other = some ⟨some x, true⟩ ∧ w.state other = some x.value := by
  cases ho : w.objects other with
  | none =>
    rw [state, ho] at hs
    exact absurd rfl hs
  | some o =>
    have hflag := h.flagged other o ho
    rw [hflag.state_eq ho] at hs ⊢
    obtain ⟨storage, hasValue⟩ := o
    cases storage with
    | none => exact absurd rfl hs
    | some x =>
      rw [Flagged] at hflag
      simp only [Option.isSome_some] at hflag
      rw [hflag]
      exact ⟨x, rfl, rfl⟩

theorem Inv.disengaged (h : Inv w) (halive : w.objects other ≠ none)
    (hs : w.state other = none) : w.objects other = some ⟨none, false⟩ := by
  obtain ⟨o, ho⟩ := Option.ne_none_iff_exists'.mp halive
  have hflag := h.flagged other o ho
  rw [hflag.state_eq ho, Option.map_eq_none_iff] at hs
  obtain ⟨storage, hasValue⟩ := o
  simp only at hs
  subst hs
  rw [Flagged] at hflag
  simp only [Option.isSome_none] at hflag
  rw [ho, hflag]

variable [DecidableEq ι]

@[simp] theorem set_self (w : Family ι α) (i : ι) (o : Option (Optional α)) :
    (w.set i o).objects i = o := by
  simp only [set, Function.update_self]

theorem set_of_ne {j : ι} (hj : j ≠ i) (o : Option (Optional α)) :
    (w.set i o).objects j = w.objects j := by
  simp only [set, Function.update_of_ne hj]

theorem construct_objects (w : Family ι α) (i : ι) (u : α) (b : Bool) :
    (w.construct i u b).objects = (w.set i (some ⟨some ⟨w.next, u⟩, b⟩)).objects :=
  rfl

theorem held_set (w : Family ι α) (i : ι) (o : Option (Optional α)) :
    (w.set i o).held = Function.update w.held i (idOf o) := by
  funext j
  by_cases hj : j = i
  · subst hj
    simp only [held, set, Function.update_self]
  · simp only [held, set, Function.update_of_ne hj]

theorem inv_set (hflag : ∀ j ≠ i, ∀ o, w.objects j = some o → Flagged o)
    (hbal : Ledger.Balanced w.held w.next w.destroyed) (hi : w.held i = none)
    {o : Option (Optional α)} (ho : idOf o = none) (hnew : ∀ o', o = some o' → Flagged o') :
    Inv (w.set i o) := by
  refine ⟨?_, ?_⟩
  · intro j o' hj
    by_cases hji : j = i
    · rw [hji, set_self] at hj
      exact hnew o' hj
    · rw [set_of_ne hji] at hj
      exact hflag j hji o' hj
  · rw [held_set, ho, ← hi, Function.update_eq_self]
    exact hbal

theorem inv_construct (hflag : ∀ j ≠ i, ∀ o, w.objects j = some o → Flagged o)
    (hbal : Ledger.Balanced w.held w.next w.destroyed) (hi : w.held i = none) :
    Inv (w.construct i u true) ∧ (w.construct i u true).state i = some u := by
  refine ⟨⟨?_, ?_⟩, ?_⟩
  · intro j o hj
    by_cases hji : j = i
    · rw [hji, construct_objects, set_self, Option.some.injEq] at hj
      rw [← hj]
      rfl
    · rw [construct_objects, set_of_ne hji] at hj
      exact hflag j hji o hj
  · have hheld : (w.construct i u true).held = Function.update w.held i (some w.next) :=
      held_set w i _
    rw [hheld]
    exact hbal.issue hi
  · rw [state, construct_objects, set_self]
    rfl

theorem Inv.clear_spec (h : Inv w) (hi : w.objects i = some o) :
    ∃ ids, w.clear i = .ok { w.set i (some ⟨none, o.hasValue⟩) with
        destroyed := w.destroyed ++ ids } ∧
      Ledger.Balanced (Function.update w.held i none) w.next (w.destroyed ++ ids) := by
  have hflag := h.flagged i o hi
  have hheld : w.held i = o.storage.map Stored.id := by
    rw [held, hi]
    rfl
  rw [Flagged] at hflag
  obtain ⟨storage, hasValue⟩ := o
  simp only at hflag hheld
  subst hflag
  cases storage with
  | none =>
    refine ⟨[], ?_, ?_⟩
    · simp only [clear, get, hi, Optional.destroyValue, bind, Except.bind]
      rfl
    · have hnone : w.held i = none := hheld
      rw [List.append_nil, ← hnone, Function.update_eq_self]
      exact h.balanced
  | some x =>
    refine ⟨[x.id], ?_, h.balanced.redeem hheld⟩
    simp only [clear, get, hi, Optional.destroyValue, Optional.value, bind, Except.bind]
    rfl

theorem Inv.clear_parts (h : Inv w) (hi : w.objects i = some o) :
    ∃ w₁, w.clear i = .ok w₁ ∧ w₁.objects i = some ⟨none, o.hasValue⟩ ∧
      (∀ j ≠ i, w₁.objects j = w.objects j) ∧
      Ledger.Balanced w₁.held w₁.next w₁.destroyed := by
  obtain ⟨ids, hclear, hbal⟩ := h.clear_spec hi
  refine ⟨_, hclear, set_self w i _, fun j hj => set_of_ne hj _, ?_⟩
  have hheld := held_set w i (some ⟨none, o.hasValue⟩)
  exact hheld ▸ hbal

theorem moveFrom_eq {x : Stored α} (hi : w.objects other = some ⟨some x, true⟩) :
    w.moveFrom moved other =
      .ok (x.value, w.set other (some ⟨some ⟨x.id, moved x.value⟩, true⟩)) := by
  simp only [moveFrom, get, hi, Optional.value, bind, Except.bind, if_true]

theorem moveFrom_error (moved : α → α) {b : Bool} (hi : w.objects other = some ⟨none, b⟩) :
    ∃ e, w.moveFrom moved other = .error e := by
  cases b with
  | false =>
    refine ⟨.panic "bad_optional_access", ?_⟩
    simp [moveFrom, get, hi, Optional.value, bind, Except.bind]
  | true =>
    refine ⟨.useAfterFree, ?_⟩
    simp [moveFrom, get, hi, Optional.value, bind, Except.bind]

theorem Inv.moveAssign (h : Inv w) (hi : w.objects i = some o) (hs : w.state other ≠ none)
    (hne : i ≠ other) :
    ∃ w', step moved w (.moveAssign i other) = .ok w' ∧ w'.state i = w.state other ∧ Inv w' := by
  obtain ⟨w₁, hclear, hobj, hothers, hbal⟩ := h.clear_parts hi
  obtain ⟨x, hx, hstate⟩ := h.engaged hs
  have hx₁ : w₁.objects other = some ⟨some x, true⟩ := by rw [hothers other hne.symm, hx]
  -- the source keeps its value, under the same number
  have hheld : (w₁.set other (some ⟨some ⟨x.id, moved x.value⟩, true⟩)).held = w₁.held := by
    have hsame : idOf (some (⟨some ⟨x.id, moved x.value⟩, true⟩ : Optional α)) =
        w₁.held other := by
      rw [held, hx₁]
      rfl
    rw [held_set, hsame, Function.update_eq_self]
  obtain ⟨hinv, hnew⟩ := inv_construct (i := i) (u := x.value)
    (w := w₁.set other (some ⟨some ⟨x.id, moved x.value⟩, true⟩)) (by
      intro j hj o' ho'
      by_cases hjo : j = other
      · rw [hjo, set_self, Option.some.injEq] at ho'
        rw [← ho']
        rfl
      · rw [set_of_ne hjo, hothers j hj] at ho'
        exact h.flagged j o' ho')
    (hheld ▸ hbal) (by rw [hheld, held, hobj]; rfl)
  refine ⟨_, ?_, hnew.trans hstate.symm, hinv⟩
  simp only [step, hclear, moveFrom_eq hx₁, bind, Except.bind]

theorem Inv.step_safe (h : Inv w) (moved : α → α) {op : OptionalOp ι α} (hv : Valid w op)
    (hs : Safe w op) :
    ∃ w', step moved w op = .ok w' ∧ MovesTo w w' op ∧ Inv w' := by
  have hflag : ∀ i j, j ≠ i → ∀ o, w.objects j = some o → Flagged o :=
    fun i j _ o ho => h.flagged j o ho
  have hdead : ∀ {i}, w.objects i = none → w.held i = none := by
    intro i hi
    rw [held, hi]
    rfl
  cases op with
  | default i =>
    refine ⟨_, rfl, trivial, inv_set (hflag i) h.balanced (hdead hv) rfl ?_⟩
    intro o' ho'
    cases ho'
    rfl
  | ofValue i u => exact ⟨_, rfl, trivial, (inv_construct (hflag i) h.balanced (hdead hv)).1⟩
  | moveConstruct i other =>
    have hother := h.disengaged hv.2 hs
    refine ⟨w.set i (some {}), ?_, ?_, inv_set (hflag i) h.balanced (hdead hv.1) rfl ?_⟩
    · simp only [step, get, hother, bind, Except.bind]
      rfl
    · rw [MovesTo, hs, state, set_self]
      rfl
    · intro o' ho'
      cases ho'
      rfl
  | moveAssign i other =>
    obtain ⟨o, hi⟩ := Option.ne_none_iff_exists'.mp hv.1
    exact h.moveAssign hi hs.1 hs.2
  | assign i u =>
    obtain ⟨o, hi⟩ := Option.ne_none_iff_exists'.mp hv
    obtain ⟨w₁, hclear, hobj, hothers, hbal⟩ := h.clear_parts hi
    obtain ⟨hinv, -⟩ := inv_construct (i := i) (u := u) (w := w₁)
      (fun j hj o' ho' => h.flagged j o' (hothers j hj ▸ ho')) hbal (by rw [held, hobj]; rfl)
    refine ⟨_, ?_, trivial, hinv⟩
    simp only [step, hclear, bind, Except.bind]
  | destroy i =>
    obtain ⟨o, hi⟩ := Option.ne_none_iff_exists'.mp hv
    obtain ⟨w₁, hclear, hobj, hothers, hbal⟩ := h.clear_parts hi
    refine ⟨w₁.set i none, ?_, trivial, inv_set
      (fun j hj o' ho' => h.flagged j o' (hothers j hj ▸ ho')) hbal (by rw [held, hobj]; rfl) rfl
      (fun o' ho' => by cases ho')⟩
    simp only [step, hclear, bind, Except.bind]

theorem Inv.moveConstruct_engaged (h : Inv w) (moved : α → α) (i : ι)
    (hs : w.state other ≠ none) :
    ∃ w', step moved w (.moveConstruct i other) = .ok w' ∧ w'.state i = none := by
  obtain ⟨x, hx, -⟩ := h.engaged hs
  refine ⟨(w.set other (some ⟨some ⟨x.id, moved x.value⟩, true⟩)).construct i x.value false, ?_,
    ?_⟩
  · simp only [step, get, hx, bind, Except.bind, if_true, moveFrom_eq hx]
  · rw [state, construct_objects, set_self]
    rfl

theorem Inv.moveAssign_error (h : Inv w) (moved : α → α) (hi : w.objects i ≠ none)
    (hother : w.objects other ≠ none) (hbad : w.state other = none ∨ i = other) :
    ∃ e, step moved w (.moveAssign i other) = .error e := by
  obtain ⟨o, hi⟩ := Option.ne_none_iff_exists'.mp hi
  obtain ⟨w₁, hclear, hobj, hothers, -⟩ := h.clear_parts hi
  have hempty : ∃ b, w₁.objects other = some ⟨none, b⟩ := by
    by_cases heq : other = i
    · rw [heq]
      exact ⟨o.hasValue, hobj⟩
    · rcases hbad with hnone | hself
      · rw [hothers other heq]
        exact ⟨false, h.disengaged hother hnone⟩
      · exact absurd hself.symm heq
  obtain ⟨b, hb⟩ := hempty
  obtain ⟨e, he⟩ := moveFrom_error moved hb
  refine ⟨e, ?_⟩
  simp only [step, hclear, he, bind, Except.bind]

theorem Inv.safe_of_movesTo (h : Inv w) {op : OptionalOp ι α} (hv : Valid w op)
    (hstep : step moved w op = .ok w') (hmove : MovesTo w w' op) : Safe w op := by
  cases op with
  | moveConstruct i other =>
    rw [Safe]
    by_contra hs
    obtain ⟨w₁, hstep', hnone⟩ := h.moveConstruct_engaged moved i hs
    rw [hstep] at hstep'
    cases hstep'
    exact hs (hmove.symm.trans hnone)
  | moveAssign i other =>
    rw [Safe]
    by_contra hs
    have hbad : w.state other = none ∨ i = other := by
      by_cases hnone : w.state other = none
      · exact Or.inl hnone
      · exact Or.inr (not_not.mp fun hne => hs ⟨hnone, hne⟩)
    obtain ⟨e, herror⟩ := h.moveAssign_error moved hv.1 hv.2 hbad
    rw [hstep] at herror
    cases herror
  | default i => trivial
  | ofValue i u => trivial
  | assign i u => trivial
  | destroy i => trivial

theorem Inv.lawful_iff (h : Inv w) {ops : List (OptionalOp ι α)}
    (hv : ValidHistory moved w ops) : Lawful moved w ops ↔ SafeHistory moved w ops := by
  induction ops generalizing w with
  | nil => exact iff_of_true h.clean trivial
  | cons op ops ih =>
    obtain ⟨hvalid, hrest⟩ := hv
    constructor
    · intro hlawful
      obtain ⟨-, w₁, hstep, hmove, hlater⟩ := hlawful
      have hsafe := h.safe_of_movesTo hvalid hstep hmove
      refine ⟨hsafe, ?_⟩
      intro w₂ hstep₂
      obtain ⟨w₃, hstep₃, -, hinv⟩ := h.step_safe moved hvalid hsafe
      rw [hstep] at hstep₂ hstep₃
      cases hstep₂
      cases hstep₃
      exact (ih hinv (hrest w₁ hstep)).mp hlater
    · intro hsafe
      obtain ⟨w₁, hstep, hmove, hinv⟩ := h.step_safe moved hvalid hsafe.1
      exact ⟨h.clean, w₁, hstep, hmove, (ih hinv (hrest w₁ hstep)).mpr (hsafe.2 w₁ hstep)⟩

/-- Over every history, the class behaves as an option type exactly when no object is
move-constructed from an engaged one, or move-assigned from an empty one or from itself. -/
theorem history_lawful_iff (moved : α → α) (ops : List (OptionalOp ι α))
    (hv : ValidHistory moved empty ops) :
    Lawful moved empty ops ↔ SafeHistory moved empty ops :=
  inv_empty.lawful_iff hv

theorem ValidHistory.cons {op : OptionalOp ι α} {ops : List (OptionalOp ι α)} (hv : Valid w op)
    (hstep : step moved w op = .ok w') (h : ValidHistory moved w' ops) :
    ValidHistory moved w (op :: ops) := by
  refine ⟨hv, ?_⟩
  intro w₁ hstep₁
  rw [hstep] at hstep₁
  cases hstep₁
  exact h

theorem SafeHistory.cons {op : OptionalOp ι α} {ops : List (OptionalOp ι α)} (hs : Safe w op)
    (hstep : step moved w op = .ok w') (h : SafeHistory moved w' ops) :
    SafeHistory moved w (op :: ops) := by
  refine ⟨hs, ?_⟩
  intro w₁ hstep₁
  rw [hstep] at hstep₁
  cases hstep₁
  exact h

def handOver : List (OptionalOp ℕ ℕ) :=
  [.ofValue 0 5, .default 1, .moveAssign 1 0, .destroy 0, .destroy 1]

theorem history_lawful_handOver : Lawful (fun _ => 0) empty handOver := by
  have hv : ValidHistory (fun _ => 0) empty handOver := by
    refine ValidHistory.cons rfl rfl (ValidHistory.cons rfl rfl (ValidHistory.cons ?_ rfl
      (ValidHistory.cons ?_ rfl (ValidHistory.cons ?_ rfl trivial))))
    · exact ⟨by decide, by decide⟩
    · exact fun h => by cases h
    · exact fun h => by cases h
  apply (history_lawful_iff (fun _ => 0) handOver hv).mpr
  refine SafeHistory.cons trivial rfl (SafeHistory.cons trivial rfl (SafeHistory.cons ?_ rfl
    (SafeHistory.cons trivial rfl (SafeHistory.cons trivial rfl trivial))))
  exact ⟨by decide, by decide⟩

theorem history_not_lawful_moveConstruct :
    ¬ ∀ (moved : ℕ → ℕ) (ops : List (OptionalOp ℕ ℕ)), ValidHistory moved empty ops →
      Lawful moved empty ops := by
  intro hall
  have hv : ValidHistory (fun _ => 0) empty
      ([.ofValue 0 5, .moveConstruct 1 0] : List (OptionalOp ℕ ℕ)) := by
    refine ValidHistory.cons rfl rfl (ValidHistory.cons ⟨rfl, ?_⟩ rfl trivial)
    decide
  obtain ⟨-, w₁, hstep₁, -, -, w₂, hstep₂, hmove, -⟩ := hall _ _ hv
  cases hstep₁
  cases hstep₂
  have hstate : (none : Option ℕ) = some 5 := hmove
  cases hstate

end Family

end Bolgenos

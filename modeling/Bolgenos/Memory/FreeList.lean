import Bolgenos.Machine
import Bolgenos.Lib.Chain
import Bolgenos.Lib.Dyadic

/-!
# Free lists of page frames

A free list of order `k` links blocks of `2 ^ k` frames through the first word of each
block. `put` keeps the list ascending and, unless squashing is disabled, joins a block
with its buddy instead of inserting it. Every operation ends with `sanityCheck`, which
looks for a loop with two pointers of different speed and then compares the length with
the statistics.
-/

namespace Bolgenos

open ByteMemory FuelLoop LinkedChain Dyadic

structure FreeList where
  list : ℕ := 0
  order : ℕ := 0
  disableSquashing : Bool := false
  items : ℕ := 0
  deriving DecidableEq, Repr

def areConsequent (first second order : ℕ) : Bool :=
  frameDiff second first = (shiftOne order : ℤ)

def isTheFirstInBuddy (item order : ℕ) : Bool :=
  toUnsigned (frameDiff item 0) &&& shiftOne order = 0

theorem areConsequent_frame {p q k : ℕ} (hp : p < 2 ^ 20) (hq : q < 2 ^ 20) (hk : k ≤ 10) :
    areConsequent (frame p) (frame q) k = true ↔ q = p + 2 ^ k ∨ q + 2 ^ 20 = p + 2 ^ k := by
  have hpow : 2 ^ k ≤ 2 ^ 10 := Nat.pow_le_pow_right (by omega) hk
  have hpos := Nat.two_pow_pos k
  rw [areConsequent, decide_eq_true_iff, shiftOne_of_lt (by omega)]
  generalize 2 ^ k = d at hpow hpos ⊢
  simp only [frameDiff, toSigned, sub32, wrap, frame, pageSize]
  split_ifs <;> omega

theorem isTheFirstInBuddy_frame {p k : ℕ} (hp : p < 2 ^ 20) (hk : k ≤ 10) :
    isTheFirstInBuddy (frame p) k = !p.testBit k := by
  have hdiff : ∃ c, toUnsigned (frameDiff (frame p) 0) = p + 2 ^ 20 * c := by
    simp only [toUnsigned, frameDiff, toSigned, sub32, wrap, frame, pageSize]
    split_ifs
    · exact ⟨0, by omega⟩
    · exact ⟨4095, by omega⟩
  obtain ⟨c, hc⟩ := hdiff
  have hbit : (p + 2 ^ 20 * c).testBit k = p.testBit k := by
    have hpow : 2 ^ 20 = 2 ^ k * (2 * 2 ^ (19 - k)) := by
      rw [← Nat.pow_succ', ← Nat.pow_add, show k + (19 - k).succ = 20 by omega]
    have hsplit : 2 ^ 20 * c = 2 ^ k * (2 * (2 ^ (19 - k) * c)) := by
      rw [hpow, Nat.mul_assoc, Nat.mul_assoc]
    rw [Nat.testBit_eq_decide_div_mod_eq, Nat.testBit_eq_decide_div_mod_eq, hsplit,
      Nat.add_mul_div_left _ _ (Nat.two_pow_pos k), Nat.add_mul_mod_self_left]
  rw [isTheFirstInBuddy, hc, shiftOne_of_lt (by omega), Nat.and_two_pow, hbit]
  cases p.testBit k <;> simp

/-- The test that `put` makes on two neighbours of the list: it holds for a pair of
buddies and for no other frames. -/
theorem squashable_iff {a b k : ℕ} (hk : k ≤ 10) (ha : 2 ^ k ∣ a) (hab : a < b)
    (hb : b < 2 ^ 20) :
    (areConsequent (frame a) (frame b) k && isTheFirstInBuddy (frame a) k) = true ↔
      buddy k a = b := by
  have hpow : 2 ^ k ≤ 2 ^ 10 := Nat.pow_le_pow_right (by omega) hk
  rw [Bool.and_eq_true, areConsequent_frame (by omega) hb hk,
    isTheFirstInBuddy_frame (by omega) hk, buddy_eq ha]
  cases a.testBit k
  · simp only [Bool.not_false, and_true, Bool.false_eq_true, if_false]
    omega
  · simp only [Bool.not_true, Bool.false_eq_true, and_false, if_true, false_iff]
    omega

/-- A missing successor is never taken for a buddy, not even after the last frame of
the address space, where the pointer difference wraps around. -/
theorem not_squashable_null {a k : ℕ} (hk : k ≤ 10) (ha : 2 ^ k ∣ a) (hlt : a < 2 ^ 20) :
    (areConsequent (frame a) 0 k && isTheFirstInBuddy (frame a) k) = false := by
  have hpos := Nat.two_pow_pos k
  by_contra h
  rw [Bool.not_eq_false, Bool.and_eq_true, show (0 : ℕ) = frame 0 by rfl,
    areConsequent_frame hlt (by omega) hk, isTheFirstInBuddy_frame hlt hk] at h
  obtain ⟨hwrap, hbit⟩ := h
  have htop : a + 2 ^ k = 2 ^ 20 := by omega
  have hpow : 2 ^ 20 = 2 ^ k * (2 * 2 ^ (19 - k)) := by
    rw [← Nat.pow_succ', ← Nat.pow_add, show k + (19 - k).succ = 20 by omega]
  obtain ⟨c, rfl⟩ := ha
  have hc : c + 1 = 2 * 2 ^ (19 - k) := by
    apply Nat.eq_of_mul_eq_mul_left hpos
    rw [← hpow, ← htop, Nat.mul_add, Nat.mul_one]
  rw [Nat.testBit_eq_decide_div_mod_eq, Nat.mul_div_cancel_left _ hpos] at hbit
  have hodd : c % 2 = 1 := by omega
  simp [hodd] at hbit

namespace FreeList

def advance (m : Mem) (item : ℕ) : Result ℕ :=
  if item ≠ 0 then next m item else .ok item

def chaseStep (m : Mem) (s : ℕ × ℕ) : Result ((ℕ × ℕ) ⊕ (ℕ × ℕ)) := do
  let slow ← advance m s.1
  let fast ← advance m s.2
  let fast ← advance m fast
  if slow ≠ 0 ∧ fast ≠ 0 ∧ slow ≠ fast then .ok (.inl (slow, fast)) else .ok (.inr (slow, fast))

def lengthStep (m : Mem) (s : ℕ × ℕ) : Result ((ℕ × ℕ) ⊕ ℕ) :=
  if s.1 ≠ 0 then do
    let item ← next m s.1
    .ok (.inl (item, wrap (s.2 + 1)))
  else .ok (.inr s.2)

def sanityCheck (m : Mem) (fl : FreeList) : Result Unit := do
  let s ← loop .divergence (chaseStep m) budget (fl.list, fl.list)
  if s.1 = s.2 ∧ s.1 ≠ 0 then .error (.panic "FreeList loop detected!")
  else do
    let length ← loop .divergence (lengthStep m) budget (fl.list, 0)
    if length ≠ fl.items then .error (.panic "FreeList stats are invalid!") else .ok ()

def initializeList (m : Mem) (fl : FreeList) (order : ℕ) (disableSquashing : Bool) :
    Result FreeList := do
  let fl := { fl with list := 0, order := order, disableSquashing := disableSquashing }
  sanityCheck m fl
  .ok fl

def findLastLesserStep (m : Mem) (newItem : ℕ) (s : ℕ × ℕ × ℕ) :
    Result ((ℕ × ℕ × ℕ) ⊕ (ℕ × ℕ)) :=
  if s.1 ≠ 0 ∧ s.1 < newItem then do
    let item ← next m s.1
    .ok (.inl (item, s.1, s.2.1))
  else .ok (.inr s.2)

def findLastLesser (m : Mem) (fl : FreeList) (newItem : ℕ) : Result (ℕ × ℕ) :=
  loop .divergence (findLastLesserStep m newItem) budget (fl.list, 0, 0)

def commit (m : Mem) (fl : FreeList) (item : ℕ) : Result (ℕ × Mem × FreeList) := do
  sanityCheck m fl
  .ok (item, m, fl)

def get (m : Mem) (fl : FreeList) : Result (ℕ × Mem × FreeList) :=
  if fl.list ≠ 0 then do
    let rest ← next m fl.list
    let m ← setNext m fl.list 0
    commit m { fl with list := rest, items := sub32 fl.items 1 } fl.list
  else commit m fl fl.list

/-- The assignments of `put`; `finish` stands for what comes behind them at each return. -/
def putWith {β : Type} (finish : Mem → FreeList → ℕ → Result β) (m : Mem) (fl : FreeList)
    (item : ℕ) : Result β := do
  let m ← setNext m item 0
  if fl.list = 0 then
    finish m { fl with list := item, items := wrap (fl.items + 1) } 0
  else do
    let (last, prelast) ← findLastLesser m fl item
    if fl.disableSquashing then
      if last = 0 then do
        let m ← setNext m item fl.list
        finish m { fl with list := item, items := wrap (fl.items + 1) } 0
      else do
        let after ← next m last
        let m ← setNext m item after
        let m ← setNext m last item
        finish m { fl with items := wrap (fl.items + 1) } 0
    else if last = 0 then
      -- the element belongs to the beginning of the list
      if areConsequent item fl.list fl.order && isTheFirstInBuddy item fl.order then do
        let rest ← next m fl.list
        finish m { fl with list := rest, items := sub32 fl.items 1 } item
      else do
        let m ← setNext m item fl.list
        finish m { fl with list := item, items := wrap (fl.items + 1) } 0
    else do
      let after ← next m last
      if areConsequent last item fl.order && isTheFirstInBuddy last fl.order then
        if prelast ≠ 0 then do
          let m ← setNext m prelast after
          let m ← setNext m last 0
          finish m { fl with items := sub32 fl.items 1 } last
        else do
          let m ← setNext m last 0
          finish m { fl with list := after, items := sub32 fl.items 1 } last
      else if areConsequent item after fl.order && isTheFirstInBuddy item fl.order then do
        let rest ← next m after
        let m ← setNext m last rest
        finish m { fl with items := sub32 fl.items 1 } item
      else do
        let m ← setNext m item after
        let m ← setNext m last item
        finish m { fl with items := wrap (fl.items + 1) } 0

def put (m : Mem) (fl : FreeList) (item : ℕ) : Result (ℕ × Mem × FreeList) :=
  putWith commit m fl item

def relink (m : Mem) (fl : FreeList) (item : ℕ) : Result (ℕ × Mem × FreeList) :=
  putWith (fun m fl item => .ok (item, m, fl)) m fl item

theorem putWith_eq {β : Type} (finish : Mem → FreeList → ℕ → Result β) (m : Mem) (fl : FreeList)
    (item : ℕ) :
    putWith finish m fl item = relink m fl item >>= fun (item, m, fl) => finish m fl item := by
  have hite {c : Prop} [Decidable c] (a b : Result (ℕ × Mem × FreeList))
      (f : ℕ × Mem × FreeList → Result β) :
      (if c then a else b) >>= f = if c then a >>= f else b >>= f := apply_ite (· >>= f) c a b
  have hok (x : ℕ × Mem × FreeList) (f : ℕ × Mem × FreeList → Result β) :
      Except.ok x >>= f = f x := rfl
  simp only [relink, putWith, bind_assoc, hite, hok]

variable {m m' : Mem} {fl : FreeList} {k p q : ℕ} {ps xs : List ℕ}

theorem advance_drop (h : Chain 0 (read32 m) q xs) (i : ℕ) :
    advance m ((xs.drop i).headD 0) = .ok ((xs.drop (i + 1)).headD 0) := by
  by_cases hi : i < xs.length
  · have hcons : xs.drop i = xs[i] :: xs.drop (i + 1) := List.drop_eq_getElem_cons hi
    have hne : xs[i] ≠ 0 := segment_ne_null h _ (List.getElem_mem hi)
    have hnext := chain_next_drop h hi
    rw [hcons] at hnext ⊢
    rw [List.headD_cons] at hnext ⊢
    rw [advance, if_pos hne, next_of_ne hne, hnext]
  · rw [List.drop_eq_nil_of_le (by omega), List.drop_eq_nil_of_le (by omega)]
    rfl

theorem headD_drop_inj (h : Chain 0 (read32 m) q xs) {i j : ℕ}
    (hi : (xs.drop i).headD 0 ≠ 0) (hij : (xs.drop i).headD 0 = (xs.drop j).headD 0) : i = j := by
  have hbound : ∀ n, (xs.drop n).headD 0 ≠ 0 → n < xs.length := by
    intro n hn
    by_contra hle
    exact hn (by rw [List.drop_eq_nil_of_le (by omega)]; rfl)
  have hi' := hbound i hi
  have hj' := hbound j (hij ▸ hi)
  rw [List.drop_eq_getElem_cons hi', List.drop_eq_getElem_cons hj', List.headD_cons,
    List.headD_cons] at hij
  exact (chain_nodup h).getElem_inj_iff.mp hij

theorem chase_of_chain (h : Chain 0 (read32 m) q xs) (hlen : xs.length < budget) :
    ∃ s, loop .divergence (chaseStep m) budget (q, q) = .ok s ∧ ¬ (s.1 = s.2 ∧ s.1 ≠ 0) := by
  have hq : q = (xs.drop 0).headD 0 := chain_head h
  refine loop_total (fun n s => ∃ i, n + i = xs.length ∧
    s = ((xs.drop i).headD 0, (xs.drop (2 * i)).headD 0)) _ ?_ (k := xs.length)
    ⟨0, by omega, by rw [hq]⟩ hlen
  intro n s hexists
  obtain ⟨i, hi, rfl⟩ := hexists
  have hbody : chaseStep m ((xs.drop i).headD 0, (xs.drop (2 * i)).headD 0) =
      let t := ((xs.drop (i + 1)).headD 0, (xs.drop (2 * (i + 1))).headD 0)
      if t.1 ≠ 0 ∧ t.2 ≠ 0 ∧ t.1 ≠ t.2 then .ok (.inl t) else .ok (.inr t) := by
    simp only [chaseStep, advance_drop h, bind, Except.bind]
    rfl
  by_cases hgo : (xs.drop (i + 1)).headD 0 ≠ 0 ∧ (xs.drop (2 * (i + 1))).headD 0 ≠ 0 ∧
      (xs.drop (i + 1)).headD 0 ≠ (xs.drop (2 * (i + 1))).headD 0
  · have hlt : i + 1 < xs.length := by
      by_contra hle
      exact hgo.1 (by rw [List.drop_eq_nil_of_le (by omega)]; rfl)
    exact Or.inl ⟨_, n - 1, by rw [hbody]; exact if_pos hgo, ⟨i + 1, by omega, rfl⟩, by omega⟩
  · refine Or.inr ⟨_, by rw [hbody]; exact if_neg hgo, ?_⟩
    intro hparts
    obtain ⟨heq, hne⟩ := hparts
    have := headD_drop_inj h hne heq
    omega

theorem length_of_chain (h : Chain 0 (read32 m) q xs) (hlen : xs.length < 2 ^ 32) :
    loop .divergence (lengthStep m) budget (q, 0) = .ok xs.length := by
  have hq : q = (xs.drop 0).headD 0 := chain_head h
  obtain ⟨b, hrun, rfl⟩ := loop_total (e := Fault.divergence) (f := lengthStep m)
    (fun n s => ∃ i, n + i = xs.length ∧ s = ((xs.drop i).headD 0, i)) (fun b => b = xs.length)
    (n := budget) (k := xs.length) (s := (q, 0)) (by
      intro n s hexists
      obtain ⟨i, hi, rfl⟩ := hexists
      by_cases hlt : i < xs.length
      · have hadv := advance_drop h i
        have hne : (xs.drop i).headD 0 ≠ 0 := by
          rw [List.drop_eq_getElem_cons hlt, List.headD_cons]
          exact segment_ne_null h _ (List.getElem_mem hlt)
        rw [advance, if_pos hne] at hadv
        refine Or.inl ⟨((xs.drop (i + 1)).headD 0, i + 1), n - 1, ?_, ⟨i + 1, by omega, rfl⟩,
          by omega⟩
        simp only [lengthStep, if_pos hne, hadv, bind, Except.bind,
          wrap_of_lt (show i + 1 < 2 ^ 32 by omega)]
      · refine Or.inr ⟨i, ?_, by omega⟩
        simp only [lengthStep, List.drop_eq_nil_of_le (show xs.length ≤ i by omega)]
        rfl)
    ⟨0, by omega, by rw [hq]⟩ (lt_budget (by omega))
  exact hrun

theorem sanityCheck_ok (h : Chain 0 (read32 m) fl.list xs) (hlen : xs.length < 2 ^ 32)
    (hitems : fl.items = xs.length) : sanityCheck m fl = .ok () := by
  obtain ⟨s, hchase, hs⟩ := chase_of_chain h (lt_budget (by omega))
  simp only [sanityCheck, hchase, length_of_chain h hlen, bind, Except.bind, if_neg hs, hitems]
  simp

theorem commit_ok (h : Chain 0 (read32 m) fl.list xs) (hlen : xs.length < 2 ^ 32)
    (hitems : fl.items = xs.length) (item : ℕ) : commit m fl item = .ok (item, m, fl) := by
  simp only [commit, sanityCheck_ok h hlen hitems, bind, Except.bind]

def lastTwo (s : ℕ × ℕ) (ls : List ℕ) : ℕ × ℕ := ls.foldl (fun s x => (x, s.1)) s

theorem findLastLesser_scan {f : ℕ} {ls gs : List ℕ} (hls : ∀ x ∈ ls, x < f)
    (hgs : ∀ x ∈ gs, f ≤ x) (h : Chain 0 (read32 m) q (ls ++ gs)) (s : ℕ × ℕ) {n : ℕ}
    (hn : ls.length < n) :
    loop .divergence (findLastLesserStep m f) n (q, s) = .ok (lastTwo s ls) := by
  induction ls generalizing q s n with
  | nil =>
    refine loop_exit_of_lt hn ?_
    have hstop : ¬ (q ≠ 0 ∧ q < f) := by
      cases gs with
      | nil => exact fun hq => hq.1 h
      | cons g gs =>
        obtain ⟨rfl, -, -⟩ := h
        exact fun hq => absurd (hgs q (by simp)) (by omega)
    simp only [findLastLesserStep, if_neg hstop]
    rfl
  | cons x ls ih =>
    obtain ⟨rfl, hx, htail⟩ := h
    have hgo : q ≠ 0 ∧ q < f := ⟨hx, hls q (by simp)⟩
    have hbody : findLastLesserStep m f (q, s) = .ok (.inl (read32 m q, q, s.1)) := by
      simp only [findLastLesserStep, if_pos hgo, next_of_ne hx, bind, Except.bind]
    rw [loop_next_of_lt hn hbody]
    exact ih (fun y hy => hls y (by simp [hy])) htail (q, s.1) (Nat.lt_sub_of_add_lt hn)

/-- The list holds the blocks with page numbers `ps`: they are linked in ascending
order from `list`, aligned to the order, away from page 0 and inside the 32-bit address
space, and `items` is their number. -/
structure Holds (m : Mem) (fl : FreeList) (k : ℕ) (ps : List ℕ) : Prop where
  chain : Chain 0 (read32 m) fl.list (ps.map frame)
  order : fl.order = k
  items : fl.items = ps.length
  sorted : ps.Pairwise (· < ·)
  aligned : ∀ p ∈ ps, 2 ^ k ∣ p
  inSpace : ∀ p ∈ ps, 0 < p ∧ p + 2 ^ k ≤ 2 ^ 20

theorem length_le_of_sorted {ps : List ℕ} {n : ℕ} (hs : ps.Pairwise (· < ·))
    (hb : ∀ p ∈ ps, p < n) : ps.length ≤ n := by
  have hsub : ps ⊆ List.range n := fun p hp => List.mem_range.mpr (hb p hp)
  have hnodup : ps.Nodup := hs.imp fun h => Nat.ne_of_lt h
  simpa using (hnodup.subperm hsub).length_le

theorem sorted_ext {xs ys : List ℕ} (hxs : xs.Pairwise (· < ·)) (hys : ys.Pairwise (· < ·))
    (h : ∀ x, x ∈ xs ↔ x ∈ ys) : xs = ys := by
  have hperm : xs.Perm ys := (List.perm_ext_iff_of_nodup (hxs.imp fun h => Nat.ne_of_lt h)
    (hys.imp fun h => Nat.ne_of_lt h)).mpr h
  exact hperm.eq_of_pairwise (fun a b _ _ hab hba => absurd hab (Nat.lt_asymm hba)) hxs hys

theorem Holds.length_lt (h : Holds m fl k ps) : ps.length < 2 ^ 31 := by
  have hpos := Nat.two_pow_pos k
  have := length_le_of_sorted (n := 2 ^ 20) h.sorted fun p hp => by
    have := h.inSpace p hp
    omega
  omega

theorem read32_write32_frame_of_ne {a b v : ℕ} (h : a ≠ b) :
    read32 (write32 m (frame a) v) (frame b) = read32 m (frame b) := by
  apply ByteMemory.read32_write32_frame
  simp only [frame, pageSize]
  omega

def AgreeOff (ps : List ℕ) (m m' : Mem) : Prop :=
  ∀ a, (∀ p ∈ ps, a < frame p ∨ frame p + 4 ≤ a) → m' a = m a

theorem AgreeOff.refl (ps : List ℕ) (m : Mem) : AgreeOff ps m m := fun _ _ => rfl

theorem AgreeOff.write {ps : List ℕ} (h : AgreeOff ps m m') {p : ℕ} (hp : p ∈ ps) (v : ℕ) :
    AgreeOff ps m (write32 m' (frame p) v) := fun a ha => by
  rw [write32_frame (ha p hp), h a ha]

theorem AgreeOff.read32 {ps : List ℕ} (h : AgreeOff ps m m') {q : ℕ} (hq : q ∉ ps) :
    read32 m' (frame q) = read32 m (frame q) := by
  refine read32_congr fun a ha ha' => h a fun p hp => ?_
  have hne : p ≠ q := fun heq => hq (heq ▸ hp)
  simp only [frame, pageSize] at ha ha' ⊢
  omega

theorem exists_split {ps : List ℕ} (hs : ps.Pairwise (· < ·)) (hp : p ∉ ps) :
    ∃ ls gs, ps = ls ++ gs ∧ (∀ q ∈ ls, q < p) ∧ ∀ q ∈ gs, p < q := by
  induction ps with
  | nil => exact ⟨[], [], rfl, by simp, by simp⟩
  | cons x ps ih =>
    obtain ⟨hx, hs⟩ := List.pairwise_cons.mp hs
    by_cases hlt : x < p
    · obtain ⟨ls, gs, rfl, hls, hgs⟩ := ih hs fun h => hp (by simp [h])
      refine ⟨x :: ls, gs, rfl, ?_, hgs⟩
      intro q hq
      rcases List.mem_cons.mp hq with rfl | hq
      · exact hlt
      · exact hls q hq
    · have hxp : p < x := by
        rcases lt_trichotomy x p with h | rfl | h
        · exact absurd h hlt
        · simp at hp
        · exact h
      refine ⟨[], x :: ps, rfl, by simp, ?_⟩
      intro q hq
      rcases List.mem_cons.mp hq with rfl | hq
      · exact hxp
      · exact hxp.trans (hx q hq)

variable {fl' : FreeList} {ls gs : List ℕ}

theorem Holds.insert (h : Holds m fl k (ls ++ gs)) (hls : ∀ q ∈ ls, q < p)
    (hgs : ∀ q ∈ gs, p < q) (hp : 2 ^ k ∣ p) (hspace : 0 < p ∧ p + 2 ^ k ≤ 2 ^ 20)
    (hchain : Chain 0 (read32 m') fl'.list ((ls ++ p :: gs).map frame))
    (horder : fl'.order = fl.order) (hitems : fl'.items = wrap (fl.items + 1)) :
    Holds m' fl' k (ls ++ p :: gs) where
  chain := hchain
  order := horder.trans h.order
  items := by
    have hlen := h.length_lt
    have hcount := h.items
    rw [List.length_append] at hlen hcount
    rw [hitems, hcount, wrap_of_lt (by omega), List.length_append, List.length_cons]
    omega
  sorted := by
    obtain ⟨h1, h2, h3⟩ := List.pairwise_append.mp h.sorted
    refine List.pairwise_append.mpr ⟨h1, List.pairwise_cons.mpr ⟨hgs, h2⟩, fun a ha b hb => ?_⟩
    rcases List.mem_cons.mp hb with rfl | hb
    · exact hls a ha
    · exact h3 a ha b hb
  aligned := by
    intro a ha
    rcases List.mem_append.mp ha with ha | ha
    · exact h.aligned a (by simp [ha])
    · rcases List.mem_cons.mp ha with rfl | ha
      · exact hp
      · exact h.aligned a (by simp [ha])
  inSpace := by
    intro a ha
    rcases List.mem_append.mp ha with ha | ha
    · exact h.inSpace a (by simp [ha])
    · rcases List.mem_cons.mp ha with rfl | ha
      · exact hspace
      · exact h.inSpace a (by simp [ha])

theorem Holds.remove (h : Holds m fl k (ls ++ q :: gs))
    (hchain : Chain 0 (read32 m') fl'.list ((ls ++ gs).map frame))
    (horder : fl'.order = fl.order) (hitems : fl'.items = sub32 fl.items 1) :
    Holds m' fl' k (ls ++ gs) where
  chain := hchain
  order := horder.trans h.order
  items := by
    have hlen := h.length_lt
    have hcount := h.items
    rw [List.length_append, List.length_cons] at hlen hcount
    rw [hitems, hcount, sub32_of_le (by omega) (by omega), List.length_append]
    omega
  sorted := h.sorted.sublist (by simp)
  aligned := fun a ha => h.aligned a (by
    rcases List.mem_append.mp ha with ha | ha <;> simp [ha])
  inSpace := fun a ha => h.inSpace a (by
    rcases List.mem_append.mp ha with ha | ha <;> simp [ha])

theorem map_agree {m m' : Mem} {as : List ℕ}
    (h : ∀ q ∈ as, read32 m' (frame q) = read32 m (frame q)) :
    ∀ x ∈ as.map frame, read32 m' x = read32 m x := by
  intro x hx
  obtain ⟨q, hq, rfl⟩ := List.mem_map.mp hx
  exact h q hq

theorem Holds.insertFront (h : Holds m fl k gs) (hgs : ∀ q ∈ gs, p < q) (hp : 2 ^ k ∣ p)
    (hspace : 0 < p ∧ p + 2 ^ k ≤ 2 ^ 20) (hlink : read32 m' (frame p) = fl.list)
    (hm : ∀ q ∈ gs, read32 m' (frame q) = read32 m (frame q)) :
    Holds m' { fl with list := frame p, items := wrap (fl.items + 1) } k (p :: gs) := by
  have h' : Holds m fl k ([] ++ gs) := h
  refine h'.insert (by simp) hgs hp hspace ?_ rfl rfl
  refine chain_cons.mpr ⟨rfl, frame_ne_zero hspace.1, ?_⟩
  rw [hlink]
  exact chain_congr h.chain (map_agree hm)

theorem Holds.insertAfter (h : Holds m fl k (ls ++ q :: gs)) (hls : ∀ a ∈ ls ++ [q], a < p)
    (hgs : ∀ a ∈ gs, p < a) (hp : 2 ^ k ∣ p) (hspace : 0 < p ∧ p + 2 ^ k ≤ 2 ^ 20) :
    Holds (write32 (write32 m (frame p) (read32 m (frame q))) (frame q) (frame p))
      { fl with items := wrap (fl.items + 1) } k (ls ++ q :: p :: gs) := by
  have h' : Holds m fl k ((ls ++ [q]) ++ gs) := by simpa using h
  have hres : ls ++ q :: p :: gs = (ls ++ [q]) ++ p :: gs := by simp
  have hqp : q < p := hls q (by simp)
  have hsorted := List.pairwise_append.mp h.sorted
  have hkeep : ∀ a, a ≠ p → a ≠ q → read32 (write32 (write32 m (frame p) (read32 m (frame q)))
      (frame q) (frame p)) (frame a) = read32 m (frame a) := fun a hap haq => by
    rw [read32_write32_frame_of_ne haq.symm, read32_write32_frame_of_ne hap.symm]
  rw [hres]
  refine h'.insert hls hgs hp hspace ?_ rfl rfl
  rw [← hres, List.map_append, List.map_cons, List.map_cons]
  have hchain := h.chain
  rw [List.map_append, List.map_cons] at hchain
  refine chain_insert hchain (frame_ne_zero hspace.1) ?_ ?_ (map_agree fun a ha => ?_)
    (map_agree fun a ha => ?_)
  · exact read32_write32 (frame_lt (by omega))
  · rw [read32_write32_frame_of_ne (by omega), read32_write32 (read32_lt m _)]
  · have hap := hls a (by simp [ha])
    have haq := hsorted.2.2 a ha q (by simp)
    exact hkeep a (by omega) (by omega)
  · have hap := hgs a ha
    have haq := (List.pairwise_cons.mp hsorted.2.1).1 a ha
    exact hkeep a (by omega) (by omega)

theorem Holds.removeFront (h : Holds m fl k (q :: gs))
    (hm : ∀ a ∈ gs, read32 m' (frame a) = read32 m (frame a)) :
    Holds m' { fl with list := read32 m (frame q), items := sub32 fl.items 1 } k gs := by
  have h' : Holds m fl k ([] ++ q :: gs) := h
  refine h'.remove ?_ rfl rfl
  exact chain_congr (chain_cons.mp h.chain).2.2 (map_agree hm)

theorem Holds.removeAfter {a : ℕ} (h : Holds m fl k (ls ++ a :: q :: gs))
    (hlink : read32 m' (frame a) = read32 m (frame q))
    (hm : ∀ b ∈ ls ++ gs, read32 m' (frame b) = read32 m (frame b)) :
    Holds m' { fl with items := sub32 fl.items 1 } k (ls ++ a :: gs) := by
  have h' : Holds m fl k ((ls ++ [a]) ++ q :: gs) := by simpa using h
  have hres : ls ++ a :: gs = (ls ++ [a]) ++ gs := by simp
  rw [hres]
  refine h'.remove ?_ rfl rfl
  have hchain := h.chain
  rw [List.map_append, List.map_cons, List.map_cons] at hchain
  rw [← hres, List.map_append, List.map_cons]
  exact chain_remove hchain hlink (map_agree fun b hb => hm b (by simp [hb]))
    (map_agree fun b hb => hm b (by simp [hb]))

theorem Holds.commit (h : Holds m fl k ps) (item : ℕ) :
    commit m fl item = .ok (item, m, fl) := by
  have hlen := h.length_lt
  exact commit_ok h.chain (by rw [List.length_map]; omega) (by rw [h.items, List.length_map]) item

theorem Holds.list_eq_zero (h : Holds m fl k ps) : fl.list = 0 ↔ ps = [] := by
  rw [chain_null_iff h.chain, List.map_eq_nil_iff]

theorem Holds.congr (h : Holds m fl k ps)
    (hm : ∀ q ∈ ps, read32 m' (frame q) = read32 m (frame q)) : Holds m' fl k ps where
  chain := chain_congr h.chain fun x hx => by
    obtain ⟨q, hq, rfl⟩ := List.mem_map.mp hx
    exact hm q hq
  order := h.order
  items := h.items
  sorted := h.sorted
  aligned := h.aligned
  inSpace := h.inSpace

theorem get_nil (h : Holds m fl k []) : get m fl = .ok (0, m, fl) := by
  have hlist : fl.list = 0 := h.list_eq_zero.mpr rfl
  rw [get, if_neg (by simp [hlist]), h.commit, hlist]

theorem get_cons (h : Holds m fl k (p :: ps)) :
    ∃ m' fl', get m fl = .ok (frame p, m', fl') ∧ Holds m' fl' k ps ∧
      fl'.disableSquashing = fl.disableSquashing ∧ AgreeOff [p] m m' := by
  obtain ⟨hlist, hne, htail⟩ := chain_cons.mp h.chain
  have hnotin : p ∉ ps := fun hp => absurd ((List.pairwise_cons.mp h.sorted).1 p hp) (by omega)
  have hkeep : ∀ q ∈ ps, read32 (write32 m (frame p) 0) (frame q) = read32 m (frame q) :=
    fun q hq => read32_write32_frame_of_ne fun heq => hnotin (heq ▸ hq)
  have hget := h.removeFront hkeep
  refine ⟨_, _, ?_, hget, rfl, (AgreeOff.refl _ m).write (by simp) 0⟩
  rw [get, hlist, if_pos hne, next_of_ne hne, setNext_of_ne hne]
  exact hget.commit _

theorem eq_buddy_of_mem_left (hp : 2 ^ k ∣ p) (hs : (ls ++ [q]).Pairwise (· < ·))
    (hal : ∀ a ∈ ls ++ [q], 2 ^ k ∣ a) (hlt : ∀ a ∈ ls ++ [q], a < p)
    (hmem : buddy k p ∈ ls ++ [q]) : buddy k p = q := by
  rcases List.mem_append.mp hmem with h | h
  · have hbq := (List.pairwise_append.mp hs).2.2 _ h q (by simp)
    have h1 := hlt q (by simp)
    have h2 := hlt (buddy k p) (by simp [h])
    have h3 := add_le_of_dvd (hal (buddy k p) (by simp [h])) (hal q (by simp)) hbq
    rw [buddy_eq hp] at h2 h3
    split_ifs at h2 h3 <;> omega
  · simpa using h

theorem eq_buddy_of_mem_right (hp : 2 ^ k ∣ p) (hs : (q :: gs).Pairwise (· < ·))
    (hal : ∀ a ∈ q :: gs, 2 ^ k ∣ a) (hlt : ∀ a ∈ q :: gs, p < a)
    (hmem : buddy k p ∈ q :: gs) : buddy k p = q := by
  rcases List.mem_cons.mp hmem with h | h
  · exact h
  · have hbq := (List.pairwise_cons.mp hs).1 _ h
    have h1 := hlt q (by simp)
    have h2 := hlt (buddy k p) (by simp [h])
    have h3 := add_le_of_dvd hp (hal q (by simp)) h1
    rw [buddy_eq hp] at h2 hbq
    split_ifs at h2 hbq <;> omega

/-- What a call of `put` of the block `p` comes to. If squashing is enabled and the
buddy is in the list, the buddy is taken out and the lower frame of the pair is handed
back; otherwise the block is now in the list. -/
def PutAnswer (m : Mem) (fl : FreeList) (k p : ℕ) (ps : List ℕ)
    (r : Result (ℕ × Mem × FreeList)) : Prop :=
  ∃ item m' fl' ps', r = .ok (item, m', fl') ∧ Holds m' fl' k ps' ∧
    fl'.disableSquashing = fl.disableSquashing ∧ AgreeOff (p :: ps) m m' ∧
    if fl.disableSquashing = false ∧ buddy k p ∈ ps then
      item = frame (min p (buddy k p)) ∧ ∀ q, q ∈ ps' ↔ q ∈ ps ∧ q ≠ buddy k p
    else item = 0 ∧ ∀ q, q ∈ ps' ↔ q = p ∨ q ∈ ps

theorem putAnswer_inserted {ps' : List ℕ} (h : Holds m' fl' k ps')
    (hflag : fl'.disableSquashing = fl.disableSquashing) (hagree : AgreeOff (p :: ps) m m')
    (hno : ¬ (fl.disableSquashing = false ∧ buddy k p ∈ ps))
    (hmem : ∀ q, q ∈ ps' ↔ q = p ∨ q ∈ ps) : PutAnswer m fl k p ps (commit m' fl' 0) :=
  ⟨0, m', fl', ps', h.commit 0, h, hflag, hagree, by rw [if_neg hno]; exact ⟨rfl, hmem⟩⟩

theorem putAnswer_joined {ps' : List ℕ} {item : ℕ} (h : Holds m' fl' k ps')
    (hflag : fl'.disableSquashing = fl.disableSquashing) (hagree : AgreeOff (p :: ps) m m')
    (hyes : fl.disableSquashing = false ∧ buddy k p ∈ ps)
    (hitem : item = frame (min p (buddy k p)))
    (hmem : ∀ q, q ∈ ps' ↔ q ∈ ps ∧ q ≠ buddy k p) :
    PutAnswer m fl k p ps (commit m' fl' item) :=
  ⟨item, m', fl', ps', h.commit item, h, hflag, hagree, by rw [if_pos hyes]; exact ⟨hitem, hmem⟩⟩

theorem mem_remove_iff {a : ℕ} (hs : (ls ++ q :: gs).Pairwise (· < ·)) :
    a ∈ ls ++ gs ↔ a ∈ ls ++ q :: gs ∧ a ≠ q := by
  obtain ⟨-, hgs, hls⟩ := List.pairwise_append.mp hs
  have hq := (List.pairwise_cons.mp hgs).1
  simp only [List.mem_append, List.mem_cons]
  constructor
  · intro hcase
    rcases hcase with ha | ha
    · exact ⟨Or.inl ha, (hls a ha q (by simp)).ne⟩
    · exact ⟨Or.inr (Or.inr ha), (hq a ha).ne'⟩
  · intro hparts
    rcases hparts with ⟨ha | rfl | ha, hne⟩
    · exact Or.inl ha
    · exact absurd rfl hne
    · exact Or.inr ha

theorem lastTwo_concat (s : ℕ × ℕ) (xs : List ℕ) (x : ℕ) :
    lastTwo s (xs ++ [x]) = (x, (lastTwo s xs).1) := by
  simp [lastTwo]

section Put

variable (h : Holds m fl k (ls ++ gs)) (hk : k ≤ 10) (hp : 2 ^ k ∣ p)
  (hspace : 0 < p ∧ p + 2 ^ k ≤ 2 ^ 20) (hls : ∀ a ∈ ls, a < p) (hgs : ∀ a ∈ gs, p < a)

include h hls hgs in
theorem Holds.clearNew : Holds (write32 m (frame p) 0) fl k (ls ++ gs) := by
  refine h.congr fun q hq => read32_write32_frame_of_ne ?_
  rcases List.mem_append.mp hq with hq | hq
  · exact (hls q hq).ne'
  · exact (hgs q hq).ne

include h hls hgs in
theorem findLastLesser_eq :
    findLastLesser (write32 m (frame p) 0) fl (frame p) = .ok (lastTwo (0, 0) (ls.map frame)) := by
  have hchain := (h.clearNew hls hgs).chain
  have hlen := h.length_lt
  rw [List.map_append] at hchain
  refine findLastLesser_scan ?_ ?_ hchain (0, 0) ?_
  · intro x hx
    obtain ⟨q, hq, rfl⟩ := List.mem_map.mp hx
    exact frame_lt_frame.mpr (hls q hq)
  · intro x hx
    obtain ⟨q, hq, rfl⟩ := List.mem_map.mp hx
    exact (frame_lt_frame.mpr (hgs q hq)).le
  · rw [List.length_append] at hlen
    rw [List.length_map]
    exact lt_budget (by omega)

end Put

theorem put_front (h : Holds m fl k gs) (hk : k ≤ 10) (hp : 2 ^ k ∣ p)
    (hspace : 0 < p ∧ p + 2 ^ k ≤ 2 ^ 20) (hgs : ∀ a ∈ gs, p < a) :
    PutAnswer m fl k p gs (put m fl (frame p)) := by
  have hne : frame p ≠ 0 := frame_ne_zero hspace.1
  have h' : Holds m fl k ([] ++ gs) := h
  have h0 : Holds (write32 m (frame p) 0) fl k gs := h'.clearNew (by simp) hgs
  have hfind := findLastLesser_eq h' (by simp) hgs
  have hagree := (AgreeOff.refl (p :: gs) m).write (p := p) (by simp) 0
  have hkeep : ∀ q ∈ gs, read32 (write32 (write32 m (frame p) 0) (frame p) fl.list) (frame q) =
      read32 (write32 m (frame p) 0) (frame q) :=
    fun q hq => read32_write32_frame_of_ne (hgs q hq).ne
  have hlist := chain_head h0.chain
  have hlt : fl.list < 2 ^ 32 := by
    rw [hlist]
    cases gs with
    | nil => simp
    | cons g gs =>
      have := h.inSpace g (by simp)
      exact frame_lt (by have := Nat.two_pow_pos k; omega)
  have hins := h0.insertFront hgs hp hspace (read32_write32 hlt) hkeep
  have hmem : ∀ q, q ∈ p :: gs ↔ q = p ∨ q ∈ gs := fun q => List.mem_cons
  rw [put, putWith, setNext_of_ne hne]
  simp only [bind, Except.bind]
  cases gs with
  | nil =>
    -- the first block of an empty list: its link is the null just written
    have hnull : fl.list = 0 := hlist
    rw [if_pos hnull]
    refine putAnswer_inserted (h0.insertFront hgs hp hspace ?_ (by simp)) rfl hagree (by simp) hmem
    rw [hnull, read32_write32 (by omega)]
  | cons g gs =>
    have hg : fl.list = frame g := hlist
    have hgne : frame g ≠ 0 := frame_ne_zero (h.inSpace g (by simp)).1
    have hg20 : g < 2 ^ 20 := by
      have := h.inSpace g (by simp)
      have := Nat.two_pow_pos k
      omega
    rw [if_neg (by rw [hg]; exact hgne), hfind]
    simp only [lastTwo, List.map_nil, List.foldl_nil]
    have hbuddy : (areConsequent (frame p) fl.list fl.order &&
        isTheFirstInBuddy (frame p) fl.order) = true ↔ buddy k p = g := by
      rw [hg, h.order]
      exact squashable_iff hk hp (hgs g (by simp)) hg20
    by_cases hflag : fl.disableSquashing = true
    · simp only [if_pos hflag, if_true, setNext_of_ne hne]
      exact putAnswer_inserted hins rfl (hagree.write (by simp) _) (by simp [hflag]) hmem
    · simp only [if_neg hflag, if_true]
      by_cases hjoin : buddy k p = g
      · rw [if_pos (hbuddy.mpr hjoin), next_of_ne (by rw [hg]; exact hgne)]
        have hrem := h0.removeFront fun _ _ => rfl
        rw [← hg] at hrem
        refine putAnswer_joined hrem rfl hagree ⟨by simpa using hflag, by simp [hjoin]⟩ ?_
          fun q => ?_
        · rw [hjoin, min_eq_left (hgs g (by simp)).le]
        · have hnd := (List.pairwise_cons.mp h.sorted).1
          rw [hjoin]
          constructor
          · exact fun hq => ⟨by simp [hq], (hnd q hq).ne'⟩
          · intro hparts
            obtain ⟨hq, hqg⟩ := hparts
            exact (List.mem_cons.mp hq).resolve_left hqg
      · have hno : ¬ (fl.disableSquashing = false ∧ buddy k p ∈ g :: gs) := fun hb =>
          hjoin (eq_buddy_of_mem_right hp h.sorted h.aligned hgs hb.2)
        rw [if_neg (by rw [hbuddy]; exact hjoin), setNext_of_ne hne]
        exact putAnswer_inserted hins rfl (hagree.write (by simp) _) hno hmem

section Behind

variable {m₀ : Mem} {g : ℕ} (h : Holds m fl k (ls ++ q :: gs))
  (h0 : Holds m₀ fl k (ls ++ q :: gs)) (hagree : AgreeOff (p :: (ls ++ q :: gs)) m m₀)
  (hflag : fl.disableSquashing = false)

include h h0 hagree hflag in
theorem joinLeft_answer (hqp : q < p) (hjoin : buddy k p = q) :
    PutAnswer m fl k p (ls ++ q :: gs)
      (if (lastTwo (0, 0) (ls.map frame)).1 ≠ 0 then do
        let m ← setNext m₀ (lastTwo (0, 0) (ls.map frame)).1 (read32 m₀ (frame q))
        let m ← setNext m (frame q) 0
        commit m { fl with items := sub32 fl.items 1 } (frame q)
      else do
        let m ← setNext m₀ (frame q) 0
        commit m { fl with list := read32 m₀ (frame q), items := sub32 fl.items 1 } (frame q)) := by
  have hqne : frame q ≠ 0 := frame_ne_zero (h.inSpace q (by simp)).1
  have hsorted := List.pairwise_append.mp h.sorted
  have hqgs := (List.pairwise_cons.mp hsorted.2.1).1
  have hitem : frame q = frame (min p (buddy k p)) := by rw [hjoin, min_eq_right hqp.le]
  have hyes : fl.disableSquashing = false ∧ buddy k p ∈ ls ++ q :: gs := ⟨hflag, by simp [hjoin]⟩
  have hmem : ∀ a, a ∈ ls ++ gs ↔ a ∈ ls ++ q :: gs ∧ a ≠ buddy k p := by
    intro a
    rw [hjoin]
    exact mem_remove_iff h.sorted
  rcases List.eq_nil_or_concat' ls with rfl | ⟨ls, a, rfl⟩
  · simp only [List.map_nil, lastTwo, List.foldl_nil, ne_eq, not_true, if_false,
      setNext_of_ne hqne, bind, Except.bind]
    have hkeep : ∀ b ∈ gs, read32 (write32 m₀ (frame q) 0) (frame b) = read32 m₀ (frame b) :=
      fun b hb => read32_write32_frame_of_ne (hqgs b hb).ne
    exact putAnswer_joined (h0.removeFront hkeep) rfl (hagree.write (by simp) _) hyes hitem hmem
  · have hane : frame a ≠ 0 := frame_ne_zero (h.inSpace a (by simp)).1
    have haq : a < q := hsorted.2.2 a (by simp) q (by simp)
    have hlsa := List.pairwise_append.mp hsorted.1
    simp only [List.map_append, List.map_singleton, lastTwo_concat, ne_eq, hane, not_false_eq_true,
      if_true, setNext_of_ne hane, setNext_of_ne hqne, bind, Except.bind]
    have h0' : Holds m₀ fl k (ls ++ a :: q :: gs) := by simpa using h0
    have hlink : read32 (write32 (write32 m₀ (frame a) (read32 m₀ (frame q))) (frame q) 0)
        (frame a) = read32 m₀ (frame q) := by
      rw [read32_write32_frame_of_ne haq.ne', read32_write32 (read32_lt _ _)]
    have hkeep : ∀ b ∈ ls ++ gs, read32 (write32 (write32 m₀ (frame a) (read32 m₀ (frame q)))
        (frame q) 0) (frame b) = read32 m₀ (frame b) := by
      intro b hb
      have hne : b ≠ a ∧ b ≠ q := by
        rcases List.mem_append.mp hb with hb | hb
        · have hba := hlsa.2.2 b hb a (by simp)
          omega
        · have hbq := hqgs b hb
          omega
      rw [read32_write32_frame_of_ne hne.2.symm, read32_write32_frame_of_ne hne.1.symm]
    refine putAnswer_joined (h0'.removeAfter hlink hkeep) rfl
      ((hagree.write (by simp) _).write (by simp) _) hyes hitem ?_
    simpa using hmem

include hflag in
theorem joinRight_answer (h : Holds m fl k (ls ++ q :: g :: gs))
    (h0 : Holds m₀ fl k (ls ++ q :: g :: gs))
    (hagree : AgreeOff (p :: (ls ++ q :: g :: gs)) m m₀) (hpg : p < g) (hjoin : buddy k p = g) :
    PutAnswer m fl k p (ls ++ q :: g :: gs)
      (commit (write32 m₀ (frame q) (read32 m₀ (frame g)))
        { fl with items := sub32 fl.items 1 } (frame p)) := by
  have hsorted := List.pairwise_append.mp h.sorted
  have hqgs := (List.pairwise_cons.mp hsorted.2.1).1
  have hkeep : ∀ b ∈ ls ++ gs, read32 (write32 m₀ (frame q) (read32 m₀ (frame g)))
      (frame b) = read32 m₀ (frame b) := by
    intro b hb
    apply read32_write32_frame_of_ne
    rcases List.mem_append.mp hb with hb | hb
    · exact (hsorted.2.2 b hb q (by simp)).ne'
    · exact (hqgs b (by simp [hb])).ne
  refine putAnswer_joined (h0.removeAfter (read32_write32 (read32_lt _ _)) hkeep) rfl
    (hagree.write (by simp) _) ⟨hflag, by simp [hjoin]⟩ ?_ fun a => ?_
  · rw [hjoin, min_eq_left hpg.le]
  · have hs' : ((ls ++ [q]) ++ g :: gs).Pairwise (· < ·) := by simpa using h.sorted
    rw [hjoin]
    simpa using mem_remove_iff (a := a) hs'

include h in
theorem buddy_not_mem (hp : 2 ^ k ∣ p) (hls : ∀ a ∈ ls ++ [q], a < p) (hgs : ∀ a ∈ gs, p < a)
    (hq : buddy k p ≠ q) (hg : ∀ g ∈ gs.head?, buddy k p ≠ g) : buddy k p ∉ ls ++ q :: gs := by
  intro hb
  have h' : Holds m fl k ((ls ++ [q]) ++ gs) := by simpa using h
  have hb' : buddy k p ∈ (ls ++ [q]) ++ gs := by simpa using hb
  have hsorted := List.pairwise_append.mp h'.sorted
  rcases List.mem_append.mp hb' with hb' | hb'
  · exact hq (eq_buddy_of_mem_left hp hsorted.1
      (fun a ha => h'.aligned a (List.mem_append_left _ ha)) hls hb')
  · cases gs with
    | nil => simp at hb'
    | cons g gs =>
      exact hg g rfl (eq_buddy_of_mem_right hp hsorted.2.1
        (fun a ha => h'.aligned a (List.mem_append_right _ ha)) hgs hb')

end Behind

theorem put_behind (h : Holds m fl k (ls ++ q :: gs)) (hk : k ≤ 10) (hp : 2 ^ k ∣ p)
    (hspace : 0 < p ∧ p + 2 ^ k ≤ 2 ^ 20) (hls : ∀ a ∈ ls ++ [q], a < p)
    (hgs : ∀ a ∈ gs, p < a) :
    PutAnswer m fl k p (ls ++ q :: gs) (put m fl (frame p)) := by
  have hpos := Nat.two_pow_pos k
  have hne : frame p ≠ 0 := frame_ne_zero hspace.1
  have hqne : frame q ≠ 0 := frame_ne_zero (h.inSpace q (by simp)).1
  have hqp : q < p := hls q (by simp)
  have h' : Holds m fl k ((ls ++ [q]) ++ gs) := by simpa using h
  have h0 : Holds (write32 m (frame p) 0) fl k (ls ++ q :: gs) := by
    simpa using h'.clearNew hls hgs
  have hfind := findLastLesser_eq h' hls hgs
  rw [List.map_append, List.map_singleton, lastTwo_concat] at hfind
  have hlist : fl.list ≠ 0 := fun hz => by simpa using h0.list_eq_zero.mp hz
  have hagree := (AgreeOff.refl (p :: (ls ++ q :: gs)) m).write (p := p) (by simp) 0
  have hins := h0.insertAfter hls hgs hp hspace
  have hmem : ∀ a, a ∈ ls ++ q :: p :: gs ↔ a = p ∨ a ∈ ls ++ q :: gs := fun a => by
    simp only [List.mem_append, List.mem_cons]
    tauto
  have hleft : (areConsequent (frame q) (frame p) fl.order &&
      isTheFirstInBuddy (frame q) fl.order) = true ↔ buddy k p = q := by
    rw [h.order, squashable_iff hk (h.aligned q (by simp)) hqp (by omega)]
    constructor
    · intro heq
      subst heq
      exact buddy_buddy k q
    · intro heq
      subst heq
      exact buddy_buddy k p
  rw [put, putWith, setNext_of_ne hne]
  simp only [bind, Except.bind]
  rw [if_neg hlist, hfind]
  simp only []
  generalize write32 m (frame p) 0 = m₀ at *
  by_cases hflag : fl.disableSquashing = true
  · simp only [if_pos hflag, if_neg hqne, next_of_ne hqne, setNext_of_ne hne, setNext_of_ne hqne]
    exact putAnswer_inserted hins rfl ((hagree.write (by simp) _).write (by simp) _)
      (by simp [hflag]) hmem
  have hflag' : fl.disableSquashing = false := by simpa using hflag
  simp only [if_neg hflag, if_neg hqne, next_of_ne hqne]
  by_cases hjoin : buddy k p = q
  · simp only [if_pos (hleft.mpr hjoin)]
    exact joinLeft_answer h h0 hagree hflag' hqp hjoin
  · rw [if_neg (by rw [hleft]; exact hjoin)]
    have hafter : read32 m₀ (frame q) = (gs.map frame).headD 0 := by
      have hchain := h0.chain
      rw [List.map_append, List.map_cons] at hchain
      obtain ⟨r, -, -, -, htail⟩ := chain_append.mp hchain
      exact chain_head htail
    cases gs with
    | nil =>
      -- the new block becomes the last one: the missing successor is no buddy
      have hnull := not_squashable_null hk hp (show p < 2 ^ 20 by omega)
      rw [← h.order] at hnull
      rw [hafter] at hins ⊢
      simp only [List.map_nil, List.headD_nil, hnull, Bool.false_eq_true, if_false,
        setNext_of_ne hne, setNext_of_ne hqne]
      exact putAnswer_inserted hins rfl ((hagree.write (by simp) _).write (by simp) _)
        (fun hb => buddy_not_mem h hp hls hgs hjoin (by simp) hb.2) hmem
    | cons g gs =>
      have hpg : p < g := hgs g (by simp)
      have hgspace := h.inSpace g (by simp)
      have hgne : frame g ≠ 0 := frame_ne_zero hgspace.1
      have hright : (areConsequent (frame p) (frame g) fl.order &&
          isTheFirstInBuddy (frame p) fl.order) = true ↔ buddy k p = g := by
        rw [h.order]
        exact squashable_iff hk hp hpg (by omega)
      rw [hafter] at hins ⊢
      simp only [List.map_cons, List.headD_cons]
      by_cases hjoin' : buddy k p = g
      · simp only [if_pos (hright.mpr hjoin'), next_of_ne hgne, setNext_of_ne hqne]
        exact joinRight_answer hflag' h h0 hagree hpg hjoin'
      · simp only [if_neg (show ¬ _ from fun hc => hjoin' (hright.mp hc)), setNext_of_ne hne,
          setNext_of_ne hqne]
        exact putAnswer_inserted hins rfl ((hagree.write (by simp) _).write (by simp) _)
          (fun hb => buddy_not_mem h hp hls hgs hjoin (by simpa using hjoin') hb.2) hmem

theorem put_spec (h : Holds m fl k ps) (hk : k ≤ 10) (hnew : p ∉ ps) (hp : 2 ^ k ∣ p)
    (hspace : 0 < p ∧ p + 2 ^ k ≤ 2 ^ 20) : PutAnswer m fl k p ps (put m fl (frame p)) := by
  obtain ⟨ls, gs, rfl, hls, hgs⟩ := exists_split h.sorted hnew
  rcases List.eq_nil_or_concat' ls with rfl | ⟨ls, q, rfl⟩
  · exact put_front h hk hp hspace hgs
  · rw [List.append_assoc, List.singleton_append] at h ⊢
    exact put_behind h hk hp hspace hls hgs

end FreeList

end Bolgenos

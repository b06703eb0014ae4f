import Bolgenos.Machine

/-!
# Strings and their concatenation

A character array is the list of its bytes, and every access is checked against its length.
`new char[n]` does not clear the array, so its content is a parameter. `operator +` puts the
terminating NUL one place too far to the right: behind the end of its temporary array, and
with whatever the array held before in front of it.
-/

namespace Bolgenos

def storeChar (buf : List UInt8) (i : ℕ) (c : UInt8) : Result (List UInt8) :=
  if i < buf.length then .ok (buf.set i c) else .error .outOfBounds

theorem take_set_self {buf : List UInt8} {i : ℕ} (h : i < buf.length) (c : UInt8) :
    (buf.set i c).take (i + 1) = buf.take i ++ [c] := by
  rw [List.take_add_one, List.take_set_of_le le_rfl, List.getElem?_set_self h]
  rfl

/-- The array of `new char[n]`, with the content that the memory happens to have. -/
def newChars (content : ℕ → UInt8) (n : ℕ) : List UInt8 := (List.range n).map content

def strlen : List UInt8 → Result ℕ
  | [] => .error .outOfBounds
  | c :: str => if c = 0 then .ok 0 else do
    let length ← strlen str
    .ok (length + 1)

def padZeros (dest : List UInt8) (pos : ℕ) : ℕ → Result (List UInt8)
  | 0 => .ok dest
  | n + 1 => do
    let dest ← storeChar dest pos 0
    padZeros dest (pos + 1) n

def strncpy (dest : List UInt8) (pos : ℕ) : List UInt8 → ℕ → Result (List UInt8)
  | _, 0 => .ok dest
  | [], _ + 1 => .error .outOfBounds
  | c :: src, n + 1 =>
    if c ≠ 0 then do
      let dest ← storeChar dest pos c
      strncpy dest (pos + 1) src n
    else padZeros dest pos (n + 1)

/-- `lib::string`. The null pointer of a default-constructed string is `none`. -/
structure LibString where
  capacity : ℕ := 0
  size : ℕ := 0
  string : Option (List UInt8) := none
  deriving DecidableEq, Repr

namespace LibString

def ofCStr (content : ℕ → UInt8) (str : List UInt8) : Result LibString := do
  let capacity ← strlen str
  let string ← strncpy (newChars content (capacity + 1)) 0 str capacity
  let string ← storeChar string capacity 0
  .ok ⟨capacity, capacity, some string⟩

def copyTo (dest : List UInt8) (pos : ℕ) (s : LibString) : Result (List UInt8) :=
  match s.string, s.size with
  | some str, n => strncpy dest pos str n
  | none, 0 => .ok dest
  | none, _ + 1 => .error .nullDereference

/-- The writes of `operator +` to the array `tmp`, up to the terminator. -/
def concatInto (tmp : List UInt8) (lhs rhs : LibString) : Result (List UInt8) := do
  let tmp ← lhs.copyTo tmp 0
  let ptr := lhs.size
  let tmp ← rhs.copyTo tmp ptr
  let ptr := ptr + rhs.size
  storeChar tmp (ptr + 1) 0

/-- `operator +`; `content` and `content'` are the memory of the temporary array and of the
array of the result. -/
def operatorAdd (content content' : ℕ → UInt8) (lhs rhs : LibString) : Result LibString := do
  let len := lhs.size + rhs.size
  let tmp ← concatInto (newChars content (len + 1)) lhs rhs
  ofCStr content' tmp

inductive Holds : LibString → List UInt8 → Prop where
  | default : Holds {} []
  | ofText {text : List UInt8} (h : 0 ∉ text) :
      Holds ⟨text.length, text.length, some (text ++ [0])⟩ text

variable {text text' old old' behind : List UInt8} {lhs rhs : LibString}

theorem storeChar_middle (before behind : List UInt8) (b c : UInt8) :
    storeChar (before ++ b :: behind) before.length c = .ok (before ++ c :: behind) := by
  have hlt : before.length < (before ++ b :: behind).length := by
    rw [List.length_append, List.length_cons]
    omega
  rw [storeChar, if_pos hlt, List.set_append_right _ _ le_rfl, Nat.sub_self, List.set_cons_zero]

theorem strlen_text (h : 0 ∉ text) (rest : List UInt8) :
    strlen (text ++ 0 :: rest) = .ok text.length := by
  induction text with
  | nil => simp [strlen]
  | cons c text ih =>
    obtain ⟨hc, htext⟩ := not_or.mp (List.mem_cons.not.mp h)
    rw [List.cons_append, strlen, if_neg (Ne.symm hc), ih htext]
    rfl

theorem strncpy_text (h : 0 ∉ text) (hlen : old.length = text.length)
    (before behind rest : List UInt8) :
    strncpy (before ++ old ++ behind) before.length (text ++ rest) text.length =
      .ok (before ++ text ++ behind) := by
  induction text generalizing before old with
  | nil =>
    rw [List.length_eq_zero_iff.mp hlen]
    simp [strncpy]
  | cons c text ih =>
    obtain ⟨hc, htext⟩ := not_or.mp (List.mem_cons.not.mp h)
    obtain ⟨b, old, rfl⟩ := List.exists_cons_of_length_eq_add_one hlen
    rw [List.cons_append, List.append_assoc, List.cons_append, List.length_cons, strncpy,
      if_pos (Ne.symm hc), storeChar_middle]
    have hstep := ih htext (by simpa using hlen) (before ++ [c])
    simp only [bind, Except.bind]
    simpa using hstep

theorem Holds.size_eq (h : Holds lhs text) : lhs.size = text.length := by
  cases h with
  | default => rfl
  | ofText _ => rfl

theorem Holds.nul_notMem (h : Holds lhs text) : 0 ∉ text := by
  cases h with
  | default => exact List.not_mem_nil
  | ofText htext => exact htext

theorem Holds.copyTo_eq (h : Holds lhs text) (hlen : old.length = text.length)
    (before behind : List UInt8) :
    lhs.copyTo (before ++ old ++ behind) before.length = .ok (before ++ text ++ behind) := by
  cases h with
  | default =>
    rw [List.length_eq_zero_iff.mp hlen]
    rfl
  | ofText htext => exact strncpy_text htext hlen before behind [0]

theorem ofCStr_holds (h : 0 ∉ text) (rest : List UInt8) (content : ℕ → UInt8) :
    ∃ s, ofCStr content (text ++ 0 :: rest) = .ok s ∧ Holds s text := by
  refine ⟨_, ?_, Holds.ofText h⟩
  have hsplit : newChars content (text.length + 1) =
      [] ++ newChars content text.length ++ [content text.length] := by
    simp [newChars, List.range_succ]
  have hlen : (newChars content text.length).length = text.length := by simp [newChars]
  have hcopy := strncpy_text h hlen [] [content text.length] (0 :: rest)
  rw [← hsplit] at hcopy
  simp only [ofCStr, strlen_text h, bind, Except.bind]
  rw [List.length_nil] at hcopy
  rw [hcopy]
  simp only [List.nil_append]
  rw [storeChar_middle]

theorem concatInto_eq (ha : Holds lhs text) (hb : Holds rhs text')
    (hlen : old.length = text.length) (hlen' : old'.length = text'.length) :
    concatInto (old ++ old' ++ behind) lhs rhs =
      storeChar (text ++ text' ++ behind) (text.length + text'.length + 1) 0 := by
  have hleft := ha.copyTo_eq hlen [] (old' ++ behind)
  have hright := hb.copyTo_eq hlen' text behind
  simp only [List.nil_append, List.length_nil, ← List.append_assoc] at hleft
  simp only [concatInto, hleft, bind, Except.bind, ha.size_eq, hright, hb.size_eq]

theorem exists_split (tmp : List UInt8) {a b : ℕ} (h : a + b ≤ tmp.length) :
    ∃ old old', tmp = old ++ old' ++ tmp.drop (a + b) ∧ old.length = a ∧ old'.length = b := by
  refine ⟨tmp.take a, (tmp.drop a).take b, ?_, ?_, ?_⟩
  · rw [← List.take_add, List.take_append_drop]
  · rw [List.length_take]
    omega
  · rw [List.length_take, List.length_drop]
    omega

/-- Concatenation never stays inside its temporary array, so it never does what it is for. -/
theorem operatorAdd_never (ha : Holds lhs text) (hb : Holds rhs text')
    (content content' : ℕ → UInt8) :
    operatorAdd content content' lhs rhs = .error .outOfBounds ∧
      ¬ ∃ s, operatorAdd content content' lhs rhs = .ok s ∧ Holds s (text ++ text') := by
  have hrun : operatorAdd content content' lhs rhs = .error .outOfBounds := by
    rw [operatorAdd, ha.size_eq, hb.size_eq]
    have hlength : (newChars content (text.length + text'.length + 1)).length =
        text.length + text'.length + 1 := by
      simp [newChars]
    obtain ⟨old, old', hsplit, hlen, hlen'⟩ := exists_split
      (newChars content (text.length + text'.length + 1)) (a := text.length) (b := text'.length)
      (by omega)
    simp only [bind, Except.bind]
    rw [hsplit, concatInto_eq ha hb hlen hlen', storeChar, if_neg ?_]
    rw [List.length_append, List.length_append, List.length_drop, hlength]
    omega
  refine ⟨hrun, ?_⟩
  intro hok
  obtain ⟨s, hs, -⟩ := hok
  rw [hrun] at hs
  cases hs

def letterA : LibString := ⟨1, 1, some [97, 0]⟩

theorem letterA_holds : Holds letterA [97] := @Holds.ofText [97] (by decide)

theorem operatorAdd_never_letters :
    operatorAdd (fun _ => 0) (fun _ => 0) letterA letterA = .error .outOfBounds :=
  (operatorAdd_never letterA_holds letterA_holds (fun _ => 0) fun _ => 0).1

theorem operatorAdd_not_correct : ¬ ∀ lhs rhs text text' content content',
    Holds lhs text → Holds rhs text' →
      ∃ s, operatorAdd content content' lhs rhs = .ok s ∧ Holds s (text ++ text') := by
  intro hall
  obtain ⟨s, hs, -⟩ := hall letterA letterA [97] [97] (fun _ => 0) (fun _ => 0) letterA_holds
    letterA_holds
  have hrun : operatorAdd (fun _ => 0) (fun _ => 0) letterA letterA = .error .outOfBounds := by
    decide
  rw [hrun] at hs
  cases hs

/-- Where the memory behind the temporary array can be written, the answer is right exactly
when the last byte of the array was NUL before. -/
theorem concatInto_right_iff (ha : Holds lhs text) (hb : Holds rhs text') {tmp : List UInt8}
    (hlen : text.length + text'.length + 1 < tmp.length) (content' : ℕ → UInt8) :
    ∃ out s, concatInto tmp lhs rhs = .ok out ∧ ofCStr content' out = .ok s ∧
      (Holds s (text ++ text') ↔ tmp[text.length + text'.length]? = some 0) := by
  obtain ⟨old, old', hsplit, hold, hold'⟩ := exists_split tmp (a := text.length)
    (b := text'.length) (by omega)
  obtain ⟨c, d, behind, hdrop⟩ : ∃ c d behind,
      tmp.drop (text.length + text'.length) = c :: d :: behind := by
    have hdrop : 2 ≤ (tmp.drop (text.length + text'.length)).length := by
      rw [List.length_drop]
      omega
    match hrest : tmp.drop (text.length + text'.length) with
    | [] => simp [hrest] at hdrop
    | [c] => simp [hrest] at hdrop
    | c :: d :: behind => exact ⟨c, d, behind, rfl⟩
  have hbyte : tmp[text.length + text'.length]? = some c := by
    rw [← List.head?_drop, hdrop]
    rfl
  have htext : 0 ∉ text ++ text' := by
    rw [List.mem_append, not_or]
    exact ⟨ha.nul_notMem, hb.nul_notMem⟩
  have hwrite : concatInto tmp lhs rhs = .ok (text ++ text' ++ [c] ++ 0 :: behind) := by
    have hstore := storeChar_middle (text ++ text' ++ [c]) behind d 0
    rw [List.length_append, List.length_append, List.length_singleton] at hstore
    rw [hsplit, concatInto_eq ha hb hold hold', hdrop, ← hstore, List.append_cons]
  rw [hbyte, Option.some.injEq]
  by_cases hc : c = 0
  · -- the old byte ends the text in the right place
    obtain ⟨s, hs, hholds⟩ := ofCStr_holds htext (0 :: behind) content'
    rw [← List.append_cons, hc] at hwrite
    exact ⟨_, s, hwrite, hs, iff_of_true hholds hc⟩
  · have hlonger : 0 ∉ text ++ text' ++ [c] := by
      rw [List.mem_append, not_or, List.mem_singleton]
      exact ⟨htext, Ne.symm hc⟩
    obtain ⟨s, hs, hholds⟩ := ofCStr_holds hlonger behind content'
    refine ⟨_, s, hwrite, hs, iff_of_false ?_ hc⟩
    intro hshort
    have hsize := hshort.size_eq.symm.trans hholds.size_eq
    simp only [List.length_append, List.length_singleton] at hsize
    omega

end LibString

end Bolgenos

import Bolgenos.Lib.ByteMemory

/-!
# The stack of an IA-32 processor

The registers of the processor, its memory and the instructions that use the stack. The stack
grows downwards in words of four bytes. `Holds m a ws` says that the words `ws` lie in the
memory from the address `a` on; the lemmas say what pushing and popping does to such a view,
and that only writes into it change it. Instructions take no place here: a piece of straight
code is the composition of its instructions.
-/

namespace Ia32

open ByteMemory

abbrev Word := BitVec 32

structure TableRegister where
  limit : ℕ := 0
  base : ℕ := 0
  deriving DecidableEq, Repr

structure Cpu where
  eax : Word := 0
  ecx : Word := 0
  edx : Word := 0
  ebx : Word := 0
  esp : Word := 0
  ebp : Word := 0
  esi : Word := 0
  edi : Word := 0
  eip : Word := 0
  eflags : Word := 2
  cs : BitVec 16 := 0
  ds : BitVec 16 := 0
  es : BitVec 16 := 0
  ss : BitVec 16 := 0
  fs : BitVec 16 := 0
  gs : BitVec 16 := 0
  tr : BitVec 16 := 0
  gdtr : TableRegister := {}
  idtr : TableRegister := {}
  mem : Mem := fun _ => 0

def loadWord (m : Mem) (a : ℕ) : Word := BitVec.ofNat 32 (read32 m a)

def storeWord (m : Mem) (a : ℕ) (v : Word) : Mem := write32 m a v.toNat

def SameOn (lo hi : ℕ) (m m' : Mem) : Prop := ∀ x, lo ≤ x → x < hi → m' x = m x

def Holds (m : Mem) : ℕ → List Word → Prop
  | _, [] => True
  | a, w :: ws => loadWord m a = w ∧ Holds m (a + 4) ws

variable {m m' m'' : Mem} {a lo hi : ℕ} {v w : Word} {ws vs : List Word} {s : Cpu}

theorem SameOn.trans (h : SameOn lo hi m m') (h' : SameOn lo hi m' m'') : SameOn lo hi m m'' :=
  fun x hlo hhi => (h' x hlo hhi).trans (h x hlo hhi)

theorem SameOn.mono {lo' hi' : ℕ} (h : SameOn lo hi m m') (hlo : lo ≤ lo') (hhi : hi' ≤ hi) :
    SameOn lo' hi' m m' :=
  fun x hx hx' => h x (hlo.trans hx) (hx'.trans_le hhi)

@[simp]
theorem loadWord_storeWord (m : Mem) (a : ℕ) (v : Word) : loadWord (storeWord m a v) a = v := by
  rw [loadWord, storeWord, read32_write32 v.isLt, BitVec.ofNat_toNat, BitVec.setWidth_eq]

theorem toNat_loadWord (m : Mem) (a : ℕ) : (loadWord m a).toNat = read32 m a := by
  rw [loadWord, BitVec.toNat_ofNat, Nat.mod_eq_of_lt (read32_lt m a)]

theorem sameOn_storeWord (h : hi ≤ a ∨ a + 4 ≤ lo) : SameOn lo hi m (storeWord m a v) :=
  fun _ _ _ => write32_frame (by omega)

theorem SameOn.load (h : SameOn lo hi m m') (hlo : lo ≤ a) (hhi : a + 4 ≤ hi) :
    loadWord m' a = loadWord m a := by
  rw [loadWord, loadWord, read32_congr fun x hx hx' => h x (by omega) (by omega)]

theorem Holds.sameOn (h : Holds m a ws) (hs : SameOn lo hi m m') (hlo : lo ≤ a)
    (hhi : a + 4 * ws.length ≤ hi) : Holds m' a ws := by
  induction ws generalizing a with
  | nil => trivial
  | cons w ws ih =>
    rw [List.length_cons] at hhi
    exact ⟨(hs.load hlo (by omega)).trans h.1, ih h.2 (by omega) (by omega)⟩

theorem holds_append :
    Holds m a (ws ++ vs) ↔ Holds m a ws ∧ Holds m (a + 4 * ws.length) vs := by
  induction ws generalizing a with
  | nil => simp [Holds]
  | cons w ws ih =>
    rw [List.cons_append, Holds, Holds, ih, List.length_cons, and_assoc,
      show a + 4 + 4 * ws.length = a + 4 * (ws.length + 1) by ring]

theorem Holds.load (h : Holds m a ws) {i : ℕ} (hi : ws[i]? = some w) :
    loadWord m (a + 4 * i) = w := by
  induction ws generalizing a i with
  | nil => simp at hi
  | cons v ws ih =>
    cases i with
    | zero => exact h.1.trans (Option.some.inj hi)
    | succ i =>
      rw [show a + 4 * (i + 1) = a + 4 + 4 * i by ring]
      exact ih h.2 hi

namespace Cpu

def push (s : Cpu) (v : Word) : Cpu :=
  { s with esp := s.esp - 4, mem := storeWord s.mem (s.esp - 4).toNat v }

def top (s : Cpu) : Word := loadWord s.mem s.esp.toNat

def addEsp (s : Cpu) (n : Word) : Cpu := { s with esp := s.esp + n }

/-- Pushes the words so that the first one ends on top. -/
def pushAll (s : Cpu) : List Word → Cpu
  | [] => s
  | w :: ws => (s.pushAll ws).push w

/-- The words `pushal` stores, from the top of the stack on. -/
def generalRegisters (s : Cpu) : List Word :=
  [s.edi, s.esi, s.ebp, s.esp, s.ebx, s.edx, s.ecx, s.eax]

def pushal (s : Cpu) : Cpu := s.pushAll s.generalRegisters

/-- The image of the flags that `pushfl` stores: the resume and the virtual-8086 flag are
cleared in it. -/
def flagsImage (s : Cpu) : Word := s.eflags &&& 0xfcffff

def pushfl (s : Cpu) : Cpu := s.push s.flagsImage

/-- The flags that `popfl` loads on the innermost ring. Of the others it clears the resume flag
and leaves the virtual-8086 flag, the virtual interrupt flags and the reserved bits. -/
def loadedFlags : Word := 0x247fd5

def popfl (s : Cpu) : Cpu :=
  { s.addEsp 4 with eflags := s.top &&& loadedFlags ||| s.eflags &&& 0xffda802a }

def popEbp (s : Cpu) : Cpu := { s.addEsp 4 with ebp := s.top }

def popEcx (s : Cpu) : Cpu := { s.addEsp 4 with ecx := s.top }

def ret (s : Cpu) : Cpu := { s.addEsp 4 with eip := s.top }

structure SameGeneral (s s' : Cpu) : Prop where
  eax : s'.eax = s.eax
  ecx : s'.ecx = s.ecx
  edx : s'.edx = s.edx
  ebx : s'.ebx = s.ebx
  esp : s'.esp = s.esp
  ebp : s'.ebp = s.ebp
  esi : s'.esi = s.esi
  edi : s'.edi = s.edi

theorem toNat_esp_push (h : 4 ≤ s.esp.toNat) : (s.push v).esp.toNat = s.esp.toNat - 4 := by
  rw [push, BitVec.toNat_sub_of_le (by simpa [BitVec.le_def] using h)]
  rfl

theorem pushAll_append (s : Cpu) (ws vs : List Word) :
    s.pushAll (ws ++ vs) = (s.pushAll vs).pushAll ws := by
  induction ws with
  | nil => rfl
  | cons w ws ih => rw [List.cons_append, pushAll, pushAll, ih]

theorem toNat_esp_pushAll (ws : List Word) (h : 4 * ws.length ≤ s.esp.toNat) :
    (s.pushAll ws).esp.toNat = s.esp.toNat - 4 * ws.length := by
  induction ws with
  | nil => rfl
  | cons w ws ih =>
    rw [List.length_cons] at h ⊢
    have hrest := ih (by omega)
    rw [pushAll, toNat_esp_push (by omega), hrest]
    omega

theorem sameOn_pushAll (ws : List Word) (h : 4 * ws.length ≤ s.esp.toNat)
    (hapart : hi ≤ s.esp.toNat - 4 * ws.length ∨ s.esp.toNat ≤ lo) :
    SameOn lo hi s.mem (s.pushAll ws).mem := by
  induction ws with
  | nil => exact fun _ _ _ => rfl
  | cons w ws ih =>
    rw [List.length_cons] at h hapart
    have hesp := toNat_esp_pushAll (s := s) ws (by omega)
    have hpush := toNat_esp_push (s := s.pushAll ws) (v := w) (by omega)
    refine (ih (by omega) (by omega)).trans (sameOn_storeWord ?_)
    change hi ≤ ((s.pushAll ws).push w).esp.toNat ∨ ((s.pushAll ws).push w).esp.toNat + 4 ≤ lo
    omega

theorem holds_pushAll (h : 4 * ws.length ≤ s.esp.toNat) :
    Holds (s.pushAll ws).mem (s.pushAll ws).esp.toNat ws := by
  induction ws with
  | nil => trivial
  | cons w ws ih =>
    rw [List.length_cons] at h
    have hesp := toNat_esp_pushAll (s := s) ws (by omega)
    have hpush := toNat_esp_push (s := s.pushAll ws) (v := w) (by omega)
    have hup : ((s.pushAll ws).push w).esp.toNat + 4 = (s.pushAll ws).esp.toNat := by omega
    refine ⟨loadWord_storeWord _ _ _, ?_⟩
    rw [pushAll, hup]
    refine (ih (by omega)).sameOn (sameOn_storeWord (Or.inr ?_)) le_rfl le_rfl
    change ((s.pushAll ws).push w).esp.toNat + 4 ≤ _
    rw [hup]

theorem pushAll_eq (s : Cpu) (ws : List Word) :
    s.pushAll ws = { s with esp := (s.pushAll ws).esp, mem := (s.pushAll ws).mem } := by
  induction ws with
  | nil => rfl
  | cons w ws ih =>
    rw [pushAll]
    simp only [push]
    rw [ih]

theorem esp_pushAll (s : Cpu) (ws : List Word) :
    (s.pushAll ws).esp = s.esp - BitVec.ofNat 32 (4 * ws.length) := by
  induction ws with
  | nil => simp [pushAll]
  | cons w ws ih =>
    rw [pushAll, push, ih, List.length_cons, Nat.mul_add, BitVec.ofNat_add]
    exact BitVec.sub_sub _ _ _

end Cpu

end Ia32

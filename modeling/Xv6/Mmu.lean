import Mathlib.Data.BitVec
import Mathlib.Tactic.Ring

/-!
# Machine words and the layout of memory

The constants and macros of `mmu.h`, `memlayout.h`, `mmap.h`, `param.h` and `fs.h` that the memory and
file code uses. The kernel is a 32-bit program, so `int`, `uint`, `long` and pointers are all `Word`s;
signed comparisons are `slt` and `sle`, and arithmetic wraps.
-/

namespace Xv6

open BitVec (and_or_distrib_left toNat_add)

abbrev Word := BitVec 32
abbrev Byte := BitVec 8
abbrev Bytes := List Byte

instance : LawfulBEq Byte := inferInstance

/-! ## `mmu.h` -/

/-- Bytes mapped by a page. -/
def PGSIZE : Word := 4096
/-- Entries of a page directory, and of a page table. -/
def NPDENTRIES : Nat := 1024

def PTE_P : Word := 0x001
def PTE_W : Word := 0x002
def PTE_U : Word := 0x004

def pgRoundUp (sz : Word) : Word := (sz + PGSIZE - 1) &&& ~~~(PGSIZE - 1)
def pgRoundDown (a : Word) : Word := a &&& ~~~(PGSIZE - 1)

/-- Address in a page table or page directory entry. -/
def pteAddr (pte : Word) : Word := pte &&& ~~~0xFFF#32
def pteFlags (pte : Word) : Word := pte &&& 0xFFF#32

/-- `PDX(va)`: the page directory index. -/
def pdx (va : Word) : Nat := va.toNat / 2 ^ 22
/-- `PDX(va)` and `PTX(va)` together: the number of the page that holds `va`. -/
def vpn (va : Word) : Nat := va.toNat / 2 ^ 12

/-- `w & f` used as a truth value. -/
def hasFlag (w f : Word) : Bool := w &&& f != 0

/-! ## `memlayout.h` -/

def EXTMEM : Word := 0x100000
def PHYSTOP : Word := 0xE000000
def DEVSPACE : Word := 0xFE000000
def KERNBASE : Word := 0x80000000
def KERNLINK : Word := KERNBASE + EXTMEM

def V2P (a : Word) : Word := a - KERNBASE
def P2V (a : Word) : Word := a + KERNBASE

/-! ## `mmap.h` -/

def MAP_PRIVATE : Word := 0x0001
def MAP_SHARED : Word := 0x0002
def MAP_ANON : Word := 0x0004
def MAP_FIXED : Word := 0x0008
def MAP_GROWSUP : Word := 0x0010

def VIRT_ADDR_START : Word := 0x60000000
def VIRT_ADDR_END : Word := 0x80000000
def PAGE_SIZE : Word := 4096
abbrev PAGE_LIMIT : Nat := 32

/-! ## `param.h` and `fs.h` -/

abbrev NPROC : Nat := 64
abbrev NOFILE : Nat := 16
abbrev NFILE : Nat := 100
def MAXOPBLOCKS : Nat := 10
abbrev PIPESIZE : Nat := 512
def BSIZE : Nat := 512
def NDIRECT : Nat := 12
def NINDIRECT : Nat := BSIZE / 4
def MAXFILE : Nat := NDIRECT + NINDIRECT

/-- The one device that has a driver in `devsw`. -/
def CONSOLE : Nat := 1

/-- How many bytes `filewrite` writes in one transaction. -/
def maxWrite : Nat := (MAXOPBLOCKS - 1 - 1 - 2) / 2 * 512

instance : LawfulBEq Word := inferInstance
instance : NeZero NPROC := ⟨by decide⟩
instance : NeZero NOFILE := ⟨by decide⟩
instance : NeZero NFILE := ⟨by decide⟩
instance : NeZero PAGE_LIMIT := ⟨by decide⟩

/-- `(void *)-1`, what a failed `mmap` or `munmap` returns. -/
def RETURN_ERR : Word := -1

/-! ## Addresses and pages -/

@[simp] theorem P2V_V2P (a : Word) : P2V (V2P a) = a := by
  simp [P2V, V2P]

/-- The low twelve bits of `a` are zero. -/
def Aligned (a : Word) : Prop := a &&& 0xFFF#32 = 0

instance (a : Word) : Decidable (Aligned a) := inferInstanceAs (Decidable (_ = _))

/-- Only the low twelve bits of `w` may be set. -/
def LowBits (w : Word) : Prop := w &&& ~~~0xFFF#32 = 0

instance (w : Word) : Decidable (LowBits w) := inferInstanceAs (Decidable (_ = _))

theorem toNat_and_low (a : Word) : (a &&& 0xFFF#32).toNat = a.toNat % 2 ^ 12 := by
  rw [BitVec.toNat_and]
  show a.toNat &&& 4095 = _
  rw [show (4095 : Nat) = 2 ^ 12 - 1 by norm_num, Nat.and_two_pow_sub_one_eq_mod]

variable {a pa w : Word}

theorem aligned_iff : Aligned a ↔ a.toNat % 2 ^ 12 = 0 := by
  unfold Aligned
  rw [← BitVec.toNat_inj, toNat_and_low]
  rfl

theorem and_add_and_not (a m : Word) : (a &&& m) + (a &&& ~~~m) = a := by
  have hd : (a &&& m) &&& (a &&& ~~~m) = 0#32 := by
    ext i hi
    simp only [BitVec.getElem_and, BitVec.getElem_not, BitVec.getElem_zero]
    cases a[i] <;> cases m[i] <;> rfl
  rw [BitVec.add_eq_or_of_and_eq_zero _ _ hd, ← and_or_distrib_left, BitVec.or_not_self,
    BitVec.and_allOnes]

theorem low_add_high (a : Word) : (a &&& 0xFFF#32) + (a &&& ~~~0xFFF#32) = a := and_add_and_not a _

theorem toNat_pteAddr (a : Word) : (pteAddr a).toNat = a.toNat / 2 ^ 12 * 2 ^ 12 := by
  have hle : a.toNat % 2 ^ 12 ≤ a.toNat := Nat.mod_le _ _
  have hsub : pteAddr a = a - (a &&& 0xFFF#32) := by
    have h := low_add_high a
    unfold pteAddr
    rw [eq_sub_iff_add_eq, add_comm]
    exact h
  rw [hsub, BitVec.toNat_sub_of_le (by rw [BitVec.le_def, toNat_and_low]; exact hle), toNat_and_low]
  omega

theorem toNat_pgRoundDown (a : Word) : (pgRoundDown a).toNat = a.toNat / 2 ^ 12 * 2 ^ 12 :=
  toNat_pteAddr a

@[simp] theorem vpn_pgRoundDown (a : Word) : vpn (pgRoundDown a) = vpn a := by
  simp only [vpn, toNat_pgRoundDown]
  omega

theorem vpn_div (a : Word) : vpn a / NPDENTRIES = pdx a := by
  simp only [vpn, pdx, NPDENTRIES]
  omega

theorem pteAddr_of_aligned (h : Aligned a) : pteAddr a = a := by
  have := low_add_high a
  rw [show a &&& 0xFFF#32 = 0 from h] at this
  simpa [pteAddr] using this

theorem aligned_V2P : Aligned (V2P a) ↔ Aligned a := by
  rw [aligned_iff, aligned_iff, V2P, BitVec.toNat_sub]
  show (2 ^ 32 - 2 ^ 31 + a.toNat) % 2 ^ 32 % 2 ^ 12 = 0 ↔ _
  omega

theorem aligned_pteAddr (a : Word) : Aligned (pteAddr a) := by
  rw [aligned_iff, toNat_pteAddr]
  omega

theorem vpn_lt (a : Word) : vpn a < 2 ^ 20 := by
  have := a.isLt
  unfold vpn
  omega

theorem vpn_add_page (h : vpn a + 1 < 2 ^ 20) : vpn (a + PGSIZE) = vpn a + 1 := by
  unfold vpn at *
  rw [toNat_add, show PGSIZE.toNat = 4096 from rfl]
  omega

theorem aligned_add_page (h : Aligned a) : Aligned (a + PGSIZE) := by
  rw [aligned_iff] at *
  rw [toNat_add, show PGSIZE.toNat = 4096 from rfl]
  omega

theorem add_page_mul (a : Word) (k : Nat) :
    a + PGSIZE + PGSIZE * .ofNat 32 k = a + PGSIZE * .ofNat 32 (k + 1) := by
  rw [BitVec.ofNat_add, mul_add, show PGSIZE * .ofNat 32 1 = PGSIZE by decide, add_assoc, add_comm PGSIZE]

theorem aligned_add_pages (h : Aligned a) (k : Nat) : Aligned (a + PGSIZE * .ofNat 32 k) := by
  rw [aligned_iff] at *
  rw [toNat_add, BitVec.toNat_mul, BitVec.toNat_ofNat, show PGSIZE.toNat = 4096 from rfl]
  omega

theorem pgRoundDown_of_aligned (h : Aligned a) : pgRoundDown a = a :=
  pteAddr_of_aligned h

theorem pgRoundDown_last (h : Aligned a) : pgRoundDown (a + PGSIZE - 1) = a := by
  rw [aligned_iff] at h
  rw [← BitVec.toNat_inj, toNat_pgRoundDown, BitVec.toNat_sub, toNat_add,
    show PGSIZE.toNat = 4096 from rfl, show (1 : Word).toNat = 1 from rfl]
  omega

/-! ## Page table entries -/

theorem and_low_of_lowBits (hw : LowBits w) : w &&& 0xFFF#32 = w := by
  have h := low_add_high w
  rwa [show w &&& ~~~0xFFF#32 = 0 from hw, add_zero] at h

theorem aligned_and {f : Word} (hpa : Aligned pa) (hf : LowBits f) : pa &&& f = 0 := by
  rw [← and_low_of_lowBits hf, BitVec.and_comm f, ← BitVec.and_assoc, show pa &&& 0xFFF#32 = 0 from hpa]
  exact BitVec.zero_and

theorem pteAddr_or (hpa : Aligned pa) (hw : LowBits w) : pteAddr (pa ||| w) = pa := by
  have h1 : pa &&& ~~~0xFFF#32 = pa := pteAddr_of_aligned hpa
  have h2 : w &&& ~~~0xFFF#32 = 0#32 := hw
  unfold pteAddr
  rw [BitVec.and_comm, and_or_distrib_left, BitVec.and_comm _ pa, BitVec.and_comm _ w, h1, h2]
  exact BitVec.or_zero

theorem hasFlag_or_aligned {f : Word} (hpa : Aligned pa) (hf : LowBits f) :
    hasFlag (pa ||| w) f = hasFlag w f := by
  unfold hasFlag
  rw [BitVec.and_comm, and_or_distrib_left, BitVec.and_comm f pa, aligned_and hpa hf,
    BitVec.and_comm f w]
  simp

theorem lowBits_or {v : Word} (hv : LowBits v) (hw : LowBits w) : LowBits (v ||| w) := by
  unfold LowBits at *
  rw [BitVec.and_comm, and_or_distrib_left, BitVec.and_comm _ v, BitVec.and_comm _ w, hv, hw]
  rfl

theorem lowBits_pteFlags (w : Word) : LowBits (pteFlags w) := by
  unfold LowBits pteFlags
  rw [BitVec.and_assoc, BitVec.and_not_self]
  exact BitVec.and_zero

theorem pteAddr_entry {perm : Word} (hpa : Aligned pa) (hperm : LowBits perm) :
    pteAddr (pa ||| perm ||| PTE_P) = pa := by
  rw [BitVec.or_assoc]
  exact pteAddr_or hpa (lowBits_or hperm (by decide))

theorem pteFlags_entry {perm : Word} (hpa : Aligned pa) (hperm : LowBits perm) :
    pteFlags (pa ||| perm ||| PTE_P) = perm ||| PTE_P := by
  have hlow := and_low_of_lowBits (lowBits_or hperm (show LowBits PTE_P by decide))
  rw [pteFlags, BitVec.or_assoc, BitVec.and_comm, and_or_distrib_left, BitVec.and_comm _ pa,
    BitVec.and_comm 0xFFF#32, hlow, show pa &&& 0xFFF#32 = 0 from hpa]
  exact BitVec.zero_or

theorem lowBits_of_lt (h : w.toNat < 4096) : LowBits w := by
  have hzero : (pteAddr w).toNat = 0 := by
    rw [toNat_pteAddr]
    omega
  exact BitVec.eq_of_toNat_eq hzero

theorem hasFlag_or (v w f : Word) : hasFlag (v ||| w) f = (hasFlag v f || hasFlag w f) := by
  have hor : (v ||| w) &&& f = (v &&& f) ||| (w &&& f) := by
    rw [BitVec.and_comm, and_or_distrib_left, BitVec.and_comm f v, BitVec.and_comm f w]
  rw [Bool.eq_iff_iff]
  simp [hasFlag, hor, BitVec.or_eq_zero_iff, imp_iff_not_or]

theorem hasFlag_or_right (w f : Word) (hf : f ≠ 0) : hasFlag (w ||| f) f = true := by
  have : (w ||| f) &&& f = f := by
    ext i hi
    simp only [BitVec.getElem_and, BitVec.getElem_or]
    cases w[i] <;> cases f[i] <;> rfl
  simpa [hasFlag, this] using hf

@[simp] theorem hasFlag_entry (w : Word) : hasFlag (w ||| PTE_P) PTE_P = true :=
  hasFlag_or_right w PTE_P (by decide)

@[simp] theorem hasFlag_zero (f : Word) : hasFlag 0#32 f = false := by
  simp [hasFlag]

end Xv6

import Xv6.Copyout

/-!
# The two `memmove`s

The kernel's `memmove` of `string.c` copies downwards when the destination starts inside the source, and moves
a region whatever the overlap. The one of `ulib.c` always copies upwards: on a destination that starts inside
the source it is right only where the source repeats itself at the distance of the two regions.
-/

namespace Xv6

open Function (update update_self update_of_ne)
open Exec (add_ofNat_add)

/-! ## The loops -/

/-- `while(n-- > 0) *d++ = *s++;` -/
def copyUp : Nat → Word → Word → (Word → Byte) → Word → Byte
  | 0, _, _, m => m
  | n + 1, d, s, m => copyUp n (d + 1) (s + 1) (update m d (m s))

/-- `while(n-- > 0) *--d = *--s;` -/
def copyDown : Nat → Word → Word → (Word → Byte) → Word → Byte
  | 0, _, _, m => m
  | n + 1, d, s, m => copyDown n (d - 1) (s - 1) (update m (d - 1) (m (s - 1)))

/-- `memmove` of `string.c`, whose length is a `uint`. -/
def Kernel.memmove (dst src n : Word) (m : Word → Byte) : Word → Byte :=
  if src.ult dst ∧ dst.ult (src + n) then copyDown n.toNat (dst + n) (src + n) m
  else copyUp n.toNat dst src m

/-- `memmove` of `ulib.c`, whose length is an `int`. -/
def Ulib.memmove (dst src n : Word) (m : Word → Byte) : Word → Byte :=
  copyUp n.toInt.toNat dst src m

/-- What both are for: `m'` has the old contents of `n` bytes from `src` at `dst`, and all else as before. -/
structure Moved (dst src : Word) (n : Nat) (m m' : Word → Byte) : Prop where
  copied : ∀ i < n, m' (dst + .ofNat 32 i) = m (src + .ofNat 32 i)
  other : ∀ a : Word, a.toNat < dst.toNat ∨ dst.toNat + n ≤ a.toNat → m' a = m a

variable {dst src a : Word} {n i : Nat} {m : Word → Byte}

theorem toNat_add_index (h : a.toNat + i < 2 ^ 32) : (a + .ofNat 32 i).toNat = a.toNat + i := by
  rw [BitVec.toNat_add, BitVec.toNat_ofNat]
  omega

theorem add_index_succ (a : Word) (n : Nat) : a + 1 + .ofNat 32 n = a + .ofNat 32 (n + 1) := by
  rw [Nat.add_comm]
  exact add_ofNat_add a 1 n

/-! ## Upwards -/

/-- The last byte is copied from the memory that the bytes before it leave. -/
theorem copyUp_succ (n : Nat) (d s : Word) (m : Word → Byte) : copyUp (n + 1) d s m =
    update (copyUp n d s m) (d + .ofNat 32 n) (copyUp n d s m (s + .ofNat 32 n)) := by
  induction n generalizing d s m with
  | zero => simp [copyUp]
  | succ n ih =>
    rw [copyUp, ih, add_index_succ, add_index_succ]
    rfl

section
variable (hd : dst.toNat + n ≤ 2 ^ 32)
include hd

theorem copyUp_other (ha : a.toNat < dst.toNat ∨ dst.toNat + n ≤ a.toNat) : copyUp n dst src m a = m a := by
  induction n with
  | zero => rfl
  | succ n ih =>
    have hlast := toNat_add_index (a := dst) (i := n) (by omega)
    rw [copyUp_succ, update_of_ne, ih (by omega) (by omega)]
    rintro rfl
    omega

/-- Byte `i` of the destination. From where the destination starts on, the bytes of the source have been
written before they are read. -/
theorem copyUp_copied (hs : src.toNat + n ≤ 2 ^ 32) (hi : i < n) :
    copyUp n dst src m (dst + .ofNat 32 i) =
      if src.toNat < dst.toNat ∧ dst.toNat ≤ src.toNat + i then
        copyUp n dst src m (src + .ofNat 32 i)
      else m (src + .ofNat 32 i) := by
  induction n with
  | zero => omega
  | succ n ih =>
    have hlast := toNat_add_index (a := dst) (i := n) (by omega)
    have hto := toNat_add_index (a := dst) (i := i) (by omega)
    have hfrom := toNat_add_index (a := src) (i := i) (by omega)
    -- a byte that is read again lies below the last byte written
    have hread : src.toNat < dst.toNat → copyUp (n + 1) dst src m (src + .ofNat 32 i) =
        copyUp n dst src m (src + .ofNat 32 i) := by
      intro hlt
      rw [copyUp_succ, update_of_ne]
      intro heq
      rw [← heq, hfrom] at hlast
      omega
    by_cases hin : i = n
    · subst hin
      rw [copyUp_succ, update_self, ← copyUp_succ]
      split
      next hover => rw [hread hover.1]
      next hapart => exact copyUp_other (by omega) (by omega)
    · have hkeep : copyUp (n + 1) dst src m (dst + .ofNat 32 i) = copyUp n dst src m (dst + .ofNat 32 i) := by
        rw [copyUp_succ, update_of_ne]
        intro heq
        rw [← heq, hto] at hlast
        omega
      rw [hkeep, ih (by omega) (by omega) (by omega)]
      split
      next hover => rw [hread hover.1]
      next => rfl

/-- The bytes of the source come again at the distance of the two regions, as far as both reach. -/
def Repeats (dst src : Word) (n : Nat) (m : Word → Byte) : Prop :=
  ∀ i j, dst.toNat + i = src.toNat + j → j < n → m (src + .ofNat 32 j) = m (src + .ofNat 32 i)

theorem copyUp_moved_iff (hs : src.toNat + n ≤ 2 ^ 32) :
    Moved dst src n m (copyUp n dst src m) ↔ (src.toNat < dst.toNat → Repeats dst src n m) := by
  -- where the regions overlap, a byte of the source is a byte of the destination
  have hsame : ∀ i j, dst.toNat + i = src.toNat + j → j < n → src + .ofNat 32 j = dst + .ofNat 32 i := by
    intro i j hij hj
    apply BitVec.eq_of_toNat_eq
    simp only [BitVec.toNat_add, BitVec.toNat_ofNat]
    omega
  constructor
  · intro h hlt i j hij hj
    rw [← h.copied j hj, copyUp_copied hd hs hj, if_pos ⟨hlt, by omega⟩, hsame i j hij hj]
    exact h.copied i (by omega)
  · intro h
    refine ⟨fun i hi => ?_, fun a => copyUp_other hd⟩
    induction i using Nat.strongRecOn with
    | _ j ih =>
      rw [copyUp_copied hd hs hi]
      split
      next hover =>
        obtain ⟨i, hij⟩ : ∃ i, dst.toNat + i = src.toNat + j := ⟨src.toNat + j - dst.toNat, by omega⟩
        rw [h hover.1 i j hij hi, hsame i j hij hi]
        exact ih i (by omega) (by omega)
      next => rfl

end

/-! ## Downwards -/

theorem sub_index_succ (a : Word) (n : Nat) : a + .ofNat 32 (n + 1) - 1 = a + .ofNat 32 n := by
  rw [← add_ofNat_add]
  exact BitVec.add_sub_cancel _ _

theorem copyDown_moved (hd : dst.toNat + n ≤ 2 ^ 32) (hlt : src.toNat < dst.toNat) :
    Moved dst src n m (copyDown n (dst + .ofNat 32 n) (src + .ofNat 32 n) m) := by
  induction n generalizing m with
  | zero => exact ⟨fun _ hi => absurd hi (Nat.not_lt_zero _), fun _ _ => rfl⟩
  | succ n ih =>
    have hlast := toNat_add_index (a := dst) (i := n) (by omega)
    rw [copyDown, sub_index_succ, sub_index_succ]
    -- the rest of the source lies below the byte just written
    have hrest := ih (m := update m (dst + .ofNat 32 n) (m (src + .ofNat 32 n))) (by omega)
    refine ⟨fun i hi => ?_, fun a ha => ?_⟩
    · by_cases hin : i = n
      · subst hin
        rw [hrest.other _ (by omega), update_self]
      · rw [hrest.copied i (by omega), update_of_ne]
        intro heq
        rw [← heq, toNat_add_index (by omega)] at hlast
        omega
    · rw [hrest.other a (by omega), update_of_ne]
      rintro rfl
      omega

/-- The kernel's `memmove` moves a region whatever the overlap. -/
theorem kernel_memmove_moved {n : Word} (hd : dst.toNat + n.toNat ≤ 2 ^ 32)
    (hs : src.toNat + n.toNat ≤ 2 ^ 32) : Moved dst src n.toNat m (Kernel.memmove dst src n m) := by
  unfold Kernel.memmove
  split
  next h =>
    have hlt : src.toNat < dst.toNat := by simpa [BitVec.ult] using h.1
    simpa using copyDown_moved (m := m) hd hlt
  next h =>
    refine (copyUp_moved_iff hd hs).mpr fun hlt i j hij hj => ?_
    -- the test failed with the source below, so the destination starts behind it
    refine absurd ⟨by simpa [BitVec.ult] using hlt, ?_⟩ h
    rw [BitVec.ult, decide_eq_true_eq, BitVec.toNat_add]
    omega

/-- Both `memmove`s move the region just if the regions do not overlap with the destination above, or the
source repeats itself there. -/
theorem memmoves_move_iff (dst src n : Word) (m : Word → Byte) (hn : n.toNat < 2 ^ 31)
    (hd : dst.toNat + n.toNat ≤ 2 ^ 32) (hs : src.toNat + n.toNat ≤ 2 ^ 32) :
    Moved dst src n.toNat m (Kernel.memmove dst src n m) ∧
        Moved dst src n.toNat m (Ulib.memmove dst src n m) ↔
      (src.toNat < dst.toNat → Repeats dst src n.toNat m) := by
  have hint : n.toInt.toNat = n.toNat := by
    rw [BitVec.toInt_eq_toNat_of_lt (by omega), Int.toNat_natCast]
  rw [Ulib.memmove, hint, copyUp_moved_iff hd hs]
  exact and_iff_right (kernel_memmove_moved hd hs)

theorem memmoves_move_iff_down :
    Moved 0x1000 0x1001 2 (fun a => .ofNat 8 a.toNat) (Kernel.memmove 0x1000 0x1001 2 fun a => .ofNat 8 a.toNat) ∧
      Moved 0x1000 0x1001 2 (fun a => .ofNat 8 a.toNat) (Ulib.memmove 0x1000 0x1001 2 fun a => .ofNat 8 a.toNat) :=
  (memmoves_move_iff 0x1000 0x1001 2 _ (by decide) (by decide) (by decide)).mpr fun h => absurd h (by decide)

/-- Two different bytes moved up by one: the library copies the first one twice. -/
theorem ulib_memmove_overlap : ¬ Moved 0x1001 0x1000 2 (fun a => .ofNat 8 a.toNat)
    (Ulib.memmove 0x1001 0x1000 2 fun a => .ofNat 8 a.toNat) := by
  intro h
  exact absurd (h.copied 1 (by decide)) (by decide)

end Xv6

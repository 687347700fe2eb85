import Mathlib.Data.Set.BooleanAlgebra
import Mathlib.Data.Set.Disjoint
import Mathlib.Order.CompletePartialOrder
import Xv6.Sysfile

/-!
# Ranges of addresses

The kernel compares addresses as signed numbers and steps through them page by page. Here are the same tests
in terms of sets of addresses: which addresses a descriptor covers, and which pages the loops of
`sys_mmap` and `sys_munmap` visit.
-/

namespace Xv6

open BitVec (toNat_sub toNat_mul toNat_ofNat toInt_eq_toNat_cond toNat_add)

/-! ## Pages -/

/-- The addresses of the page that starts at `a`. -/
def pageRange (a : Word) : Set Word := { x | (x - a).toNat < 4096 }

/-- `[virtualAddress, virtualAddress + PAGE_SIZE)`. -/
def MmapDesc.range (md : MmapDesc) : Set Word := pageRange md.virtualAddress

variable {a x : Word} {k : Nat} {visits : List Word}

theorem mem_pageRange : x ∈ pageRange a ↔ (x - a).toNat < 4096 := Iff.rfl

theorem mem_pageRange_self (a : Word) : a ∈ pageRange a := by
  rw [mem_pageRange, sub_self]
  decide

theorem disjoint_pageRange {b : Word} :
    Disjoint (pageRange a) (pageRange b) ↔ 4096 ≤ (a - b).toNat ∧ 4096 ≤ (b - a).toNat := by
  constructor
  · intro h
    have ha : a ∉ pageRange b := Set.disjoint_left.mp h (mem_pageRange_self a)
    have hb : b ∉ pageRange a := Set.disjoint_right.mp h (mem_pageRange_self b)
    rw [mem_pageRange, not_lt] at ha hb
    exact ⟨ha, hb⟩
  · rintro ⟨h1, h2⟩
    refine Set.disjoint_left.mpr fun x hxa hxb => ?_
    rw [mem_pageRange] at hxa hxb
    -- the distances of `x` from both starts are small, so one start is near the other
    have hab : a - b = (x - b) - (x - a) := by ring
    have hba : b - a = (x - a) - (x - b) := by ring
    rw [hab, toNat_sub] at h1
    rw [hba, toNat_sub] at h2
    omega

theorem disjoint_pages (a : Word) (hk : 0 < k) (hk' : k < 2 ^ 19) :
    Disjoint (pageRange a) (pageRange (a + PGSIZE * .ofNat 32 k)) := by
  have hnat : (PGSIZE * .ofNat 32 k).toNat = 4096 * k := by
    rw [toNat_mul, toNat_ofNat, show PGSIZE.toNat = 4096 from rfl]
    omega
  rw [disjoint_pageRange]
  constructor
  · rw [show a - (a + PGSIZE * .ofNat 32 k) = 0 - PGSIZE * .ofNat 32 k by ring, toNat_sub, hnat]
    simp
    omega
  · rw [show a + PGSIZE * .ofNat 32 k - a = PGSIZE * .ofNat 32 k by ring, hnat]
    omega

theorem disjoint_pages_of_ne (a : Word) {j : Nat} (hne : j ≠ k) (hj : j < 2 ^ 19) (hk : k < 2 ^ 19) :
    Disjoint (pageRange (a + PGSIZE * .ofNat 32 j)) (pageRange (a + PGSIZE * .ofNat 32 k)) := by
  wlog hlt : j < k generalizing j k
  · exact (this hne.symm hk hj (by omega)).symm
  have hstep : a + PGSIZE * .ofNat 32 k = a + PGSIZE * .ofNat 32 j + PGSIZE * .ofNat 32 (k - j) := by
    rw [add_assoc, ← mul_add, ← BitVec.ofNat_add, Nat.add_sub_of_le hlt.le]
  rw [hstep]
  exact disjoint_pages _ (by omega) (by omega)

theorem covers_iff {md : MmapDesc} : md.covers a ↔ md.valid ∧ a ∈ md.range ∧
    (md.virtualAddress.toNat < 0x7FFFF000 ∨ 2 ^ 31 ≤ md.virtualAddress.toNat) := by
  have h1 := md.virtualAddress.isLt
  have h2 := a.isLt
  simp only [MmapDesc.covers, Bool.and_eq_true, BitVec.sle_iff_toInt_le, BitVec.slt_iff_toInt_lt,
    MmapDesc.range, mem_pageRange, toInt_eq_toNat_cond, toNat_sub, toNat_add,
    show PAGE_SIZE.toNat = 4096 from rfl, and_assoc]
  refine and_congr_right fun _ => ?_
  split <;> split <;> split <;> omega

variable {mmaps : Mmaps} {i : Index}

theorem covers_of_findDesc (h : findDesc mmaps a = some i) : (mmaps i).covers a := by
  simpa using List.find?_some h

/-! ## The pages that a loop visits -/

variable {stop : Word}

theorem pagesBelow_eq {fuel : Nat} {l : List Word} (h : pagesBelow stop fuel a = some l) :
    l.length < fuel ∧ l = (List.range l.length).map (fun k => a + PGSIZE * .ofNat 32 k) ∧
      (∀ k < l.length, (a + PGSIZE * .ofNat 32 k).slt stop) ∧
      ¬ (a + PGSIZE * .ofNat 32 l.length).slt stop := by
  induction fuel generalizing a l with
  | zero => cases h
  | succ fuel ih =>
    have hfirst : a + PGSIZE * .ofNat 32 0 = a := by simp
    unfold pagesBelow at h
    split at h
    next hlt =>
      obtain ⟨l', hl', rfl⟩ := Option.map_eq_some_iff.mp h
      obtain ⟨hlen, heq, hbelow, hend⟩ := ih hl'
      refine ⟨by simpa using hlen, ?_, fun k hk => ?_, ?_⟩
      · rw [List.length_cons, List.range_succ_eq_map, List.map_cons, List.map_map, hfirst]
        refine congrArg (a :: ·) (heq.trans (List.map_congr_left fun k _ => ?_))
        exact add_page_mul a k
      · cases k with
        | zero => rwa [hfirst]
        | succ k =>
          rw [← add_page_mul]
          exact hbelow k (by simpa using hk)
      · rwa [List.length_cons, ← add_page_mul]
    next hlt =>
      cases h
      exact ⟨Nat.succ_pos _, rfl, nofun, by simpa using hlt⟩

theorem valid_of_mem_toFree (h : i ∈ toFree mmaps visits) : (mmaps i).valid := by
  simp only [toFree, List.mem_flatMap, List.mem_filter] at h
  obtain ⟨a, -, -, hc⟩ := h
  exact (covers_iff.mp hc).1

variable {y : Word}

theorem sub_lt_of_mem_pageRange (hx : x ∈ pageRange a) (hy : y ∈ pageRange a) :
    (y - x).toNat < 4096 ∨ (x - y).toNat < 4096 := by
  rw [mem_pageRange] at hx hy
  have hyx : (y - x).toNat = (2 ^ 32 - (x - a).toNat + (y - a).toNat) % 2 ^ 32 := by
    rw [← toNat_sub]
    congr 1
    ring
  have hxy : (x - y).toNat = (2 ^ 32 - (y - a).toNat + (x - a).toNat) % 2 ^ 32 := by
    rw [← toNat_sub]
    congr 1
    ring
  omega

/-- No descriptor is found twice: it is as long as the step from one visit to the next. -/
theorem nodup_toFree (mmaps : Mmaps)
    (h : pagesBelow stop (2 ^ 20 + 1) a = some visits) : (toFree mmaps visits).Nodup := by
  obtain ⟨hlen, heq, -, -⟩ := pagesBelow_eq h
  unfold toFree
  rw [List.nodup_flatMap]
  refine ⟨fun x _ => (List.nodup_finRange _).filter _, ?_⟩
  rw [heq, List.pairwise_map]
  refine List.Pairwise.imp_of_mem ?_ List.pairwise_lt_range
  intro j k hj hk hjk i hij hik
  rw [List.mem_range] at hj hk
  have hj' := (covers_iff.mp (List.mem_filter.mp hij).2).2.1
  have hk' := (covers_iff.mp (List.mem_filter.mp hik).2).2.1
  have hdist : ∀ m n : Nat, m < 2 ^ 20 + 1 → n < 2 ^ 20 + 1 →
      ((a + PGSIZE * .ofNat 32 m) - (a + PGSIZE * .ofNat 32 n)).toNat =
        (4096 * m + 2 ^ 32 - 4096 * n) % 2 ^ 32 := by
    intro m n hm hn
    rw [show a + PGSIZE * .ofNat 32 m - (a + PGSIZE * .ofNat 32 n) =
      PGSIZE * .ofNat 32 m - PGSIZE * .ofNat 32 n by ring, toNat_sub,
      toNat_mul, toNat_mul, toNat_ofNat, toNat_ofNat,
      show PGSIZE.toNat = 4096 from rfl]
    omega
  have hclose := sub_lt_of_mem_pageRange hj' hk'
  rw [hdist k j (by omega) (by omega), hdist j k (by omega) (by omega)] at hclose
  omega

/-! ## The range of a `munmap` -/

/-- The addresses `[addr, addr + length)`. -/
def region (addr length : Word) : Set Word := { a | (a - addr).toNat < length.toNat }

theorem toNat_page (k : Nat) (hk : k < 2 ^ 20) : (PGSIZE * .ofNat 32 k).toNat = 4096 * k := by
  rw [toNat_mul, toNat_ofNat, show PGSIZE.toNat = 4096 from rfl]
  omega

theorem toNat_add_page (a : Word) (k : Nat) :
    (a + PGSIZE * .ofNat 32 k).toNat = (a.toNat + 4096 * k) % 2 ^ 32 := by
  rw [toNat_add, toNat_mul, toNat_ofNat, show PGSIZE.toNat = 4096 from rfl]
  omega

theorem slt_iff_shift : x.slt y ↔ (x.toNat + 2 ^ 31) % 2 ^ 32 < (y.toNat + 2 ^ 31) % 2 ^ 32 := by
  have hx := x.isLt
  have hy := y.isLt
  rw [BitVec.slt_iff_toInt_lt, toInt_eq_toNat_cond, toInt_eq_toNat_cond]
  split <;> split <;> omega

variable {addr length : Word}

/-- The loop of `munmap` visits the page starts of the range, when the range ends below `2 ^ 31`. -/
theorem mem_visits (haddr : Aligned addr)
    (hlen : 0 < length.toInt) (hend : addr.toInt + length.toInt < 2 ^ 31)
    (h : pagesBelow (length + addr) (2 ^ 20 + 1) addr = some visits) (a : Word) :
    a ∈ visits ↔ ∃ k : Nat, 4096 * k < length.toNat ∧ a = addr + PGSIZE * .ofNat 32 k := by
  obtain ⟨hcount, heq, hbelow, hstop⟩ := pagesBelow_eq h
  have haddr' := aligned_iff.mp haddr
  -- the shifted start and end of the range, between which nothing wraps
  obtain ⟨U, hU⟩ : ∃ U, U = (addr.toNat + 2 ^ 31) % 2 ^ 32 := ⟨_, rfl⟩
  have hpos : 0 < length.toNat ∧ U + length.toNat < 2 ^ 32 ∧
      ((length + addr).toNat + 2 ^ 31) % 2 ^ 32 = U + length.toNat := by
    have h1 := addr.isLt
    have h2 := length.isLt
    rw [toInt_eq_toNat_cond] at hlen hend
    rw [toInt_eq_toNat_cond] at hend
    rw [toNat_add]
    split at hlen <;> split at hend <;> omega
  have hshift : ∀ k, (addr + PGSIZE * .ofNat 32 k).slt (length + addr) ↔
      (U + 4096 * k) % 2 ^ 32 < U + length.toNat := by
    intro k
    rw [slt_iff_shift, toNat_add_page, hpos.2.2]
    omega
  simp only [hshift] at hbelow hstop
  have hiff : ∀ k, k < visits.length ↔ 4096 * k < length.toNat := by
    intro k
    constructor
    · intro hk
      by_contra hge
      -- the first page start after the range would have stopped the loop, or it wraps and nothing does
      have hm := hbelow ((length.toNat + 4095) / 4096) (by omega)
      omega
    · intro hk
      by_contra hge
      omega
  rw [heq, List.mem_map]
  constructor
  · rintro ⟨k, hk, rfl⟩
    exact ⟨k, (hiff k).mp (List.mem_range.mp hk), rfl⟩
  · rintro ⟨k, hk, rfl⟩
    exact ⟨k, List.mem_range.mpr ((hiff k).mpr hk), rfl⟩

theorem page_mem_region (hk : 4096 * k < length.toNat) :
    addr + PGSIZE * .ofNat 32 k ∈ region addr length := by
  show (addr + PGSIZE * .ofNat 32 k - addr).toNat < length.toNat
  rw [add_sub_cancel_left, toNat_page k (by omega)]
  exact hk

end Xv6

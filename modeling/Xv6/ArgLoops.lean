import Xv6.Ranges

/-!
# The loops over the arguments

`sys_mmap` counts the pages of a request with `for (j = 0; j < length; j += PGSIZE)`, and `sys_munmap` steps
through its range with `for (_addr = addr; _addr < length + addr; _addr += PGSIZE)`, all in `int`s. With a
bound above `0x7FFFF000` the loop goes on for ever. When `length + addr` wraps, it stops at once or visits
pages outside the range.
-/

namespace Xv6

variable {stop a addr length : Word} {l : List Word} {n : Nat}

/-! ## A loop that ends -/

/-- `n` pages from `a` on. -/
def pagesFrom (a : Word) (n : Nat) : List Word :=
  (List.range n).map fun k => a + PGSIZE * BitVec.ofNat 32 k

/-- The loop from `a` to `stop` ends, and `l` are the values of its variable. -/
def LoopEnds (stop a : Word) (l : List Word) : Prop := ∃ fuel, pagesBelow stop fuel a = some l

@[simp] theorem length_pagesFrom : (pagesFrom a n).length = n := by
  simp [pagesFrom]

theorem pagesFrom_succ : pagesFrom a (n + 1) = a :: pagesFrom (a + PGSIZE) n := by
  have hzero : a + PGSIZE * .ofNat 32 0 = a := by simp
  rw [pagesFrom, List.range_succ_eq_map, List.map_cons, List.map_map, hzero]
  refine congrArg (a :: ·) (List.map_congr_left fun k _ => ?_)
  exact (add_page_mul a k).symm

theorem pagesBelow_pagesFrom {fuel : Nat} (hfuel : n < fuel)
    (hbelow : ∀ k < n, (a + PGSIZE * .ofNat 32 k).slt stop)
    (hstop : ¬ (a + PGSIZE * .ofNat 32 n).slt stop) : pagesBelow stop fuel a = some (pagesFrom a n) := by
  induction n generalizing a fuel with
  | zero =>
    obtain ⟨fuel, rfl⟩ : ∃ m, fuel = m + 1 := ⟨fuel - 1, by omega⟩
    have hzero : a + PGSIZE * .ofNat 32 0 = a := by simp
    rw [hzero] at hstop
    rw [pagesBelow, if_neg hstop]
    rfl
  | succ n ih =>
    obtain ⟨fuel, rfl⟩ : ∃ m, fuel = m + 1 := ⟨fuel - 1, by omega⟩
    have hfirst : a.slt stop := by simpa using hbelow 0 (Nat.succ_pos n)
    have hrest : pagesBelow stop fuel (a + PGSIZE) = some (pagesFrom (a + PGSIZE) n) := by
      refine ih (by omega) (fun k hk => ?_) ?_
      · rw [add_page_mul]
        exact hbelow (k + 1) (by omega)
      · rwa [add_page_mul]
    rw [pagesBelow, if_pos hfirst, pagesFrom_succ, hrest]
    rfl

theorem loopEnds_iff : LoopEnds stop a l ↔ ∃ n, l = pagesFrom a n ∧
    (∀ k < n, (a + PGSIZE * .ofNat 32 k).slt stop) ∧ ¬ (a + PGSIZE * .ofNat 32 n).slt stop := by
  constructor
  · rintro ⟨fuel, h⟩
    obtain ⟨-, heq, hbelow, hstop⟩ := pagesBelow_eq h
    exact ⟨l.length, heq, hbelow, hstop⟩
  · rintro ⟨n, rfl, hbelow, hstop⟩
    exact ⟨n + 1, pagesBelow_pagesFrom (Nat.lt_succ_self n) hbelow hstop⟩

/-- The address space has `2 ^ 20` pages: a loop that ends does so before it comes back to its start. -/
theorem LoopEnds.pagesBelow (h : LoopEnds stop a l) : pagesBelow stop (2 ^ 20 + 1) a = some l := by
  obtain ⟨n, rfl, hbelow, hstop⟩ := loopEnds_iff.mp h
  refine pagesBelow_pagesFrom ?_ hbelow hstop
  by_contra hn
  -- one round earlier the variable had the same value
  have hround : a + PGSIZE * .ofNat 32 n = a + PGSIZE * .ofNat 32 (n - 2 ^ 20) := by
    apply BitVec.eq_of_toNat_eq
    rw [toNat_add_page, toNat_add_page]
    omega
  rw [hround] at hstop
  exact hstop (hbelow (n - 2 ^ 20) (by omega))

/-! ## Which loops end -/

/-- The number of pages that `len` bytes need. -/
def ceilPages (len : Int) : Nat := ((len + 4095) / 4096).toNat

theorem lt_ceilPages {len : Int} {k : Nat} : k < ceilPages len ↔ 4096 * (k : Int) < len := by
  unfold ceilPages
  omega

theorem toInt_page (ha : Aligned a) (k : Nat) : ∃ r : Nat, r < 2 ^ 20 ∧
    (a + PGSIZE * .ofNat 32 k).toInt = 4096 * (r : Int) - 2 ^ 31 ∧
    (r : Int) = ((a.toInt + 2 ^ 31) / 4096 + k) % 2 ^ 20 := by
  have ha := aligned_iff.mp ha
  have hpage := toNat_add_page a k
  refine ⟨(((a.toNat + 2 ^ 31) % 2 ^ 32) / 4096 + k) % 2 ^ 20, by omega, ?_, ?_⟩
  · rw [BitVec.toInt_eq_toNat_cond, hpage]
    split <;> omega
  · rw [BitVec.toInt_eq_toNat_cond]
    split <;> omega

/-- From an aligned start, the loop stops at once, or at the first page from `stop` on, which has to be
there: no page starts after `0x7FFFF000`. -/
theorem loopEnds_pagesFrom (ha : Aligned a) : LoopEnds stop a (pagesFrom a n) ↔
    (stop.toInt ≤ a.toInt ∨ stop.toInt ≤ 0x7FFFF000) ∧ n = ceilPages (stop.toInt - a.toInt) := by
  have hlo : -2 ^ 31 ≤ a.toInt := BitVec.le_toInt a
  have hhi : a.toInt < 2 ^ 31 := BitVec.toInt_lt
  have hmul : a.toInt % 4096 = 0 := by
    have := aligned_iff.mp ha
    rw [BitVec.toInt_eq_toNat_cond]
    split <;> omega
  have hiff : LoopEnds stop a (pagesFrom a n) ↔ (∀ k < n, (a + PGSIZE * .ofNat 32 k).toInt < stop.toInt) ∧
      stop.toInt ≤ (a + PGSIZE * .ofNat 32 n).toInt := by
    simp only [loopEnds_iff, BitVec.slt_iff_toInt_lt, not_lt]
    constructor
    · rintro ⟨m, hm, h⟩
      obtain rfl : n = m := by simpa using congrArg List.length hm
      exact h
    · exact fun h => ⟨n, rfl, h⟩
  rw [hiff]
  constructor
  · rintro ⟨hbelow, hstop⟩
    obtain ⟨r, hr, hpage, hround⟩ := toInt_page ha n
    rw [hpage] at hstop
    refine ⟨by omega, ?_⟩
    -- were the loop to pass the bound, it would have seen the first page from the bound on
    by_contra hne
    rcases Nat.lt_or_gt_of_ne hne with hlt | hgt
    · have := lt_ceilPages.mp hlt
      omega
    · have hfirst := hbelow _ hgt
      obtain ⟨r', hr', hpage', hround'⟩ := toInt_page ha (ceilPages (stop.toInt - a.toInt))
      rw [hpage'] at hfirst
      unfold ceilPages at hround' hgt
      omega
  · rintro ⟨hend, rfl⟩
    have hcount : ∀ k, k < ceilPages (stop.toInt - a.toInt) → 4096 * (k : Int) < stop.toInt - a.toInt :=
      fun k hk => lt_ceilPages.mp hk
    constructor
    · intro k hk
      obtain ⟨r, hr, hpage, hround⟩ := toInt_page ha k
      have := hcount k hk
      omega
    · obtain ⟨r, hr, hpage, hround⟩ := toInt_page ha (ceilPages (stop.toInt - a.toInt))
      unfold ceilPages at hpage hround ⊢
      omega

/-- A loop whose bound lies above the last page, and that does not stop at once, never ends. -/
theorem not_loopEnds (ha : Aligned a) (hlt : a.toInt < stop.toInt) (hhi : 0x7FFFF000 < stop.toInt) :
    ¬ LoopEnds stop a l := by
  intro h
  obtain ⟨n, rfl, -⟩ := loopEnds_iff.mp h
  obtain ⟨hend, -⟩ := (loopEnds_pagesFrom ha).mp h
  omega

/-! ## The two loops -/

/-- The loop of `sys_mmap` counts the pages of `length` bytes. -/
def CountsPages (length : Word) : Prop :=
  0 ≤ length.toInt → ∃ l, LoopEnds length 0 l ∧ l.length = ceilPages length.toInt

/-- The loop of `sys_munmap` visits the pages from `addr` on that start below `addr + length`. -/
def VisitsPages (addr length : Word) : Prop :=
  Aligned addr → LoopEnds (length + addr) addr (pagesFrom addr (ceilPages length.toInt))

theorem countsPages_iff : CountsPages length ↔ length.toInt ≤ 0x7FFFF000 := by
  have hzero : (0 : Word).toInt = 0 := rfl
  constructor
  · intro h
    by_contra hhi
    obtain ⟨l, hl, -⟩ := h (by omega)
    exact not_loopEnds (by decide) (by omega) (by omega) hl
  · intro hle hpos
    refine ⟨pagesFrom 0 (ceilPages length.toInt), ?_, length_pagesFrom⟩
    rw [loopEnds_pagesFrom (by decide), hzero]
    exact ⟨.inr hle, by rw [sub_zero]⟩

theorem visitsPages_iff : VisitsPages addr length ↔ (Aligned addr → -2 ^ 31 ≤ addr.toInt + length.toInt ∧
      (length.toInt ≤ 0 ∨ addr.toInt + length.toInt ≤ 0x7FFFF000)) := by
  refine imp_congr_right fun haddr => ?_
  rw [loopEnds_pagesFrom haddr]
  have hA := addr.isLt
  have hL := length.isLt
  have haddr := aligned_iff.mp haddr
  simp only [ceilPages, BitVec.toInt_eq_toNat_cond, BitVec.toNat_add]
  split <;> split <;> split <;> omega

/-- For which arguments the loops of `sys_mmap` and `sys_munmap` end with the right pages. -/
theorem argument_loops (addr length : Word) :
    (CountsPages length ↔ length.toInt ≤ 0x7FFFF000) ∧ (VisitsPages addr length ↔ (Aligned addr →
      -2 ^ 31 ≤ addr.toInt + length.toInt ∧ (length.toInt ≤ 0 ∨ addr.toInt + length.toInt ≤ 0x7FFFF000))) :=
  ⟨countsPages_iff, visitsPages_iff⟩

/-- `mmap` with the largest length, and `munmap` of the page at `0x7FFFF000` with one byte of it, never
come back; and `munmap` up to the end of the positive addresses visits nothing. -/
theorem argument_loops_wrap :
    (∀ fuel, pagesBelow 0x7FFFFFFF fuel 0 = none) ∧ ¬ CountsPages 0x7FFFFFFF ∧
    (∀ fuel, pagesBelow (1 + 0x7FFFF000) fuel 0x7FFFF000 = none) ∧ ¬ VisitsPages 0x7FFFF000 1 ∧
    LoopEnds (4096 + 0x7FFFF000) 0x7FFFF000 [] ∧ ¬ VisitsPages 0x7FFFF000 4096 := by
  have hnever : ∀ {stop a : Word}, (∀ l, ¬ LoopEnds stop a l) → ∀ fuel, pagesBelow stop fuel a = none :=
    fun h fuel => Option.eq_none_iff_forall_ne_some.mpr fun l hl => h l ⟨fuel, hl⟩
  refine ⟨hnever fun l => not_loopEnds (by decide) (by decide) (by decide), ?_,
    hnever fun l => not_loopEnds (by decide) (by decide) (by decide), ?_, ⟨1, by decide⟩, ?_⟩
  · rw [countsPages_iff]
    decide
  · rw [visitsPages_iff]
    decide
  · rw [visitsPages_iff]
    decide

theorem pageCount_eq {a : MmapArgs} (hpos : 0 ≤ a.length.toInt) (hle : a.length.toInt ≤ 0x7FFFF000) :
    pageCount a = some (ceilPages a.length.toInt + if hasFlag a.flags MAP_GROWSUP then 1 else 0) := by
  obtain ⟨l, hl, hcount⟩ := countsPages_iff.mpr hle hpos
  rw [pageCount, hl.pagesBelow, Option.map_some, hcount]

end Xv6

import Xv6.Orderly

/-!
# The window of the mappings

Mappings are meant to be whole pages between `VIRT_ADDR_START` and `VIRT_ADDR_END`. `sys_mmap` does not round
an address, does not count the guard page when it checks a fixed address, and checks nothing about `VA_PTR`.
A guard page that grows takes over the address in the next slot, which is `0` if that was never used.
`WindowGuard` asks for the addresses to be right where they enter the table.
-/

namespace Xv6

variable {p : Fin NPROC} {s t : State}

/-! ## Pages in the window -/

/-- The `n` pages from `a` on are whole pages of the window. The sum is one of numbers, so nothing wraps. -/
def InWindow (a : Word) (n : Nat) : Prop :=
  Aligned a ∧ VIRT_ADDR_START.toNat ≤ a.toNat ∧ a.toNat + 4096 * n ≤ VIRT_ADDR_END.toNat

instance (a : Word) (n : Nat) : Decidable (InWindow a n) := inferInstanceAs (Decidable (_ ∧ _))

theorem InWindow.page {a : Word} {n k : Nat} (h : InWindow a n) (hk : k < n) :
    InWindow (a + PGSIZE * .ofNat 32 k) 1 := by
  obtain ⟨haligned, hstart, hend⟩ := h
  have hsize : VIRT_ADDR_END.toNat = 2 ^ 31 := rfl
  have hnat : (a + PGSIZE * .ofNat 32 k).toNat = a.toNat + 4096 * k := by
    rw [BitVec.toNat_add, BitVec.toNat_mul, BitVec.toNat_ofNat, show PGSIZE.toNat = 4096 from rfl]
    omega
  rw [aligned_iff] at haligned
  refine ⟨?_, by omega, by omega⟩
  rw [aligned_iff]
  omega

theorem InWindow.mem {a x : Word} (h : InWindow a 1) (hx : x ∈ pageRange a) :
    VIRT_ADDR_START.toNat ≤ x.toNat ∧ x.toNat < VIRT_ADDR_END.toNat := by
  obtain ⟨-, hstart, hend⟩ := h
  have hsize : VIRT_ADDR_END.toNat = 2 ^ 31 := rfl
  rw [mem_pageRange, BitVec.toNat_sub] at hx
  omega

/-- Every valid descriptor is for a page in the window. -/
def Windowed (mmaps : Mmaps) : Prop :=
  ∀ i, (mmaps i).valid → InWindow (mmaps i).virtualAddress 1

theorem hereditary_windowed : Hereditary Windowed := by
  intro mmaps mmaps' h hw i hi
  obtain ⟨hi, ha⟩ := hw i hi
  rw [ha]
  exact h i hi

theorem Windowed.firstFit {a : MmapArgs} {r : Word} {n i : Nat} (hs : Windowed (s.proc p).mmaps)
    (hr : InWindow r n) (hfit : FirstFit p a s t r n i) : Windowed (t.proc p).mmaps := by
  intro j hj
  by_cases hrun : i ≤ j.val ∧ j.val < i + n
  · rw [hfit.address j hrun.1 hrun.2]
    exact hr.page (by omega)
  · rw [hfit.others j hrun] at hj ⊢
    exact hs j hj

theorem Windowed.grow {mmaps : Mmaps} (h : Windowed mmaps) {j : Index}
    (hj : InWindow (mmaps j).virtualAddress 1) :
    Windowed (Function.update mmaps j { mmaps j with valid := true }) := by
  intro k hk
  by_cases hkj : k = j
  · subst hkj
    rwa [Function.update_self]
  · rw [Function.update_of_ne hkj] at hk ⊢
    exact h k hk

/-! ## Runs -/

/-- A request that passes the checks is for whole pages in the window, the guard page included, and its file
is open. The slot after a guard page that is touched is valid, or its address is in the window. A `munmap`
does not write back where a guard page would grow. -/
def WindowGuard (s : State) : Op → Prop
  | .mmap p args => ∀ a n i, args = some a → Accepted s p a n i →
      InWindow (a.start s) n ∧ (hasFlag a.flags MAP_ANON ∨ (argfd (s.proc p) a.fd).isSome)
  | .munmap p args => ∀ addr length visits, args = some (addr, length) →
      pagesBelow (length + addr) (2 ^ 20 + 1) addr = some visits →
      NoGrowBack (s.proc p).mmaps (toFree (s.proc p).mmaps visits)
  | .fault p addr _ => ∀ i, findDesc (s.proc p).mmaps addr = some i →
      ((s.proc p).mmaps i).guardPage → ∀ j : Index, j.val = i.val + 1 →
      ((s.proc p).mmaps j).valid ∨ InWindow ((s.proc p).mmaps j).virtualAddress 1
  | .pipe _ => False
  | _ => True

theorem WindowGuard.orderlyGuard {op : Op} (hs : Orderly Windowed s) (hg : WindowGuard s op) :
    OrderlyGuard Windowed s op := by
  cases op with
  | mmap p args =>
    intro a n i ha h
    obtain ⟨hwindow, hfile⟩ := hg a n i ha h
    exact ⟨hfile, fun u hfit => (hs.tables p).firstFit hwindow hfit⟩
  | munmap p args => exact hg
  | fault p addr write =>
    intro i hfind hguard j hj hfree
    refine (hs.tables p).grow ((hg i hfind hguard j hj).resolve_left ?_)
    simp [hfree]
  | pipe p => exact hg
  | _ => trivial

/-- In every run under `WindowGuard`, from a state whose mappings are in the window and without a pipe,
every mapping is for a page at a multiple of 4096 whose addresses all lie in the window; so none reaches the
kernel. -/
theorem window_of_run (hs : Orderly Windowed s) (hrun : Run exec WindowGuard s t) (q : Fin NPROC)
    (i : Index) (hi : ((t.proc q).mmaps i).valid) :
    ((t.proc q).mmaps i).virtualAddress.toNat % 4096 = 0 ∧
    ((t.proc q).mmaps i).virtualAddress.toNat + 4096 ≤ VIRT_ADDR_END.toNat ∧ ∀ x ∈ ((t.proc q).mmaps i).range,
      VIRT_ADDR_START.toNat ≤ x.toNat ∧ x.toNat < VIRT_ADDR_END.toNat ∧ x.toNat < KERNBASE.toNat := by
  have ht : Orderly Windowed t := hrun.invariant hs fun t op u ht hg hx =>
    ht.step hereditary_windowed (hg.orderlyGuard ht) hx
  have hi := ht.tables q i hi
  refine ⟨aligned_iff.mp hi.1, hi.2.2, fun x hx => ?_⟩
  obtain ⟨hstart, hend⟩ := hi.mem hx
  exact ⟨hstart, hend, hend⟩

theorem orderly_boot : Orderly Windowed boot := by
  refine ⟨fun q i hi => ?_, by decide⟩
  have hnone : ∀ q i, ((boot.proc q).mmaps i).valid = false := by decide +kernel
  rw [hnone q i] at hi
  cases hi

/-- The page of a first mapping is in the window. -/
theorem window_of_run_boot : Run exec WindowGuard boot bootMapped ∧ ((bootMapped.proc 1).mmaps 0).valid ∧
    ((bootMapped.proc 1).mmaps 0).virtualAddress.toNat + 4096 ≤ VIRT_ADDR_END.toNat := by
  have hguard : WindowGuard boot (.mmap 1 (some bootAnon)) := by
    rintro a n i ⟨⟩ h
    have hn : pageCount bootAnon = some 1 := by decide +kernel
    obtain rfl : n = 1 := Option.some.inj (h.count.symm.trans hn)
    exact ⟨by decide, .inl (by decide)⟩
  have hrun : Run exec WindowGuard boot bootMapped := .tail .refl hguard exec_bootAnon
  have hvalid : ((bootMapped.proc 1).mmaps 0).valid := by decide
  exact ⟨hrun, hvalid, (window_of_run orderly_boot hrun 1 0 hvalid).2.1⟩

/-- A request for the last page of the window with a guard page. The guard page is not counted. -/
def bootLastPage : Op :=
  .mmap 1 (some ⟨0x7FFFF000, 4095, PTE_W, MAP_PRIVATE ||| MAP_ANON ||| MAP_FIXED ||| MAP_GROWSUP, 0, 0⟩)

/-- A first request for a page with a guard page. -/
def bootGrowsUp : Op :=
  .mmap 1 (some ⟨0, 4096, PTE_W, MAP_PRIVATE ||| MAP_ANON ||| MAP_GROWSUP, 0, 0⟩)

/-- The guard page of the first request is the first page of the kernel. When the guard page of the other
one is touched, it grows to page `0`. -/
theorem window_left :
    (∃ t, Run exec (fun _ _ => True) boot t ∧ ((t.proc 1).mmaps 1).valid ∧
      ((t.proc 1).mmaps 1).guardPage ∧ ((t.proc 1).mmaps 1).virtualAddress = KERNBASE) ∧
    ∃ t, Run exec (fun _ _ => True) boot t ∧ ((t.proc 1).mmaps 2).valid ∧
      ((t.proc 1).mmaps 2).guardPage ∧ ((t.proc 1).mmaps 2).virtualAddress = 0 := by
  have hlast : (Run.execAll exec boot [bootLastPage]).any (fun t =>
      ((t.proc 1).mmaps 1).valid && ((t.proc 1).mmaps 1).guardPage &&
      ((t.proc 1).mmaps 1).virtualAddress == KERNBASE) = true := by decide +kernel
  have hgrow : (Run.execAll exec boot [bootGrowsUp, .fault 1 0x60001000 true]).any (fun t =>
      ((t.proc 1).mmaps 2).valid && ((t.proc 1).mmaps 2).guardPage &&
      ((t.proc 1).mmaps 2).virtualAddress == 0) = true := by decide +kernel
  constructor
  · obtain ⟨t, hrun, ht⟩ := Run.exists_run hlast
    simp only [Bool.and_eq_true, beq_iff_eq] at ht
    exact ⟨t, hrun, ht.1.1, ht.1.2, ht.2⟩
  · obtain ⟨t, hrun, ht⟩ := Run.exists_run hgrow
    simp only [Bool.and_eq_true, beq_iff_eq] at ht
    exact ⟨t, hrun, ht.1.1, ht.1.2, ht.2⟩

end Xv6

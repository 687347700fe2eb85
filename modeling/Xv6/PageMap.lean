import Xv6.Lib.Hoare
import Xv6.Vm

/-!
# Page tables as maps

A page directory as the map from page numbers to the entries that are present. `mappages` adds the entries of
its range and no other. `deallocuvm` jumps over the page tables that are missing, and is the same program as
the walk that looks at every page.
-/

namespace Xv6

open Function (update update_self update_of_ne)
open Hoare

variable {d d' : PgDir} {n lo hi : Nat} {a pa pte perm oldsz newsz : Word} {E : Stop → Ram → Prop}

/-! ## The map -/

/-- The entry for page number `n`, if it is present. -/
def PgDir.entry (d : PgDir) (n : Nat) : Option Word :=
  if n < 2 ^ 20 ∧ hasFlag (d.pde (n / NPDENTRIES)) PTE_P ∧ hasFlag (d.pte n) PTE_P then some (d.pte n)
  else none

theorem entry_eq_some : d.entry n = some pte ↔
    (n < 2 ^ 20 ∧ hasFlag (d.pde (n / NPDENTRIES)) PTE_P ∧ hasFlag (d.pte n) PTE_P) ∧ d.pte n = pte := by
  unfold PgDir.entry
  split <;> simp_all

theorem entry_eq_none : d.entry n = none ↔
    ¬ (n < 2 ^ 20 ∧ hasFlag (d.pde (n / NPDENTRIES)) PTE_P ∧ hasFlag (d.pte n) PTE_P) := by
  unfold PgDir.entry
  split <;> simp_all

theorem access_entry (a : Word) (u w : Bool) : d.access a u w = match d.entry (vpn a) with
    | none => false
    | some pte => (!u || hasFlag pte PTE_U) && (!w || hasFlag pte PTE_W) := by
  unfold PgDir.access PgDir.walk PgDir.entry
  rw [vpn_div]
  by_cases hpde : hasFlag (d.pde (pdx a)) PTE_P
  · by_cases hpte : hasFlag (d.pte (vpn a)) PTE_P
    · rw [if_pos hpde, if_pos ⟨vpn_lt a, hpde, hpte⟩]
      simp [hpte]
    · rw [if_pos hpde, if_neg (by simp [hpte])]
      simp [hpte]
  · rw [if_neg hpde, if_neg (by simp [hpde])]

theorem translate_entry (h : d.entry (vpn a) = some pte) :
    d.translate a = P2V (pteAddr pte) + (a &&& 0xFFF#32) := by
  rw [PgDir.translate, (entry_eq_some.mp h).2]

theorem walk_of_entry (h : d.entry (vpn a) = some pte) : d.walk a = some pte := by
  obtain ⟨⟨-, hpde, -⟩, hpte⟩ := entry_eq_some.mp h
  rw [PgDir.walk, ← vpn_div, if_pos hpde, hpte]

theorem entry_setTable {k : Nat} (hk : hasFlag (d.pde k) PTE_P = false) (pg : Word) :
    (d.setTable k pg).entry = d.entry := by
  funext m
  unfold PgDir.entry
  rw [PgDir.setTable_pde, PgDir.setTable_pte]
  by_cases hm : m / NPDENTRIES = k
  · subst hm
    simp [hk]
  · rw [if_neg hm, if_neg hm]

theorem entry_setPte (hn : n < 2 ^ 20) (hpde : hasFlag (d.pde (n / NPDENTRIES)) PTE_P)
    (hpte : hasFlag pte PTE_P) : (d.setPte n pte).entry = update d.entry n (some pte) := by
  funext m
  by_cases hm : m = n
  · subst hm
    rw [update_self, entry_eq_some, PgDir.setPte_pde, PgDir.setPte_pte, if_pos rfl]
    exact ⟨⟨hn, hpde, hpte⟩, rfl⟩
  · rw [update_of_ne hm, PgDir.entry, PgDir.entry, PgDir.setPte_pde, PgDir.setPte_pte, if_neg hm]

theorem entry_clear : (d.setPte n 0).entry = update d.entry n none := by
  funext m
  by_cases hm : m = n
  · subst hm
    rw [update_self, entry_eq_none, PgDir.setPte_pte, if_pos rfl]
    simp
  · rw [update_of_ne hm, PgDir.entry, PgDir.entry, PgDir.setPte_pde, PgDir.setPte_pte, if_neg hm]

theorem not_present (hpde : hasFlag (d.pde (pdx a)) PTE_P) (hnone : d.entry (vpn a) = none) :
    ¬ hasFlag (d.pte (vpn a)) PTE_P := by
  intro hp
  rw [entry_eq_none, vpn_div] at hnone
  exact hnone ⟨vpn_lt a, hpde, hp⟩

theorem entry_map (hpde : hasFlag (d.pde (pdx a)) PTE_P) :
    (d.setPte (vpn a) (pa ||| perm ||| PTE_P)).entry =
      update d.entry (vpn a) (some (pa ||| perm ||| PTE_P)) :=
  entry_setPte (vpn_lt a) (by rwa [vpn_div]) (hasFlag_entry _)

theorem pte_of_walk {d : PgDir} {a pte : Word} (h : d.walk a = some pte) : d.pte (vpn a) = pte := by
  unfold PgDir.walk at h
  split at h
  · exact Option.some.inj h
  · cases h

/-! ## Pages of a memory -/

/-- The pages of a memory of `sz` bytes. -/
def pages (sz : Word) : Nat := (sz.toNat + 4095) / 4096

theorem vpn_pgRoundUp {sz : Word} (h : sz.toNat ≤ 2 ^ 31) : vpn (pgRoundUp sz) = pages sz := by
  have hup : pgRoundUp sz = pgRoundDown (sz + PGSIZE - 1) := rfl
  rw [hup, vpn_pgRoundDown, vpn, BitVec.toNat_sub, BitVec.toNat_add, show PGSIZE.toNat = 4096 from rfl,
    show (1 : Word).toNat = 1 from rfl, pages]
  omega

theorem aligned_pgRoundUp (sz : Word) : Aligned (pgRoundUp sz) := aligned_pteAddr _

theorem lt_pages {sz : Word} {n : Nat} : n < pages sz ↔ n * 4096 < sz.toNat := by
  unfold pages
  omega

theorem pages_kernbase : pages KERNBASE = 0x80000 := by
  rw [pages, show KERNBASE.toNat = 2 ^ 31 from rfl]
  norm_num

/-- The map without the page numbers from `lo` up to `hi`. -/
def cut (f : Nat → Option Word) (lo hi : Nat) : Nat → Option Word :=
  fun n => if lo ≤ n ∧ n < hi then none else f n

section Cut
variable {f : Nat → Option Word}

theorem cut_of_le (h : hi ≤ lo) : cut f lo hi = f := by
  funext n
  exact if_neg (by omega)

theorem cut_apply_of_not {n : Nat} (h : ¬ (lo ≤ n ∧ n < hi)) : cut f lo hi n = f n := if_neg h

theorem cut_update_mem {n : Nat} {e : Option Word} (h : lo ≤ n ∧ n < hi) :
    cut (update f n e) lo hi = cut f lo hi := by
  funext m
  unfold cut
  by_cases hm : m = n
  · rw [if_pos (by omega), if_pos (by omega)]
  · rw [update_of_ne hm]

theorem cut_succ (h : lo ≤ hi) : update (cut f lo hi) hi none = cut f lo (hi + 1) := by
  funext n
  unfold cut
  by_cases hn : n = hi
  · rw [hn, update_self, if_pos (by omega)]
  · simp only [update_of_ne hn, show n < hi + 1 ↔ n < hi by omega]

end Cut

theorem vpn_of_aligned (ha : Aligned a) : vpn a * 4096 = a.toNat := by
  rw [aligned_iff] at ha
  unfold vpn
  omega

/-- A directory index without a page table has no entries, and the loop goes on behind it. -/
theorem entry_of_walk_none (h : d.walk a = none) (hn : vpn a ≤ n) (hlt : n < (pdx a + 1) * 1024) :
    d.entry n = none := by
  have hpde : ¬ hasFlag (d.pde (pdx a)) PTE_P := by
    intro hp
    rw [PgDir.walk, if_pos hp] at h
    cases h
  have hdiv : n / NPDENTRIES = pdx a := by
    have := vpn_div a
    simp only [NPDENTRIES] at *
    omega
  rw [entry_eq_none, hdiv]
  exact fun hall => hpde hall.2.1

theorem vpn_next_table (h : vpn a < 0x80000) :
    vpn (.ofNat 32 ((pdx a + 1) * 2 ^ 22)) = (pdx a + 1) * 1024 ∧
      Aligned (.ofNat 32 ((pdx a + 1) * 2 ^ 22)) := by
  have hdiv := vpn_div a
  simp only [NPDENTRIES] at hdiv
  rw [aligned_iff, vpn, BitVec.toNat_ofNat]
  omega

theorem vpn_lt_of_ult {a oldsz : Word} (h : a.ult oldsz) (hk : oldsz.toNat ≤ 2 ^ 31) : vpn a < 0x80000 := by
  have := BitVec.ult_iff_lt.mp h
  rw [BitVec.lt_def] at this
  unfold vpn
  omega

/-- The page of the last byte, counted as the loop of `mappages` does. -/
theorem vpn_last_sub {virt size : Word} (hs : 0 < size.toNat) (hend : virt.toNat + size.toNat ≤ 2 ^ 32) :
    vpn virt + vpn (pgRoundDown (virt + size - 1) - pgRoundDown virt) =
      (virt.toNat + size.toNat - 1) / 4096 := by
  have hlast : (virt + size - 1).toNat = virt.toNat + size.toNat - 1 := by
    rw [BitVec.toNat_sub, BitVec.toNat_add, show (1 : Word).toNat = 1 from rfl]
    have := virt.isLt
    omega
  rw [vpn, vpn, BitVec.toNat_sub, toNat_pgRoundDown, toNat_pgRoundDown, hlast]
  have := virt.isLt
  omega

/-! ## `mappages` -/

/-- The loop of `mappages`, page by page: `I k` holds of the directory with `k` pages mapped, and `F` of the
one that is left when there is no page for a page table. -/
theorem mappagesLoop_rule {I : Nat → PgDir → Ram → Prop} {F : PgDir → Ram → Prop} (n : Nat)
    (h : ∀ k ≤ n, ∀ d b, (vpn a + k < 2 ^ 20 → vpn b = vpn a + k) →
      Triple (I k d) (walkpgdir d b) (fun o r => o.elim (F d r) fun d' =>
        if hasFlag (d'.pte (vpn b)) PTE_P then E (.panic "remap") r
        else I (k + 1) (d'.setPte (vpn b) (pa + PGSIZE * .ofNat 32 k ||| perm ||| PTE_P)) r) E) :
    Triple (I 0 d) (mappagesLoop perm n d a pa)
      (fun x r => if x.1 then I (n + 1) x.2 r else F x.2 r) E := by
  induction n using Nat.strongRecOn generalizing d a pa I with
  | _ n ih =>
    unfold mappagesLoop
    refine .bind (h 0 (Nat.zero_le _) d a fun _ => rfl) fun o => ?_
    cases o with
    | none => exact .pure fun r hr => hr
    | some d' =>
      refine .ite (fun hp => ⟨fun r hr => ?_⟩) fun hp => ?_
      · rw [Option.elim_some, if_pos hp] at hr
        exact hr
      · refine .pre (P := I 1 (d'.setPte (vpn a) (pa ||| perm ||| PTE_P))) ?_ fun r hr => ?_
        · cases n with
          | zero => exact .pure fun r hr => hr
          | succ n =>
            refine ih n n.lt_succ_self (I := fun k => I (k + 1)) fun k hk d b hb => ?_
            rw [add_page_mul]
            refine h (k + 1) (by omega) d b fun hlt => ?_
            have hnext : vpn (a + PGSIZE) = vpn a + 1 := vpn_add_page (by omega)
            rw [hb (by omega), hnext]
            omega
        · rw [Option.elim_some, if_neg hp, BitVec.mul_zero, BitVec.add_zero] at hr
          exact hr

theorem walkpgdir_entry : Triple (fun _ => True) (walkpgdir d a) (fun o r => o.elim (r.freelist = [])
    fun d' => d'.entry = d.entry ∧ hasFlag (d'.pde (pdx a)) PTE_P ∧ ∀ k, k ≠ pdx a → d'.pde k = d.pde k)
    E := by
  unfold walkpgdir
  refine .ite (fun hp => .pure fun r _ => ⟨rfl, hp, fun _ _ => rfl⟩) fun hp => ?_
  · have halloc : Triple (fun _ => True) kalloc (fun o r => o = none → r.freelist = []) E :=
      ⟨fun r _ => by unfold kalloc; cases h : r.freelist <;> simp [h]⟩
    refine .bind halloc fun o => ?_
    cases o with
    | none => exact .pure fun r hr => hr rfl
    | some pgtab =>
      refine .update (R := fun _ => True) (fun _ _ => trivial) <| .pure fun r _ => ?_
      refine ⟨entry_setTable (by simpa using hp) pgtab, ?_, fun k hk => ?_⟩
      · rw [PgDir.setTable_pde, if_pos rfl]
        exact PgDir.hasFlag_table _
      · rw [PgDir.setTable_pde, if_neg hk]

/-- The entries from page number `lo` on map `k` pages from `pa` on, and the other entries are as in `d`. -/
structure PagesMapped (d : PgDir) (lo k : Nat) (pa perm : Word) (d' : PgDir) : Prop where
  page : ∀ i < k, d'.entry (lo + i) = some (pa + PGSIZE * .ofNat 32 i ||| perm ||| PTE_P)
  other : ∀ n, n < lo ∨ lo + k ≤ n → d'.entry n = d.entry n

theorem PagesMapped.step {k : Nat} (h : PagesMapped d lo k pa perm d')
    {d₁ : PgDir} (he : d₁.entry =
      update d'.entry (lo + k) (some (pa + PGSIZE * .ofNat 32 k ||| perm ||| PTE_P))) :
    PagesMapped d lo (k + 1) pa perm d₁ where
  page i hi := by
    rw [he]
    by_cases hik : i = k
    · rw [hik, update_self]
    · rw [update_of_ne (by omega), h.page i (by omega)]
  other n hn := by
    rw [he, update_of_ne (by omega), h.other n (by omega)]

theorem mapped_mappagesLoop (n : Nat) (hn : vpn a + n < 2 ^ 20)
    (hnone : ∀ i ≤ n, d.entry (vpn a + i) = none) :
    Triple (fun _ => True) (mappagesLoop perm n d a pa) (fun x r =>
      if x.1 then PagesMapped d (vpn a) (n + 1) pa perm x.2
      else r.freelist = [] ∧ ∃ k ≤ n, PagesMapped d (vpn a) k pa perm x.2) E := by
  refine (mappagesLoop_rule (I := fun k d' _ => PagesMapped d (vpn a) k pa perm d')
    (F := fun d' r => r.freelist = [] ∧ ∃ k ≤ n, PagesMapped d (vpn a) k pa perm d') n
    fun k hk d' b hb => ?_).pre fun r _ => ?_
  · have hvpn := hb (by omega)
    refine ⟨fun r hd' => ?_⟩
    refine (walkpgdir_entry.post fun o r ho => ?_).run r trivial
    cases o with
    | none => exact ⟨ho, k, hk, hd'⟩
    | some d₁ =>
      obtain ⟨hentry, hpde, -⟩ := ho
      have habsent : d₁.entry (vpn b) = none := by
        rw [hentry, hvpn, hd'.other _ (by omega), hnone k hk]
      rw [Option.elim_some, if_neg (not_present hpde habsent)]
      refine hd'.step ?_
      rw [entry_map hpde, hentry, hvpn]
  · exact ⟨fun i hi => absurd hi (Nat.not_lt_zero i), fun _ _ => rfl⟩

/-- `mappages` maps the pages of its range, and leaves every other page as it is. It fails only when there
is no free page for a page table; then the pages up to there are mapped. -/
theorem mappages_extends_map (d : PgDir) (va size pa perm : Word) (hsize : 0 < size.toNat)
    (hwrap : va.toNat + (size.toNat - 1) < 2 ^ 32) (hpa : Aligned pa) (hperm : perm.toNat < 4096)
    (hnone : ∀ n, vpn va ≤ n → n ≤ (va.toNat + size.toNat - 1) / 4096 → d.entry n = none) (r : Ram) :
    ∃ done d' r', mappages d va size pa perm r = .ok (done, d') r' ∧ (done = false → r'.freelist = []) ∧
      (∀ n, n < vpn va ∨ (va.toNat + size.toNat - 1) / 4096 < n → d'.entry n = d.entry n) ∧
      ∀ i, vpn va + i ≤ (va.toNat + size.toNat - 1) / 4096 →
        (∃ pte, d'.entry (vpn va + i) = some pte ∧ pteAddr pte = pa + PGSIZE * .ofNat 32 i ∧
          pteFlags pte = perm ||| PTE_P) ∨
        done = false ∧ d'.entry (vpn va + i) = none := by
  have hlast : vpn va + vpn (pgRoundDown (va + size - 1) - pgRoundDown va) = _ := vpn_last_sub hsize (by omega)
  have hlow : LowBits perm := lowBits_of_lt hperm
  unfold mappages
  generalize vpn (pgRoundDown (va + size - 1) - pgRoundDown va) = k at hlast
  have hpages := @mapped_mappagesLoop d (pgRoundDown va) pa perm (fun _ _ => False) k
  rw [vpn_pgRoundDown] at hpages
  obtain ⟨⟨done, d'⟩, r', hrun, hmap⟩ := (hpages (by omega) fun i hi => hnone _ (by omega) (by omega)).returns
    (s := r) trivial
  -- the pages that are mapped are the first ones, all of them if the loop got to its end
  obtain ⟨m, hm, hmapped⟩ : ∃ m, (m ≤ k ∧ done = false ∨ m = k + 1) ∧ PagesMapped d (vpn va) m pa perm d' := by
    cases done with
    | true => exact ⟨k + 1, .inr rfl, hmap⟩
    | false =>
      obtain ⟨-, m, hm, hmap⟩ := hmap
      exact ⟨m, .inl ⟨hm, rfl⟩, hmap⟩
  refine ⟨done, d', r', hrun, ?_, fun n hn => hmapped.other n (by omega), fun i hi => ?_⟩
  · rintro rfl
    exact hmap.1
  by_cases him : i < m
  · have haligned : Aligned (pa + PGSIZE * .ofNat 32 i) := aligned_add_pages hpa i
    exact .inl ⟨_, hmapped.page i him, pteAddr_entry haligned hlow, pteFlags_entry haligned hlow⟩
  · rcases hm with ⟨-, hdone⟩ | rfl
    · refine .inr ⟨hdone, ?_⟩
      rw [hmapped.other _ (by omega), hnone _ (by omega) hi]
    · omega

/-- The last two pages of the devices, where the address space ends, with a free page for the table. -/
theorem mappages_extends_map_devices : ∃ d' r', mappages PgDir.null 0xFFFFE000 0x2000 0xFFFFE000 PTE_W
        ⟨0, 0, [P2V 0x400000, P2V 0x401000], fun _ => 0, []⟩ = .ok (true, d') r' ∧
      (∀ n, n < 0xFFFFE ∨ 0xFFFFF < n → d'.entry n = PgDir.null.entry n) ∧
      ∀ i, 0xFFFFE + i ≤ 0xFFFFF → ∃ pte, d'.entry (0xFFFFE + i) = some pte ∧
        pteAddr pte = 0xFFFFE000 + PGSIZE * .ofNat 32 i ∧ pteFlags pte = PTE_W ||| PTE_P := by
  obtain ⟨done, d', r', hrun, -, hother, hin⟩ := mappages_extends_map PgDir.null 0xFFFFE000 0x2000
    0xFFFFE000 PTE_W (by decide) (by decide) (by decide) (by decide)
    (fun n _ _ => entry_eq_none.mpr fun h => by simp [PgDir.null] at h)
    ⟨0, 0, [P2V 0x400000, P2V 0x401000], fun _ => 0, []⟩
  have hdone : returns (mappages PgDir.null 0xFFFFE000 0x2000 0xFFFFE000 PTE_W
    ⟨0, 0, [P2V 0x400000, P2V 0x401000], fun _ => 0, []⟩) (fun x _ => x.1) = true := by decide +kernel
  rw [hrun] at hdone
  obtain rfl : done = true := hdone
  exact ⟨d', r', hrun, hother, fun i hi => (hin i hi).resolve_right fun h => by simp at h⟩

/-! ## `deallocuvm` -/

/-- Look at page `n`: free the page and clear its entry, if it is there. -/
def freePage (d : PgDir) (n : Nat) : RamM PgDir :=
  match d.entry n with
  | none => pure d
  | some pte =>
    if pteAddr pte = 0 then
      panic "kfree"
    else do
      kfree (P2V (pteAddr pte))
      pure (d.setPte n 0)

/-- Look at `k` pages, one after the other. -/
def freePages : Nat → PgDir → Nat → RamM PgDir
  | 0, d, _ => pure d
  | k + 1, d, n => do
    let d ← freePage d n
    freePages k d (n + 1)

theorem freePages_rule {I : Nat → PgDir → Ram → Prop} (k : Nat)
    (h : ∀ j, n ≤ j → j < n + k → ∀ d, Triple (I j d) (freePage d j) (I (j + 1)) E) :
    Triple (I n d) (freePages k d n) (I (n + k)) E := by
  induction k generalizing d n with
  | zero => exact .pure fun r hr => hr
  | succ k ih =>
    refine .bind (h n le_rfl (by omega) d) fun d' => ?_
    rw [show n + (k + 1) = n + 1 + k by omega]
    exact ih fun j hj hjk => h j (by omega) (by omega)

/-- Pages that are not there may be left out. -/
theorem freePages_skip {j : Nat} (k : Nat) (h : ∀ i, n ≤ i → i < n + j → d.entry i = none) :
    freePages (j + k) d n = freePages k d (n + j) := by
  induction j generalizing n with
  | zero => rw [Nat.zero_add, Nat.add_zero]
  | succ j ih =>
    rw [show j + 1 + k = (j + k) + 1 by omega, freePages, freePage, h n le_rfl (by omega)]
    rw [show n + (j + 1) = n + 1 + j by omega]
    exact ih fun i hi hij => h i (by omega) (by omega)

theorem deallocuvmLoop_eq (hk : oldsz.toNat ≤ 2 ^ 31) (fuel : Nat) (ha : Aligned a)
    (hfuel : 0x80000 ≤ vpn a + fuel) :
    deallocuvmLoop oldsz fuel d a = freePages (pages oldsz - vpn a) d (vpn a) := by
  have hpages : pages oldsz ≤ 0x80000 := by
    unfold pages
    omega
  induction fuel generalizing d a with
  | zero =>
    rw [show pages oldsz - vpn a = 0 by omega]
    rfl
  | succ fuel ih =>
    have hpos := vpn_of_aligned ha
    unfold deallocuvmLoop
    split
    next hlt =>
      have hvpn := vpn_lt_of_ult hlt hk
      have hin : vpn a < pages oldsz := by
        rw [lt_pages, hpos]
        simpa [BitVec.ult] using hlt
      have hnext : vpn (a + PGSIZE) = vpn a + 1 := vpn_add_page (by omega)
      have hmore : pages oldsz - vpn a = pages oldsz - (vpn a + 1) + 1 := by omega
      have hrest : ∀ d, deallocuvmLoop oldsz fuel d (a + PGSIZE) =
          freePages (pages oldsz - (vpn a + 1)) d (vpn a + 1) := by
        intro d
        rw [ih (aligned_add_page ha) (by omega), hnext]
      cases hwalk : d.walk a with
      | none =>
        -- the pages up to the next table, or up to the end, are not there
        obtain ⟨htable, haligned⟩ := vpn_next_table hvpn
        have hdiv := vpn_div a
        simp only [NPDENTRIES] at hdiv
        have hskip : ∀ i, vpn a ≤ i → i < (pdx a + 1) * 1024 → d.entry i = none :=
          fun i => entry_of_walk_none hwalk
        dsimp only
        rw [ih haligned (by omega), htable]
        by_cases hend : pages oldsz ≤ (pdx a + 1) * 1024
        · rw [show pages oldsz - (pdx a + 1) * 1024 = 0 by omega, ← Nat.add_zero (pages oldsz - vpn a),
            freePages_skip 0 fun i h1 h2 => hskip i h1 (by omega)]
          rfl
        · have hsplit : pages oldsz - vpn a =
              ((pdx a + 1) * 1024 - vpn a) + (pages oldsz - (pdx a + 1) * 1024) := by omega
          rw [hsplit, freePages_skip _ fun i h1 h2 => hskip i h1 (by omega), Nat.add_sub_cancel' (by omega)]
      | some pte =>
        have hpde : hasFlag (d.pde (pdx a)) PTE_P := by
          by_contra hp
          rw [PgDir.walk, if_neg hp] at hwalk
          cases hwalk
        obtain rfl := pte_of_walk hwalk
        dsimp only
        rw [hmore, freePages, freePage]
        by_cases hpte : hasFlag (d.pte (vpn a)) PTE_P
        · have hentry : d.entry (vpn a) = some (d.pte (vpn a)) :=
            entry_eq_some.mpr ⟨⟨vpn_lt a, by rwa [vpn_div], hpte⟩, rfl⟩
          rw [if_pos hpte, hentry]
          dsimp only
          by_cases hzero : pteAddr (d.pte (vpn a)) = 0
          · rw [if_pos hzero, if_pos hzero]
            rfl
          · rw [if_neg hzero, if_neg hzero, bind_assoc]
            simp only [pure_bind, hrest]
        · have hentry : d.entry (vpn a) = none := entry_eq_none.mpr fun hall => hpte hall.2.2
          rw [if_neg hpte, hentry, hrest]
          rfl
    next hge =>
      have hle : pages oldsz ≤ vpn a := by
        have : oldsz.toNat ≤ a.toNat := by simpa [BitVec.ult] using hge
        unfold pages
        omega
      rw [show pages oldsz - vpn a = 0 by omega]
      rfl

/-- The directory without the entries that are present from page number `lo` up to `hi`. -/
def PgDir.cleared (d : PgDir) (lo hi : Nat) : PgDir :=
  { d with pte := fun n => if lo ≤ n ∧ n < hi ∧ (d.entry n).isSome then 0 else d.pte n }

/-- The pages behind the entries that are present among the `k` from page number `lo` on. -/
def PgDir.frames (d : PgDir) (lo k : Nat) : List Word :=
  (List.range' lo k).filterMap fun n => (d.entry n).map fun pte => P2V (pteAddr pte)

/-- `kfree` takes the page of this entry back. -/
def Ram.takesBack (r : Ram) (pte : Word) : Prop := pteAddr pte ≠ 0 ∧ r.isPage (P2V (pteAddr pte))

theorem entry_cleared (d : PgDir) (lo hi : Nat) : (d.cleared lo hi).entry = cut d.entry lo hi := by
  funext n
  unfold cut
  by_cases hin : lo ≤ n ∧ n < hi ∧ (d.entry n).isSome
  · have hpte : (d.cleared lo hi).pte n = 0 := if_pos hin
    rw [if_pos ⟨hin.1, hin.2.1⟩, entry_eq_none, hpte]
    exact fun h => by simp at h
  · have hsame : (d.cleared lo hi).entry n = d.entry n := by
      have hpte : (d.cleared lo hi).pte n = d.pte n := if_neg hin
      unfold PgDir.entry
      rw [hpte]
      rfl
    rw [hsame]
    split
    next hrange => simpa [hrange] using hin
    next => rfl

theorem cleared_succ_of_none (hn : d.entry n = none) : d.cleared lo (n + 1) = d.cleared lo n := by
  unfold PgDir.cleared
  congr
  funext m
  by_cases hm : m = n
  · subst hm
    simp [hn]
  · simp only [show m < n + 1 ↔ m < n by omega]

theorem cleared_succ_of_some (hlo : lo ≤ n) (hn : d.entry n = some pte) :
    d.cleared lo (n + 1) = (d.cleared lo n).setPte n 0 := by
  unfold PgDir.cleared PgDir.setPte
  congr
  funext m
  by_cases hm : m = n
  · subst hm
    simp [hn, hlo]
  · rw [update_of_ne hm]
    simp only [show m < n + 1 ↔ m < n by omega]

theorem frames_succ (hlo : lo ≤ n) : d.frames lo (n + 1 - lo) =
    d.frames lo (n - lo) ++ ((d.entry n).map fun pte => P2V (pteAddr pte)).toList := by
  have hlast : lo + (n - lo) = n := by omega
  rw [show n + 1 - lo = n - lo + 1 by omega, PgDir.frames, List.range'_1_concat, hlast, List.filterMap_append]
  cases hn : d.entry n <;> simp [PgDir.frames, hn]

theorem cleared_self (d : PgDir) (lo : Nat) : d.cleared lo lo = d := by
  unfold PgDir.cleared
  congr
  funext n
  exact if_neg fun h => absurd h.1 (Nat.not_le.mpr h.2.1)

theorem freelist_kfree (r₀ : Ram) (v : Word) (fl : List Word) :
    Triple (fun r => r.freelist = fl ∧ r.kend = r₀.kend) (kfree v)
      (fun _ r => r.freelist = v :: fl ∧ r.kend = r₀.kend) (fun _ _ => ¬ r₀.isPage v) := by
  refine .get fun r hr => .update (R := fun r => r.freelist = fl ∧ r.kend = r₀.kend)
    (by rintro _ rfl; exact hr) ?_
  have hsame : r.isPage v = r₀.isPage v := by rw [Ram.isPage, hr.2, Ram.isPage]
  rw [hsame]
  refine .ite (fun _ => ?_) fun hp => .throw fun _ _ => hp
  exact .update (R := fun r => r.freelist = fl ∧ r.kend = r₀.kend) (fun _ h => h) <|
    .modify fun _ h => ⟨congrArg (v :: ·) h.1, h.2⟩

/-- After the pages from `lo` up to `n` were looked at. -/
def PagesFreed (d : PgDir) (r₀ : Ram) (lo n : Nat) (d' : PgDir) (r : Ram) : Prop :=
  (r.freelist = (d.frames lo (n - lo)).reverse ++ r₀.freelist ∧ r.kend = r₀.kend) ∧ d' = d.cleared lo n

theorem freed_freePage (r₀ : Ram) (hlo : lo ≤ n) :
    Triple (PagesFreed d r₀ lo n d') (freePage d' n) (PagesFreed d r₀ lo (n + 1))
      (fun _ _ => ∃ pte, d.entry n = some pte ∧ ¬ r₀.takesBack pte) := by
  refine .pre_and fun hd => ?_
  have hsame : d'.entry n = d.entry n := by
    rw [hd, entry_cleared, cut_apply_of_not (by omega)]
  have hframes := frames_succ (d := d) hlo
  unfold freePage
  rw [hsame]
  cases hn : d.entry n with
  | none =>
    rw [hn] at hframes
    refine .pure fun r hr => ⟨⟨?_, hr.2⟩, hd.trans (cleared_succ_of_none hn).symm⟩
    rw [hframes, hr.1]
    simp
  | some pte =>
    rw [hn] at hframes
    refine .ite (fun hzero => .throw fun _ _ => ⟨pte, rfl, fun h => h.1 hzero⟩) fun _ => ?_
    · refine .bind ((freelist_kfree r₀ _ _).conseq (fun r hr => hr) (fun _ _ h => h) fun _ _ hp => ?_)
        fun _ => .pure fun r hr => ⟨⟨?_, hr.2⟩, ?_⟩
      · exact ⟨pte, rfl, fun h => hp h.2⟩
      · rw [hframes, hr.1]
        simp
      · rw [hd, cleared_succ_of_some hlo hn]

end Xv6

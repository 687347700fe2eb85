import Xv6.Lib.Ledger
import Xv6.PageMap

/-!
# Who holds which page: page directories

A page directory holds its own page, its page tables and the pages of its user half; the pages that its
kernel half maps are nobody's. The directory a function works on stands next to the owners `h` of the rest
of the kernel: the books are over `Sum.elim h d.holds`.
-/

namespace Xv6

open Hoare

variable {Ω : Type} {h : Ω → Option Word} {hand : Set Word} {e k v mem : Word} {d : PgDir}

/-! ## The books -/

/-- What a page directory can hold a page as. -/
inductive PgOwner where
  | dir
  /-- The page table at directory index `k`. -/
  | table (k : Nat)
  /-- The page that user code reaches at page number `n`. -/
  | user (n : Nat)
  deriving DecidableEq

/-- The entry at page number `n` is present and is not one of the kernel's own. -/
def PgDir.userEntry (d : PgDir) (n : Nat) : Bool :=
  decide (n < 2 ^ 20) && hasFlag (d.pde (n / NPDENTRIES)) PTE_P && hasFlag (d.pte n) PTE_P &&
    (decide (n < 0x80000) || hasFlag (d.pte n) PTE_U)

def PgDir.holds (d : PgDir) : PgOwner → Option Word
  | .dir => some d.page
  | .table k =>
    if k < NPDENTRIES ∧ hasFlag (d.pde k) PTE_P then some (P2V (pteAddr (d.pde k))) else none
  | .user n => if d.userEntry n then some (P2V (pteAddr (d.pte n))) else none

/-- `v` is the address of a page of an allocator whose memory starts at `e`. -/
def PageAt (e v : Word) : Prop := Aligned v ∧ ¬ v.ult e ∧ (V2P v).ult PHYSTOP

theorem PageAt.ne_zero (h : PageAt e v) : v ≠ 0 := by
  rintro rfl
  exact absurd h.2.2 (by decide)

variable {r : Ram} {w perm : Word} {n : Nat} {o : PgOwner}

theorem isPage_iff : r.isPage v ↔ PageAt r.kend v := by
  simp [Ram.isPage, PageAt, Aligned, and_assoc]

/-- Every page that was given to `kfree` was allocated at that moment. -/
def Ram.Freed (r : Ram) : Prop := ∀ v b, Event.kfree v b ∈ r.trace → b = true

/-- The books of the page allocator, with the linker's addresses `e` and `k`. -/
structure Books (e k : Word) (h : Ω → Option Word) (hand : Set Word) (r : Ram) : Prop where
  ledger : Ledger (PageAt e) r.freelist h hand
  kend : r.kend = e
  kdata : r.kdata = k
  freed : r.Freed

/-- What is left when a function over memory does not return. None of them calls `exit`. -/
def Broken (x : Stop) (r : Ram) : Prop := r.Freed ∧ x ≠ .exit

section
variable (hb : Books e k h hand r)
include hb

theorem Books.broken (msg : String) : Broken (.panic msg) r :=
  ⟨hb.freed, nofun⟩

variable {h' : Ω → Option Word}

theorem Books.anti (hle : ∀ o w, h' o = some w → h o = some w) : Books e k h' hand r :=
  { hb with ledger := hb.ledger.anti hle }

variable {hand' : Set Word}

theorem Books.drop (hle : hand' ⊆ hand) : Books e k h hand' r :=
  { hb with ledger := hb.ledger.drop hle }

theorem Books.reindex {Ω' : Type} {h' : Ω' → Option Word}
    (f : Ω' → Ω) (hf : ∀ {o₁ o₂ w}, h' o₁ = some w → h' o₂ = some w → f o₁ = f o₂ → o₁ = o₂)
    (hle : ∀ o w, h' o = some w → h (f o) = some w) : Books e k h' hand r :=
  { hb with ledger := hb.ledger.reindex f hf hle }

end

theorem Books.sum_none : Books e k (Sum.elim h fun _ : PgOwner => none) hand r ↔ Books e k h hand r := by
  constructor
  · intro hb
    exact hb.reindex Sum.inl (fun _ _ hf => Sum.inl.inj hf) fun _ _ ho => ho
  · intro hb
    refine ⟨⟨hb.ledger.nodup, ?_, ?_, ?_, hb.ledger.hand_free, hb.ledger.ok_free, ?_,
      hb.ledger.ok_hand⟩, hb.kend, hb.kdata, hb.freed⟩
    · rintro (o | o) (o' | o') w h1 h2
      · exact congrArg _ (hb.ledger.inj h1 h2)
      all_goals simp at h1 h2
    · rintro (o | o) w h1
      · exact hb.ledger.held_free h1
      · simp at h1
    · rintro (o | o) w h1
      · exact hb.ledger.held_hand h1
      · simp at h1
    · rintro (o | o) w h1
      · exact hb.ledger.ok_held h1
      · simp at h1

/-! ## `kalloc.c` -/

theorem books_memset (dst : Word) (c : Byte) :
    Triple (Books e k h hand) (memset dst c) (fun _ => Books e k h hand) Broken :=
  ⟨fun _ hb => ⟨hb.ledger, hb.kend, hb.kdata, hb.freed⟩⟩

theorem books_memmove (dst src : Word) :
    Triple (Books e k h hand) (memmove dst src) (fun _ => Books e k h hand) Broken :=
  ⟨fun _ hb => ⟨hb.ledger, hb.kend, hb.kdata, hb.freed⟩⟩

/-- The hand after `kalloc` returned `o`. -/
def taken (hand : Set Word) (o : Option Word) : Set Word := o.elim hand (insert · hand)

theorem books_kalloc : Triple (Books e k h hand) kalloc
    (fun o r => Books e k h (taken hand o) r ∧ ∀ v, o = some v → v ∉ hand) Broken := by
  refine ⟨fun r hb => ?_⟩
  unfold kalloc
  cases hl : r.freelist with
  | nil => exact ⟨hb, nofun⟩
  | cons v fl =>
    have hledger := hb.ledger
    rw [hl] at hledger
    refine ⟨⟨hledger.take, hb.kend, hb.kdata, hb.freed⟩, ?_⟩
    rintro _ ⟨⟩ hv
    exact hledger.hand_free hv List.mem_cons_self

/-- `kfree` of a page that is allocated, however the books are brought in order after it. -/
theorem books_kfree_of (v : Word)
    (hpage : ∀ fl, Ledger (PageAt e) fl h hand → PageAt e v ∧ v ∉ fl ∧ Ledger (PageAt e) (v :: fl) h' hand') :
    Triple (Books e k h hand) (kfree v) (fun _ => Books e k h' hand') Broken := by
  refine ⟨fun r hb => ?_⟩
  obtain ⟨hv, hfree, hledger⟩ := hpage _ hb.ledger
  have his : r.isPage v = true := isPage_iff.mpr (hb.kend.symm ▸ hv)
  have hrun : kfree v r = .ok () { r with
      freelist := v :: r.freelist
      mem := fun a => if (a - v).toNat < 4096 then 1 else r.mem a
      trace := .kfree v true :: r.trace } := by
    simp [kfree, emit, memset, his, hfree, Hoare.bind_ok (get_run r),
      Hoare.bind_ok (modify_run _ _), modify_run]
  rw [hrun]
  refine ⟨hledger, hb.kend, hb.kdata, ?_⟩
  intro w b hmem
  rcases List.mem_cons.mp hmem with heq | hmem
  · simp_all
  · exact hb.freed w b hmem

theorem books_kfree (o : Ω) (ho : h o = some v) (hle : ∀ o' w, h' o' = some w → h o' = some w ∧ o' ≠ o) :
    Triple (Books e k h hand) (kfree v) (fun _ => Books e k h' hand) Broken :=
  books_kfree_of v fun _ hl => ⟨hl.ok_held ho, hl.held_free ho, hl.give ho hle⟩

theorem books_kfree_hand (hv : v ∈ hand) :
    Triple (Books e k h hand) (kfree v) (fun _ => Books e k h (hand \ {v})) Broken :=
  books_kfree_of v fun _ hl => ⟨hl.ok_hand hv, hl.hand_free hv, hl.put hv⟩

/-! ## Walking and mapping -/

theorem holds_table {k : Nat} : d.holds (.table k) = some w ↔
    k < NPDENTRIES ∧ hasFlag (d.pde k) PTE_P ∧ P2V (pteAddr (d.pde k)) = w := by
  simp only [PgDir.holds]
  split <;> simp_all

theorem holds_user : d.holds (.user n) = some w ↔ d.userEntry n ∧ P2V (pteAddr (d.pte n)) = w := by
  simp only [PgDir.holds]
  split <;> simp_all

theorem userEntry_iff : d.userEntry n ↔ n < 2 ^ 20 ∧
    hasFlag (d.pde (n / NPDENTRIES)) PTE_P ∧ hasFlag (d.pte n) PTE_P ∧
    (n < 0x80000 ∨ hasFlag (d.pte n) PTE_U) := by
  simp [PgDir.userEntry, and_assoc]

theorem Books.page (hb : Books e k h hand r) (hv : v ∈ hand) : PageAt e v :=
  hb.ledger.ok_hand hv

theorem Books.store (hb : Books e k h (insert v hand) r)
    (hv : v ∉ hand) (o : Ω) (hle : ∀ o' w, h' o' = some w → (o' = o ∧ w = v) ∨ h o' = some w) :
    Books e k h' hand r := by
  refine Books.drop { hb with ledger := hb.ledger.store (Set.mem_insert v hand) o hle } ?_
  intro w hw
  refine ⟨Set.mem_insert_of_mem _ hw, ?_⟩
  rintro rfl
  exact hv hw

/-! In the next three, only the holdings of the directory that is worked on change. -/

section
variable {g g' : PgOwner → Option Word}
variable {r : Ram}

theorem Books.antiDir (hb : Books e k (Sum.elim h g) hand r)
    (hle : ∀ o w, g' o = some w → g o = some w) : Books e k (Sum.elim h g') hand r := by
  refine hb.anti ?_
  rintro (o | o) w ho
  · exact ho
  · exact hle o w ho

theorem Books.storeDir (hb : Books e k (Sum.elim h g) (insert v hand) r) (hv : v ∉ hand)
    (o : PgOwner) (hle : ∀ o' w, g' o' = some w → (o' = o ∧ w = v) ∨ g o' = some w) :
    Books e k (Sum.elim h g') hand r := by
  refine hb.store hv (.inr o) ?_
  rintro (o' | o') w ho
  · exact .inr ho
  · simpa using hle o' w ho

theorem books_kfreeDir (o : PgOwner) (ho : g o = some v)
    (hle : ∀ o' w, g' o' = some w → g o' = some w ∧ o' ≠ o) :
    Triple (Books e k (Sum.elim h g) hand) (kfree v) (fun _ => Books e k (Sum.elim h g') hand) Broken := by
  refine books_kfree (.inr o) ho ?_
  rintro (o' | o') w h1
  · exact ⟨h1, nofun⟩
  · simpa using hle o' w h1

end

variable {pgtab : Word}

theorem pteAddr_table (ha : Aligned pgtab) :
    pteAddr (V2P pgtab ||| PTE_P ||| PTE_W ||| PTE_U) = V2P pgtab := by
  rw [BitVec.or_assoc, BitVec.or_assoc]
  exact pteAddr_or (aligned_V2P.mpr ha) (by decide)

theorem holds_setTable {j : Nat} (ha : Aligned pgtab)
    (ho : (d.setTable j pgtab).holds o = some w) : (o = .table j ∧ w = pgtab) ∨ d.holds o = some w := by
  cases o with
  | dir => exact .inr ho
  | table k =>
    rw [holds_table] at ho ⊢
    by_cases hk : k = j
    · subst hk
      simp only [PgDir.setTable, Function.update_self, pteAddr_table ha, P2V_V2P] at ho
      exact .inl ⟨rfl, ho.2.2.symm⟩
    · simp only [PgDir.setTable, Function.update_of_ne hk] at ho
      exact .inr ho
  | user n =>
    rw [holds_user, userEntry_iff] at ho ⊢
    by_cases hn : n / NPDENTRIES = j
    · simp [PgDir.setTable, hn] at ho
    · simp only [PgDir.setTable, hn, if_false, Function.update_of_ne hn] at ho
      exact .inr ho

theorem books_walkpgdir (va : Word) :
    Triple (Books e k (Sum.elim h d.holds) hand) (walkpgdir d va)
      (fun o r => Books e k (Sum.elim h (o.getD d).holds) hand r) Broken := by
  unfold walkpgdir
  refine .ite (fun _ => .pure fun r hb => hb) fun _ => ?_
  refine .bindOption books_kalloc (.pre_and fun _ => .pure fun r hb => hb) fun pgtab => .pre_and fun ho => ?_
  refine .bind (books_memset _ _) fun _ => .pure fun r hb => ?_
  have ha : Aligned pgtab := (hb.page (Set.mem_insert _ _)).1
  exact hb.storeDir (ho _ rfl) (.table (pdx va)) fun _ _ hw => holds_setTable ha hw

/-- The directory after the entry at `n` was written: at `n` it may hold the page of the new entry, and
elsewhere what it held. -/
theorem holds_setPte {pte : Word} (ho : (d.setPte n pte).holds o = some w) :
    (o = .user n ∧ (d.setPte n pte).userEntry n ∧ w = P2V (pteAddr pte)) ∨
      (o ≠ .user n ∧ d.holds o = some w) := by
  cases o with
  | dir => exact .inr ⟨nofun, ho⟩
  | table k => exact .inr ⟨nofun, ho⟩
  | user m =>
    rw [holds_user] at ho
    by_cases hm : m = n
    · subst hm
      exact .inl ⟨rfl, ho.1, by simpa [PgDir.setPte] using ho.2.symm⟩
    · refine .inr ⟨by simpa using hm, ?_⟩
      rw [holds_user, userEntry_iff]
      simpa [userEntry_iff, PgDir.setPte, Function.update_of_ne hm] using ho

theorem books_mappagesLoop_page (va : Word) (hmem : mem ∉ hand) (hperm : LowBits perm) :
    Triple (Books e k (Sum.elim h d.holds) (insert mem hand)) (mappagesLoop perm 0 d va (V2P mem))
      (fun r => Books e k (Sum.elim h r.2.holds) (if r.1 then hand else insert mem hand))
      Broken := by
  unfold mappagesLoop
  refine .bind (books_walkpgdir va) fun o => ?_
  cases o with
  | none => exact .pure fun r hb => hb
  | some d' =>
    refine .check (fun r hb => hb.broken _) fun _ => .pure fun r hb => ?_
    have hpa : Aligned (V2P mem) := aligned_V2P.mpr (hb.page (Set.mem_insert _ _)).1
    refine hb.storeDir hmem (.user (vpn va)) fun o w ho => ?_
    rcases holds_setPte ho with ⟨rfl, -, rfl⟩ | ⟨-, ho⟩
    · exact .inl ⟨rfl, by rw [pteAddr_entry hpa hperm, P2V_V2P]⟩
    · exact .inr ho

variable {pa : Word}

theorem mappages_page {va : Word} (hva : Aligned va) :
    mappages d va PGSIZE pa perm = mappagesLoop perm 0 d va pa := by
  simp only [mappages, pgRoundDown_of_aligned hva, pgRoundDown_last hva, sub_self]
  rfl

theorem Books.kernelEntry (hb : Books e k (Sum.elim h d.holds) hand r) (hn : 0x80000 ≤ n) (hpa : Aligned pa)
    (hperm : hasFlag perm PTE_U = false) :
    Books e k (Sum.elim h (d.setPte n (pa ||| perm ||| PTE_P)).holds) hand r := by
  refine hb.antiDir fun o w ho => ?_
  rcases holds_setPte ho with ⟨-, hu, -⟩ | ⟨-, ho⟩
  · have hflag : hasFlag (pa ||| perm ||| PTE_P) PTE_U = false := by
      rw [BitVec.or_assoc, hasFlag_or_aligned hpa (by decide)]
      simpa [hasFlag, BitVec.and_or_distrib_right, PTE_P, PTE_U] using hperm
    simp [userEntry_iff, PgDir.setPte, hflag] at hu
    omega
  · exact ho

/-- The loop of `mappages` over kernel addresses takes pages for page tables and nothing else. -/
theorem books_mappagesLoop_kernel (hperm : hasFlag perm PTE_U = false) (n : Nat)
    (a pa : Word) (ha : 0x80000 ≤ vpn a) (hn : vpn a + n < 2 ^ 20) (hpa : Aligned pa) :
    Triple (Books e k (Sum.elim h d.holds) hand) (mappagesLoop perm n d a pa)
      (fun r => Books e k (Sum.elim h r.2.holds) hand) Broken := by
  refine (mappagesLoop_rule (I := fun _ d' => Books e k (Sum.elim h d'.holds) hand)
    (F := fun d' => Books e k (Sum.elim h d'.holds) hand) n fun i hi d' b hb => ?_).post ?_
  · refine (books_walkpgdir b).post fun o r hr => ?_
    cases o with
    | none => exact hr
    | some d₁ =>
      rw [Option.elim_some]
      split
      next => exact hr.broken _
      next => exact hr.kernelEntry (by rw [hb (by omega)]; omega) (aligned_add_pages hpa i) hperm
  · intro x r hr
    rwa [ite_self] at hr

/-! ## Taking a directory down -/

theorem books_freePage (hn : n < 0x80000) : Triple (Books e k (Sum.elim h d.holds) hand) (freePage d n)
    (fun d' r => Books e k (Sum.elim h d'.holds) hand r ∧ d'.page = d.page ∧ d'.pde = d.pde)
    Broken := by
  unfold freePage
  cases hentry : d.entry n with
  | none => exact .pure fun r hb => ⟨hb, rfl, rfl⟩
  | some pte =>
    obtain ⟨⟨hlt, hpde, hpte⟩, rfl⟩ := entry_eq_some.mp hentry
    have hheld : d.holds (.user n) = some (P2V (pteAddr (d.pte n))) := by
      rw [holds_user, userEntry_iff]
      exact ⟨⟨hlt, hpde, hpte, .inl hn⟩, rfl⟩
    refine .check (fun r hb => hb.broken _) fun _ => ?_
    refine .bind (books_kfreeDir _ hheld fun o w ho => ?_) fun _ => .pure fun r hb => ⟨hb, rfl, rfl⟩
    rcases holds_setPte ho with ⟨-, hu, -⟩ | ⟨hne, ho⟩
    · simp [userEntry_iff, PgDir.setPte] at hu
    · exact ⟨ho, hne⟩

/-- What is left of a directory in `freevm` when the page tables `l` are still to be freed. -/
def PgDir.tables (d : PgDir) (l : List Nat) : PgOwner → Option Word
  | .dir => some d.page
  | .table j => if j ∈ l then d.holds (.table j) else none
  | .user _ => none

theorem books_freeTables (l : List Nat) (hl : l.Nodup) (hlt : ∀ j ∈ l, j < NPDENTRIES) :
    Triple (Books e k (Sum.elim h (d.tables l)) hand) (freeTables d l)
      (fun _ => Books e k (Sum.elim h (d.tables [])) hand) Broken := by
  induction l with
  | nil => exact .pure fun r hb => hb
  | cons j l ih =>
    obtain ⟨hj, hl⟩ := List.nodup_cons.mp hl
    refine .bind (m := if hasFlag (d.pde j) PTE_P then _ else _) ?_ fun _ =>
      ih hl fun i hi => hlt i (List.mem_cons_of_mem _ hi)
    have hrest : ∀ o w, d.tables l o = some w → d.tables (j :: l) o = some w ∧ o ≠ .table j := by
      rintro (_ | i | n) w ho
      · exact ⟨ho, nofun⟩
      · simp only [PgDir.tables] at ho ⊢
        split at ho
        next hi =>
          refine ⟨by rwa [if_pos (List.mem_cons_of_mem _ hi)], ?_⟩
          rintro ⟨⟩
          exact hj hi
        next => cases ho
      · cases ho
    refine .ite (fun hpde => books_kfreeDir (.table j) ?_ hrest) fun _ =>
      .pure fun r hb => hb.antiDir fun o w ho => (hrest o w ho).1
    simp [PgDir.tables, holds_table, hpde, hlt j List.mem_cons_self]

theorem books_freevm :
    Triple (Books e k (Sum.elim h d.holds) hand) (freevm d) (fun _ => Books e k h hand) Broken := by
  unfold freevm
  refine .check (fun r hb => hb.broken _) fun _ => ?_
  have hdealloc : Triple (Books e k (Sum.elim h d.holds) hand) (deallocuvm d KERNBASE 0)
      (fun x r => Books e k (Sum.elim h x.2.holds) hand r ∧ x.2.page = d.page ∧ x.2.pde = d.pde)
      Broken := by
    unfold deallocuvm
    refine .ite (fun _ => .pure fun r hb => ⟨hb, rfl, rfl⟩) fun _ => ?_
    rw [deallocuvmLoop_eq (show KERNBASE.toNat ≤ 2 ^ 31 by decide) _ (aligned_pgRoundUp 0) (by omega)]
    refine .bind ((freePages_rule (I := fun _ d' r => Books e k (Sum.elim h d'.holds) hand r ∧
      d'.page = d.page ∧ d'.pde = d.pde) _ fun j _ hj d' => ?_).pre fun r hb => ⟨hb, rfl, rfl⟩) fun d' =>
      .pure fun r hb => hb
    refine .pre_and fun hd' => (books_freePage ?_).post fun d₁ r hb => ?_
    · rw [pages_kernbase] at hj
      omega
    · exact ⟨hb.1, hb.2.1.trans hd'.1, hb.2.2.trans hd'.2⟩
  refine .bind hdealloc fun x => .pre_and fun hx => ?_
  have htables : ∀ r, Books e k (Sum.elim h x.2.holds) hand r →
      Books e k (Sum.elim h (x.2.tables (List.range NPDENTRIES))) hand r := by
    intro r hb
    refine hb.antiDir ?_
    rintro (_ | i | n) w ho
    · exact ho
    · simp only [PgDir.tables] at ho
      split at ho
      next => exact ho
      next => cases ho
    · cases ho
  refine .bind ((books_freeTables _ List.nodup_range
    fun j hj => List.mem_range.mp hj).pre htables) fun _ => ?_
  have hfree : Triple (Books e k (Sum.elim h (x.2.tables [])) hand) (kfree d.page)
      (fun _ => Books e k (Sum.elim h fun _ => none) hand) Broken :=
    books_kfreeDir .dir (congrArg some hx.1) nofun
  exact hfree.post fun _ r hb => Books.sum_none.mp hb

/-! ## Making a directory -/

/-- Where `kernel.ld` puts `data`: on a page of its own, after the kernel's text and inside physical
memory. -/
structure Linked (k : Word) : Prop where
  aligned : Aligned k
  above : KERNLINK.toNat < k.toNat
  below : k.toNat < (P2V PHYSTOP).toNat

/-- A row of `kmap` that stays in the kernel half. -/
structure KernelRow (m : Kmap) : Prop where
  phys : Aligned m.physStart
  above : 0x80000 ≤ vpn (pgRoundDown m.virt)
  below : vpn (pgRoundDown m.virt) +
    vpn (pgRoundDown (m.virt + (m.physEnd - m.physStart) - 1) - pgRoundDown m.virt) < 2 ^ 20
  perm : hasFlag m.perm PTE_U = false

theorem kernelRow {virt physStart physEnd : Word} (hphys : Aligned physStart)
    (habove : 0x80000 ≤ vpn virt) (hs : 0 < (physEnd - physStart).toNat)
    (hend : virt.toNat + (physEnd - physStart).toNat ≤ 2 ^ 32) (hperm : hasFlag perm PTE_U = false) :
    KernelRow ⟨virt, physStart, physEnd, perm⟩ :=
  ⟨hphys, by rwa [vpn_pgRoundDown], by rw [vpn_pgRoundDown, vpn_last_sub hs hend]; omega, hperm⟩

/-- The sizes of the two rows of `kmap` that meet at `data`. -/
theorem Linked.sizes (hk : Linked k) : (V2P k - V2P KERNLINK).toNat = k.toNat - 0x80100000 ∧
    (PHYSTOP - V2P k).toNat = 0x8E000000 - k.toNat := by
  have hk1 : 0x80100000 < k.toNat := hk.above
  have hk2 : k.toNat < 0x8E000000 := hk.below
  have hv2p : (V2P k).toNat = k.toNat - 0x80000000 := by
    rw [V2P, BitVec.toNat_sub_of_le (by rw [BitVec.le_def]; show 0x80000000 ≤ _; omega)]
    rfl
  have hlink : (V2P KERNLINK).toNat = 0x100000 := by decide
  have htop : PHYSTOP.toNat = 0xE000000 := by decide
  constructor <;> rw [BitVec.toNat_sub_of_le (by rw [BitVec.le_def]; omega)] <;> omega

theorem kernelRow_kmap (hk : Linked k) : ∀ m ∈ kmap k, KernelRow m := by
  have hk1 : 0x80100000 < k.toNat := hk.above
  have hk2 : k.toNat < 0x8E000000 := hk.below
  obtain ⟨hsz2, hsz3⟩ := hk.sizes
  intro m hm
  simp only [kmap, List.mem_cons, List.not_mem_nil, or_false] at hm
  rcases hm with rfl | rfl | rfl | rfl
  · exact kernelRow (by decide) (by decide) (by decide) (by decide) (by decide)
  · have hvirt : KERNLINK.toNat = 0x80100000 := by decide
    exact kernelRow (by decide) (by decide) (by omega) (by omega) (by decide)
  · have hup : 0x80000 ≤ vpn k := by
      unfold vpn
      omega
    exact kernelRow (aligned_V2P.mpr hk.aligned) hup (by omega) (by omega) (by decide)
  · exact kernelRow (by decide) (by decide) (by decide) (by decide) (by decide)

/-- What a function that returns a directory or fails holds in the end. -/
def PgDir.holdsOpt (o : Option PgDir) : PgOwner → Option Word := o.elim (fun _ => none) PgDir.holds

theorem books_setupkvmLoop (l : List Kmap) (hl : ∀ m ∈ l, KernelRow m) :
    Triple (Books e k (Sum.elim h d.holds) hand) (setupkvmLoop l d)
      (fun o => Books e k (Sum.elim h (PgDir.holdsOpt o)) hand) Broken := by
  induction l generalizing d with
  | nil => exact .pure fun r hb => hb
  | cons m l ih =>
    have hm := hl m List.mem_cons_self
    unfold setupkvmLoop
    refine .bind (books_mappagesLoop_kernel hm.perm _ _ _ hm.above hm.below hm.phys) fun x => ?_
    refine .ite (fun _ => ih fun m' hm' => hl m' (List.mem_cons_of_mem _ hm')) fun _ => ?_
    exact .bind books_freevm fun _ => .pure fun r hb => Books.sum_none.mpr hb

theorem holds_empty {pgdir : Word}
    (ho : PgDir.holds { PgDir.null with page := pgdir } o = some w) : o = .dir ∧ w = pgdir := by
  cases o with
  | dir =>
    cases ho
    exact ⟨rfl, rfl⟩
  | table k => simp [holds_table, PgDir.null] at ho
  | user n => simp [holds_user, userEntry_iff, PgDir.null] at ho

theorem books_setupkvm (hk : Linked k) :
    Triple (Books e k h hand) setupkvm (fun o => Books e k (Sum.elim h (PgDir.holdsOpt o)) hand) Broken := by
  unfold setupkvm
  refine .bindOption books_kalloc (.pre_and fun _ => .pure fun r hb => Books.sum_none.mpr hb)
    fun pgdir => .pre_and fun ho => ?_
  refine .bind (books_memset _ _) fun _ => ?_
  refine .check (fun r hb => hb.broken _) fun _ => .get fun r hb => ?_
  have hrow : ∀ m ∈ kmap r.kdata, KernelRow m := by
    rw [hb.kdata]
    exact kernelRow_kmap hk
  refine (books_setupkvmLoop _ hrow).pre ?_
  rintro _ rfl
  refine (Books.sum_none.mpr hb).storeDir (ho _ rfl) .dir fun o w hw => ?_
  exact .inl (holds_empty hw)

theorem books_copyuvmLoop (pgdir : PgDir) (n : Nat) (i : Word) (hi : Aligned i) :
    Triple (Books e k (Sum.elim h d.holds) hand) (copyuvmLoop pgdir n i d)
      (fun o => Books e k (Sum.elim h (PgDir.holdsOpt o)) hand) Broken := by
  induction n generalizing d i with
  | zero => exact .pure fun r hb => hb
  | succ n ih =>
    unfold copyuvmLoop
    cases pgdir.walk i with
    | none => exact .throw fun r hb => hb.broken _
    | some pte =>
      refine .check (fun r hb => hb.broken _) fun _ => ?_
      refine .bindOption books_kalloc
        (.pre_and fun _ => .bind books_freevm fun _ => .pure fun r hb => Books.sum_none.mpr hb) fun mem =>
          .pre_and fun ho => ?_
      refine .bind (books_memmove _ _) fun _ => ?_
      rw [mappages_page hi]
      refine .bind (books_mappagesLoop_page i (ho _ rfl) (lowBits_pteFlags pte)) fun x => ?_
      refine .ite (fun hx => ?_) fun hx => ?_
      · refine (ih (i + PGSIZE) (aligned_add_page hi)).pre fun r hb => ?_
        rwa [if_pos hx] at hb
      · have hmem : mem ∈ insert mem hand := Set.mem_insert _ _
        refine .bind ((books_kfree_hand hmem).pre fun r hb => by rwa [if_neg hx] at hb) fun _ => ?_
        refine .bind books_freevm fun _ => .pure fun r hb => Books.sum_none.mpr (hb.drop ?_)
        intro w hw
        refine ⟨Set.mem_insert_of_mem _ hw, ?_⟩
        rintro rfl
        exact ho _ rfl hw

/-- `copyuvm` either makes a directory out of free pages or leaves everything as it was. -/
theorem books_copyuvm (hk : Linked k) (pgdir : PgDir) (sz : Word) :
    Triple (Books e k h hand) (copyuvm pgdir sz)
      (fun o => Books e k (Sum.elim h (PgDir.holdsOpt o)) hand) Broken := by
  unfold copyuvm
  refine .bindOption (books_setupkvm hk) (.pure fun r hb => hb) fun d => ?_
  exact books_copyuvmLoop pgdir _ 0 (by decide)

end Xv6

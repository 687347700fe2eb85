import Xv6.Exec
import Xv6.FirstTouch

/-!
# Address spaces

An address space is a partial map from page numbers to the entries that the hardware uses (`PgDir.entry`).
Its pages come from a `Pool`. `Stock` says that no page of the pool is lost or has two uses and that no other
memory has been written, and `Space` adds what user code sees. The functions of `vm.c` are described by what
they do to the map and to what is seen; none stops when it works on pages of its own.
-/

namespace Xv6

open Function (update update_self update_of_ne update_comm update_idem update_eq_self_iff)
open Hoare

variable {d : PgDir} {n : Nat} {a v w : Word}
variable {pte perm pa oldsz newsz : Word} {o : PgOwner} {lo hi : Nat} {d' : PgDir}

/-- The page behind an entry for page number `n`, unless it is one of the kernel's own. -/
def userPage (n : Nat) (pte : Word) : Option Word :=
  if n < 0x80000 ∨ hasFlag pte PTE_U then some (P2V (pteAddr pte)) else none

theorem holds_user_entry : d.holds (.user n) = (d.entry n).bind (userPage n) := by
  by_cases h : n < 2 ^ 20 ∧ hasFlag (d.pde (n / NPDENTRIES)) PTE_P ∧ hasFlag (d.pte n) PTE_P
  · have huser : d.userEntry n ↔ n < 0x80000 ∨ hasFlag (d.pte n) PTE_U := by
      rw [userEntry_iff]
      exact ⟨fun hu => hu.2.2.2, fun hu => ⟨h.1, h.2.1, h.2.2, hu⟩⟩
    rw [PgDir.entry, if_pos h, Option.bind_some, userPage, PgDir.holds]
    simp only [huser]
  · have huser : ¬ d.userEntry n := by
      rw [userEntry_iff]
      exact fun hu => h ⟨hu.1, hu.2.1, hu.2.2.1⟩
    rw [entry_eq_none.mpr h, PgDir.holds, if_neg huser]
    rfl

theorem holds_user_of_entry (h : d.entry n = some pte) (hv : userPage n pte = some v) :
    d.holds (.user n) = some v := by
  rw [holds_user_entry, h]
  exact hv

variable {pg : Word}

theorem holds_setTable_eq {k : Nat} (hlt : k < NPDENTRIES)
    (hk : hasFlag (d.pde k) PTE_P = false) (ha : Aligned pg) :
    (d.setTable k pg).holds = update d.holds (.table k) (some pg) := by
  funext o
  cases o with
  | dir => rfl
  | table j =>
    by_cases hj : j = k
    · subst hj
      rw [update_self, holds_table, PgDir.setTable_pde, if_pos rfl]
      exact ⟨hlt, PgDir.hasFlag_table pg, by rw [pteAddr_table ha, P2V_V2P]⟩
    · rw [update_of_ne (by simpa using hj), PgDir.holds, PgDir.holds, PgDir.setTable_pde, if_neg hj]
  | user m =>
    rw [update_of_ne (by simp), holds_user_entry, holds_user_entry, entry_setTable hk]

theorem holds_setPte_eq {e : Option Word} (he : (d.setPte n pte).entry = update d.entry n e) :
    (d.setPte n pte).holds = update d.holds (.user n) (e.bind (userPage n)) := by
  funext o
  cases o with
  | dir => rfl
  | table j => rfl
  | user m =>
    rw [holds_user_entry, he]
    by_cases hm : m = n
    · subst hm
      rw [update_self, update_self]
    · rw [update_of_ne hm, update_of_ne (by simpa using hm), holds_user_entry]

/-! ## Pages of one's own -/

/-- A stock of pages, and what memory held at the start. -/
structure Pool where
  kend : Word
  kdata : Word
  ok : Word → Prop
  mem : Word → Byte
  pages : ∀ {v}, ok v → PageAt kend v
  /-- The kernel takes the first pages of physical memory for itself. -/
  above : KERNBASE.toNat < kend.toNat

/-- The pages of the pool are free, in the hand of the program, or held under `g`; no other memory was
written; and user code sees `img`. -/
structure Stock (P : Pool) (img : Word → Byte) (g : PgOwner → Option Word) (hand : Set Word) (r : Ram) :
    Prop where
  books : FullLedger P.ok r.freelist g hand
  mem : ∀ a, (∀ v, P.ok v → a ∉ pageRange v) → r.mem a = P.mem a
  kend : r.kend = P.kend
  kdata : r.kdata = P.kdata
  shows : ∀ a v, g (.user (vpn a)) = some v → r.mem (v + (a &&& 0xFFF#32)) = img a

variable {P : Pool} {img : Word → Byte} {g : PgOwner → Option Word} {hand : Set Word} {r : Ram}
  {E : Stop → Ram → Prop}

theorem mem_pageRange_low (v a : Word) : v + (a &&& 0xFFF#32) ∈ pageRange v := by
  rw [mem_pageRange, add_sub_cancel_left, toNat_and_low]
  omega

theorem disjoint_of_aligned (hv : Aligned v) (hw : Aligned w) (hne : v ≠ w) :
    Disjoint (pageRange v) (pageRange w) := by
  rw [aligned_iff] at hv hw
  have hnat : v.toNat ≠ w.toNat := fun h => hne (BitVec.toNat_inj.mp h)
  rw [disjoint_pageRange, BitVec.toNat_sub, BitVec.toNat_sub]
  omega

variable {g' : PgOwner → Option Word} {hand' : Set Word}

/-- A step of the books in which only the page `u` is written to, which user code does not see. -/
theorem Stock.next {r' : Ram} {u : Word}
    (h : Stock P img g hand r) (hb : FullLedger P.ok r'.freelist g' hand') (hu : P.ok u)
    (hmem : ∀ a, a ∉ pageRange u → r'.mem a = r.mem a) (hkend : r'.kend = r.kend)
    (hkdata : r'.kdata = r.kdata) (hg : ∀ n v, g' (.user n) = some v → g (.user n) = some v ∧ v ≠ u) :
    Stock P img g' hand' r' where
  books := hb
  mem a ha := by rw [hmem a (ha u hu), h.mem a ha]
  kend := hkend.trans h.kend
  kdata := hkdata.trans h.kdata
  shows a v hv := by
    obtain ⟨hv, hne⟩ := hg _ _ hv
    have hapart := disjoint_of_aligned (P.pages (h.books.ok_held hv)).1 (P.pages hu).1 hne
    rw [hmem _ (Set.disjoint_left.mp hapart (mem_pageRange_low v a)), h.shows a v hv]

theorem Stock.congr {img' : Word → Byte} (h : Stock P img g hand r)
    (himg : ∀ a, g (.user (vpn a)) ≠ none → img' a = img a) : Stock P img' g hand r :=
  { h with shows := fun a v hv => by rw [h.shows a v hv, himg a (by simp [hv])] }

theorem translate_of_holds (h : d.holds (.user (vpn a)) = some v) : d.translate a = v + (a &&& 0xFFF#32) := by
  rw [holds_user_entry] at h
  obtain ⟨pte, hentry, hv⟩ := Option.bind_eq_some_iff.mp h
  rw [translate_entry hentry]
  unfold userPage at hv
  split at hv
  · rw [Option.some.inj hv]
  · cases hv

theorem stock_reads (h : Stock P img d.holds hand r) (ha : vpn a < 0x80000)
    (he : d.entry (vpn a) ≠ none) : r.mem (d.translate a) = img a := by
  obtain ⟨pte, hentry⟩ := Option.ne_none_iff_exists'.mp he
  have hheld := holds_user_of_entry hentry (if_pos (.inl ha))
  rw [translate_of_holds hheld, h.shows a _ hheld]

/-- The free pages and those of the directory. -/
def dirPool (h : Ledger (PageAt r.kend) r.freelist d.holds ∅) (habove : KERNBASE.toNat < r.kend.toNat) :
    Pool where
  kend := r.kend
  kdata := r.kdata
  ok v := v ∈ r.freelist ∨ ∃ o, d.holds o = some v
  mem := r.mem
  pages := by
    rintro v (hv | ⟨o, hv⟩)
    · exact h.ok_free hv
    · exact h.ok_held hv
  above := habove

theorem stock_dirPool (h : Ledger (PageAt r.kend) r.freelist d.holds ∅)
    (habove : KERNBASE.toNat < r.kend.toNat) :
    Stock (dirPool h habove) (fun a => r.mem (d.translate a)) d.holds ∅ r where
  books :=
    { nodup := h.nodup
      inj := h.inj
      held_free := h.held_free
      held_hand := h.held_hand
      hand_free := h.hand_free
      ok_free := Or.inl
      ok_held := fun {o _} ho => .inr ⟨o, ho⟩
      ok_hand := fun hv => absurd hv (Set.notMem_empty _)
      all := fun hv => hv.imp_right .inr }
  mem _ _ := rfl
  kend := rfl
  kdata := rfl
  shows a v hv := by rw [translate_of_holds hv]

/-- The free pages alone. -/
def freePool (hpages : ∀ v ∈ r.freelist, PageAt r.kend v) (habove : KERNBASE.toNat < r.kend.toNat) :
    Pool where
  kend := r.kend
  kdata := r.kdata
  ok v := v ∈ r.freelist
  mem := r.mem
  pages := fun {v} hv => hpages v hv
  above := habove

theorem stock_freePool (hnodup : r.freelist.Nodup) (hpages : ∀ v ∈ r.freelist, PageAt r.kend v)
    (habove : KERNBASE.toNat < r.kend.toNat) :
    Stock (freePool hpages habove) img (fun _ => none) ∅ r where
  books :=
    { nodup := hnodup
      inj := nofun
      held_free := nofun
      held_hand := nofun
      hand_free := fun hv => absurd hv (Set.notMem_empty _)
      ok_free := id
      ok_held := nofun
      ok_hand := fun hv => absurd hv (Set.notMem_empty _)
      all := .inl }
  mem _ _ := rfl
  kend := rfl
  kdata := rfl
  shows := nofun

/-! ## `kalloc.c` -/

theorem stock_kalloc : Triple (Stock P img g hand) kalloc
    (fun o r => Stock P img g (taken hand o) r ∧ ∀ v, o = some v → v ∉ hand ∧ P.ok v) E := by
  refine ⟨fun r hr => ?_⟩
  unfold kalloc
  cases hfl : r.freelist with
  | nil => exact ⟨hr, nofun⟩
  | cons v fl =>
    have hb := hr.books
    rw [hfl] at hb
    refine ⟨⟨hb.take, hr.mem, hr.kend, hr.kdata, hr.shows⟩, ?_⟩
    rintro _ ⟨⟩
    exact ⟨fun hv => hb.hand_free hv List.mem_cons_self, hb.ok_free List.mem_cons_self⟩

theorem stock_memset (hv : v ∈ hand) (c : Byte) :
    Triple (Stock P img g hand) (memset v c)
      (fun _ r => Stock P img g hand r ∧ ∀ a ∈ pageRange v, r.mem a = c) E := by
  refine .modify fun r hr => ⟨hr.next (u := v) hr.books (hr.books.ok_hand hv) (fun a ha => if_neg ha)
    rfl rfl fun n w hw => ⟨hw, ?_⟩, fun a ha => if_pos ha⟩
  rintro rfl
  exact hr.books.held_hand hw hv

theorem stock_kfree_of (hv : ∀ fl, FullLedger P.ok fl g hand → P.ok v ∧ FullLedger P.ok (v :: fl) g' hand')
    (hg : ∀ n w, g' (.user n) = some w → g (.user n) = some w) :
    Triple (Stock P img g hand) (kfree v) (fun _ => Stock P img g' hand') E := by
  refine ⟨fun r hr => ?_⟩
  obtain ⟨hok, hbooks⟩ := hv _ hr.books
  have his : r.isPage v = true := isPage_iff.mpr (hr.kend.symm ▸ P.pages hok)
  have hrun : kfree v r = .ok () { r with
      freelist := v :: r.freelist
      mem := fun a => if (a - v).toNat < 4096 then 1 else r.mem a
      trace := .kfree v (!r.freelist.contains v) :: r.trace } := by
    simp [kfree, emit, memset, his, Hoare.bind_ok (get_run r),
      Hoare.bind_ok (modify_run _ _), modify_run]
  rw [hrun]
  refine hr.next (u := v) hbooks hok (fun a ha => if_neg ha) rfl rfl fun n w hw => ⟨hg n w hw, ?_⟩
  rintro rfl
  exact hbooks.held_free hw List.mem_cons_self

theorem stock_kfree_hand (hv : v ∈ hand) :
    Triple (Stock P img g hand) (kfree v) (fun _ => Stock P img g (hand \ {v})) E :=
  stock_kfree_of (fun _ hb => ⟨hb.ok_hand hv, hb.put hv⟩) fun _ _ hw => hw

theorem stock_kfree (ho : g o = some v) :
    Triple (Stock P img g hand) (kfree v) (fun _ => Stock P img (update g o none) hand) E := by
  refine stock_kfree_of (fun _ hb => ⟨hb.ok_held ho, hb.give ho⟩) fun n w hw => ?_
  by_cases hn : PgOwner.user n = o
  · rw [hn, update_self] at hw
    cases hw
  · rwa [update_of_ne hn] at hw

/-! ## Taking and giving back under a name -/

theorem Stock.store (h : Stock P img g (insert v hand) r) (hv : v ∉ hand)
    (ho : g o = none) (hkernel : ∀ n, o ≠ .user n) : Stock P img (update g o (some v)) hand r := by
  have hb := h.books.store (Set.mem_insert v hand) ho
  rw [Set.insert_sdiff_self_of_notMem hv] at hb
  refine ⟨hb, h.mem, h.kend, h.kdata, fun a w hw => h.shows a w ?_⟩
  rwa [update_of_ne (hkernel _).symm] at hw

/-- Zeros in the pages from `lo` up to `hi`. -/
def blank (img : Word → Byte) (lo hi : Nat) : Word → Byte :=
  fun a => if lo ≤ vpn a ∧ vpn a < hi then 0 else img a

theorem blank_of_not (h : ¬ (lo ≤ vpn a ∧ vpn a < hi)) : blank img lo hi a = img a :=
  if_neg h

theorem blank_of_le (h : hi ≤ lo) : blank img lo hi = img := by
  funext a
  exact blank_of_not (by omega)

theorem blank_blank (hlt : lo < hi) : blank (blank img lo (lo + 1)) (lo + 1) hi = blank img lo hi := by
  funext a
  unfold blank
  by_cases ha : lo ≤ vpn a ∧ vpn a < hi
  · rw [if_pos ha]
    by_cases hr : lo + 1 ≤ vpn a ∧ vpn a < hi
    · rw [if_pos hr]
    · rw [if_neg hr, if_pos (by omega)]
  · rw [if_neg ha, if_neg (by omega), if_neg (by omega)]

theorem Stock.storeUser {n : Nat} (h : Stock P img g (insert v hand) r) (hv : v ∉ hand)
    (ho : g (.user n) = none) (hzero : ∀ a ∈ pageRange v, r.mem a = 0) :
    Stock P (blank img n (n + 1)) (update g (.user n) (some v)) hand r := by
  have hb := h.books.store (Set.mem_insert v hand) ho
  rw [Set.insert_sdiff_self_of_notMem hv] at hb
  refine ⟨hb, h.mem, h.kend, h.kdata, fun a w hw => ?_⟩
  by_cases hn : vpn a = n
  · subst hn
    rw [update_self] at hw
    obtain rfl := Option.some.inj hw
    rw [blank, if_pos ⟨le_rfl, Nat.lt_succ_self _⟩]
    exact hzero _ (mem_pageRange_low _ a)
  · rw [update_of_ne (by simpa using hn)] at hw
    rw [blank_of_not (by omega)]
    exact h.shows a w hw

theorem Stock.fetch (h : Stock P img g hand r) (ho : g o = some v) :
    Stock P img (update g o none) (insert v hand) r := by
  refine ⟨h.books.fetch ho, h.mem, h.kend, h.kdata, fun a w hw => h.shows a w ?_⟩
  by_cases hn : PgOwner.user (vpn a) = o
  · rw [hn, update_self] at hw
    cases hw
  · rwa [update_of_ne hn] at hw

/-! ## Mapping pages -/

theorem pdx_lt (a : Word) : pdx a < NPDENTRIES := by
  have := a.isLt
  unfold pdx NPDENTRIES
  omega

/-- What the directory holds, together with a page that is booked for user code under its page number
before the entry is written. -/
def PgDir.booked (d : PgDir) : Option (Nat × Word) → PgOwner → Option Word
  | none => d.holds
  | some (n, v) => update d.holds (.user n) (some v)

theorem booked_table (u : Option (Nat × Word)) (k : Nat) : d.booked u (.table k) = d.holds (.table k) := by
  rcases u with _ | ⟨n, v⟩
  · rfl
  · have hne : PgOwner.table k ≠ .user n := nofun
    exact update_of_ne hne _ _

theorem booked_setTable {k : Nat} (u : Option (Nat × Word)) (hlt : k < NPDENTRIES)
    (hk : hasFlag (d.pde k) PTE_P = false) (ha : Aligned pg) :
    (d.setTable k pg).booked u = update (d.booked u) (.table k) (some pg) := by
  rcases u with _ | ⟨n, v⟩
  · exact holds_setTable_eq hlt hk ha
  · rw [PgDir.booked, PgDir.booked, holds_setTable_eq hlt hk ha, update_comm (by simp)]

theorem stock_walkpgdir (u : Option (Nat × Word)) (va : Word) :
    Triple (Stock P img (d.booked u) hand) (walkpgdir d va) (fun o r =>
      Stock P img ((o.getD d).booked u) hand r ∧ ∀ d', o = some d' → d'.entry = d.entry ∧
        d'.page = d.page ∧ hasFlag (d'.pde (pdx va)) PTE_P) E := by
  refine .ite (fun hp => .pure fun r hr => ⟨hr, ?_⟩) fun hp => ?_
  · rintro _ ⟨⟩
    exact ⟨rfl, rfl, hp⟩
  have hpde : hasFlag (d.pde (pdx va)) PTE_P = false := by simpa using hp
  refine .bindOption stock_kalloc (.pre_and fun _ => .pure fun r hr => ⟨hr, nofun⟩)
    fun pg => .pre_and fun ho => ?_
  refine .bind (stock_memset (Set.mem_insert pg hand) 0) fun _ => .pure fun r hr => ⟨?_, ?_⟩
  · have ha := (P.pages (ho pg rfl).2).1
    show Stock P img ((d.setTable (pdx va) pg).booked u) hand r
    rw [booked_setTable u (pdx_lt va) hpde ha]
    refine hr.1.store (ho pg rfl).1 ?_ nofun
    rw [booked_table, PgDir.holds, if_neg fun h => hp h.2]
  · rintro _ ⟨⟩
    refine ⟨entry_setTable hpde pg, rfl, ?_⟩
    rw [PgDir.setTable_pde, if_pos rfl]
    exact PgDir.hasFlag_table pg

theorem userPage_entry (hn : n < 0x80000) (ha : Aligned v) (hperm : LowBits perm) :
    userPage n (V2P v ||| perm ||| PTE_P) = some v := by
  rw [userPage, if_pos (.inl hn), pteAddr_entry (aligned_V2P.mpr ha) hperm, P2V_V2P]

variable {mem : Word}

theorem stock_mapUser (hn : vpn a < 0x80000) (hnone : d.entry (vpn a) = none) (hperm : LowBits perm) :
    Triple (Stock P img (d.booked (some (vpn a, mem))) hand) (mappagesLoop perm 0 d a (V2P mem))
      (fun x r => Stock P img x.2.holds (if x.1 then hand else insert mem hand) r ∧ x.2.page = d.page ∧
        x.2.entry = if x.1 then update d.entry (vpn a) (some (V2P mem ||| perm ||| PTE_P))
          else d.entry) E := by
  unfold mappagesLoop
  refine .bind (stock_walkpgdir _ a) fun o => .pre_and fun ho => ?_
  cases o with
  | none =>
    refine .pure fun r hr => ⟨?_, rfl, rfl⟩
    have hback := hr.fetch (o := .user (vpn a)) (update_self _ _ _)
    rwa [Option.getD_none, PgDir.booked, update_idem, update_eq_self_iff.mpr] at hback
    rw [holds_user_entry, hnone]
    rfl
  | some d' =>
    obtain ⟨hentry, hpage, hpde⟩ := ho d' rfl
    refine .ite (fun hp => absurd hp (not_present hpde (by rw [hentry, hnone]))) fun _ => .pure ?_
    intro r hr
    have hok := hr.books.ok_held (o := .user (vpn a)) (update_self _ _ _)
    refine ⟨?_, hpage, ?_⟩
    · rw [holds_setPte_eq (entry_map hpde), Option.bind_some, userPage_entry hn (P.pages hok).1 hperm]
      exact hr
    · rw [if_pos rfl, entry_map hpde, hentry]

/-! ## The kernel's part -/

/-- Only the kernel has pages here. -/
def PgDir.Bare (d : PgDir) : Prop :=
  ∀ n pte, d.entry n = some pte → 0x80000 ≤ n ∧ hasFlag pte PTE_U = false

theorem PgDir.Bare.holds_user (h : d.Bare) (n : Nat) : d.holds (.user n) = none := by
  rw [holds_user_entry]
  cases he : d.entry n with
  | none => rfl
  | some pte =>
    obtain ⟨hn, hu⟩ := h n pte he
    rw [Option.bind_some, userPage, if_neg]
    rintro (hlt | hU)
    · omega
    · rw [hu] at hU
      cases hU

theorem holds_map_kernel (hn : 0x80000 ≤ vpn a) (hnone : d.entry (vpn a) = none)
    (hpde : hasFlag (d.pde (pdx a)) PTE_P) (hu : hasFlag (pa ||| perm ||| PTE_P) PTE_U = false) :
    (d.setPte (vpn a) (pa ||| perm ||| PTE_P)).holds = d.holds := by
  rw [holds_setPte_eq (entry_map hpde), Option.bind_some, userPage, if_neg]
  · refine update_eq_self_iff.mpr ?_
    rw [holds_user_entry, hnone]
    rfl
  · rintro (hlt | hU)
    · omega
    · rw [hu] at hU
      cases hU

theorem PgDir.Bare.map (h : d.Bare) (hn : 0x80000 ≤ n)
    (hu : hasFlag pte PTE_U = false) (he : d'.entry = update d.entry n (some pte)) : d'.Bare := by
  intro m pte' hm
  rw [he] at hm
  by_cases hmn : m = n
  · subst hmn
    rw [update_self] at hm
    obtain rfl := Option.some.inj hm
    exact ⟨hn, hu⟩
  · rw [update_of_ne hmn] at hm
    exact h m pte' hm

theorem kernel_pte (hperm : hasFlag perm PTE_U = false) (hpa : Aligned pa) :
    hasFlag (pa ||| perm ||| PTE_P) PTE_U = false := by
  rw [BitVec.or_assoc, hasFlag_or_aligned hpa (by decide), hasFlag_or, hperm]
  rfl

section
variable (hperm : hasFlag perm PTE_U = false) (hpa : Aligned pa) (ha : 0x80000 ≤ vpn a) (hbare : d.Bare)
  (habove : ∀ m, vpn a ≤ m → d.entry m = none)
include hperm hpa ha hbare habove

theorem map_kernel (hentry : d'.entry = d.entry) (hpde : hasFlag (d'.pde (pdx a)) PTE_P) :
    (d'.setPte (vpn a) (pa ||| perm ||| PTE_P)).holds = d'.holds ∧
      (d'.setPte (vpn a) (pa ||| perm ||| PTE_P)).Bare ∧
      ∀ m, vpn a < m → (d'.setPte (vpn a) (pa ||| perm ||| PTE_P)).entry m = none := by
  have hu := kernel_pte hperm hpa
  refine ⟨holds_map_kernel ha (by rw [hentry, habove _ le_rfl]) hpde hu, ?_, fun m hm => ?_⟩
  · refine hbare.map ha hu ?_
    rw [entry_map hpde, hentry]
  · rw [entry_map hpde, update_of_ne (by omega), hentry]
    exact habove m (by omega)

theorem stock_mapKernel (k : Nat) (hk : vpn a + k < 2 ^ 20) :
    Triple (Stock P img d.holds hand) (mappagesLoop perm k d a pa) (fun x r =>
      Stock P img x.2.holds hand r ∧ x.2.Bare ∧ ∀ m, vpn a + k < m → x.2.entry m = none) E := by
  refine ((mappagesLoop_rule (E := E) (I := fun i d' r => Stock P img d'.holds hand r ∧ d'.Bare ∧
    ∀ m, vpn a + i ≤ m → d'.entry m = none) (F := fun d' r => Stock P img d'.holds hand r ∧ d'.Bare ∧
    ∀ m, vpn a + k < m → d'.entry m = none) k fun i hi d' b hb => ?_).pre
    fun r hr => ⟨hr, hbare, habove⟩).post fun x r hx => ?_
  · refine .pre_and fun hd' => (stock_walkpgdir none b).post fun o r hr => ?_
    have hvpn := hb (by omega)
    cases o with
    | none => exact ⟨hr.1, hd'.1, fun m hm => hd'.2 m (by omega)⟩
    | some d₁ =>
      obtain ⟨hentry, -, hpde⟩ := hr.2 d₁ rfl
      rw [← hvpn] at hd'
      obtain ⟨hholds, hbare₁, habove₁⟩ :=
        map_kernel hperm (aligned_add_pages hpa i) (by omega) hd'.1 hd'.2 hentry hpde
      rw [Option.elim_some, if_neg (not_present hpde (by rw [hentry, hd'.2 _ le_rfl]))]
      refine ⟨?_, hbare₁, fun m hm => habove₁ m (by omega)⟩
      rw [hholds]
      exact hr.1
  · cases hdone : x.1 with
    | true =>
      rw [if_pos hdone] at hx
      exact ⟨hx.1, hx.2.1, fun m hm => hx.2.2 m (by omega)⟩
    | false =>
      rw [if_neg (by simp [hdone])] at hx
      exact hx

end

/-! ## Taking entries out -/

theorem Pool.pteAddr_ne_zero (h : P.ok (P2V (pteAddr pte))) : pteAddr pte ≠ 0 := by
  intro hzero
  have hpage := (P.pages h).2.1
  have habove := P.above
  rw [hzero, BitVec.ult] at hpage
  simp only [decide_eq_true_eq, not_lt] at hpage
  have : (P2V 0).toNat = KERNBASE.toNat := by decide
  omega

theorem stock_freePage (hn : n < 0x80000) :
    Triple (Stock P img d.holds hand) (freePage d n) (fun d' r =>
      Stock P img d'.holds hand r ∧ d'.page = d.page ∧ d'.pde = d.pde ∧
        d'.entry = update d.entry n none) E := by
  unfold freePage
  cases hentry : d.entry n with
  | none =>
    refine .pure fun r hr => ⟨hr, rfl, rfl, (update_eq_self_iff.mpr ?_).symm⟩
    exact hentry.symm
  | some pte =>
    have hheld : d.holds (.user n) = some (P2V (pteAddr pte)) := holds_user_of_entry hentry (if_pos (.inl hn))
    refine .ite (fun hzero => ⟨fun r hr => ?_⟩) fun _ => ?_
    · exact absurd hzero (P.pteAddr_ne_zero (hr.books.ok_held hheld))
    · refine .bind (stock_kfree hheld) fun _ => .pure fun r hr => ⟨?_, rfl, rfl, entry_clear⟩
      rwa [holds_setPte_eq entry_clear]

theorem stock_deallocuvm (newsz : Word) (hk : oldsz.toNat ≤ 2 ^ 31) :
    Triple (Stock P img d.holds hand) (deallocuvm d oldsz newsz) (fun x r =>
      Stock P img x.2.holds hand r ∧ x.2.page = d.page ∧ x.2.pde = d.pde ∧
        x.1 = (if newsz.toNat < oldsz.toNat then newsz else oldsz) ∧
        x.2.entry = cut d.entry (pages newsz) (pages oldsz)) E := by
  have hpages : pages oldsz ≤ 0x80000 := by
    unfold pages
    omega
  unfold deallocuvm
  by_cases hlt : newsz.toNat < oldsz.toNat
  · have hult : newsz.ult oldsz = true := by simpa [BitVec.ult] using hlt
    have hle : pages newsz ≤ pages oldsz := by
      unfold pages
      omega
    rw [hult, if_neg (by decide), if_pos hlt, deallocuvmLoop_eq hk _ (aligned_pgRoundUp newsz) (by omega),
      vpn_pgRoundUp (by omega)]
    -- with the pages below `j` looked at, the entries below `j` are out
    have hwalk := freePages_rule (I := fun j d' r => Stock P img d'.holds hand r ∧ d'.page = d.page ∧
      d'.pde = d.pde ∧ d'.entry = cut d.entry (pages newsz) j) (d := d) (n := pages newsz) (E := E)
      (pages oldsz - pages newsz) fun j hj hjk d' => ?_
    · refine .bind (hwalk.pre fun r hr => ⟨hr, rfl, rfl, (cut_of_le le_rfl).symm⟩) fun d' =>
        .pure fun r h => ⟨h.1, h.2.1, h.2.2.1, rfl, ?_⟩
      rw [h.2.2.2, Nat.add_sub_cancel' hle]
    · refine .pre_and fun hd' => (stock_freePage (by omega)).post fun d₁ r h => ?_
      refine ⟨h.1, h.2.1.trans hd'.1, h.2.2.1.trans hd'.2.1, ?_⟩
      rw [h.2.2.2, hd'.2.2, cut_succ hj]
  · have hult : newsz.ult oldsz = false := by simpa [BitVec.ult] using hlt
    rw [hult, if_pos (by decide), if_neg hlt]
    refine .pure fun r hr => ⟨hr, rfl, rfl, rfl, (cut_of_le ?_).symm⟩
    unfold pages
    omega

/-! ## A whole directory -/

theorem tables_cons {j : Nat} {l : List Nat} (hj : j ∉ l) :
    update (d.tables (j :: l)) (.table j) none = d.tables l := by
  funext o
  cases o with
  | dir => rfl
  | table i =>
    by_cases hi : i = j
    · subst hi
      rw [update_self, PgDir.tables, if_neg hj]
    · rw [update_of_ne (by simpa using hi), PgDir.tables, PgDir.tables]
      simp [hi]
  | user n => rfl

theorem stock_freeTables (l : List Nat) (hl : l.Nodup) (hlt : ∀ j ∈ l, j < NPDENTRIES) :
    Triple (Stock P img (d.tables l) hand) (freeTables d l) (fun _ => Stock P img (d.tables []) hand) E := by
  induction l with
  | nil => exact .pure fun r hr => hr
  | cons j l ih =>
    obtain ⟨hj, hl⟩ := List.nodup_cons.mp hl
    refine .bind (m := if hasFlag (d.pde j) PTE_P then _ else _) ?_ fun _ =>
      ih hl fun i hi => hlt i (List.mem_cons_of_mem _ hi)
    refine .ite (fun hpde => ?_) fun hpde => .pure fun r hr => ?_
    · have hheld : d.tables (j :: l) (.table j) = some (P2V (pteAddr (d.pde j))) := by
        rw [PgDir.tables, if_pos List.mem_cons_self, holds_table]
        exact ⟨hlt j List.mem_cons_self, hpde, rfl⟩
      rw [← tables_cons hj]
      exact stock_kfree hheld
    · rwa [← tables_cons hj, update_eq_self_iff.mpr]
      rw [PgDir.tables, if_pos List.mem_cons_self, PgDir.holds, if_neg fun h => hpde h.2]

/-- `freevm` gives back everything the directory held, if user code has nothing in the kernel's half. -/
theorem stock_freevm (hkernel : ∀ n, 0x80000 ≤ n → d.holds (.user n) = none) :
    Triple (Stock P img d.holds hand) (freevm d) (fun _ => Stock P img (fun _ => none) hand) E := by
  unfold freevm
  refine .ite (fun hzero => ⟨fun r hr => ?_⟩) fun _ => ?_
  · exact absurd hzero (P.pages (hr.books.ok_held (o := .dir) rfl)).ne_zero
  have hk : KERNBASE.toNat ≤ 2 ^ 31 := by simp [KERNBASE]
  refine .bind (stock_deallocuvm 0 hk) fun x => .pre_and ?_
  rintro ⟨hpage, -, -, hentry⟩
  have htables : x.2.holds = x.2.tables (List.range NPDENTRIES) := by
    funext o
    cases o with
    | dir => rfl
    | table j =>
      rw [PgDir.tables]
      by_cases hj : j < NPDENTRIES
      · rw [if_pos (List.mem_range.mpr hj)]
      · rw [if_neg (by simpa using hj), PgDir.holds, if_neg fun h => hj h.1]
    | user n =>
      rw [holds_user_entry, hentry, pages_kernbase, PgDir.tables]
      by_cases hn : 0x80000 ≤ n
      · rw [cut_apply_of_not (by omega), ← holds_user_entry, hkernel n hn]
      · rw [cut, if_pos ⟨Nat.zero_le n, by omega⟩]
        rfl
  rw [htables]
  refine .bind (stock_freeTables _ List.nodup_range fun j hj => List.mem_range.mp hj) fun _ => ?_
  have hlast : update (x.2.tables []) .dir none = fun _ => none := by
    funext o
    cases o with
    | dir => rfl
    | table j => simp [PgDir.tables]
    | user n => rfl
  rw [← hlast]
  exact stock_kfree (congrArg some hpage)

/-- The page numbers of a row of `kmap`. -/
def Kmap.first (m : Kmap) : Nat := vpn (pgRoundDown m.virt)

def Kmap.last (m : Kmap) : Nat :=
  m.first + vpn (pgRoundDown (m.virt + (m.physEnd - m.physStart) - 1) - pgRoundDown m.virt)

theorem Kmap.last_eq {m : Kmap} (hs : 0 < (m.physEnd - m.physStart).toNat)
    (hend : m.virt.toNat + (m.physEnd - m.physStart).toNat ≤ 2 ^ 32) :
    m.last = (m.virt.toNat + (m.physEnd - m.physStart).toNat - 1) / 2 ^ 12 := by
  rw [Kmap.last, Kmap.first, vpn_pgRoundDown]
  exact vpn_last_sub hs hend

theorem Kmap.first_eq (m : Kmap) : m.first = m.virt.toNat / 2 ^ 12 := by
  rw [Kmap.first, vpn_pgRoundDown, vpn]

variable {k : Word}

theorem kmap_spans (hk : Linked k) : (kmap k).map (fun m => (m.first, m.last)) =
    [(0x80000, 0x800FF), (0x80100, (k.toNat - 1) / 2 ^ 12), (k.toNat / 2 ^ 12, 0x8DFFF),
      (0xFE000, 0xFFFFF)] := by
  have hk1 : 0x80100000 < k.toNat := hk.above
  have hk2 : k.toNat < 0x8E000000 := hk.below
  have hvirt : KERNLINK.toNat = 0x80100000 := by decide
  obtain ⟨hsz2, hsz3⟩ := hk.sizes
  have hrow1 : (Kmap.mk KERNBASE 0 EXTMEM PTE_W).last = 0x800FF := by decide
  have hrow2 : (Kmap.mk KERNLINK (V2P KERNLINK) (V2P k) 0).last = (k.toNat - 1) / 2 ^ 12 := by
    rw [Kmap.last_eq (by dsimp only; omega) (by dsimp only; omega)]
    dsimp only
    omega
  have hrow3 : (Kmap.mk k (V2P k) PHYSTOP PTE_W).last = 0x8DFFF := by
    rw [Kmap.last_eq (by dsimp only; omega) (by dsimp only; omega)]
    dsimp only
    omega
  have hrow4 : (Kmap.mk DEVSPACE DEVSPACE 0 PTE_W).last = 0xFFFFF := by decide
  simp only [kmap, List.map_cons, List.map_nil, hrow1, hrow2, hrow3, hrow4, Kmap.first_eq]
  rfl

theorem kmap_pairwise (hk : Linked k) : (kmap k).Pairwise fun m m' => m.last < m'.first := by
  have hk1 : 0x80100000 < k.toNat := hk.above
  have hk2 : k.toNat < 0x8E000000 := hk.below
  have hk3 := aligned_iff.mp hk.aligned
  have hspans : ((kmap k).map fun m => (m.first, m.last)).Pairwise fun x y => x.2 < y.1 := by
    rw [kmap_spans hk]
    simp only [List.pairwise_cons, List.mem_cons, List.not_mem_nil, or_false, forall_eq_or_imp, forall_eq]
    exact ⟨⟨by omega, by omega, by omega⟩, ⟨by omega, by omega⟩, by omega, nofun, .nil⟩
  exact List.pairwise_map.mp hspans

theorem stock_setupkvmLoop (l : List Kmap) (hl : ∀ m ∈ l, KernelRow m)
    (hsorted : l.Pairwise fun m m' => m.last < m'.first) (hbare : d.Bare)
    (habove : ∀ m ∈ l, ∀ n, m.first ≤ n → d.entry n = none) :
    Triple (Stock P img d.holds hand) (setupkvmLoop l d) (fun o r =>
      Stock P img (PgDir.holdsOpt o) hand r ∧ ∀ d', o = some d' → d'.Bare) E := by
  induction l generalizing d with
  | nil =>
    refine .pure fun r hr => ⟨hr, ?_⟩
    rintro _ ⟨⟩
    exact hbare
  | cons m l ih =>
    have hm := hl m List.mem_cons_self
    obtain ⟨hfirst, hsorted⟩ := List.pairwise_cons.mp hsorted
    unfold setupkvmLoop
    refine .bind (stock_mapKernel hm.perm hm.phys hm.above hbare
      (habove m List.mem_cons_self) _ hm.below) fun x => .pre_and ?_
    rintro ⟨hbare', habove'⟩
    refine .ite (fun _ => ?_) fun _ => ?_
    · refine ih (fun m' hm' => hl m' (List.mem_cons_of_mem _ hm')) hsorted hbare' fun m' hm' n hn => ?_
      exact habove' n (lt_of_lt_of_le (hfirst m' hm') hn)
    · refine .bind (stock_freevm fun n _ => hbare'.holds_user n) fun _ => .pure fun r hr => ?_
      exact ⟨hr, by rintro _ ⟨⟩⟩

/-- `setupkvm` makes a directory with the kernel in it, or there is not enough memory. -/
theorem stock_setupkvm (hk : Linked P.kdata) :
    Triple (Stock P img (fun _ => none) hand) setupkvm (fun o r =>
      Stock P img (PgDir.holdsOpt o) hand r ∧ ∀ d, o = some d → d.Bare) E := by
  unfold setupkvm
  refine .bindOption stock_kalloc (.pre_and fun _ => .pure fun r hr => ⟨hr, by rintro _ ⟨⟩⟩)
    fun pgdir => .pre_and fun ho => ?_
  refine .bind ((stock_memset (Set.mem_insert pgdir hand) 0).post fun _ r hr => hr.1) fun _ => ?_
  refine .ite (fun hlow => absurd hlow (by decide)) fun _ => .get fun r hr => ?_
  rw [hr.kdata]
  have hempty : ∀ n, PgDir.entry { PgDir.null with page := pgdir } n = none := by
    intro n
    rw [entry_eq_none]
    exact fun h => absurd h.2.1 (by simp [PgDir.null])
  refine (stock_setupkvmLoop _ (kernelRow_kmap hk) (kmap_pairwise hk)
    (fun n pte he => by rw [hempty] at he; cases he) fun _ _ n _ => hempty n).pre ?_
  rintro _ rfl
  have hstore := hr.store (o := .dir) (ho pgdir rfl).1 rfl (by rintro _ ⟨⟩)
  have hholds : PgDir.holds { PgDir.null with page := pgdir } = update (fun _ => none) .dir (some pgdir) := by
    funext o
    cases o with
    | dir => rfl
    | table j => simp [PgDir.holds, PgDir.null]
    | user n => rw [holds_user_entry, hempty]; rfl
  rwa [hholds]

/-! ## More memory for user code -/

/-- The entry that `allocuvm` makes for the page `v`. -/
def userPte (v : Word) : Word := V2P v ||| (PTE_W ||| PTE_U) ||| PTE_P

/-- The directory `d'` is `d` with new pages from page number `lo` up to `hi`. -/
structure PgDir.Grown (d d' : PgDir) (lo hi : Nat) : Prop where
  page : d'.page = d.page
  old : ∀ n, ¬ (lo ≤ n ∧ n < hi) → d'.entry n = d.entry n
  new : ∀ n, lo ≤ n → n < hi → ∃ v, Aligned v ∧ d'.entry n = some (userPte v)

theorem PgDir.Grown.refl (d : PgDir) (h : hi ≤ lo) : d.Grown d lo hi :=
  ⟨rfl, fun _ _ => rfl, fun n h1 h2 => absurd h2 (by omega)⟩

theorem PgDir.Grown.cons {d₁ : PgDir} (hlt : lo < hi) (hv : Aligned v)
    (hpage : d₁.page = d.page) (hentry : d₁.entry = update d.entry lo (some (userPte v)))
    (h : d₁.Grown d' (lo + 1) hi) : d.Grown d' lo hi where
  page := h.page.trans hpage
  old n hn := by rw [h.old n (by omega), hentry, update_of_ne (by omega)]
  new n h1 h2 := by
    by_cases hn : n = lo
    · subst hn
      exact ⟨v, hv, by rw [h.old n (by omega), hentry, update_self]⟩
    · exact h.new n (by omega) h2

/-- No page number from `lo` up to `hi` is mapped. -/
def PgDir.ClearFrom (d : PgDir) (lo hi : Nat) : Prop := ∀ n, lo ≤ n → n < hi → d.entry n = none

/-- The pages from `lo` up to `hi`, of which none was mapped, are new and empty, or, when memory ran out,
the range is empty that starts at `base`. -/
def Allocated (P : Pool) (img : Word → Byte) (hand : Set Word) (d : PgDir) (base lo hi : Nat)
    (newsz : Word) (x : Word × PgDir) (r : Ram) : Prop :=
  (x.1 = newsz ∧ d.ClearFrom lo hi ∧ d.Grown x.2 lo hi ∧ Stock P (blank img lo hi) x.2.holds hand r) ∨
    (x.1 = 0 ∧ x.2.page = d.page ∧ x.2.entry = cut d.entry base hi ∧ Stock P img x.2.holds hand r)

theorem allocated_nothing {base : Nat} (hle : hi ≤ lo)
    (hr : Stock P img d.holds hand r) : Allocated P img hand d base lo hi newsz (newsz, d) r :=
  .inl ⟨rfl, fun n h1 h2 => absurd h2 (by omega), .refl d hle, by rwa [blank_of_le hle]⟩

theorem Stock.congr_cut {f : Nat → Option Word} {c : Nat}
    (h : Stock P (blank img c (c + 1)) d'.holds hand r) (hentry : d'.entry = cut f lo hi)
    (hc : lo ≤ c ∧ c < hi) : Stock P img d'.holds hand r := by
  refine h.congr fun a ha => (blank_of_not fun hac => ha ?_).symm
  rw [holds_user_entry, hentry, cut, if_pos (by omega)]
  rfl

theorem stock_rollback (hk : newsz.toNat ≤ 2 ^ 31) :
    Triple (Stock P img d.holds hand) (deallocuvm d newsz oldsz) (fun x r =>
      Stock P img x.2.holds hand r ∧ x.2.page = d.page ∧
        x.2.entry = cut d.entry (pages oldsz) (pages newsz)) E :=
  (stock_deallocuvm oldsz hk).post fun _ _ h => ⟨h.1, h.2.1, h.2.2.2.2⟩

theorem stock_newPage (hnone : d.entry n = none) (hmem : mem ∉ hand) :
    Triple (Stock P img d.holds (insert mem hand)) (memset mem 0)
      (fun _ => Stock P (blank img n (n + 1)) (d.booked (some (n, mem))) hand) E := by
  refine (stock_memset (Set.mem_insert mem hand) 0).post fun _ r hr => ?_
  refine hr.1.storeUser hmem ?_ hr.2
  rw [holds_user_entry, hnone]
  rfl

theorem stock_remap (h : d.entry (vpn a) ≠ none) :
    Triple (Stock P img d.holds hand) (mappagesLoop perm 0 d a pa) (fun _ _ => False)
      (fun x _ => x = .panic "remap") := by
  obtain ⟨pte, hentry⟩ := Option.ne_none_iff_exists'.mp h
  obtain ⟨⟨-, hpde, hpte⟩, -⟩ := entry_eq_some.mp hentry
  rw [vpn_div] at hpde
  unfold mappagesLoop walkpgdir
  rw [if_pos hpde]
  refine .bind (.pure (Q := fun o _ => o = some d) fun r _ => rfl) fun o => ?_
  refine ⟨fun r ho => ?_⟩
  obtain rfl := ho
  dsimp only
  rw [if_pos hpte]
  rfl

/-- The loop of `allocuvm` from `a` on. It stops only where something is mapped already. -/
theorem stock_allocuvmLoop (hk : newsz.toNat ≤ 2 ^ 31) (fuel : Nat) (ha : Aligned a)
    (hfuel : 0x80000 ≤ vpn a + fuel) (hbase : pages oldsz ≤ vpn a) :
    Triple (Stock P img d.holds hand) (Exec.allocuvmLoop oldsz newsz fuel d a)
      (Allocated P img hand d (pages oldsz) (vpn a) (pages newsz) newsz)
      (fun _ _ => ¬ d.ClearFrom (vpn a) (pages newsz)) := by
  have hpages : pages newsz ≤ 0x80000 := by
    unfold pages
    omega
  induction fuel generalizing d a img with
  | zero => exact .pure fun r => allocated_nothing (by omega)
  | succ fuel ih =>
    have hpos := vpn_of_aligned ha
    unfold Exec.allocuvmLoop
    refine .ite (fun hlt => ?_) fun hge => .pure fun r => allocated_nothing ?_
    · have hin : vpn a < pages newsz := by
        rw [lt_pages, hpos]
        simpa [BitVec.ult] using hlt
      have hnext : vpn (a + PGSIZE) = vpn a + 1 := vpn_add_page (by omega)
      refine .bindOption stock_kalloc
        (.pre_and fun _ => .bind (stock_rollback hk) fun x => .pure fun r h =>
          .inr ⟨rfl, h.2.1, h.2.2, h.1⟩) fun mem => .pre_and fun ho => ?_
      obtain ⟨hmem, hok⟩ := ho mem rfl
      dsimp only
      rw [mappages_page ha]
      by_cases hnone : d.entry (vpn a) = none
      · refine .bind (stock_newPage hnone hmem) fun _ => ?_
        refine .bind (stock_mapUser (by omega) hnone (by decide)) fun x =>
          .pre_and fun ⟨hpage, hentry⟩ => .ite (fun hx => ?_) fun hx => ?_
        · rw [if_pos hx] at hentry
          rw [if_pos hx]
          have hcut : cut x.2.entry (pages oldsz) (pages newsz) =
              cut d.entry (pages oldsz) (pages newsz) := by
            rw [hentry, cut_update_mem ⟨hbase, hin⟩]
          have hclear : x.2.ClearFrom (vpn a + 1) (pages newsz) → d.ClearFrom (vpn a) (pages newsz) := by
            intro hc n h1 h2
            by_cases hn : n = vpn a
            · rwa [hn]
            · have := hc n (by omega) h2
              rwa [hentry, update_of_ne hn] at this
          refine (ih (aligned_add_page ha) (by omega) (by omega)).conseq (fun _ => id) (fun y r hy => ?_)
            fun _ _ hblock hc => hblock fun n h1 h2 => ?_
          · rw [hnext] at hy
            rcases hy with ⟨hy, hc, hgrown, hstock⟩ | ⟨hy, hpage', hentry', hstock⟩
            · rw [blank_blank hin] at hstock
              exact .inl ⟨hy, hclear hc, hgrown.cons hin (P.pages hok).1 hpage hentry, hstock⟩
            · rw [hcut] at hentry'
              exact .inr ⟨hy, hpage'.trans hpage, hentry', hstock.congr_cut hentry' ⟨hbase, hin⟩⟩
          · rw [hentry, update_of_ne (by omega)]
            exact hc n (by omega) h2
        · rw [if_neg hx] at hentry
          rw [if_neg hx]
          refine .bind (stock_rollback hk) fun y => .pre_and fun ⟨hpage', hentry'⟩ => ?_
          refine .bind (stock_kfree_hand (Set.mem_insert mem hand)) fun _ => .pure fun r hr => .inr ?_
          rw [Set.insert_sdiff_self_of_notMem hmem] at hr
          rw [hentry] at hentry'
          exact ⟨rfl, hpage'.trans hpage, hentry', hr.congr_cut hentry' ⟨hbase, hin⟩⟩
      · have hblock : ¬ d.ClearFrom (vpn a) (pages newsz) := fun hc => hnone (hc _ le_rfl hin)
        refine .bind ((stock_memset (Set.mem_insert mem hand) 0).post fun _ r hr => hr.1) fun _ => ?_
        refine .bind ((stock_remap hnone).conseq (fun _ => id) (fun _ _ => id) fun _ _ _ => hblock) ?_
        exact fun _ => ⟨fun _ => False.elim⟩
    · have : newsz.toNat ≤ a.toNat := by simpa [BitVec.ult] using hge
      unfold pages
      omega

theorem stock_allocuvm (hold : oldsz.toNat ≤ 2 ^ 31) :
    Triple (Stock P img d.holds hand) (Exec.allocuvm d oldsz newsz) (fun x r =>
      (2 ^ 31 ≤ newsz.toNat ∧ x = (0, d) ∧ Stock P img d.holds hand r) ∨
      (newsz.toNat < oldsz.toNat ∧ x = (oldsz, d) ∧ Stock P img d.holds hand r) ∨
      (newsz.toNat < 2 ^ 31 ∧ oldsz.toNat ≤ newsz.toNat ∧
        Allocated P img hand d (pages oldsz) (pages oldsz) (pages newsz) newsz x r))
      (fun _ _ => newsz.toNat < 2 ^ 31 ∧ ¬ d.ClearFrom (pages oldsz) (pages newsz)) := by
  unfold Exec.allocuvm
  have hbase : KERNBASE.toNat = 2 ^ 31 := rfl
  by_cases hhigh : 2 ^ 31 ≤ newsz.toNat
  · rw [if_pos (by simp [BitVec.ult]; omega)]
    exact .pure fun r hr => .inl ⟨hhigh, rfl, hr⟩
  rw [if_neg (by simp [BitVec.ult]; omega)]
  by_cases hlow : newsz.toNat < oldsz.toNat
  · rw [if_pos (by simpa [BitVec.ult] using hlow)]
    exact .pure fun r hr => .inr (.inl ⟨hlow, rfl, hr⟩)
  rw [if_neg (by simpa [BitVec.ult] using hlow)]
  have hstart := vpn_pgRoundUp hold
  have hloop : Triple (Stock P img d.holds hand)
      (Exec.allocuvmLoop oldsz newsz (2 ^ 20) d (pgRoundUp oldsz)) _ _ :=
    stock_allocuvmLoop (by omega) (2 ^ 20) (aligned_pgRoundUp oldsz) (by omega) (by omega)
  rw [hstart] at hloop
  exact hloop.conseq (fun _ => id) (fun x r h => .inr (.inr ⟨by omega, by omega, h⟩))
    fun _ _ h => ⟨by omega, h⟩

end Xv6

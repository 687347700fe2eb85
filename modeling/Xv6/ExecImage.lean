import Xv6.AddressSpace
import Xv6.Copyout

/-!
# Loading a program

`exec` goes through the program headers and has `allocuvm` and `loaduvm` place each segment. Nothing about
the headers can be assumed. `Filled` holds whenever the loop comes to the next header: exactly the pages
below the size are there. What user code finds in memory is `overlays`: zeros, and over them one segment
after the other.
-/

namespace Xv6.Exec

open Hoare
open BitVec (toNat_ofNat ofNat toNat_add)

variable {P : Pool} {img : Word → Byte} {hand : Set Word} {r : Ram} {E : Stop → Ram → Prop}
  {d d' : PgDir} {ip : Inode} {a b va sz : Word} {bs cs : Bytes}

/-! ## Bytes over bytes -/

/-- `img` with the bytes `bs` from address `va` on. -/
def overlay (img : Word → Byte) (va : Word) (bs : Bytes) : Word → Byte :=
  fun a => bs.getD (a - va).toNat (img a)

theorem overlay_of_lt (h : (a - va).toNat < bs.length) : overlay img va bs a = bs[(a - va).toNat] := by
  rw [overlay, List.getD_eq_getElem?_getD, List.getElem?_eq_getElem h, Option.getD_some]

theorem overlay_of_le (h : bs.length ≤ (a - va).toNat) : overlay img va bs a = img a := by
  rw [overlay, List.getD_eq_getElem?_getD, List.getElem?_eq_none h, Option.getD_none]

theorem overlay_nil : overlay img va [] = img := by
  funext a
  exact overlay_of_le (Nat.zero_le _)

theorem overlay_append (h : bs.length + cs.length ≤ 2 ^ 32) :
    overlay (overlay img va bs) (va + .ofNat 32 bs.length) cs = overlay img va (bs ++ cs) := by
  funext a
  have hoff : (a - (va + .ofNat 32 bs.length)).toNat =
      (2 ^ 32 - bs.length % 2 ^ 32 + (a - va).toNat) % 2 ^ 32 := by
    rw [← BitVec.sub_sub, BitVec.toNat_sub, toNat_ofNat]
  by_cases hfirst : (a - va).toNat < bs.length
  · have hpast : cs.length ≤ (a - (va + .ofNat 32 bs.length)).toNat := by omega
    have hboth : (a - va).toNat < (bs ++ cs).length := by
      rw [List.length_append]
      omega
    rw [overlay_of_le hpast, overlay_of_lt hfirst, overlay_of_lt hboth, List.getElem_append_left hfirst]
  · have hrest : (a - (va + .ofNat 32 bs.length)).toNat = (a - va).toNat - bs.length := by omega
    rw [overlay, overlay_of_le (not_lt.mp hfirst), overlay, hrest, List.getD_eq_getElem?_getD,
      List.getD_eq_getElem?_getD, List.getElem?_append_right (not_lt.mp hfirst)]

/-- The bytes of the file that `loaduvm` reads from offset `off` on. -/
def segment (ip : Inode) (off : Word) (n : Nat) : Bytes :=
  (List.range n).map fun j => ip.data.getD (off + ofNat 32 j).toNat 0

@[simp] theorem segment_length (off : Word) (n : Nat) : (segment ip off n).length = n := by
  simp [segment]

theorem segment_add (off : Word) (m n : Nat) :
    segment ip off (m + n) = segment ip off m ++ segment ip (off + .ofNat 32 m) n := by
  unfold segment
  rw [List.range_add, List.map_append, List.map_map]
  congr 2
  funext j
  rw [Function.comp_apply, add_ofNat_add]

variable {off fsz i addr : Word} {n : Nat}

theorem segment_of_readi (hread : readi ip off n = some bs) (hlen : bs.length = n) :
    bs = segment ip off n := by
  unfold readi at hread
  split at hread
  · cases hread
  · rename_i hfits
    obtain rfl := Option.some.inj hread
    rw [List.length_take, List.length_drop] at hlen
    refine List.ext_getElem (by rw [List.length_take, List.length_drop, segment_length]; exact hlen) ?_
    intro j h1 h2
    rw [segment_length] at h2
    have hoff : (off + .ofNat 32 j).toNat = off.toNat + j := by
      rw [toNat_add, toNat_ofNat]
      omega
    simp only [segment, List.getElem_map, List.getElem_range]
    rw [List.getElem_take, List.getElem_drop, hoff]
    exact List.getElem_eq_getD 0

/-! ## Copying into the pages of the directory -/

theorem translate_inj {v w : Word} (h : Stock P img d.holds hand r) (ha : d.holds (.user (vpn a)) = some v)
    (hb : d.holds (.user (vpn b)) = some w) (heq : d.translate a = d.translate b) : a = b := by
  rw [translate_of_holds ha, translate_of_holds hb] at heq
  have hva := (P.pages (h.books.ok_held ha)).1
  have hwa := (P.pages (h.books.ok_held hb)).1
  have hvw : v = w := by
    by_contra hne
    have hmem := mem_pageRange_low v a
    rw [heq] at hmem
    exact Set.disjoint_left.mp (disjoint_of_aligned hva hwa hne) hmem (mem_pageRange_low w b)
  subst hvw
  have hpage : vpn a = vpn b := by
    injection h.books.inj ha hb
  have hlow : a.toNat % 2 ^ 12 = b.toNat % 2 ^ 12 := by
    rw [← toNat_and_low, ← toNat_and_low, add_left_cancel heq]
  unfold vpn at hpage
  exact BitVec.eq_of_toNat_eq (by omega)

theorem stock_copy {m : Word → Byte} (h : Stock P img d.holds hand r) (hlen : bs.length ≤ 2 ^ 32)
    (hheld : ∀ k < bs.length, ∃ v, d.holds (.user (vpn (va + .ofNat 32 k))) = some v)
    (hcopy : Scattered (fun k => d.translate (va + .ofNat 32 k)) bs r.mem m) :
    Stock P (overlay img va bs) d.holds hand { r with mem := m } where
  books := h.books
  kend := h.kend
  kdata := h.kdata
  mem a ha := by
    refine (hcopy.other a fun k hk htr => ?_).trans (h.mem a ha)
    obtain ⟨v, hv⟩ := hheld k hk
    refine ha v (h.books.ok_held hv) ?_
    rw [← htr, translate_of_holds hv]
    exact mem_pageRange_low _ _
  shows a v hv := by
    rw [← translate_of_holds hv]
    have hat : va + .ofNat 32 (a - va).toNat = a := by
      rw [BitVec.ofNat_toNat, BitVec.setWidth_eq, add_sub_cancel]
    have hoff : ∀ k < bs.length, d.translate (va + .ofNat 32 k) = d.translate a → k = (a - va).toNat := by
      intro k hk htr
      obtain ⟨w, hw⟩ := hheld k hk
      rw [← translate_inj h hw hv htr, add_sub_cancel_left, toNat_ofNat, Nat.mod_eq_of_lt (by omega)]
    by_cases hk : (a - va).toNat < bs.length
    · have hval := hcopy.value hk fun j hj htr => ?_
      · rw [overlay_of_lt hk, ← hval, hat]
      · rw [hat] at htr
        simp only [hoff j hj htr]
    · rw [overlay_of_le (not_lt.mp hk), ← h.shows a v hv, ← translate_of_holds hv]
      exact hcopy.other _ fun k hk' htr => hk (hoff k hk' htr ▸ hk')

theorem stock_storePage {v : Word} (hheld : d.holds (.user (vpn va)) = some v)
    (hfits : va.toNat % 2 ^ 12 + bs.length ≤ 2 ^ 12) :
    Triple (Stock P img d.holds hand) (storeBytes (d.translate va) bs)
      (fun _ => Stock P (overlay img va bs) d.holds hand) E := by
  refine .modify fun r hr => stock_copy hr (by omega) (fun k hk => ⟨v, ?_⟩) ?_
  · rwa [vpn_add_inPage (by omega)]
  · exact (scattered_storeBytes (d.translate va) (by omega) r.mem).congr fun k hk =>
      translate_add (by omega)

/-! ## The head of the loop -/

/-- What the kernel maps in its half of every directory, and does not open to user code. -/
structure KernelHalf where
  map : Nat → Option Word
  closed : ∀ n pte, map n = some pte → hasFlag pte PTE_U = false

/-- The kernel's half of `d`. -/
def KernelHalf.In (κ : KernelHalf) (d : PgDir) : Prop := ∀ n, 0x80000 ≤ n → d.entry n = κ.map n

variable {κ : KernelHalf}

/-- The pages below `sz` are there for user code, and no others. -/
structure Filled (κ : KernelHalf) (d : PgDir) (sz : Word) : Prop where
  low : sz.toNat ≤ 2 ^ 31
  user : ∀ n < pages sz, ∃ v, Aligned v ∧ d.entry n = some (userPte v)
  clear : d.ClearFrom (pages sz) 0x80000
  kernel : κ.In d

theorem KernelHalf.In.user (h : κ.In d) {pte : Word} (hn : 0x80000 ≤ n)
    (hentry : d.entry n = some pte) : hasFlag pte PTE_U = false :=
  κ.closed n pte (h n hn ▸ hentry)

theorem KernelHalf.In.holds (h : κ.In d) (hn : 0x80000 ≤ n) : d.holds (.user n) = none := by
  rw [holds_user_entry, Option.bind_eq_none_iff]
  intro pte hentry
  refine if_neg ?_
  rw [h.user hn hentry]
  simp only [Bool.false_eq_true, or_false]
  omega

theorem KernelHalf.In.congr (h : κ.In d) (he : ∀ n, 0x80000 ≤ n → d'.entry n = d.entry n) : κ.In d' :=
  fun n hn => (he n hn).trans (h n hn)

theorem user_userPte (v : Word) : hasFlag (userPte v) PTE_U = true := by
  rw [userPte, hasFlag_or, hasFlag_or, show hasFlag (PTE_W ||| PTE_U) PTE_U = true from rfl]
  simp

theorem writable_userPte (v : Word) : hasFlag (userPte v) PTE_W = true := by
  rw [userPte, hasFlag_or, hasFlag_or, show hasFlag (PTE_W ||| PTE_U) PTE_W = true from rfl]
  simp

theorem pages_le_kernel (h : sz.toNat ≤ 2 ^ 31) : pages sz ≤ 0x80000 := by
  unfold pages
  omega

/-- The kernel's half of a directory that has nothing else. -/
def KernelHalf.ofBare (h : d.Bare) : KernelHalf where
  map := d.entry
  closed n pte hentry := (h n pte hentry).2

theorem Filled.of_bare (h : d.Bare) : Filled (.ofBare h) d 0 where
  low := by decide
  user n hn := absurd hn (by simp [pages])
  clear n _ hn := by
    rw [Option.eq_none_iff_forall_ne_some]
    intro pte hpte
    have := (h n pte hpte).1
    omega
  kernel _ _ := rfl

theorem vpn_lt_pages (h : a.toNat < sz.toNat) : vpn a < pages sz := by
  unfold vpn pages
  omega

theorem Filled.holds (h : Filled κ d sz) (hn : n < pages sz) : ∃ v, d.holds (.user n) = some v := by
  obtain ⟨v, -, hentry⟩ := h.user n hn
  have := pages_le_kernel h.low
  exact ⟨_, holds_user_of_entry hentry (if_pos (.inl (by omega)))⟩

theorem Filled.access (h : Filled κ d sz) (a : Word) (w : Bool) :
    d.access a true w = true ↔ vpn a < pages sz := by
  rw [access_entry]
  constructor
  · intro hacc
    by_contra hge
    cases hentry : d.entry (vpn a) with
    | none => simp [hentry] at hacc
    | some pte =>
      by_cases hlow : vpn a < 0x80000
      · rw [h.clear _ (not_lt.mp hge) hlow] at hentry
        cases hentry
      · simp [hentry, h.kernel.user (not_lt.mp hlow) hentry] at hacc
  · intro hlt
    obtain ⟨v, hv, hentry⟩ := h.user _ hlt
    rw [hentry]
    simp [user_userPte, writable_userPte]

theorem Filled.page (h : Filled κ d sz) (ha : Aligned va) (hlt : va.toNat < sz.toNat) :
    ∃ v pte, d.walk va = some pte ∧ P2V (pteAddr pte) = d.translate va ∧
      d.holds (.user (vpn va)) = some v := by
  obtain ⟨v, -, hentry⟩ := h.user _ (vpn_lt_pages hlt)
  obtain ⟨w, hheld⟩ := h.holds (vpn_lt_pages hlt)
  refine ⟨w, _, walk_of_entry hentry, ?_, hheld⟩
  rw [translate_entry hentry, show va &&& 0xFFF#32 = 0 from ha, add_zero]

/-! ## `loaduvm` -/

theorem length_readi (h : readi ip off n = some bs) : bs.length ≤ n := by
  unfold readi at h
  split at h
  · cases h
  · rw [← Option.some.inj h]
    exact List.length_take_le _ _

theorem chunk_eq (h : i.toNat < fsz.toNat) :
    (if (fsz - i).ult PGSIZE then (fsz - i).toNat else PGSIZE.toNat) = min 4096 (fsz.toNat - i.toNat) := by
  have hsub : (fsz - i).toNat = fsz.toNat - i.toNat := BitVec.toNat_sub_of_le h.le
  have hpage : PGSIZE.toNat = 4096 := rfl
  by_cases hlt : (fsz - i).ult PGSIZE
  · rw [if_pos hlt]
    simp only [BitVec.ult, decide_eq_true_eq] at hlt
    omega
  · rw [if_neg hlt]
    simp only [BitVec.ult, decide_eq_true_eq] at hlt
    omega

theorem overlay_chunk (h : i.toNat + n ≤ 2 ^ 32) :
    overlay (overlay img addr (segment ip off i.toNat)) (addr + i) (segment ip (off + i) n) =
      overlay img addr (segment ip off (i.toNat + n)) := by
  have hi : ofNat 32 i.toNat = i := by rw [BitVec.ofNat_toNat, BitVec.setWidth_eq]
  have happ : overlay (overlay img addr (segment ip off i.toNat))
      (addr + .ofNat 32 (segment ip off i.toNat).length) (segment ip (off + i) n) = _ :=
    overlay_append (by simpa using h)
  rw [segment_length, hi] at happ
  rw [happ, segment_add, hi]

theorem stock_loaduvmLoop (hd : Filled κ d sz) (haddr : Aligned addr)
    (hin : addr.toNat + fsz.toNat ≤ sz.toNat) (fuel : Nat) (hi : Aligned i)
    (hfuel : fsz.toNat ≤ i.toNat + 4096 * fuel) :
    Triple (Stock P (overlay img addr (segment ip off (min i.toNat fsz.toNat))) d.holds hand)
      (loaduvmLoop d addr ip off fsz fuel i) (fun ok r => (∃ img', Stock P img' d.holds hand r) ∧
        (ok = true → Stock P (overlay img addr (segment ip off fsz.toNat)) d.holds hand r)) E := by
  induction fuel generalizing i with
  | zero =>
    refine .pure fun r hr => ⟨⟨_, hr⟩, fun _ => ?_⟩
    rwa [Nat.min_eq_right (by omega)] at hr
  | succ fuel ih =>
    unfold loaduvmLoop
    refine .ite (fun hlt => ?_) fun hge => .pure fun r hr => ⟨⟨_, hr⟩, fun _ => ?_⟩
    · have hlt : i.toNat < fsz.toNat := by simpa [BitVec.ult] using hlt
      have hsz := hd.low
      have hva : (addr + i).toNat = addr.toNat + i.toNat := by
        rw [toNat_add]
        omega
      have hpage : Aligned (addr + i) := by
        rw [aligned_iff] at *
        omega
      have hnext : (i + PGSIZE).toNat = i.toNat + 4096 := by
        rw [toNat_add, show PGSIZE.toNat = 4096 from rfl]
        omega
      obtain ⟨v, pte, hwalk, hpa, hheld⟩ := hd.page hpage (by omega)
      rw [hwalk, chunk_eq hlt]
      dsimp only
      rw [hpa]
      cases hread : readi ip (off + i) (min 4096 (fsz.toNat - i.toNat)) with
      | none => exact .pure fun r hr => ⟨⟨_, hr⟩, by rintro ⟨⟩⟩
      | some bs =>
        have hlen := length_readi hread
        have hfits : (addr + i).toNat % 2 ^ 12 + bs.length ≤ 2 ^ 12 := by
          rw [aligned_iff] at hpage
          omega
        refine .bind (stock_storePage hheld hfits) fun _ => ?_
        refine .ite (fun _ => .pure fun r hr => ⟨⟨_, hr⟩, by rintro ⟨⟩⟩) fun hall => ?_
        have hbs := segment_of_readi hread (not_not.mp hall)
        refine (ih (aligned_add_page hi) (by omega)).pre fun r hr => ?_
        rw [hbs, Nat.min_eq_left hlt.le, overlay_chunk (by omega)] at hr
        rwa [hnext, show min (i.toNat + 4096) fsz.toNat = i.toNat + min 4096 (fsz.toNat - i.toNat) by omega]
    · have hge : fsz.toNat ≤ i.toNat := by simpa [BitVec.ult] using hge
      rwa [Nat.min_eq_right hge] at hr

theorem stock_loaduvm (hd : Filled κ d sz) (haddr : addr.toNat % 4096 = 0)
    (hin : addr.toNat + fsz.toNat ≤ sz.toNat) :
    Triple (Stock P img d.holds hand) (loaduvm d addr ip off fsz) (fun ok r =>
      (∃ img', Stock P img' d.holds hand r) ∧
        (ok = true → Stock P (overlay img addr (segment ip off fsz.toNat)) d.holds hand r)) E := by
  unfold loaduvm
  rw [if_neg (not_not.mpr haddr)]
  refine (stock_loaduvmLoop hd (aligned_iff.mpr haddr) hin (2 ^ 20) (show Aligned 0 from rfl) ?_).pre fun r hr => ?_
  · show fsz.toNat ≤ 0 + 4096 * 2 ^ 20
    omega
  · rwa [show segment ip off (min (0 : Word).toNat fsz.toNat) = [] from rfl, overlay_nil]

/-! ## Making room -/

/-- The pages of the directory are its own, and the kernel's half is closed. -/
def Held (P : Pool) (κ : KernelHalf) (hand : Set Word) (d : PgDir) (r : Ram) : Prop :=
  (∃ img, Stock P img d.holds hand r) ∧ κ.In d

theorem toNat_le_of_pages (h : pages sz ≤ vpn a) : sz.toNat ≤ a.toNat := by
  unfold pages vpn at h
  omega

theorem Filled.grown {newsz : Word} (h : Filled κ d sz) (hnew : newsz.toNat < 2 ^ 31)
    (hle : sz.toNat ≤ newsz.toNat) (hgrown : d.Grown d' (pages sz) (pages newsz)) : Filled κ d' newsz where
  low := hnew.le
  user n hn := by
    by_cases hold : n < pages sz
    · rw [hgrown.old n (by omega)]
      exact h.user n hold
    · exact hgrown.new n (by omega) hn
  clear n h1 h2 := by
    have hpages : pages sz ≤ pages newsz := by
      unfold pages
      omega
    rw [hgrown.old n (by omega)]
    exact h.clear n (by omega) h2
  kernel := h.kernel.congr fun n hn => hgrown.old n (by have := pages_le_kernel hnew.le; omega)

theorem filled_allocuvm (newsz : Word) (hd : Filled κ d sz) (hzero : ∀ a, pages sz ≤ vpn a → img a = 0) :
    Triple (Stock P img d.holds hand) (allocuvm d sz newsz) (fun x r => Held P κ hand x.2 r ∧
      (x.1 ≠ 0 → x.1.toNat = max sz.toNat newsz.toNat ∧ Filled κ x.2 x.1 ∧
        Stock P img x.2.holds hand r)) E := by
  have hlow := hd.low
  refine (stock_allocuvm (by omega)).conseq (fun _ => id) (fun x r h => ?_) fun _ _ h => ?_
  · obtain ⟨sz', d'⟩ := x
    rcases h with ⟨-, hx, hr⟩ | ⟨hlt, hx, hr⟩ | ⟨hnew, hle, ⟨hx, -, hgrown, hr⟩ | ⟨hx, -, hentry, hr⟩⟩
    · obtain ⟨rfl, rfl⟩ := Prod.mk.inj hx
      exact ⟨⟨⟨_, hr⟩, hd.kernel⟩, fun hne => absurd rfl hne⟩
    · obtain ⟨rfl, rfl⟩ := Prod.mk.inj hx
      exact ⟨⟨⟨_, hr⟩, hd.kernel⟩, fun _ => ⟨(Nat.max_eq_left hlt.le).symm, hd, hr⟩⟩
    · obtain rfl : sz' = newsz := hx
      have hfilled := hd.grown hnew hle hgrown
      have hsame : blank img (pages sz) (pages sz') = img := by
        funext a
        by_cases ha : pages sz ≤ vpn a ∧ vpn a < pages sz'
        · rw [blank, if_pos ha, hzero a ha.1]
        · exact blank_of_not ha
      rw [hsame] at hr
      exact ⟨⟨⟨_, hr⟩, hfilled.kernel⟩, fun _ => ⟨(Nat.max_eq_right hle).symm, hfilled, hr⟩⟩
    · obtain rfl : sz' = 0 := hx
      refine ⟨⟨⟨_, hr⟩, hd.kernel.congr fun n hn => ?_⟩, fun hne => absurd rfl hne⟩
      rw [hentry, cut_apply_of_not]
      have := pages_le_kernel hnew.le
      omega
  · refine absurd (fun n h1 h2 => hd.clear n h1 ?_) h.2
    have := pages_le_kernel h.1.le
    omega

/-! ## Segments -/

/-- The program in memory when the loop comes to the next header: `sz` is filled, and user code sees `img`,
in which there is nothing above. -/
structure Loaded (P : Pool) (κ : KernelHalf) (hand : Set Word) (img : Word → Byte) (d : PgDir) (sz : Word)
    (r : Ram) : Prop where
  stock : Stock P img d.holds hand r
  filled : Filled κ d sz
  zero : ∀ a, pages sz ≤ vpn a → img a = 0

theorem overlay_above {vaddr : Word} (h : ∀ a, pages sz ≤ vpn a → img a = 0)
    (hin : vaddr.toNat + fsz.toNat ≤ sz.toNat) (off : Word) (ha : pages sz ≤ vpn a) :
    overlay img vaddr (segment ip off fsz.toNat) a = 0 := by
  have hge := toNat_le_of_pages ha
  rw [overlay_of_le, h a ha]
  rw [segment_length, BitVec.toNat_sub_of_le (by rw [BitVec.le_def]; omega)]
  omega

theorem loaded_loadSegment (ph : Proghdr) : Triple (Loaded P κ hand img d sz) (loadSegment ip ph d sz)
    (fun x r => Held P κ hand x.2.1 r ∧ (x.1 = true → x.2.2.toNat = max sz.toNat (ph.vaddr + ph.memsz).toNat ∧
      Loaded P κ hand (overlay img ph.vaddr (segment ip ph.off ph.filesz.toNat)) x.2.1 x.2.2 r)) E := by
  refine ⟨fun r₀ h₀ => ?_⟩
  obtain ⟨hstock, hd, hzero⟩ := h₀
  refine Triple.run (P := Stock P img d.holds hand) ?_ r₀ hstock
  unfold loadSegment
  refine .ite (fun _ => .pure fun r hr => ⟨⟨⟨_, hr⟩, hd.kernel⟩, nofun⟩) fun hsizes => ?_
  refine .ite (fun _ => .pure fun r hr => ⟨⟨⟨_, hr⟩, hd.kernel⟩, nofun⟩) fun hwrap => ?_
  have hsizes : ph.filesz.toNat ≤ ph.memsz.toNat := by simpa [BitVec.ult] using hsizes
  have hwrap : ph.vaddr.toNat ≤ (ph.vaddr + ph.memsz).toNat := by simpa [BitVec.ult] using hwrap
  have hsum : (ph.vaddr + ph.memsz).toNat = ph.vaddr.toNat + ph.memsz.toNat := by
    rw [toNat_add] at *
    omega
  refine .bind (filled_allocuvm _ hd hzero) fun x => ?_
  by_cases hx : x.1 = 0
  · rw [if_pos hx]
    exact .pure fun r hr => ⟨hr.1, nofun⟩
  rw [if_neg hx]
  refine .ite (fun _ => .pure fun r hr => ⟨hr.1, nofun⟩) fun halign => ⟨fun r hr => ?_⟩
  obtain ⟨hmax, hfilled, hstock⟩ := hr.2 hx
  refine Triple.run (P := Stock P img x.2.holds hand) ?_ r hstock
  have hin : ph.vaddr.toNat + ph.filesz.toNat ≤ x.1.toNat := by omega
  refine .bind (stock_loaduvm hfilled (not_not.mp halign) hin) fun ok => .pure fun r hr => ?_
  refine ⟨⟨hr.1, hfilled.kernel⟩, fun hok => ⟨hmax, hr.2 hok, hfilled, fun a ha => ?_⟩⟩
  refine overlay_above (fun b hb => hzero b (le_trans ?_ hb)) hin ph.off ha
  unfold pages
  omega

/-- What user code sees after the segments of `n` program headers were placed over `img`, the first header
being at `off`. -/
def overlays (ip : Inode) : Nat → Word → (Word → Byte) → Word → Byte
  | 0, _, img => img
  | n + 1, off, img =>
    match readAll ip off 32 with
    | none => img
    | some bs =>
      let ph := Proghdr.decode bs
      if ph.type ≠ ELF_PROG_LOAD then overlays ip n (off + 32) img
      else overlays ip n (off + 32) (overlay img ph.vaddr (segment ip ph.off ph.filesz.toNat))

/-- Where the last of these segments ends, and not below `top`. -/
def extent (ip : Inode) : Nat → Word → Nat → Nat
  | 0, _, top => top
  | n + 1, off, top =>
    match readAll ip off 32 with
    | none => top
    | some bs =>
      let ph := Proghdr.decode bs
      if ph.type ≠ ELF_PROG_LOAD then extent ip n (off + 32) top
      else extent ip n (off + 32) (max top (ph.vaddr + ph.memsz).toNat)

theorem loaded_loadSegments (ip : Inode) (n : Nat) (off : Word) :
    Triple (Loaded P κ hand img d sz) (loadSegments ip n off d sz) (fun x r => Held P κ hand x.2.1 r ∧
      (x.1 = true → x.2.2.toNat = extent ip n off sz.toNat ∧
        Loaded P κ hand (overlays ip n off img) x.2.1 x.2.2 r)) E := by
  induction n generalizing off d sz img with
  | zero => exact .pure fun r hr => ⟨⟨⟨_, hr.stock⟩, hr.filled.kernel⟩, fun _ => ⟨rfl, hr⟩⟩
  | succ n ih =>
    unfold loadSegments extent overlays
    cases readAll ip off 32 with
    | none => exact .pure fun r hr => ⟨⟨⟨_, hr.stock⟩, hr.filled.kernel⟩, nofun⟩
    | some bs =>
      dsimp only
      by_cases htype : (Proghdr.decode bs).type ≠ ELF_PROG_LOAD
      · rw [if_pos htype, if_pos htype, if_pos htype]
        exact ih (off + 32)
      · rw [if_neg htype, if_neg htype, if_neg htype]
        refine .bind (loaded_loadSegment _) fun x => ⟨fun r hr => ?_⟩
        by_cases hx : x.1 = true
        · obtain ⟨hmax, hloaded⟩ := hr.2 hx
          rw [if_pos hx, ← hmax]
          exact (ih (off + 32)).run r hloaded
        · rw [if_neg hx]
          exact ⟨hr.1, fun h => absurd h hx⟩

theorem loadSegments_add (m n : Nat) (off : Word) (d : PgDir) (sz : Word) :
    loadSegments ip (m + n) off d sz = loadSegments ip m off d sz >>= fun x =>
      if x.1 then loadSegments ip n (off + .ofNat 32 (32 * m)) x.2.1 x.2.2 else pure x := by
  induction m generalizing off d sz with
  | zero =>
    rw [Nat.zero_add]
    show _ = loadSegments ip n (off + 0) d sz
    rw [add_zero]
  | succ m ih =>
    have hoff : off + 32 + .ofNat 32 (32 * m) = off + .ofNat 32 (32 * (m + 1)) := by
      rw [Nat.mul_add, Nat.add_comm, BitVec.ofNat_add, ← BitVec.add_assoc]
      rfl
    rw [Nat.add_right_comm, loadSegments, loadSegments]
    cases readAll ip off 32 with
    | none => rfl
    | some bs =>
      dsimp only
      by_cases htype : (Proghdr.decode bs).type ≠ ELF_PROG_LOAD
      · rw [if_pos htype, if_pos htype, ih, hoff]
      · rw [if_neg htype, if_neg htype, bind_assoc]
        refine congrArg _ (funext fun x => ?_)
        by_cases hx : x.1 = true
        · rw [if_pos hx, if_pos hx, ih, hoff]
        · rw [if_neg hx, if_neg hx, pure_bind, if_neg hx]

/-- What user code has after `k` headers: the pages below the size and no others, and in them zeros with the
segments over them. -/
structure LoadedExactly (ip : Inode) (k : Nat) (off : Word) (d : PgDir) (sz : Word) (r : Ram) : Prop where
  user : ∀ a w, d.access a true w = true ↔ vpn a < pages sz
  present : ∀ n < 0x80000, d.entry n ≠ none ↔ n < pages sz
  content : ∀ a, vpn a < pages sz → r.mem (d.translate a) = overlays ip k off (fun _ => 0) a

theorem Loaded.exactly {k : Nat} (h : Loaded P κ hand (overlays ip k off fun _ => 0) d sz r) :
    LoadedExactly ip k off d sz r where
  user := h.filled.access
  present n hn := by
    constructor
    · intro hne
      by_contra hge
      exact hne (h.filled.clear n (not_lt.mp hge) hn)
    · intro hlt
      obtain ⟨v, -, hv⟩ := h.filled.user n hlt
      simp [hv]
  content a ha := by
    obtain ⟨v, -, hv⟩ := h.filled.user _ ha
    have := pages_le_kernel h.filled.low
    exact stock_reads h.stock (by omega) (by simp [hv])

/-! ## The program of a file -/

/-- The bytes of the header. -/
def elf (ip : Inode) : Bytes := (readAll ip 0 52).getD []

/-- What user code sees when the program is loaded. -/
def imageOf (ip : Inode) : Word → Byte :=
  overlays ip (Elfhdr.decode (elf ip)).phnum (Elfhdr.decode (elf ip)).phoff fun _ => 0

/-- The pages of the program with its stack. -/
def pagesOf (ip : Inode) : Nat :=
  (extent ip (Elfhdr.decode (elf ip)).phnum (Elfhdr.decode (elf ip)).phoff 0 + 4095) / 4096 + 2

section Content
variable {jp : Inode} (h : jp.data = ip.data)
include h

theorem readAll_congr (off : Word) (n : Nat) : readAll jp off n = readAll ip off n := by
  unfold readAll readi
  rw [h]

theorem overlays_congr (n : Nat) (off : Word) (img : Word → Byte) :
    overlays jp n off img = overlays ip n off img := by
  induction n generalizing off img with
  | zero => rfl
  | succ n ih =>
    unfold overlays segment
    rw [readAll_congr h, h]
    simp only [ih]

theorem extent_congr (n : Nat) (off : Word) (top : Nat) : extent jp n off top = extent ip n off top := by
  induction n generalizing off top with
  | zero => rfl
  | succ n ih =>
    unfold extent
    rw [readAll_congr h]
    simp only [ih]

theorem elf_congr : elf jp = elf ip := by rw [elf, elf, readAll_congr h]

theorem imageOf_congr : imageOf jp = imageOf ip := by
  rw [imageOf, imageOf, elf_congr h, overlays_congr h]

theorem pagesOf_congr : pagesOf jp = pagesOf ip := by
  rw [pagesOf, pagesOf, elf_congr h, extent_congr h]

end Content

end Xv6.Exec

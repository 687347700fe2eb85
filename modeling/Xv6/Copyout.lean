import Xv6.Boot
import Xv6.Exec
import Xv6.FirstTouch
import Xv6.Lib.Scatter

/-!
# Copying to user pages

`uva2ka` looks at the entry before it looks at the pointer to it, so for an address without a page table it
reads through a null pointer. `copyout_users`: outside the page tables `copyout` does what it should exactly
when the first page that it cannot write to has a page table, no page is the one at address `0` of the
kernel, and no two bytes of the range that are one byte of memory are given different values.

What is found through the null pointer is a parameter of `copyoutWith`; "it is not followed" means that the
parameter makes no difference.
-/

namespace Xv6.Exec

open Hoare
open BitVec (toNat_add toNat_ofNat ofNat)

variable {p : Fin NPROC} {d : PgDir} {va : Word} {buf : Bytes} {s : State}

theorem copyout_eq (fuel : Nat) (va : Word) (buf : Bytes) :
    copyout p d fuel va buf = copyoutWith (nullEntry p) d fuel va buf := rfl

/-! ## One page -/

/-- The state with other contents of memory. -/
def withMem (s : State) (m : Word → Byte) : State := { s with ram := { s.ram with mem := m } }

variable {k : Nat}

section
variable (h : va.toNat % 2 ^ 12 + k < 2 ^ 12)
include h

theorem toNat_add_inPage : (va + .ofNat 32 k).toNat = va.toNat + k := by
  rw [toNat_add, toNat_ofNat]
  omega

theorem vpn_add_inPage : vpn (va + .ofNat 32 k) = vpn va := by
  rw [vpn, vpn, toNat_add_inPage h]
  omega

theorem translate_add : d.translate (va + .ofNat 32 k) = d.translate va + .ofNat 32 k := by
  have hlow : (va + .ofNat 32 k) &&& 0xFFF#32 = (va &&& 0xFFF#32) + .ofNat 32 k := by
    rw [← BitVec.toNat_inj, toNat_and_low, toNat_add_inPage h, toNat_add, toNat_and_low,
      toNat_ofNat]
    omega
  rw [PgDir.translate, PgDir.translate, vpn_add_inPage h, hlow, BitVec.add_assoc]

end

theorem sub_pgRoundDown (va : Word) : va - pgRoundDown va = va &&& 0xFFF#32 :=
  sub_eq_of_eq_add (low_add_high va).symm

theorem pgRoundDown_next (va : Word) :
    pgRoundDown va + PGSIZE = va + .ofNat 32 (4096 - va.toNat % 2 ^ 12) := by
  rw [← BitVec.toNat_inj, toNat_add, toNat_add, toNat_pgRoundDown, toNat_ofNat,
    show PGSIZE.toNat = 4096 from rfl]
  omega

theorem add_ofNat_add (va : Word) (m n : Nat) : va + .ofNat 32 m + .ofNat 32 n = va + .ofNat 32 (m + n) := by
  rw [BitVec.ofNat_add, BitVec.add_assoc]

theorem scattered_storeBytes (dst : Word) {bs : Bytes} (hlen : bs.length ≤ 2 ^ 32) (m : Word → Byte) :
    Scattered (fun k => dst + .ofNat 32 k) bs m
      (fun a => if (a - dst).toNat < bs.length then bs.getD (a - dst).toNat 0 else m a) where
  other a ha := by
    refine if_neg fun hlt => ha _ hlt ?_
    rw [BitVec.ofNat_toNat, BitVec.setWidth_eq, add_sub_cancel]
  hit k hk := by
    have hoff : (dst + .ofNat 32 k - dst).toNat = k := by
      rw [add_sub_cancel_left, toNat_ofNat, Nat.mod_eq_of_lt (by omega)]
    refine ⟨k, hk, rfl, ?_⟩
    rw [hoff, if_pos hk, List.getD_eq_getElem?_getD, List.getElem?_eq_getElem hk, Option.getD_some]

/-- The kernel address for the page of `va`: `0` if it is not present with `PTE_U`, and if it is the one
physical page that the kernel has at address `0`. -/
def kernelAddr (d : PgDir) (va : Word) : Word :=
  if d.access va true false then P2V (pteAddr (d.pte (vpn va))) else 0

theorem access_of_kernelAddr (h : kernelAddr d va ≠ 0) : d.access va true false := by
  by_contra hacc
  exact h (if_neg hacc)

theorem kernelAddr_congr {a b : Word} (h : vpn a = vpn b) : kernelAddr d a = kernelAddr d b := by
  rw [kernelAddr, kernelAddr, access_congr h, h]

theorem walk_of_access {u w : Bool} (h : d.access va u w) : ∃ pte, d.walk va = some pte := by
  unfold PgDir.access at h
  cases hw : d.walk va with
  | none => simp [hw] at h
  | some pte => exact ⟨pte, rfl⟩

variable {null : K Word} {pte : Word}

theorem walk_pgRoundDown (d : PgDir) (va : Word) : d.walk (pgRoundDown va) = d.walk va :=
  walk_congr (vpn_pgRoundDown va)

theorem uva2ka_some (hw : d.walk va = some pte) (s : State) :
    uva2ka null d (pgRoundDown va) s = .ok (kernelAddr d va) s := by
  have hpte := pte_of_walk hw
  unfold uva2ka entryWith
  rw [walk_pgRoundDown, hw, bind_ok (pure_run pte s), kernelAddr, PgDir.access, hw, hpte]
  by_cases hP : hasFlag pte PTE_P <;> by_cases hU : hasFlag pte PTE_U <;> simp [hP, hU] <;> rfl

/-- The number of bytes that go into the first page. -/
def inPage (va : Word) (buf : Bytes) : Nat := min (4096 - va.toNat % 2 ^ 12) buf.length

theorem inPage_lt (hk : k < inPage va buf) : va.toNat % 2 ^ 12 + k < 2 ^ 12 := by
  unfold inPage at hk
  omega

theorem copyoutWith_nil (null : K Word) (d : PgDir) (fuel : Nat) (va : Word) (s : State) :
    copyoutWith null d fuel va [] s = .ok true s := by
  cases fuel with
  | zero => rfl
  | succ fuel =>
    rw [copyoutWith, if_pos List.length_nil]
    rfl

theorem copyoutWith_page (hb : buf.length ≠ 0) (hka : kernelAddr d va ≠ 0) (s : State) :
    ∃ m, Scattered (fun k => d.translate (va + .ofNat 32 k)) (buf.take (inPage va buf)) s.ram.mem m ∧
      ∀ null fuel, copyoutWith null d (fuel + 1) va buf s =
        copyoutWith null d fuel (pgRoundDown va + PGSIZE) (buf.drop (inPage va buf)) (withMem s m) := by
  obtain ⟨pte, hw⟩ := walk_of_access (access_of_kernelAddr hka)
  have hlen : (buf.take (inPage va buf)).length = inPage va buf := by
    rw [List.length_take, inPage]
    omega
  have hdst : kernelAddr d va + (va - pgRoundDown va) = d.translate va := by
    rw [kernelAddr, if_pos (access_of_kernelAddr hka), sub_pgRoundDown, PgDir.translate]
  have hsmall : (buf.take (inPage va buf)).length ≤ 2 ^ 32 := by
    rw [hlen, inPage]
    omega
  have hscat := scattered_storeBytes (d.translate va) hsmall s.ram.mem
  refine ⟨_, hscat.congr fun k hk => translate_add ?_, fun null fuel => ?_⟩
  · rw [hlen] at hk
    exact inPage_lt hk
  · have hn : min (4096 - (va - pgRoundDown va).toNat) buf.length = inPage va buf := by
      rw [sub_pgRoundDown, toNat_and_low, inPage]
    rw [copyoutWith, if_neg hb, bind_ok (uva2ka_some hw s), if_neg hka, hdst, hn]
    rfl

theorem copyoutWith_stop (hb : buf.length ≠ 0) (hw : d.walk va = some pte)
    (hka : kernelAddr d va = 0) (fuel : Nat) (s : State) :
    copyoutWith null d (fuel + 1) va buf s = .ok false s := by
  rw [copyoutWith, if_neg hb, bind_ok (uva2ka_some hw s), if_pos hka]
  rfl

/-- A page without a table makes it follow the null pointer, and what is there decides: it may be the end
of the kernel ... -/
theorem copyoutWith_throw (e : Stop) (hb : buf.length ≠ 0) (hw : d.walk va = none) (fuel : Nat)
    (s : State) : copyoutWith (throw e) d (fuel + 1) va buf s = .error e s := by
  rw [copyoutWith, if_neg hb, uva2ka, entryWith, walk_pgRoundDown, hw]
  rfl

theorem copyoutWith_zero (hb : buf.length ≠ 0) (hw : d.walk va = none) (fuel : Nat) (s : State) :
    copyoutWith (pure 0) d (fuel + 1) va buf s = .ok false s := by
  rw [copyoutWith, if_neg hb, uva2ka, entryWith, walk_pgRoundDown, hw]
  rfl

/-! ## The whole range -/

/-- Every page that meets the range of `n` bytes is present with `PTE_U`. -/
def UserRange (d : PgDir) (va : Word) (n : Nat) : Prop :=
  ∀ k < n, d.access (va + ofNat 32 k) true false

/-- `uva2ka` has an address for every page of the range. -/
def CopyRange (d : PgDir) (va : Word) (n : Nat) : Prop :=
  ∀ k < n, kernelAddr d (va + ofNat 32 k) ≠ 0

/-- The first page of the range that `uva2ka` has no address for, if there is one, has a page table. -/
def TablesMet (d : PgDir) (va : Word) (n : Nat) : Prop :=
  ∀ k < n, CopyRange d va k → d.walk (va + ofNat 32 k) ≠ none

theorem copyRange_inPage (hka : kernelAddr d va ≠ 0) : CopyRange d va (inPage va buf) := by
  intro k hk
  rwa [kernelAddr_congr (vpn_add_inPage (inPage_lt hk))]

variable {m n : Nat}

theorem CopyRange.user (h : CopyRange d va n) : UserRange d va n :=
  fun k hk => access_of_kernelAddr (h k hk)

theorem CopyRange.add (h : CopyRange d va m)
    (h' : CopyRange d (va + .ofNat 32 m) n) : CopyRange d va (m + n) := by
  intro k hk
  by_cases hkm : k < m
  · exact h k hkm
  · have := h' (k - m) (by omega)
    rwa [add_ofNat_add, Nat.add_sub_cancel' (by omega)] at this

theorem TablesMet.drop (h : TablesMet d va (m + n)) (hm : CopyRange d va m) :
    TablesMet d (va + .ofNat 32 m) n := by
  intro k hk huser
  rw [add_ofNat_add]
  exact h _ (by omega) (hm.add huser)

/-- What `copyout` has done when it comes back with `done` after `n` bytes. -/
structure Copied (d : PgDir) (va : Word) (buf : Bytes) (m : Word → Byte) (done : Bool) (n : Nat)
    (m' : Word → Byte) : Prop where
  le : n ≤ buf.length
  range : CopyRange d va n
  done_iff : done = true ↔ n = buf.length
  stop : n < buf.length → kernelAddr d (va + ofNat 32 n) = 0
  bytes : Scattered (fun k => d.translate (va + ofNat 32 k)) (buf.take n) m m'

theorem Copied.nil (m : Word → Byte) : Copied d va [] m true 0 m :=
  ⟨le_rfl, nofun, by simp, nofun, .nil _ _⟩

theorem Copied.cons {m m₁ m₂ : Word → Byte} {done : Bool} (hka : kernelAddr d va ≠ 0)
    (hpage : Scattered (fun k => d.translate (va + .ofNat 32 k)) (buf.take (inPage va buf)) m m₁)
    (h : Copied d (va + .ofNat 32 (inPage va buf)) (buf.drop (inPage va buf)) m₁ done n m₂) :
    Copied d va buf m done (inPage va buf + n) m₂ := by
  have hle := h.le
  have hin : inPage va buf ≤ buf.length := Nat.min_le_right _ _
  have hdone := h.done_iff
  have hstop := h.stop
  rw [List.length_drop] at hle hdone hstop
  refine ⟨by omega, (copyRange_inPage hka).add h.range, hdone.trans (by omega), fun hlt => ?_, ?_⟩
  · rw [← add_ofNat_add]
    exact hstop (by omega)
  · rw [List.take_add]
    refine hpage.append (h.bytes.congr fun k _ => ?_)
    rw [List.length_take, Nat.min_eq_left hin, add_ofNat_add]

theorem copyoutWith_next (hb : buf.length ≠ 0) (hka : kernelAddr d va ≠ 0) (s : State) :
    ∃ m, Scattered (fun k => d.translate (va + .ofNat 32 k)) (buf.take (inPage va buf)) s.ram.mem m ∧
      ∀ null fuel, copyoutWith null d (fuel + 1) va buf s = copyoutWith null d fuel
        (va + .ofNat 32 (inPage va buf)) (buf.drop (inPage va buf)) (withMem s m) := by
  obtain ⟨m, hpage, hrun⟩ := copyoutWith_page hb hka s
  refine ⟨m, hpage, fun null fuel => (hrun null fuel).trans ?_⟩
  by_cases hall : inPage va buf = buf.length
  · -- nothing is left, so the address does not matter
    rw [hall, List.drop_length, copyoutWith_nil, copyoutWith_nil]
  · rw [pgRoundDown_next, show inPage va buf = 4096 - va.toNat % 2 ^ 12 by
      unfold inPage at hall ⊢
      omega]

theorem inPage_pos (hb : buf.length ≠ 0) : 0 < inPage va buf := by
  unfold inPage
  omega

theorem inPage_le : inPage va buf ≤ buf.length := Nat.min_le_right _ _

theorem copyoutWith_run (fuel : Nat) (hfuel : buf.length ≤ fuel) (htab : TablesMet d va buf.length)
    (s : State) : ∃ done n m, Copied d va buf s.ram.mem done n m ∧
      ∀ null, copyoutWith null d fuel va buf s = .ok done (withMem s m) := by
  induction fuel generalizing va buf s with
  | zero =>
    obtain rfl := List.eq_nil_of_length_eq_zero (Nat.le_zero.mp hfuel)
    exact ⟨true, 0, s.ram.mem, .nil _, fun null => copyoutWith_nil null d 0 va s⟩
  | succ fuel ih =>
    by_cases hb : buf.length = 0
    · obtain rfl := List.eq_nil_of_length_eq_zero hb
      exact ⟨true, 0, s.ram.mem, .nil _, fun null => copyoutWith_nil null d _ va s⟩
    by_cases hka : kernelAddr d va = 0
    · obtain ⟨pte, hw⟩ := Option.ne_none_iff_exists'.mp (htab 0 (by omega) nofun)
      rw [BitVec.add_zero] at hw
      refine ⟨false, 0, s.ram.mem, ⟨Nat.zero_le _, nofun, by simp; omega, fun _ => ?_, .nil _ _⟩,
        fun null => copyoutWith_stop hb hw hka fuel s⟩
      rwa [BitVec.add_zero]
    · obtain ⟨m₁, hpage, hrun⟩ := copyoutWith_next hb hka s
      have hpos : 0 < inPage va buf := inPage_pos hb
      have htab' : TablesMet d (va + .ofNat 32 (inPage va buf))
          (buf.drop (inPage va buf)).length := by
        refine TablesMet.drop ?_ (copyRange_inPage hka)
        rwa [List.length_drop, Nat.add_sub_cancel' inPage_le]
      obtain ⟨done, n, m, hcop, hrest⟩ := ih (by rw [List.length_drop]; omega) htab' (withMem s m₁)
      refine ⟨done, inPage va buf + n, m, hcop.cons hka hpage, fun null => ?_⟩
      rw [hrun, hrest]
      rfl

theorem copyoutWith_meets (fuel : Nat) (hfuel : buf.length ≤ fuel) (hk : k < buf.length)
    (hrange : CopyRange d va k) (hnone : d.walk (va + .ofNat 32 k) = none) (s : State) :
    ∃ m, copyoutWith (throw .wild) d fuel va buf s = .error .wild (withMem s m) ∧
      copyoutWith (pure 0) d fuel va buf s = .ok false (withMem s m) := by
  induction fuel generalizing va buf s k with
  | zero => omega
  | succ fuel ih =>
    have hb : buf.length ≠ 0 := by omega
    by_cases hw : d.walk va = none
    · exact ⟨s.ram.mem, copyoutWith_throw _ hb hw fuel s, copyoutWith_zero hb hw fuel s⟩
    -- the page of `va` is not the one, so it comes before
    have hin : inPage va buf ≤ k := by
      by_contra hlt
      exact hw ((walk_congr (vpn_add_inPage (inPage_lt (not_le.mp hlt)))).symm.trans hnone)
    have hka : kernelAddr d va ≠ 0 := by
      have := hrange 0 (lt_of_lt_of_le (inPage_pos hb) hin)
      rwa [BitVec.add_zero] at this
    obtain ⟨m₁, -, hrun⟩ := copyoutWith_next hb hka s
    have hpos : 0 < inPage va buf := inPage_pos hb
    have hlen : (buf.drop (inPage va buf)).length = buf.length - inPage va buf := List.length_drop
    have hfuel' : (buf.drop (inPage va buf)).length ≤ fuel := by omega
    have hk' : k - inPage va buf < (buf.drop (inPage va buf)).length := by omega
    have hrest : CopyRange d (va + .ofNat 32 (inPage va buf)) (k - inPage va buf) := by
      intro j hj
      rw [add_ofNat_add]
      exact hrange _ (by omega)
    have hnone' : d.walk (va + .ofNat 32 (inPage va buf) + ofNat 32 (k - inPage va buf)) = none := by
      rwa [add_ofNat_add, Nat.add_sub_cancel' hin]
    obtain ⟨m, hthrow, hzero⟩ := ih hfuel' hk' hrest hnone' (withMem s m₁)
    exact ⟨m, (hrun _ fuel).trans hthrow, (hrun _ fuel).trans hzero⟩

/-! ## What `copyout` is for -/

/-- The memory `m'` after the bytes `buf` were copied to `va`: they are there, and the rest is as in `m`. -/
def Holds (d : PgDir) (va : Word) (buf : Bytes) (m m' : Word → Byte) : Prop :=
  (∀ k, ∀ hk : k < buf.length, m' (d.translate (va + ofNat 32 k)) = buf[k]) ∧
    ∀ a, (∀ k < buf.length, d.translate (va + ofNat 32 k) ≠ a) → m' a = m a

/-- Address `a` of the kernel is in the page directory or in one of its page tables. -/
def InTables (d : PgDir) (a : Word) : Prop :=
  pgRoundDown a = d.page ∨ ∃ j < NPDENTRIES, hasFlag (d.pde j) PTE_P ∧ pgRoundDown a = P2V (pteAddr (d.pde j))

instance (d : PgDir) : DecidablePred (InTables d) := fun _ => inferInstanceAs (Decidable (_ ∨ _))

/-- `copyout` of `buf` to `va` touches user pages only. -/
structure CopiesOut (p : Fin NPROC) (d : PgDir) (va : Word) (buf : Bytes) (s : State) : Prop where
  /-- It does not follow a null pointer: what is there makes no difference. -/
  noNull : ∀ null, copyoutWith null d buf.length va buf s = copyout p d buf.length va buf s
  /-- It returns, with `0` exactly if all pages are for user code. Then the bytes are there; otherwise
  only user pages of the range have changed. The page tables are as they were. -/
  returns : ∃ done m, copyout p d buf.length va buf s = .ok done (withMem s m) ∧
    (done = true ↔ UserRange d va buf.length) ∧ (done = true → Holds d va buf s.ram.mem m) ∧
    (done = false → ∀ a, m a ≠ s.ram.mem a → ∃ k < buf.length,
      d.access (va + ofNat 32 k) true false ∧ d.translate (va + ofNat 32 k) = a) ∧
    ∀ a, InTables d a → m a = s.ram.mem a

/-- Bytes of the range that are one byte of memory get one value. -/
def OneValue (d : PgDir) (va : Word) (buf : Bytes) : Prop :=
  ∀ j, ∀ hj : j < buf.length, ∀ k, ∀ hk : k < buf.length,
    d.translate (va + ofNat 32 j) = d.translate (va + ofNat 32 k) → buf[j] = buf[k]

/-- No byte of the range is in the page tables, which would change under `copyout` otherwise. -/
def OffTables (d : PgDir) (va : Word) (n : Nat) : Prop :=
  ∀ k < n, kernelAddr d (va + ofNat 32 k) ≠ 0 → ¬ InTables d (d.translate (va + ofNat 32 k))

theorem copiesOut_of_tables (hoff : OffTables d va buf.length) (htab : TablesMet d va buf.length)
    (hone : UserRange d va buf.length → CopyRange d va buf.length ∧ OneValue d va buf) :
    CopiesOut p d va buf s := by
  obtain ⟨done, n, m, hcop, hrun⟩ := copyoutWith_run buf.length le_rfl htab s
  have hlt : ∀ k < (buf.take n).length, k < buf.length ∧ k < n := by
    intro k hk
    rw [List.length_take] at hk
    omega
  refine ⟨fun null => by rw [copyout_eq, hrun, hrun], done, m, by rw [copyout_eq, hrun], ?_, ?_, ?_, ?_⟩
  · rw [hcop.done_iff]
    refine ⟨fun hn => hn ▸ hcop.range.user, fun huser => ?_⟩
    by_contra hne
    have hn := lt_of_le_of_ne hcop.le hne
    exact (hone huser).1 n hn (hcop.stop hn)
  · intro hdone
    obtain rfl := hcop.done_iff.mp hdone
    have hbytes := hcop.bytes
    rw [List.take_length] at hbytes
    exact ⟨fun k hk => hbytes.value hk fun j hj => (hone hcop.range.user).2 j hj k hk, hbytes.other⟩
  · intro _ a ha
    by_contra hnot
    refine ha (hcop.bytes.other a fun k hk htr => hnot ⟨k, (hlt k hk).1, ?_, htr⟩)
    exact hcop.range.user k (hlt k hk).2
  · refine fun a ha => hcop.bytes.other a fun k hk htr => ?_
    exact hoff k (hlt k hk).1 (hcop.range k (hlt k hk).2) (htr ▸ ha)

theorem tablesMet_of_copiesOut (h : CopiesOut p d va buf s) : TablesMet d va buf.length := by
  intro k hk hrange hnone
  obtain ⟨m, hthrow, hzero⟩ := copyoutWith_meets buf.length le_rfl hk hrange hnone s
  rw [h.noNull, ← h.noNull (pure 0), hzero] at hthrow
  cases hthrow

theorem range_of_copiesOut (h : CopiesOut p d va buf s) (huser : UserRange d va buf.length) :
    CopyRange d va buf.length ∧ OneValue d va buf := by
  obtain ⟨_, n, _, hcop, hall⟩ := copyoutWith_run buf.length le_rfl (tablesMet_of_copiesOut h) s
  obtain ⟨done, m, hrun, hdone, hholds, -⟩ := h.returns
  rw [copyout_eq, hall] at hrun
  injection hrun with hsame
  subst hsame
  refine ⟨hcop.done_iff.mp (hdone.mpr huser) ▸ hcop.range, fun j hj k hk htr => ?_⟩
  have hbytes := (hholds (hdone.mpr huser)).1
  rw [← hbytes j hj, ← hbytes k hk, htr]

/-- The four bytes of `w` at the kernel address `a`. -/
def poke (s : State) (a w : Word) : State :=
  withMem s fun x => if (x - a).toNat < 4 then (wordBytes w).getD (x - a).toNat 0 else s.ram.mem x

/-- Process 1 has a word at address `0` that looks like an entry for a free page. -/
def bootLure : State := poke boot ((boot.proc 1).pgdir.translate 0) (V2P (bootPage 200) ||| 7)

end Xv6.Exec

import Xv6.State

/-!
# Pages and page tables

`kalloc.c` and `vm.c`. The page allocator is a stack of pages. A page directory is a value: the functions
that write through a `pde_t *` return the directory as they leave it. A function that returns `0` or a
negative number on failure returns `none` or `false` here.
-/

namespace Xv6

/-! ## `kalloc.c` -/

/-- The test at the head of `kfree`, turned around: `v` is the address of a page the allocator manages. -/
def Ram.isPage (r : Ram) (v : Word) : Bool :=
  v &&& 0xFFF#32 == 0 && !v.ult r.kend && (V2P v).ult PHYSTOP

def memset (dst : Word) (c : Byte) : RamM Unit :=
  modify fun r => { r with mem := fun a => if (a - dst).toNat < 4096 then c else r.mem a }

/-- `memmove(dst, src, PGSIZE)`. -/
def memmove (dst src : Word) : RamM Unit :=
  modify fun r =>
    { r with mem := fun a => if (a - dst).toNat < 4096 then r.mem (src + (a - dst)) else r.mem a }

def emit (e : Event) : RamM Unit := modify fun r => { r with trace := e :: r.trace }

def kfree (v : Word) : RamM Unit := do
  let r ← get
  emit (.kfree v (r.isPage v && !r.freelist.contains v))
  if r.isPage v then do
    -- Fill with junk to catch dangling refs.
    memset v 1
    modify fun r => { r with freelist := v :: r.freelist }
  else
    panic "kfree"

def kalloc : RamM (Option Word) := fun r =>
  match r.freelist with
  | [] => .ok none r
  | v :: fl => .ok (some v) { r with freelist := fl }

/-! ## Walking a page directory -/

namespace PgDir

/-- `walkpgdir(d, va, 0)` and the entry it points to; `none` when there is no page table. -/
def walk (d : PgDir) (va : Word) : Option Word :=
  if hasFlag (d.pde (pdx va)) PTE_P then some (d.pte (vpn va)) else none

/-- A page table of zeros is put under directory index `k`. -/
def setTable (d : PgDir) (k : Nat) (pgtab : Word) : PgDir :=
  { d with
    pde := Function.update d.pde k (V2P pgtab ||| PTE_P ||| PTE_W ||| PTE_U)
    pte := fun n => if n / NPDENTRIES = k then 0 else d.pte n }

def setPte (d : PgDir) (n : Nat) (pte : Word) : PgDir :=
  { d with pte := Function.update d.pte n pte }

section Fields
variable (d : PgDir) (k n : Nat) (w : Word)

theorem setTable_pde (j : Nat) : (d.setTable k w).pde j =
    if j = k then V2P w ||| PTE_P ||| PTE_W ||| PTE_U else d.pde j := by
  simp [setTable, Function.update_apply]

theorem setTable_pte : (d.setTable k w).pte n = if n / NPDENTRIES = k then 0 else d.pte n := rfl

@[simp] theorem setPte_pde : (d.setPte n w).pde = d.pde := rfl

theorem setPte_pte (m : Nat) : (d.setPte n w).pte m = if m = n then w else d.pte m := by
  simp [setPte, Function.update_apply]

theorem hasFlag_table : hasFlag (V2P w ||| PTE_P ||| PTE_W ||| PTE_U) PTE_P = true := by
  have hswap : V2P w ||| PTE_P ||| PTE_W ||| PTE_U = V2P w ||| PTE_W ||| PTE_U ||| PTE_P := by
    ac_rfl
  rw [hswap]
  exact hasFlag_entry _

end Fields

/-- The hardware lets the access through: the page is there, user code only reaches user pages, and
nobody writes a read-only page (the kernel runs with `CR0_WP` set). -/
def access (d : PgDir) (va : Word) (user write : Bool) : Bool :=
  match d.walk va with
  | none => false
  | some pte =>
    hasFlag pte PTE_P && (!user || hasFlag pte PTE_U) && (!write || hasFlag pte PTE_W)

/-- Where the hardware finds the byte at `va`. -/
def translate (d : PgDir) (va : Word) : Word :=
  P2V (pteAddr (d.pte (vpn va))) + (va &&& 0xFFF#32)

end PgDir

/-- `walkpgdir(d, va, 1)`: make sure that there is a page table for `va`. -/
def walkpgdir (d : PgDir) (va : Word) : RamM (Option PgDir) := do
  if hasFlag (d.pde (pdx va)) PTE_P then
    pure (some d)
  else
    match ← kalloc with
    | none => pure none
    | some pgtab => do
      memset pgtab 0
      pure (some (d.setTable (pdx va) pgtab))

/-- The loop of `mappages` with `n` more pages to go after the one at `a`. -/
def mappagesLoop (perm : Word) : Nat → PgDir → Word → Word → RamM (Bool × PgDir)
  | n, d, a, pa => do
    match ← walkpgdir d a with
    | none => pure (false, d)
    | some d =>
      if hasFlag (d.pte (vpn a)) PTE_P then
        panic "remap"
      else
        let d := d.setPte (vpn a) (pa ||| perm ||| PTE_P)
        match n with
        | 0 => pure (true, d)
        | n + 1 => mappagesLoop perm n d (a + PGSIZE) (pa + PGSIZE)

/-- The loop stops when `a` is the page of the last byte, so it runs once for every page between. -/
def mappages (d : PgDir) (va size pa perm : Word) : RamM (Bool × PgDir) :=
  let a := pgRoundDown va
  let last := pgRoundDown (va + size - 1)
  mappagesLoop perm (vpn (last - a)) d a pa

/-! ## Taking a page directory down -/

/-- The loop of `deallocuvm`. A run of `2 ^ 20` iterations has seen every page. -/
def deallocuvmLoop (oldsz : Word) : Nat → PgDir → Word → RamM PgDir
  | 0, d, _ => pure d
  | fuel + 1, d, a =>
    if a.ult oldsz then
      match d.walk a with
      | none =>
        -- No page table: go on at the next one.
        deallocuvmLoop oldsz fuel d (BitVec.ofNat 32 ((pdx a + 1) * 2 ^ 22))
      | some pte =>
        if hasFlag pte PTE_P then
          if pteAddr pte = 0 then
            panic "kfree"
          else do
            kfree (P2V (pteAddr pte))
            deallocuvmLoop oldsz fuel (d.setPte (vpn a) 0) (a + PGSIZE)
        else
          deallocuvmLoop oldsz fuel d (a + PGSIZE)
    else
      pure d

def deallocuvm (d : PgDir) (oldsz newsz : Word) : RamM (Word × PgDir) :=
  if !newsz.ult oldsz then
    pure (oldsz, d)
  else do
    let d ← deallocuvmLoop oldsz (2 ^ 20) d (pgRoundUp newsz)
    pure (newsz, d)

/-- Free the page tables under the directory indices `l`. -/
def freeTables (d : PgDir) (l : List Nat) : RamM Unit :=
  l.forM fun i => if hasFlag (d.pde i) PTE_P then kfree (P2V (pteAddr (d.pde i))) else pure ()

def freevm (d : PgDir) : RamM Unit :=
  if d.page = 0 then
    panic "freevm: no pgdir"
  else do
    let r ← deallocuvm d KERNBASE 0
    freeTables r.2 (List.range NPDENTRIES)
    kfree d.page

/-! ## Making a page directory -/

structure Kmap where
  virt : Word
  physStart : Word
  physEnd : Word
  perm : Word

/-- The kernel's mappings, which are present in every process's page table. -/
def kmap (data : Word) : List Kmap :=
  [⟨KERNBASE, 0, EXTMEM, PTE_W⟩, ⟨KERNLINK, V2P KERNLINK, V2P data, 0⟩, ⟨data, V2P data, PHYSTOP, PTE_W⟩,
   ⟨DEVSPACE, DEVSPACE, 0, PTE_W⟩]

def setupkvmLoop : List Kmap → PgDir → RamM (Option PgDir)
  | [], d => pure (some d)
  | k :: ks, d => do
    let r ← mappages d k.virt (k.physEnd - k.physStart) k.physStart k.perm
    if r.1 then
      setupkvmLoop ks r.2
    else do
      freevm r.2
      pure none

def setupkvm : RamM (Option PgDir) := do
  match ← kalloc with
  | none => pure none
  | some pgdir => do
    memset pgdir 0
    if DEVSPACE.ult (P2V PHYSTOP) then
      panic "PHYSTOP too high"
    else do
      let r ← get
      setupkvmLoop (kmap r.kdata) { PgDir.null with page := pgdir }

/-- The loop of `copyuvm` with `n` pages to go, the next one at `i`. -/
def copyuvmLoop (pgdir : PgDir) : Nat → Word → PgDir → RamM (Option PgDir)
  | 0, _, d => pure (some d)
  | n + 1, i, d =>
    match pgdir.walk i with
    | none => panic "copyuvm: pte should exist"
    | some pte =>
      if !hasFlag pte PTE_P then
        panic "copyuvm: page not present"
      else do
        match ← kalloc with
        | none => do
          freevm d
          pure none
        | some mem => do
          memmove mem (P2V (pteAddr pte))
          let r ← mappages d i PGSIZE (V2P mem) (pteFlags pte)
          if r.1 then
            copyuvmLoop pgdir n (i + PGSIZE) r.2
          else do
            kfree mem
            freevm r.2
            pure none

/-- Given a parent process's page table, create a copy of it for a child. -/
def copyuvm (pgdir : PgDir) (sz : Word) : RamM (Option PgDir) := do
  match ← setupkvm with
  | none => pure none
  | some d => copyuvmLoop pgdir ((sz.toNat + 4095) / 4096) 0 d

end Xv6

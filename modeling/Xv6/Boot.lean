import Xv6.System

/-!
# A small machine

A state of the kernel with two processes, `init` and one more, and with a megabyte of page memory. Every
page is on the free list or belongs to one of the processes, whose page tables map the kernel as
`setupkvm` does. Runs that show what the code does in a particular case start here.
-/

namespace Xv6

/-- Page number `m` of the page memory. -/
def bootPage (m : Nat) : Word := .ofNat 32 (0x8DF00000 + 0x1000 * m)

/-- Where in the page memory the pages of process `i` start. -/
def bootBase (i : Nat) : Nat := 68 * i

/-- The page table at directory index `k` is page `bootTable k` of its process: one for the first four
megabytes, 56 for the memory of the kernel and 8 for the devices. -/
def bootTable (k : Nat) : Option Nat :=
  if k = 0 then some 3
  else if 512 ≤ k ∧ k < 568 then some (k - 508)
  else if 1016 ≤ k ∧ k < 1024 then some (k - 956)
  else none

/-- The directory of process `i`: one page of user memory at address `0`, and the kernel. -/
def bootDir (i : Nat) : PgDir where
  page := bootPage (bootBase i + 1)
  pde k := match bootTable k with
    | none => 0
    | some j => V2P (bootPage (bootBase i + j)) ||| (PTE_P ||| PTE_W ||| PTE_U)
  pte n :=
    if n = 0 then V2P (bootPage (bootBase i + 2)) ||| (PTE_P ||| PTE_W ||| PTE_U)
    else if 0x80000 ≤ n ∧ n < 0x80100 ∨ 0x80108 ≤ n ∧ n < 0x8E000 then
      .ofNat 32 ((n - 0x80000) * 0x1000) ||| (PTE_W ||| PTE_P)
    else if 0x80100 ≤ n ∧ n < 0x80108 then .ofNat 32 ((n - 0x80000) * 0x1000) ||| PTE_P
    else if 0xFE000 ≤ n ∧ n < 0x100000 then .ofNat 32 (n * 0x1000) ||| (PTE_W ||| PTE_P)
    else 0

def bootProc (i : Nat) : Proc where
  sz := 0x1000
  pgdir := bootDir i
  kstack := bootPage (bootBase i)
  state := .runnable
  pid := .ofNat 32 (i + 1)
  parent := if i = 0 then none else some 0
  cwd := some 1

def boot : State where
  ram :=
    { kend := 0x8DF00000
      kdata := 0x80108000
      freelist := (List.range 120).map fun m => bootPage (136 + m)
      mem := fun _ => 0
      trace := [] }
  fs :=
    { file := fun _ => {}
      inode := fun n => if n = 1 then { type := .dir, nlink := 1, ref := 2 } else {}
      pipe := fun _ => {}
      ilocks := [] }
  proc q := if q.val < 2 then bootProc q.val else {}
  initproc := 0
  nextpid := 3
  vaPtr := VIRT_ADDR_START
  ptableLock := false

/-- A private mapping without a file, of one page. -/
def bootAnon : MmapArgs where
  addr := 0
  length := 4096
  prot := PTE_W
  flags := MAP_PRIVATE ||| MAP_ANON
  fd := 0
  offset := 0

/-- `boot` after process 1 made the mapping. -/
def bootMapped : State :=
  { (boot.updDesc 1 0 fun md => md.claim bootAnon false).updDesc 1 0 fun md =>
      { md with f := none, length := 4096, virtualAddress := VIRT_ADDR_START } with
    vaPtr := VIRT_ADDR_START + PGSIZE }

theorem exec_bootAnon : exec boot (.mmap 1 (some bootAnon)) = some bootMapped := rfl

end Xv6

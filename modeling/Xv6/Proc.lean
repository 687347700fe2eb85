import Xv6.Sysfile

/-!
# Processes

`allocproc`, `fork` with `copy_maps`, `exit` and `wait` of `proc.c`. A process that waits is not run until
what it waits for is there, so no process is ever `sleeping` here and `wakeup1` has nothing to do.
-/

namespace Xv6

def setState (p : Fin NPROC) (st : ProcState) : K Unit :=
  modify fun s => s.updProc p fun q => { q with state := st }

/-- Look in the process table for an `UNUSED` proc. Of the mappings only `valid` is reset. -/
def allocproc : K (Option (Fin NPROC)) := do
  let s ← get
  match (List.finRange NPROC).find? fun p => (s.proc p).state == .unused with
  | none => pure none
  | some p => do
    modify fun s => s.updProc p fun q =>
      { q with
        state := .embryo, pid := s.nextpid
        mmaps := fun i => { q.mmaps i with valid := false } }
    modify fun s => { s with nextpid := s.nextpid + 1 }
    match ← onRam kalloc with
    | none => do
      modify fun s => s.updProc p fun q => { q with kstack := 0, state := .unused }
      pure none
    | some v => do
      modify fun s => s.updProc p fun q => { q with kstack := v }
      pure (some p)

/-! ## `fork` -/

/-- `filedup` of a file that may be `NULL`. The count of a null file is the word at address 4 of the
running process. -/
def filedupNull (p : Fin NPROC) : Option (Fin NFILE) → K Unit
  | some f => filedup f
  | none => do
    let s ← get
    if !(s.proc p).pgdir.access 4 false false then
      throw .loop
    else if (s.userWord p 4).slt 1 then
      panic "filedup"
    else
      storeLow p 4 (s.userWord p 4 + 1)

/-- `deep_copy`: everything except `ref` and `page`. -/
def deepCopy (parent child : Fin NPROC) (i : Index) : K Unit := do
  let s ← get
  let old := (s.proc parent).mmaps i
  modify fun s => s.updDesc child i fun md =>
    { md with
      length := old.length, virtualAddress := old.virtualAddress, flags := old.flags
      prot := old.prot, valid := old.valid, guardPage := old.guardPage }
  filedupNull parent old.f
  modify fun s => s.updDesc child i fun md => { md with f := old.f }

/-- The physical address in the entry for `va`, whether the entry is present or not; `0` when there is
no page table. -/
def getPhysicalPage (d : PgDir) (va : Word) : Word :=
  match d.walk va with
  | none => 0
  | some pte => pteAddr pte

/-- The end of the shared branch: the parent's page goes into the child's page table. -/
def shareMap (parent child : Fin NPROC) (i : Index) (parentPage : Word) : K Unit := do
  let s ← get
  let mdp := (s.proc parent).mmaps i
  let r ← onRam (mapPage (s.proc child).pgdir mdp.virtualAddress (P2V parentPage) mdp.prot)
  if !r.1 then
    panic "mappages"
  else do
    setPgdir child r.2
    modify fun s => s.updDesc child i fun md => { md with ref := 2 }
    modify fun s => s.updDesc parent i fun md => { md with ref := 2 }
    modify fun s => s.updDesc child i fun md => { md with page := mdp.page }
    deepCopy parent child i

/-- The private branch for a page that is there: the child gets a copy. -/
def copyPrivate (parent child : Fin NPROC) (i : Index) (parentPage : Word) : K Unit := do
  match ← onRam kalloc with
  | none => throw .exit
  | some mem => do
    let s ← get
    let mdp := (s.proc parent).mmaps i
    let r ← onRam (mapPage (s.proc child).pgdir mdp.virtualAddress mem mdp.prot)
    if !r.1 then
      panic "ahahah"
    else do
      setPgdir child r.2
      onRam (memmove mem (P2V parentPage))
      modify fun s => s.updDesc child i fun md => { md with ref := 1, page := mem }
      deepCopy parent child i

/-- One round of the loop of `copy_maps`. -/
def copyMap (parent child : Fin NPROC) (i : Index) : K Unit := do
  let s ← get
  let mdp := (s.proc parent).mmaps i
  let parentPage := getPhysicalPage (s.proc parent).pgdir mdp.virtualAddress
  if !mdp.valid then
    pure ()
  else if hasFlag mdp.flags MAP_SHARED then
    if parentPage = 0 then
      if hasFlag mdp.flags MAP_GROWSUP then
        pure ()
      else do
        allocatePageNonGuard parent i mdp.virtualAddress
        let s ← get
        shareMap parent child i (getPhysicalPage (s.proc parent).pgdir mdp.virtualAddress)
    else
      shareMap parent child i parentPage
  else if parentPage = 0 then
    -- mapping is private, can do lazy alloc
    deepCopy parent child i
  else
    copyPrivate parent child i parentPage

def copyMaps (parent child : Fin NPROC) : K Unit :=
  (List.finRange PAGE_LIMIT).forM (copyMap parent child)

/-- `np->ofile[fd] = filedup(curproc->ofile[fd])` for an open descriptor. -/
def dupFd (p np : Fin NPROC) (fd : Fin NOFILE) : K Unit := do
  let s ← get
  match (s.proc p).ofile fd with
  | none => pure ()
  | some f => do
    filedup f
    modify fun s => s.updProc np fun q => { q with ofile := Function.update q.ofile fd (some f) }

/-- `np->cwd = idup(curproc->cwd)`. -/
def dupCwd (p np : Fin NPROC) : K Unit := do
  let s ← get
  match (s.proc p).cwd with
  | none => throw .wild
  | some n => do
    modify fun s => s.updInode n fun ip => { ip with ref := ip.ref + 1 }
    modify fun s => s.updProc np fun q => { q with cwd := some n }

/-- What `fork` does for a new process `np` with the page directory `d`, up to where the child may
run. -/
def forkFill (p np : Fin NPROC) (d : PgDir) : K Unit := do
  let s ← get
  modify fun t => t.updProc np fun q =>
    { q with pgdir := d, sz := (s.proc p).sz, parent := some p }
  (List.finRange NOFILE).forM (dupFd p np)
  dupCwd p np

def fork (p : Fin NPROC) : K Word := do
  match ← allocproc with
  | none => pure (-1)
  | some np => do
    let s ← get
    match ← onRam (copyuvm (s.proc p).pgdir (s.proc p).sz) with
    | none => do
      onRam (kfree (s.proc np).kstack)
      modify fun s => s.updProc np fun q =>
        { q with pgdir := .null, kstack := 0, state := .unused }
      pure (-1)
    | some d => do
      forkFill p np d
      setState np .runnable
      copyMaps p np
      pure (s.proc np).pid

/-! ## `exit` and `wait` -/

/-- Close one open file of a process that exits. -/
def exitFd (p : Fin NPROC) (fd : Fin NOFILE) : K Unit := do
  let s ← get
  match (s.proc p).ofile fd with
  | none => pure ()
  | some f => do
    fileclose f
    modify fun s => s.updProc p fun q => { q with ofile := Function.update q.ofile fd none }

/-- Give up one mapping of a process that exits. -/
def exitDesc (p : Fin NPROC) (i : Index) : K Unit := do
  let s ← get
  if !((s.proc p).mmaps i).valid then
    pure ()
  else do
    closeDesc p i
    munmapFree p i

/-- `iput(curproc->cwd)`. -/
def exitCwd (p : Fin NPROC) : K Unit := do
  let s ← get
  match (s.proc p).cwd with
  | none => throw .wild
  | some n => do
    beginOp
    iput n
    endOp
    modify fun s => s.updProc p fun q => { q with cwd := none }

def acquirePtable : K Unit := do
  let s ← get
  if s.ptableLock then panic "acquire" else modify fun s => { s with ptableLock := true }

/-- Pass abandoned children to init. -/
def reparent (p : Fin NPROC) : K Unit :=
  modify fun s => { s with proc := fun q =>
    if (s.proc q).parent = some p then { s.proc q with parent := some s.initproc } else s.proc q }

/-- Exit the current process. The scheduler releases `ptable.lock` after the switch. -/
def exit (p : Fin NPROC) : K Unit := do
  let s ← get
  if p = s.initproc then
    panic "init exiting"
  else do
    (List.finRange NOFILE).forM (exitFd p)
    exitCwd p
    acquirePtable
    reparent p
    (List.finRange PAGE_LIMIT).forM (exitDesc p)
    setState p .zombie
    modify fun s => { s with ptableLock := false }

/-- Wait for a child process to exit and return its pid; `-1` if this process has no children. -/
def wait (p : Fin NPROC) : K Word := do
  let s ← get
  match (List.finRange NPROC).find? fun q => (s.proc q).parent == some p && (s.proc q).state == .zombie with
  | some q => do
    onRam (kfree (s.proc q).kstack)
    modify fun s => s.updProc q fun x => { x with kstack := 0 }
    onRam (freevm (s.proc q).pgdir)
    modify fun s => s.updProc q fun x =>
      { x with pid := 0, parent := none, killed := false, state := .unused }
    pure (s.proc q).pid
  | none =>
    if (s.proc p).killed || (List.finRange NPROC).all fun q => (s.proc q).parent != some p then
      pure (-1)
    else
      throw .sleep

end Xv6

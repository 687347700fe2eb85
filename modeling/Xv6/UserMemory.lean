import Xv6.Exec
import Xv6.FirstFit
import Xv6.Frame

/-!
# What system calls read of the process

Pointers among the arguments of a system call have to lie in the memory of the process. The tests of
`syscall.c` are on 32-bit numbers, and the end of a block could wrap. It does not, because no process is
larger than `KERNBASE`: every function that sets a size takes it from `allocuvm`.
-/

namespace Xv6.Exec

open Hoare

variable {p np : Fin NPROC} {s t : State}

/-! ## `syscall.c`

A read of a page that is not there would fault in the kernel. The functions here are about the reads that
go through, which see the memory of the process as it is. -/

/-- Fetch the int at `addr` from the current process. -/
def fetchint (s : State) (p : Fin NPROC) (addr : Word) : Option Word :=
  if !addr.ult (s.proc p).sz || (s.proc p).sz.ult (addr + 4) then none
  else some (s.userWord p addr)

/-- The loop of `fetchstr` from `c` on: where the first `0` below `ep` is. -/
def fetchstrLoop (s : State) (p : Fin NPROC) (ep : Word) : Nat → Word → Option Word
  | 0, _ => none
  | fuel + 1, c =>
    if c.ult ep then
      if s.userByte p c = 0 then some c else fetchstrLoop s p ep fuel (c + 1)
    else
      none

/-- Fetch the nul-terminated string at `addr` from the current process. Returns length of string, not
including nul. -/
def fetchstr (s : State) (p : Fin NPROC) (addr : Word) : Option Word :=
  if !addr.ult (s.proc p).sz then none
  else (fetchstrLoop s p (s.proc p).sz (s.proc p).sz.toNat addr).map (· - addr)

/-- Where argument `n` is, for the user stack pointer `esp`. -/
def argAddr (esp n : Word) : Word := esp + 4 + 4 * n

/-- Fetch the nth 32-bit system call argument. -/
def argint (s : State) (p : Fin NPROC) (esp n : Word) : Option Word := fetchint s p (argAddr esp n)

/-- Fetch the nth word-sized system call argument as a pointer to a block of memory of `size` bytes. -/
def argptr (s : State) (p : Fin NPROC) (esp n size : Word) : Option Word := do
  let i ← argint s p esp n
  if size.slt 0 || !i.ult (s.proc p).sz || (s.proc p).sz.ult (i + size) then none else some i

/-- Fetch the nth word-sized system call argument as a string pointer, with the length of the string. -/
def argstr (s : State) (p : Fin NPROC) (esp n : Word) : Option (Word × Word) := do
  let addr ← argint s p esp n
  let len ← fetchstr s p addr
  pure (addr, len)

/-! ## What the tests say -/

/-- The `n` bytes from `a` on lie in the memory of `p`, with no wrapping. -/
def Inside (s : State) (p : Fin NPROC) (a : Word) (n : Nat) : Prop := a.toNat + n ≤ (s.proc p).sz.toNat

/-- There is a string of length `n` at `a`. -/
structure IsString (s : State) (p : Fin NPROC) (a : Word) (n : Nat) : Prop where
  byte : ∀ k < n, s.userByte p (a + .ofNat 32 k) ≠ 0
  nul : s.userByte p (a + .ofNat 32 n) = 0

/-- The process is no larger than the user part of the address space. -/
def Fits (s : State) (p : Fin NPROC) : Prop := (s.proc p).sz.toNat ≤ KERNBASE.toNat

theorem fetchint_inside (hfit : Fits s p) {addr w : Word} (h : fetchint s p addr = some w) :
    Inside s p addr 4 ∧ w = s.userWord p addr := by
  unfold fetchint at h
  split at h
  · cases h
  next hcheck =>
    refine ⟨?_, (Option.some.inj h).symm⟩
    have hsz : (s.proc p).sz.toNat ≤ 2 ^ 31 := hfit
    simp only [Bool.or_eq_true, Bool.not_eq_true', not_or, BitVec.ult, decide_eq_false_iff_not,
      decide_eq_true_eq, BitVec.toNat_add, not_lt, show (4 : Word).toNat = 4 from rfl]
      at hcheck
    unfold Inside
    omega

theorem argptr_inside (hfit : Fits s p) {esp n size i : Word} (h : argptr s p esp n size = some i) :
    argint s p esp n = some i ∧ 0 ≤ size.toInt ∧ Inside s p i size.toNat := by
  unfold argptr at h
  obtain ⟨j, hj, h⟩ := Option.bind_eq_some_iff.mp h
  split at h
  · cases h
  next hcheck =>
    obtain rfl := Option.some.inj h
    have hsz : (s.proc p).sz.toNat ≤ 2 ^ 31 := hfit
    have hsize := size.isLt
    simp only [Bool.or_eq_true, Bool.not_eq_true', not_or, BitVec.ult, decide_eq_false_iff_not,
      decide_eq_true_eq, BitVec.toNat_add, not_lt, BitVec.slt_iff_toInt_lt,
      show (0 : Word).toInt = 0 from rfl] at hcheck
    obtain ⟨⟨hpos, hlt⟩, hend⟩ := hcheck
    refine ⟨hj, hpos, ?_⟩
    rw [BitVec.toInt_eq_toNat_cond] at hpos
    unfold Inside
    split at hpos <;> omega

theorem fetchstrLoop_spec {ep c r : Word} {fuel : Nat} (h : fetchstrLoop s p ep fuel c = some r) :
    c.toNat ≤ r.toNat ∧ r.toNat < ep.toNat ∧ IsString s p c (r.toNat - c.toNat) := by
  induction fuel generalizing c with
  | zero => cases h
  | succ fuel ih =>
    unfold fetchstrLoop at h
    split at h
    next hlt =>
      have hlt : c.toNat < ep.toNat := by simpa [BitVec.ult] using hlt
      split at h
      next hzero =>
        obtain rfl := Option.some.inj h
        refine ⟨le_rfl, hlt, ?_, ?_⟩
        · intro k hk
          omega
        · simpa using hzero
      next hbyte =>
        obtain ⟨hle, hend, hstr⟩ := ih h
        have hnext : (c + 1).toNat = c.toNat + 1 := by
          rw [BitVec.toNat_add, show (1 : Word).toNat = 1 from rfl]
          omega
        rw [hnext] at hle hstr
        -- byte `k + 1` from `c` on is byte `k` from its successor on
        have hshift : ∀ k, c + .ofNat 32 (k + 1) = c + 1 + .ofNat 32 k := by
          intro k
          rw [Nat.add_comm, BitVec.ofNat_add, add_assoc]
          rfl
        refine ⟨by omega, hend, fun k hk => ?_, ?_⟩
        · cases k with
          | zero => simpa using hbyte
          | succ k =>
            rw [hshift]
            exact hstr.byte k (by omega)
        · rw [show r.toNat - c.toNat = r.toNat - (c.toNat + 1) + 1 by omega, hshift]
          exact hstr.nul
    · cases h

theorem fetchstr_inside (hfit : Fits s p) {addr len : Word} (h : fetchstr s p addr = some len) :
    ∃ n : Nat, len.toInt = n ∧ Inside s p addr (n + 1) ∧ IsString s p addr n := by
  unfold fetchstr at h
  split at h
  · cases h
  · obtain ⟨r, hr, rfl⟩ := Option.map_eq_some_iff.mp h
    obtain ⟨hle, hlt, hstr⟩ := fetchstrLoop_spec hr
    have hsz : (s.proc p).sz.toNat ≤ 2 ^ 31 := hfit
    refine ⟨r.toNat - addr.toNat, ?_, ?_, hstr⟩
    · rw [BitVec.toInt_eq_toNat_cond, BitVec.toNat_sub]
      split <;> omega
    · unfold Inside
      omega

/-! ## The sizes of the processes -/

/-- Every process fits below the kernel. -/
def Sized (s : State) : Prop := ∀ q, Fits s q

theorem Sized.of_eq (hs : Sized s) (h : ∀ q, (t.proc q).sz = (s.proc q).sz) : Sized t := by
  intro q
  unfold Fits
  rw [h q]
  exact hs q

theorem Sized.updProc (hs : Sized s) (q : Fin NPROC) {g : Proc → Proc}
    (hg : (g (s.proc q)).sz.toNat ≤ KERNBASE.toNat) : Sized (s.updProc q g) := by
  intro q'
  unfold Fits
  by_cases hq : q' = q
  · subst hq
    simpa using hg
  · rw [updProc_of_ne _ hq]
    exact hs q'

theorem Sized.updDesc (hs : Sized s) (q : Fin NPROC) (i : Index) (g : MmapDesc → MmapDesc) :
    Sized (s.updDesc q i g) :=
  hs.updProc q (hs q)

theorem sized_deaf (p : Fin NPROC) : Deaf p Sized (fun _ => Sized) where
  stop _ _ _ hs := hs
  mem _ _ hs := hs
  nullPage _ hs := hs
  off _ _ _ hs := hs
  inode _ _ hs := hs
  pipe _ _ hs := hs
  ilocks _ _ hs := hs
  exit _ hs := hs
  ram _ _ hs := hs
  pgdir _ _ _ hs := hs.updProc p (hs p)
  killed _ hs := hs.updProc p (hs p)
  page _ i _ hs := hs.updDesc p i _
  shrink _ i hs := hs.updDesc p i _
  grow _ i hs := hs.updDesc p i _
  outside _ _ hs := hs

theorem sized_fileBlind (p : Fin NPROC) : FileBlind p Sized (fun _ => Sized) where
  count _ _ hs := hs
  file _ _ _ _ hs := hs
  ofile _ _ hs := hs.updProc p (hs p)
  cwd _ _ hs := hs.updProc p (hs p)

variable {α : Type} {sz : Word}

theorem sized_onRam {m : RamM α} {Q : α → Prop} (h : Triple (fun _ => True) m (fun a _ => Q a) ⊤) :
    Triple Sized (onRam m) (fun a s => Sized s ∧ Q a) (fun _ => Sized) := by
  refine ⟨fun s hs => ?_⟩
  have hrun := h.run s.ram trivial
  unfold onRam
  cases hm : m s.ram with
  | ok a r =>
    rw [hm] at hrun
    exact ⟨hs, hrun⟩
  | error e r => exact hs

theorem triple_any (m : RamM α) :
    Triple (fun _ => True) m ⊤ ⊤ := by
  refine ⟨fun r _ => ?_⟩
  cases m r <;> trivial

/-- The program keeps the sizes, also when it stops. -/
abbrev KeepsSized {α : Type} (m : K α) : Prop := Keeps Sized (fun _ => Sized) m

theorem sized_onRam_any (m : RamM α) : KeepsSized (onRam m) :=
  (sized_onRam (Q := fun _ => True) (triple_any m)).post fun _ _ hs => hs.1

theorem sized_kfree (s : State) (f : Fin NFILE) (pg : Word) (_ : Sized s)
    (_ : (s.fs.file f).type = .pipe) : KeepsSized (onRam (kfree pg)) :=
  sized_onRam_any _

theorem sized_fileclose (f : Fin NFILE) : KeepsSized (fileclose f) :=
  (sized_fileBlind 0).fileclose (sized_deaf 0).toPassive sized_kfree f

theorem sized_setPgdir (q : Fin NPROC) (d : PgDir) : KeepsSized (setPgdir q d) :=
  .modify fun _ hs => hs.updProc q (hs q)

theorem sized_munmapFree (i : Index) : KeepsSized (munmapFree p i) :=
  (sized_deaf p).munmapFree (fun _ hs => hs.updDesc p i _) fun _ hs => hs.updDesc p i _

theorem sized_closeDesc (i : Index) : KeepsSized (closeDesc p i) :=
  (sized_fileBlind p).closeDesc (sized_deaf p).toPassive sized_kfree i fun _ _ _ _ x _ =>
    (sized_deaf p).touch x ((sized_deaf p).trap false x)

theorem sized_sysMmap (args : Option MmapArgs) : KeepsSized (sysMmap p args) :=
  (sized_deaf p).sysMmap (fun _ _ => (sized_fileBlind p).mmapFill (fun j _ _ hs => hs.updDesc p j _)
    fun j _ _ _ hs => hs.updDesc p j _) fun _ _ hs => hs

theorem sized_sysPipe : KeepsSized (sysPipe p) :=
  (sized_fileBlind p).sysPipe sized_fileclose (sized_onRam_any _) fun _ _ hs => hs

theorem sized_allocproc : KeepsSized allocproc := by
  refine .get fun t _ => ?_
  cases (List.finRange NPROC).find? fun q => (t.proc q).state == .unused with
  | none => exact .pure _
  | some q =>
    refine .update (fun s hs => hs.updProc q (hs q)) ?_
    refine .update (fun s hs => hs) <| .bindOption (sized_onRam_any _)
      (.update (fun s hs => hs.updProc q (hs q)) <| .pure _) fun v => ?_
    exact .update (fun s hs => hs.updProc q (hs q)) <| .pure _

theorem sized_deepCopy (i : Index) : KeepsSized (deepCopy p np i) := by
  refine .get fun t _ => .update (fun s hs => hs.updDesc np i _) ?_
  refine .bind ((sized_fileBlind p).filedupNull (sized_deaf p).toPassive _) fun _ => ?_
  exact .modify fun s hs => hs.updDesc np i _

theorem sized_copyMap (i : Index) : KeepsSized (copyMap p np i) :=
  (sized_deaf p).copyMap (sized_setPgdir np) (sized_deepCopy i) fun q g _ =>
    .modify fun _ hs => hs.updDesc q i g

theorem sized_fork : KeepsSized (fork p) := by
  refine .bindOption sized_allocproc (.pure _) fun np => ?_
  refine .get fun t _ => .bind (sized_onRam_any _) fun o => ?_
  cases o with
  | none =>
    refine .bind (sized_onRam_any _) fun _ => ?_
    exact .update (fun s hs => hs.updProc np (hs np)) <| .pure _
  | some d =>
    have hfill : KeepsSized (forkFill p np d) := by
      refine .get fun t ht => .update (fun s hs => hs.updProc np (ht p)) ?_
      refine .bind (.forM _ fun fd _ => (sized_fileBlind np).dupFd fd) fun _ => ?_
      exact (sized_fileBlind np).dupCwd (sized_deaf p).toPassive
    refine .bind hfill fun _ => .update (fun s hs => hs.updProc np (hs np)) ?_
    exact .bind (.forM _ fun i _ => sized_copyMap i) fun _ => .pure _

theorem sized_wait : KeepsSized (wait p) :=
  (sized_deaf p).wait fun q _ hg => .modify fun _ hs => hs.updProc q (by rw [(hg _).2]; exact hs q)

theorem sized_exit : KeepsSized (exit p) := by
  refine (sized_fileBlind p).exit (sized_deaf p).toPassive sized_kfree sized_closeDesc sized_munmapFree
    (fun _ _ hs => hs) (.modify fun s hs => hs.of_eq fun q => ?_) (.modify fun s hs => hs.updProc p (hs p))
  dsimp only
  split <;> rfl

/-! ## Where sizes come from -/

theorem allocuvmLoop_size (oldsz newsz : Word) (fuel : Nat) (d : PgDir) (a : Word) :
    Triple (fun _ => True) (allocuvmLoop oldsz newsz fuel d a) (fun r _ => r.1 = 0 ∨ r.1 = newsz) ⊤ := by
  induction fuel generalizing d a with
  | zero => exact .pure fun _ _ => .inr rfl
  | succ fuel ih =>
    unfold allocuvmLoop
    refine .ite (fun _ => .bind (triple_any _) fun o => ?_) fun _ => .pure fun _ _ => .inr rfl
    cases o with
    | none => exact .bind (triple_any _) fun _ => .pure fun _ _ => .inl rfl
    | some mem =>
      refine .bind (triple_any _) fun _ => .bind (triple_any _) fun r => .ite (fun _ => ih _ _) fun _ => ?_
      exact .bind (triple_any _) fun _ => .bind (triple_any _) fun _ => .pure fun _ _ => .inl rfl

/-- `allocuvm` returns the new size, which is below the kernel, or `0`, or the old one. -/
theorem allocuvm_size (d : PgDir) (oldsz newsz : Word) :
    Triple (fun _ => True) (allocuvm d oldsz newsz)
      (fun r _ => r.1.toNat < KERNBASE.toNat ∨ r.1 = oldsz) ⊤ := by
  have hzero : (0 : Word).toNat < KERNBASE.toNat := by decide
  refine .ite (fun _ => .pure fun _ _ => .inl hzero) fun hlt => ?_
  have hlt : newsz.toNat < KERNBASE.toNat := by simpa [BitVec.ult] using hlt
  refine .ite (fun _ => .pure fun _ _ => .inr rfl) fun _ => ?_
  refine (allocuvmLoop_size oldsz newsz _ _ _).post fun r _ hr => .inl ?_
  rcases hr with hr | hr
  · rw [hr]
    exact hzero
  · rw [hr]
    exact hlt

theorem deallocuvm_size (d : PgDir) (oldsz newsz : Word) :
    Triple (fun _ => True) (deallocuvm d oldsz newsz) (fun r _ => r.1.toNat ≤ oldsz.toNat) ⊤ := by
  refine .ite (fun _ => .pure fun _ _ => le_rfl) fun hlt => ?_
  have hlt : newsz.toNat < oldsz.toNat := by simpa [BitVec.ult] using hlt
  refine ⟨fun r _ => ?_⟩
  cases hrun : deallocuvmLoop oldsz (2 ^ 20) d (pgRoundUp newsz) r with
  | ok d' r' =>
    rw [bind_ok hrun]
    exact le_of_lt hlt
  | error e r' =>
    rw [bind_of_error hrun]
    trivial

theorem sized_switchuvm : KeepsSized (switchuvm p) :=
  .get fun _ _ => .check (fun _ hs => hs) fun _ =>
    .check (fun _ hs => hs) fun _ => .pure _

theorem sized_setSize (hsz : sz.toNat ≤ KERNBASE.toNat) : KeepsSized (setSize p sz) :=
  .modify fun _ hs => hs.updProc p hsz

theorem sized_resize {r : Word × PgDir} (hr : r.1.toNat ≤ KERNBASE.toNat) : KeepsSized (resize p r) := by
  refine .bind (sized_setPgdir p _) fun _ => .early fun _ => ?_
  exact .bind (sized_setSize hr) fun _ => .bind sized_switchuvm fun _ => .pure _

theorem sized_growproc (n : Word) : KeepsSized (growproc p n) := by
  refine .get fun t ht => .ite (fun _ => ?_) fun _ => .ite (fun _ => ?_) fun _ => ?_
  · refine Triple.bind (sized_onRam (allocuvm_size _ _ _)) fun r => .pre_and fun hr => sized_resize ?_
    rcases hr with hr | hr
    · exact le_of_lt hr
    · rw [hr]
      exact ht p
  · refine Triple.bind (sized_onRam (deallocuvm_size _ _ _)) fun r => .pre_and fun hr => sized_resize ?_
    exact le_trans hr (ht p)
  · exact .bind (sized_setSize (ht p)) fun _ => .bind sized_switchuvm fun _ => .pure _

/-! ## `exec` -/

theorem toNat_pgRoundUp_le (h : sz.toNat ≤ KERNBASE.toNat) : (pgRoundUp sz).toNat ≤ KERNBASE.toNat := by
  have hup : pgRoundUp sz = pgRoundDown (sz + PGSIZE - 1) := rfl
  rw [hup, toNat_pgRoundDown, BitVec.toNat_sub, BitVec.toNat_add,
    show PGSIZE.toNat = 4096 from rfl, show (1 : Word).toNat = 1 from rfl]
  have hk : KERNBASE.toNat = 2 ^ 31 := rfl
  omega

theorem loadSegment_size (ip : Inode) (ph : Proghdr) (d : PgDir) (hsz : sz.toNat < KERNBASE.toNat) :
    Triple (fun _ => True) (loadSegment ip ph d sz) (fun r _ => r.2.2.toNat < KERNBASE.toNat) ⊤ := by
  have hzero : (0 : Word).toNat < KERNBASE.toNat := by decide
  refine .ite (fun _ => .pure fun _ _ => hsz) fun _ => .ite (fun _ => .pure fun _ _ => hsz) fun _ => ?_
  refine .bind (R := fun r _ => r.1.toNat < KERNBASE.toNat) ?_ fun r => ?_
  · refine (allocuvm_size d sz _).post fun r _ hr => ?_
    rcases hr with hr | hr
    · exact hr
    · rw [hr]
      exact hsz
  · refine .ite (fun _ => .pure fun _ _ => hzero) fun _ => .ite (fun _ => .pure fun _ hr => hr) fun _ => ?_
    refine Triple.pre (P := fun s => True ∧ r.1.toNat < KERNBASE.toNat) (.pre_and fun hr => ?_)
      fun _ hr => ⟨trivial, hr⟩
    exact .bind (triple_any _) fun _ => .pure fun _ _ => hr

theorem loadSegments_size (ip : Inode) (n : Nat) (off : Word) (d : PgDir) (hsz : sz.toNat < KERNBASE.toNat) :
    Triple (fun _ => True) (loadSegments ip n off d sz) (fun r _ => r.2.2.toNat < KERNBASE.toNat) ⊤ := by
  induction n generalizing off d sz with
  | zero => exact .pure fun _ _ => hsz
  | succ n ih =>
    unfold loadSegments
    cases readAll ip off 32 with
    | none => exact .pure fun _ _ => hsz
    | some bs =>
      refine .ite (fun _ => ih _ _ hsz) fun _ => ?_
      refine .bind (loadSegment_size ip _ d hsz) fun r => ?_
      refine Triple.pre (P := fun s => True ∧ r.2.2.toNat < KERNBASE.toNat) (.pre_and fun hr => ?_)
        fun _ hr => ⟨trivial, hr⟩
      exact .ite (fun _ => ih _ _ hr) fun _ => .pure fun _ _ => hr

theorem sized_bad (d : Option PgDir) (ip : Option Nat) : KeepsSized (bad d ip) := by
  have hD := (sized_deaf 0).toPassive
  refine .bind ?_ fun _ => .bind ?_ fun _ => .pure _
  · cases d with
    | none => exact .pure _
    | some d => exact sized_onRam_any _
  · cases ip with
    | none => exact .pure _
    | some n => exact .bind (hD.iunlock n) fun _ => .bind (hD.iput n) fun _ => hD.wakeup

theorem sized_uva2ka (d : PgDir) (uva : Word) : KeepsSized (uva2ka (nullEntry p) d uva) := by
  refine .bind ?_ fun pte => .early fun _ => .early fun _ => .pure _
  unfold entryWith
  cases d.walk uva with
  | some pte => exact .pure _
  | none => exact .get fun t _ => .early fun _ => .throw fun s hs => hs

theorem sized_copyout (d : PgDir) (fuel : Nat) (va : Word) (buf : Bytes) :
    KeepsSized (copyout p d fuel va buf) := by
  unfold copyout
  induction fuel generalizing va buf with
  | zero => exact .pure _
  | succ fuel ih =>
    unfold copyoutWith
    refine .early fun _ => .bind (sized_uva2ka d _) fun pa => .early fun _ => ?_
    exact .bind (sized_onRam_any _) fun _ => ih _ _

theorem sized_pushArgs (d : PgDir) (argv : Argv) (argc : Nat) (sp : Word)
    (ustack : List Word) : KeepsSized (pushArgs p d argv argc sp ustack) := by
  induction argv generalizing argc sp ustack with
  | nil => exact .pure _
  | cons arg argv ih =>
    unfold pushArgs
    refine .early fun _ => .bind (sized_copyout d _ _ _) fun ok => ?_
    exact .ite (fun _ => ih _ _ _) fun _ => .pure _

theorem sized_pushStack (d : PgDir) (argv : Argv) (sz : Word) :
    KeepsSized (pushStack p d argv sz) := by
  refine .bindOption (sized_pushArgs d argv 0 sz []) (.pure _) fun r => ?_
  exact sized_copyout d _ _ _

theorem sized_commit (d : PgDir) (hsz : sz.toNat ≤ KERNBASE.toNat) : KeepsSized (commit p d sz) := by
  refine .get fun t _ => .bind (sized_setPgdir p d) fun _ => .bind (sized_setSize hsz) fun _ => ?_
  exact .bind sized_switchuvm fun _ => .bind (sized_onRam_any _) fun _ => .pure _

theorem sized_execStack (argv : Argv) (d : PgDir)
    (hsz : sz.toNat < KERNBASE.toNat) : KeepsSized (execStack p argv d sz) := by
  refine Triple.bind (sized_onRam (allocuvm_size _ _ _)) fun r => .pre_and fun hr => ?_
  have hr : r.1.toNat ≤ KERNBASE.toNat := by
    rcases hr with hr | hr
    · exact le_of_lt hr
    · rw [hr]
      exact toNat_pgRoundUp_le (le_of_lt hsz)
  refine Keeps.ite (fun _ => sized_bad _ _) fun _ => .bind (sized_onRam_any _) fun d => ?_
  refine .bind (sized_pushStack d argv _) fun ok => ?_
  exact .ite (fun _ => sized_commit d hr) fun _ => sized_bad _ _

theorem sized_execLoad (n : Nat) (argv : Argv) (ip : Inode) :
    KeepsSized (execLoad p n argv ip) := by
  have hD := (sized_deaf p).toPassive
  unfold execLoad
  cases readAll ip 0 52 with
  | none => exact sized_bad _ _
  | some bs =>
    refine .ite (fun _ => sized_bad _ _) fun _ => .bindOption (sized_onRam_any _) (sized_bad _ _) fun d => ?_
    refine Triple.bind (sized_onRam (loadSegments_size ip _ _ d (by decide))) fun r => .pre_and fun hr => ?_
    refine Keeps.ite (fun _ => ?_) fun _ => sized_bad _ _
    refine .bind (hD.iunlock n) fun _ => .bind (hD.iput n) fun _ => .bind hD.wakeup fun _ => ?_
    exact sized_execStack argv _ hr

theorem sized_exec (path : Option Nat) (argv : Argv) : KeepsSized (exec p path argv) := by
  have hD := (sized_deaf p).toPassive
  refine .bind (.pure _) fun _ => ?_
  cases path with
  | none => exact .bind hD.wakeup fun _ => .pure _
  | some n =>
    refine .update (fun s hs => hs) <| .bind (hD.ilock n) fun _ => .get fun t _ => ?_
    split
    · exact .check (fun s hs => hs) fun _ => sized_bad _ _
    · exact sized_execLoad n argv _

/-! ## Runs -/

/-- The operations of the system, with `growproc` (for any `n`) and `exec`. -/
inductive Call where
  | op (op : Op)
  | growproc (p : Fin NPROC) (n : Word)
  | exec (p : Fin NPROC) (path : Option Nat) (argv : Argv)

def Call.proc : Call → Fin NPROC
  | op o => o.proc
  | growproc p _ | exec p _ _ => p

def Call.body : Call → K Unit
  | op o => o.body
  | growproc p n => Op.syscall p (Exec.growproc p n)
  | exec p path argv => Op.syscall p (Exec.exec p path argv)

def Call.enabled (s : State) : Call → Bool
  | op o => o.enabled s
  | growproc p _ | exec p _ _ => (s.proc p).state == .runnable || (s.proc p).state == .running

/-- A call of `exit()` on the way ends the process. -/
def Call.outcome (c : Call) : K Unit := fun s =>
  match c.body s with
  | .error .exit t => Xv6.exit c.proc t
  | r => r

def step (s : State) (c : Call) : Option State :=
  if c.enabled s then
    match c.outcome s with
    | .ok _ t => some t
    | .error _ _ => none
  else
    none

theorem sized_body (c : Call) : KeepsSized c.body := by
  have hcall : ∀ {α : Type} {q : Fin NPROC} {m : K α}, KeepsSized m →
      KeepsSized (Op.syscall q m) := fun hm =>
    syscall_triple hm (fun s hs => hs) fun s hs => hs
  cases c with
  | growproc p n => exact hcall (sized_growproc n)
  | exec p path argv => exact hcall (sized_exec path argv)
  | op o =>
    have hF := sized_fileBlind o.proc
    have hD := (sized_deaf o.proc).toPassive
    cases o with
    | mmap p args => exact hcall (sized_sysMmap args)
    | munmap p args => exact hcall ((sized_deaf p).sysMunmap sized_closeDesc sized_munmapFree args)
    | fault p addr write => exact (sized_deaf p).trap true addr
    | store p addr b => exact .get fun t _ => sized_onRam_any _
    | fork p => exact hcall sized_fork
    | exit p => exact hcall (.throw fun s hs => hs)
    | wait p => exact hcall sized_wait
    | «open» p path omode => exact hcall (hF.sysOpen hD sized_kfree path omode)
    | dup p fd => exact hcall (hF.sysDup fd)
    | close p fd => exact hcall (hF.sysClose hD sized_kfree fd)
    | pipe p => exact hcall sized_sysPipe

theorem Sized.step {c : Call} (hs : Sized s) (h : step s c = some t) : Sized t := by
  have hout : c.outcome s = .ok () t := by
    unfold Exec.step at h
    split at h
    · cases hr : c.outcome s with
      | ok a u => simpa [hr] using h
      | error e u => simp [hr] at h
    · cases h
  have hbody := (sized_body c).run s hs
  unfold Call.outcome at hout
  cases hb : c.body s with
  | ok a u =>
    rw [hb] at hout hbody
    cases hout
    exact hbody
  | error e u =>
    rw [hb] at hout hbody
    cases e with
    | exit =>
      have hexit := sized_exit (p := c.proc).run u hbody
      dsimp only at hout
      rwa [hout] at hexit
    | _ => cases hout

/-- Along every run processes fit below the kernel, and what the argument functions accept lies in the
process: the argument word, the whole block, and the whole string with its terminating `0`, whose length is
the result. -/
theorem arguments_inside (hs : Sized s) (hrun : Run step (fun _ _ => True) s t) (p : Fin NPROC) :
    (t.proc p).sz.toNat ≤ KERNBASE.toNat ∧ (∀ esp n w, argint t p esp n = some w →
      Inside t p (argAddr esp n) 4 ∧ w = t.userWord p (argAddr esp n)) ∧
    (∀ esp n size i, argptr t p esp n size = some i →
      argint t p esp n = some i ∧ 0 ≤ size.toInt ∧ Inside t p i size.toNat) ∧
    (∀ addr len, fetchstr t p addr = some len →
      ∃ n : Nat, len.toInt = n ∧ Inside t p addr (n + 1) ∧ IsString t p addr n) ∧
    ∀ esp n addr len, argstr t p esp n = some (addr, len) → argint t p esp n = some addr ∧
      ∃ n : Nat, len.toInt = n ∧ Inside t p addr (n + 1) ∧ IsString t p addr n := by
  have ht : Sized t := hrun.invariant hs fun t c u ht _ hx => ht.step hx
  refine ⟨ht p, fun esp n w h => fetchint_inside (ht p) h, fun esp n size i h => argptr_inside (ht p) h,
    fun addr len h => fetchstr_inside (ht p) h, fun esp n addr len h => ?_⟩
  obtain ⟨addr', haddr, h⟩ := Option.bind_eq_some_iff.mp h
  obtain ⟨len', hlen, h⟩ := Option.bind_eq_some_iff.mp h
  cases h
  exact ⟨haddr, fetchstr_inside (ht p) hlen⟩

theorem sized_boot : Sized boot := by
  intro q
  show (if q.val < 2 then bootProc q.val else {}).sz.toNat ≤ KERNBASE.toNat
  split
  · exact (by decide : (0x1000 : Word).toNat ≤ KERNBASE.toNat)
  · exact (by decide : (0 : Word).toNat ≤ KERNBASE.toNat)

/-- A process that has grown by a page passes a block of 16 bytes, which lies in it. -/
theorem arguments_inside_boot : ∃ t, Run step (fun _ _ => True) boot t ∧ (t.proc 1).sz = 0x2000 ∧
    argptr t 1 0 0 16 = some 0 ∧ Inside t 1 0 16 := by
  have hx : (Run.execAll step boot [.growproc 1 0x1000]).any (fun t =>
      (t.proc 1).sz == 0x2000 && argptr t 1 0 0 16 == some 0) = true := by decide +kernel
  obtain ⟨t, hrun, ht⟩ : ∃ t, Run step (fun _ _ => True) boot t ∧
      ((t.proc 1).sz == 0x2000 && argptr t 1 0 0 16 == some 0) = true :=
    Run.exists_run hx
  rw [Bool.and_eq_true, beq_iff_eq, beq_iff_eq] at ht
  obtain ⟨-, -, hptr, -⟩ := arguments_inside sized_boot hrun 1
  exact ⟨t, hrun, ht.1, ht.2, (hptr 0 0 16 0 ht.2).2.2⟩

end Xv6.Exec

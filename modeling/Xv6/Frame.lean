import Xv6.PageMap
import Xv6.System

/-!
# What the file code leaves alone

Most of the code under a system call changes only the content of memory, of files and of pipes, file offsets
and the locks on inodes. A property that none of these can break is `Passive`. Where user memory is read
(`filewrite`), a page fault can happen; there the property has to be kept by `touch`.
-/

namespace Xv6

open Hoare

/-- The panics of `filedup` and `fileclose` on a file without references. -/
def Stop.miscount : Stop → Bool
  | .panic msg => msg == "filedup" || msg == "fileclose"
  | _ => false

/-- The access of `allocatePageGuard` after the last mapping. -/
def Stop.isOutside : Stop → Bool
  | .outside _ => true
  | _ => false

/-- How code that only moves bytes can stop: it does not count references, does not call `exit()` and does
not index the table of mappings. -/
def Stop.plain (e : Stop) : Bool := !e.miscount && e != .exit && !e.isOutside

/-- `I` survives the changes that the file code makes, and gives `E` when the code stops. -/
structure Passive (I : State → Prop) (E : Stop → State → Prop) : Prop where
  stop : ∀ e, e.plain → ∀ s, I s → E e s
  mem : ∀ s g, I s → I { s with ram := { s.ram with mem := g } }
  nullPage : ∀ s, I s → I { s with ram := { s.ram with trace := .nullPage :: s.ram.trace } }
  off : ∀ s f o, I s → I (s.updFile f fun x => { x with off := o })
  inode : ∀ s g, I s → I { s with fs := { s.fs with inode := g } }
  pipe : ∀ s g, I s → I { s with fs := { s.fs with pipe := g } }
  ilocks : ∀ s l, I s → I { s with fs := { s.fs with ilocks := l } }

variable {α : Type} {s : State} {J : State → Prop}
variable {m : RamM α}

theorem onRam_triple {P : Ram → Prop} {Q : α → Ram → Prop}
    {F : Stop → Ram → Prop} (h : Triple P m Q F) (t : State) :
    Triple (fun s => P s.ram ∧ s = { t with ram := s.ram }) (onRam m)
      (fun a s => Q a s.ram ∧ s = { t with ram := s.ram })
      (fun e s => F e s.ram ∧ s = { t with ram := s.ram }) := by
  refine ⟨fun s hs => ?_⟩
  have hrun := h.run s.ram hs.1
  unfold onRam
  cases hm : m s.ram with
  | ok a r =>
    rw [hm] at hrun
    exact ⟨hrun, by rw [hs.2]⟩
  | error x r =>
    rw [hm] at hrun
    exact ⟨hrun, by rw [hs.2]⟩

variable {r : Ram}

theorem onRam_ok {f : RamM α} {x : α} (h : f s.ram = .ok x r) : onRam f s = .ok x { s with ram := r } := by
  unfold onRam
  rw [h]

variable {e : Stop}

theorem onRam_error {f : RamM α} (h : f s.ram = .error e r) : onRam f s = .error e { s with ram := r } := by
  unfold onRam
  rw [h]

theorem onRam_eq_ok {s' : State} {a : α} :
    onRam m s = .ok a s' ↔ ∃ r, m s.ram = .ok a r ∧ s' = { s with ram := r } := by
  unfold onRam
  cases m s.ram <;> simp [eq_comm]

theorem onRam_proc (C : (Fin NPROC → Proc) → Prop) (m : RamM α) : Keeps (fun s => C s.proc) ⊤ (onRam m) := by
  refine ⟨fun s hs => ?_⟩
  unfold onRam
  cases m s.ram with
  | ok a r => exact hs
  | error x r => trivial

theorem onRam_pgdir {p : Fin NPROC} {d : PgDir} (s : State) (a : α)
    (s' : State) (hd : (s.proc p).pgdir = d) (h : onRam m s = .ok a s') : (s'.proc p).pgdir = d := by
  obtain ⟨r, -, rfl⟩ := onRam_eq_ok.mp h
  exact hd

variable {I : State → Prop} {E : Stop → State → Prop} {p : Fin NPROC}

/-- A change of a file that only concerns its offset, whatever the new offset is computed from. -/
theorem Passive.updOff (hI : Passive I E) (f : Fin NFILE) (g : File → File)
    (hg : ∀ x, g x = { x with off := (g x).off }) (s : State) (hs : I s) : I (s.updFile f g) := by
  have h := hI.off s f (g (s.fs.file f)).off hs
  simp only [State.updFile] at h ⊢
  rwa [hg]

variable {F : Stop → State → Prop}

theorem Passive.and (hI : Passive I E) (hJ : Passive J F) : Passive (fun s => I s ∧ J s) E where
  stop e he s hs := hI.stop e he s hs.1
  mem s g hs := ⟨hI.mem s g hs.1, hJ.mem s g hs.2⟩
  nullPage s hs := ⟨hI.nullPage s hs.1, hJ.nullPage s hs.2⟩
  off s f o hs := ⟨hI.off s f o hs.1, hJ.off s f o hs.2⟩
  inode s g hs := ⟨hI.inode s g hs.1, hJ.inode s g hs.2⟩
  pipe s g hs := ⟨hI.pipe s g hs.1, hJ.pipe s g hs.2⟩
  ilocks s l hs := ⟨hI.ilocks s l hs.1, hJ.ilocks s l hs.2⟩

theorem passive_of_proc (C : (Fin NPROC → Proc) → Prop) :
    Passive (fun s => C s.proc) ⊤ where
  stop _ _ _ _ := trivial
  mem _ _ hs := hs
  nullPage _ hs := hs
  off _ _ _ hs := hs
  inode _ _ hs := hs
  pipe _ _ hs := hs
  ilocks _ _ hs := hs

namespace Passive

/-! ## Memory and locks -/

section
variable (hI : Passive I E)
include hI

theorem wakeup : Keeps I E wakeup := by
  unfold Xv6.wakeup
  refine .get fun t _ => ?_
  exact .check (hI.stop _ rfl) fun _ => .pure _

theorem memset (dst : Word) (c : Byte) : Keeps I E (onRam (memset dst c)) :=
  ⟨fun s hs => hI.mem s _ hs⟩

theorem memmove (dst src : Word) : Keeps I E (onRam (memmove dst src)) :=
  ⟨fun s hs => hI.mem s _ hs⟩

theorem storeBytes (dst : Word) (bs : Bytes) : Keeps I E (onRam (storeBytes dst bs)) :=
  ⟨fun s hs => hI.mem s _ hs⟩

theorem ilock (n : Nat) : Keeps I E (ilock n) := by
  unfold Xv6.ilock
  refine .get fun t _ => ?_
  refine .check (hI.stop _ rfl) fun _ => ?_
  refine .check (hI.stop _ rfl) fun _ => ?_
  exact .check (hI.stop _ rfl) fun _ => .modify fun s hs => hI.ilocks s _ hs

theorem iunlock (n : Nat) : Keeps I E (iunlock n) := by
  unfold Xv6.iunlock
  refine .get fun t _ => ?_
  refine .check (hI.stop _ rfl) fun _ => ?_
  exact .update (fun s hs => hI.ilocks s _ hs) <| hI.wakeup

theorem iput (n : Nat) : Keeps I E (iput n) := by
  unfold Xv6.iput
  refine .get fun t _ => ?_
  refine .check (hI.stop _ rfl) fun _ => ?_
  refine .update (fun s hs => hI.inode s _ hs) ?_
  exact .bind hI.wakeup fun _ => .modify fun s hs => hI.inode s _ hs

/-! ## Reading -/

theorem piperead (pg : Word) (n : Nat) : Keeps I E (piperead p pg n) := by
  unfold Xv6.piperead
  refine .get fun t _ => ?_
  refine .ite (fun _ => .early fun _ => .throw (hI.stop _ rfl)) fun _ => ?_
  refine .update (fun s hs => hI.pipe s _ hs) ?_
  exact .bind hI.wakeup fun _ => .pure _

end

section
variable (hI : Passive I E)
include hI

theorem fileread (f : Fin NFILE) (n : Nat) : Keeps I E (fileread p f n) := by
  unfold Xv6.fileread
  refine .get fun t _ => ?_
  refine .early fun _ => ?_
  cases (t.fs.file f).type with
  | none => exact .throw (hI.stop _ rfl)
  | pipe => exact hI.piperead _ n
  | inode =>
    refine .bind (hI.ilock _) fun _ => ?_
    have hregular : ∀ r, Keeps I E (do
        modify fun s => s.updFile f fun x => x.advance r
        Xv6.iunlock (t.fs.file f).ip
        Pure.pure r) := fun r =>
      .update (hI.updOff f _ fun x => by cases r <;> rfl) <| .bind (hI.iunlock _) fun _ => .pure _
    cases (t.fs.inode (t.fs.file f).ip).type with
    | dev major =>
      refine .check (hI.stop _ rfl) fun _ => ?_
      exact .bind (hI.iunlock _) fun _ => .pure _
    | free => exact hregular _
    | dir => exact hregular _
    | file => exact hregular _

theorem mmapRead (f : Fin NFILE) (n : Nat) : Keeps I E (mmapRead p f n) :=
  .update (fun s hs => hI.off s f 0 hs) <| hI.fileread f n

theorem storeLow (va w : Word) : Keeps I E (storeLow p va w) := by
  unfold Xv6.storeLow
  refine .get fun t _ => ?_
  exact .ite (fun _ => hI.storeBytes _ _) fun _ => .throw (hI.stop _ rfl)

theorem resetOff (f : Option (Fin NFILE)) : Keeps I E (resetOff p f) := by
  cases f with
  | none => exact hI.storeLow 20 0
  | some f => exact .modify fun s hs => hI.off s f 0 hs

theorem resetFirst (l : List Index) : Keeps I E (resetFirst p l) := by
  refine .get fun t _ => ?_
  cases l with
  | nil => exact .pure _
  | cons i l => exact hI.resetOff _

theorem mmapReadNull (f : Option (Fin NFILE)) : Keeps I E (mmapReadNull p f) := by
  cases f with
  | some f => exact hI.mmapRead f 4096
  | none =>
    refine .bind (hI.resetOff none) fun _ => .get fun t _ => ?_
    refine .early fun _ => ?_
    exact .check (hI.stop _ rfl) fun _ => .throw (hI.stop _ rfl)

theorem bufferPage (b : Option Word) : Keeps I E (bufferPage p b) := by
  cases b with
  | some b => exact .pure b
  | none =>
    refine .get fun t _ => .ite (fun _ => ?_) fun _ => .throw (hI.stop _ rfl)
    exact .bind ⟨fun s hs => hI.nullPage s hs⟩ fun _ => .pure _

/-! ## Writing

The user memory that is read is a range of addresses, and `touch` has to keep the property there. -/

theorem touch (va : Word) (htrap : Keeps I E (trap p false va)) : Keeps I E (touch p va) := by
  refine .get fun t _ => .early fun _ => ?_
  refine .bind htrap fun _ => .get fun t _ => ?_
  exact .early fun _ => .throw (hI.stop _ rfl)

end

variable {n : Nat}

theorem copyFromUser {va : Word} (hn : 0 < n) (hn' : n ≤ 4096)
    (htouch : ∀ x, (x - va).toNat < n → Keeps I E (Xv6.touch p x)) : Keeps I E (copyFromUser p va n) := by
  refine .bind (htouch _ ?_) fun _ => .bind (htouch _ ?_) fun _ => .get fun _ _ => .pure _
  · simpa using hn
  · rw [show va + .ofNat 32 n - 1 - va = BitVec.ofNat 32 n - 1 by ring, BitVec.toNat_sub,
      BitVec.toNat_ofNat, show (1 : Word).toNat = 1 from rfl]
    omega

variable {addr : Word}

theorem writeInode (hI : Passive I E) (f : Fin NFILE) (hn : 0 < n)
    (hn' : n ≤ 4096) (htouch : ∀ x, (x - addr).toNat < n → Keeps I E (Xv6.touch p x)) :
    Keeps I E (writeInode p f addr n) := by
  unfold Xv6.writeInode
  refine .get fun t _ => ?_
  have hcopy : Keeps I E (Xv6.copyFromUser p addr n) := Passive.copyFromUser hn hn' htouch
  have hstep : Keeps I E (modify fun s => s.updFile f fun x =>
      { x with off := x.off + .ofNat 32 n }) := .modify (hI.updOff f _ fun _ => rfl)
  dsimp only
  split
  · refine .ite (fun _ => ?_) fun _ => .pure _
    exact .bind hcopy fun _ => .bind hstep fun _ => .pure _
  · refine .ite (fun _ => .bind hcopy fun _ => ?_) fun _ => .pure _
    exact .update (fun s hs => hI.inode s _ hs) <| .bind hstep fun _ => .pure _

theorem sub_lt_of_part {x : Word} {i m : Nat} (hm : i + m ≤ n)
    (h : (x - (addr + .ofNat 32 i)).toNat < m) : (x - addr).toNat < n := by
  have heq : x - addr = (x - (addr + .ofNat 32 i)) + .ofNat 32 i := by ring
  rw [heq, BitVec.toNat_add, BitVec.toNat_ofNat]
  omega

section
variable (hI : Passive I E) {addr : Word} {n : Nat} (hn' : n ≤ 4096)
  (htouch : ∀ x, (x - addr).toNat < n → Keeps I E (Xv6.touch p x))
include hI hn' htouch

theorem filewriteLoop (f : Fin NFILE) (fuel i : Nat) : Keeps I E (filewriteLoop p f addr n fuel i) := by
  induction fuel generalizing i with
  | zero => exact .pure _
  | succ fuel ih =>
    unfold Xv6.filewriteLoop
    refine .ite (fun hi => .get fun t _ => ?_) fun _ => .pure _
    have hchunk : 0 < min (n - i) maxWrite := by
      have : 0 < maxWrite := by decide
      omega
    refine .bind (.pure _) fun _ => .bind (hI.ilock _) fun _ => ?_
    refine .bind (hI.writeInode f hchunk (by omega) fun x hx => htouch x ?_) fun r => ?_
    · exact sub_lt_of_part (by omega) hx
    refine .bind (hI.iunlock _) fun _ => .bind hI.wakeup fun _ => ?_
    cases r with
    | none => exact .pure _
    | some r => exact .check (hI.stop _ rfl) fun _ => ih _

theorem pipewrite (pg : Word) : Keeps I E (pipewrite p pg addr n) := by
  refine .get fun t _ => ?_
  refine .bind (.early fun hroom => ?_) fun bs => ?_
  · exact Passive.copyFromUser (Nat.pos_of_ne_zero hroom) (by omega) fun x hx => htouch x (by omega)
  refine .update (fun s hs => hI.pipe s _ hs) ?_
  refine .ite (fun _ => .get fun t _ => ?_) fun _ => .bind hI.wakeup fun _ => .pure _
  refine .early fun _ => ?_
  exact .bind hI.wakeup fun _ => .throw (hI.stop _ rfl)

theorem filewrite (f : Fin NFILE) : Keeps I E (filewrite p f addr n) := by
  refine .get fun t _ => .early fun _ => ?_
  cases (t.fs.file f).type with
  | none => exact .throw (hI.stop _ rfl)
  | pipe => exact hI.pipewrite hn' htouch _
  | inode => exact hI.filewriteLoop hn' htouch f n 0

end

section
variable (hI : Passive I E)
include hI

theorem syncDesc (f : Fin NFILE) (md : MmapDesc)
    (htouch : hasFlag md.flags MAP_PRIVATE = false → ∀ x, (x - md.virtualAddress).toNat < 4096 →
      Keeps I E (Xv6.touch p x)) : Keeps I E (syncDesc p f md) := by
  refine .early fun hp => ?_
  exact .bind (hI.filewrite le_rfl (htouch (by simpa using hp)) f) fun _ => .pure _

theorem pipeclose (pg : Word) (writable : Bool)
    (hkfree : Keeps I E (onRam (kfree pg))) : Keeps I E (pipeclose pg writable) := by
  refine .update (fun s hs => hI.pipe s _ hs) <| .bind hI.wakeup fun _ => ?_
  exact .get fun t _ => .ite (fun _ => hkfree) fun _ => .pure _

/-- `fileclose` changes the count and the type of a file, and can free the page of a pipe, so `kfree` has to
keep the property if there are pipes. -/
theorem fileclose (hcount : ∀ s, I s → E (.panic "fileclose") s)
    (hdrop : ∀ s f r ty, ty = .none ∨ ty = (s.fs.file f).type → I s →
      I (s.updFile f fun x => { x with ref := r, type := ty }))
    (hpipe : ∀ s f pg, I s → (s.fs.file f).type = .pipe → Keeps I E (onRam (kfree pg)))
    (f : Fin NFILE) : Keeps I E (fileclose f) := by
  refine .get fun t ht => .check hcount fun _ => ?_
  refine .ite (fun _ => .modify fun s hs => ?_) fun _ => ?_
  · exact hdrop s f ((s.fs.file f).ref - 1) (s.fs.file f).type (.inr rfl) hs
  refine .update (fun s hs => hdrop s f 0 .none (.inl rfl) hs) ?_
  cases htype : (t.fs.file f).type with
  | none => exact .pure _
  | pipe => exact hI.pipeclose _ _ (hpipe t f _ ht htype)
  | inode => exact .bind (.pure _) fun _ => .bind (hI.iput _) fun _ => hI.wakeup

theorem sysOpen {omode : Word} (hopen : ∀ n, Keeps I E (openInode p n omode))
    (path : Option Nat) : Keeps I E (sysOpen p path omode) := by
  have hfail : Keeps I E (do
      Xv6.endOp
      Pure.pure (-1) : K Word) := .bind hI.wakeup fun _ => .pure _
  have hfound : ∀ n (g : Inode → Inode), Keeps I E (do
      modify fun s => s.updInode n g
      Xv6.openInode p n omode) := fun n g =>
    .update (fun s hs => hI.inode s _ hs) <| hopen n
  cases path with
  | none => exact hfail
  | some n =>
    refine .get fun t _ => ?_
    cases (t.fs.inode n).type with
    | free => exact .ite (fun _ => hfound n _) fun _ => hfail
    | file => exact hfound n _
    | dir => exact .ite (fun _ => hfail) fun _ => hfound n _
    | dev major => exact .ite (fun _ => hfail) fun _ => hfound n _

theorem sysMunmap (hclose : ∀ i, Keeps I E (closeDesc p i))
    (hfree : ∀ i, Keeps I E (munmapFree p i)) (args : Option (Word × Word)) :
    Keeps I E (sysMunmap p args) := by
  cases args with
  | none => exact .pure _
  | some a =>
    refine .early fun _ => ?_
    cases pagesBelow (a.2 + a.1) (2 ^ 20 + 1) a.1 with
    | none => exact .throw (hI.stop _ rfl)
    | some visits =>
      refine .get fun t _ => .bind (hI.resetFirst _) fun _ => ?_
      refine .bind (.forM _ fun i _ => hclose i) fun _ => ?_
      exact .bind (.forM _ fun i _ => hfree i) fun _ => .pure _

theorem sysMmap {args : Option MmapArgs}
    (hfill : ∀ a, args = some a → ∀ last js va, Keeps I E (mmapFill p a last js va))
    (hptr : ∀ s va, I s → I { s with vaPtr := va }) : Keeps I E (sysMmap p args) := by
  cases args with
  | none => exact .pure _
  | some a =>
    refine .early fun _ => ?_
    cases pageCount a with
    | none => exact .throw (hI.stop _ rfl)
    | some n =>
      refine .early fun _ => .get fun t _ => .early fun _ => ?_
      dsimp only
      cases findRun (t.proc p).mmaps n (List.finRange PAGE_LIMIT) 0 with
      | none => exact .pure _
      | some i =>
        refine .bindOption (hfill a rfl _ _ _) (.pure _) fun va => ?_
        exact .early fun _ => .update (fun s hs => hptr s _ hs) <| .pure _

end

end Passive

/-! ## Open files

The next functions also change which files are open, and which of them the process `q` has open. A
property that does not look at that, except that no pipe may appear, is `FileBlind q`. -/

variable {f : Fin NFILE}

theorem filedup_proc {t : State} {a : Unit} (h : filedup f s = .ok a t) : t.proc = s.proc := by
  obtain ⟨u, v, hu, h⟩ := bind_eq_ok.mp h
  cases hu
  split at h <;> cases h
  rfl

structure FileBlind (q : Fin NPROC) (I : State → Prop) (E : Stop → State → Prop) : Prop where
  count : ∀ msg s, I s → E (.panic msg) s
  file : ∀ s f g, ((g (s.fs.file f)).type = .pipe → (s.fs.file f).type = .pipe) → I s → I (s.updFile f g)
  ofile : ∀ s g, I s → I (s.updProc q fun x => { x with ofile := g })
  cwd : ∀ s c, I s → I (s.updProc q fun x => { x with cwd := c })

theorem FileBlind.and (hI : FileBlind p I E)
    (hJ : FileBlind p J F) : FileBlind p (fun s => I s ∧ J s) E where
  count e s hs := hI.count e s hs.1
  file s f g hg hs := ⟨hI.file s f g hg hs.1, hJ.file s f g hg hs.2⟩
  ofile s g hs := ⟨hI.ofile s g hs.1, hJ.ofile s g hs.2⟩
  cwd s c hs := ⟨hI.cwd s c hs.1, hJ.cwd s c hs.2⟩

theorem fileBlind_of_ne {np : Fin NPROC} (hne : p ≠ np) (q : Proc) :
    FileBlind np (fun s => s.proc p = q) ⊤ where
  count _ _ _ := trivial
  file _ _ _ _ hs := hs
  ofile s g hs := by simpa [hne] using hs
  cwd s c hs := by simpa [hne] using hs

namespace FileBlind

section
variable (hF : FileBlind p I E)
include hF

theorem filealloc : Keeps I E filealloc := by
  refine .get fun t _ => ?_
  cases (List.finRange NFILE).find? fun f => (t.fs.file f).ref == 0 with
  | none => exact .pure _
  | some f => exact .update (fun s hs => hF.file s f _ id hs) <| .pure _

theorem filedup (f : Fin NFILE) : Keeps I E (filedup f) :=
  .get fun _ _ => .check (hF.count _) fun _ =>
    .modify fun s hs => hF.file s f _ id hs

theorem filedupNull {q : Fin NPROC} (hI : Passive I E)
    (f : Option (Fin NFILE)) : Keeps I E (filedupNull q f) := by
  cases f with
  | some f => exact hF.filedup f
  | none =>
    refine .get fun t _ => .check (hI.stop _ rfl) fun _ => ?_
    exact .check (hF.count _) fun _ => hI.storeLow _ _

theorem fdalloc (f : Fin NFILE) : Keeps I E (fdalloc p f) := by
  refine .get fun t _ => ?_
  cases (List.finRange NOFILE).find? fun fd => ((t.proc p).ofile fd).isNone with
  | none => exact .pure _
  | some fd => exact .update (fun s hs => hF.ofile s _ hs) <| .pure _

theorem sysDup (fd : Word) : Keeps I E (sysDup p fd) := by
  refine .get fun t _ => ?_
  cases argfd (t.proc p) fd with
  | none => exact .pure _
  | some f =>
    refine .bind (hF.fdalloc f) fun o => ?_
    cases o with
    | none => exact .pure _
    | some fd' => exact .bind (hF.filedup f) fun _ => .pure _

theorem sysPipe (hclose : ∀ f, Keeps I E (Xv6.fileclose f))
    (halloc : Keeps I E (onRam kalloc)) (hfs : ∀ s fs, I s → I { s with fs := fs }) :
    Keeps I E (sysPipe p) := by
  have hfail : ∀ f g, Keeps I E (do
      Xv6.fileclose f
      Xv6.fileclose g
      pure (-1) : K Word) := fun f g =>
    .bind (hclose f) fun _ => .bind (hclose g) fun _ => .pure _
  have hpipe : Keeps I E pipealloc := by
    refine .bindOption hF.filealloc (.pure _) fun f0 => ?_
    refine .bindOption hF.filealloc (.bind (hclose f0) fun _ => .pure _) fun f1 => ?_
    refine .bindOption halloc (.bind (hclose f0) fun _ => .bind (hclose f1) fun _ => .pure _) fun pg => ?_
    refine .update (fun s hs => hfs s _ hs) ?_
    refine .update (fun s hs => hfs s _ hs) ?_
    exact .update (fun s hs => hfs s _ hs) <| .pure _
  refine .bindOption hpipe (.pure _) fun fs => ?_
  refine .bindOption (hF.fdalloc fs.1) (hfail _ _) fun fd0 => ?_
  refine .bindOption (hF.fdalloc fs.2) (.update (fun s hs => hF.ofile s _ hs) <| hfail _ _)
    fun fd1 => ?_
  exact .pure _

theorem mmapFill {a : MmapArgs} (hclaim : ∀ j b s, I s → I (s.updDesc p j fun md => md.claim a b))
    (hfill : ∀ j f va s, I s → I (s.updDesc p j fun md =>
      { md with f := f, length := a.length, virtualAddress := va }))
    (last : Nat) (js : List Index) (va : Word) : Keeps I E (mmapFill p a last js va) := by
  induction js generalizing va with
  | nil => exact .pure _
  | cons j js ih =>
    unfold Xv6.mmapFill
    refine .get fun t _ => .ite (fun _ => ih va) fun _ => .update (hclaim j _) <| ?_
    refine .ite (fun _ => .update (hfill j none va) <| ih _) fun _ => ?_
    cases argfd (t.proc p) a.fd with
    | none => exact .pure _
    | some f => exact .bind (hF.filedup f) fun _ => .update (hfill j (some f) va) <| ih _

end

section
variable (hF : FileBlind p I E) (hI : Passive I E)
  (hpipe : ∀ s f pg, I s → (s.fs.file f).type = .pipe → Keeps I E (onRam (kfree pg)))
include hF hI hpipe

theorem fileclose (f : Fin NFILE) : Keeps I E (fileclose f) := by
  apply hI.fileclose (hF.count _) _ hpipe
  intro s f r ty hty hs
  apply hF.file s f _ _ hs
  rcases hty with rfl | rfl
  · exact nofun
  · exact id

theorem closeDesc (i : Index)
    (htouch : ∀ s, I s → ((s.proc p).mmaps i).f ≠ none →
      hasFlag ((s.proc p).mmaps i).flags MAP_PRIVATE = false →
      ∀ x, (x - ((s.proc p).mmaps i).virtualAddress).toNat < 4096 → Keeps I E (touch p x)) :
    Keeps I E (closeDesc p i) := by
  refine .get fun t ht => ?_
  dsimp only
  cases hf : ((t.proc p).mmaps i).f with
  | none => exact .pure _
  | some f =>
    refine .bind (hI.syncDesc f _ fun hp => ?_) fun _ => fileclose hF hI hpipe f
    exact htouch t ht (by simp [hf]) hp

theorem openInode (n : Nat) (omode : Word) : Keeps I E (openInode p n omode) := by
  refine .bindOption hF.filealloc (.bind (hI.iput n) fun _ => .bind hI.wakeup fun _ => .pure _) fun f => ?_
  refine .bind (hF.fdalloc f) fun o => ?_
  cases o with
  | none =>
    refine .bind (fileclose hF hI hpipe f) fun _ => ?_
    exact .bind (hI.iput n) fun _ => .bind hI.wakeup fun _ => .pure _
  | some fd =>
    refine .bind hI.wakeup fun _ => ?_
    exact .update (fun s hs => hF.file s f _ nofun hs) <| .pure _

theorem sysOpen (path : Option Nat) (omode : Word) : Keeps I E (sysOpen p path omode) :=
  hI.sysOpen (fun n => openInode hF hI hpipe n omode) path

theorem sysClose (fd : Word) : Keeps I E (sysClose p fd) := by
  refine .get fun t _ => ?_
  split
  next h =>
    cases (t.proc p).ofile ⟨fd.toNat, h⟩ with
    | none => exact .pure _
    | some f =>
      refine .update (fun s hs => hF.ofile s _ hs) ?_
      exact .bind (fileclose hF hI hpipe f) fun _ => .pure _
  next => exact .pure _

theorem exitFd (fd : Fin NOFILE) : Keeps I E (exitFd p fd) := by
  refine .get fun t _ => ?_
  cases (t.proc p).ofile fd with
  | none => exact .pure _
  | some f =>
    exact .bind (fileclose hF hI hpipe f) fun _ => .modify fun s hs => hF.ofile s _ hs

end

theorem exitCwd (hF : FileBlind p I E) (hI : Passive I E) : Keeps I E (exitCwd p) := by
  refine .get fun t _ => ?_
  cases (t.proc p).cwd with
  | none => exact .throw (hI.stop _ rfl)
  | some n =>
    refine .bind (.pure _) fun _ => .bind (hI.iput n) fun _ => .bind hI.wakeup fun _ => ?_
    exact .modify fun s hs => hF.cwd s _ hs

theorem exit (hF : FileBlind p I E) (hI : Passive I E)
    (hpipe : ∀ s f pg, I s → (s.fs.file f).type = .pipe → Keeps I E (onRam (kfree pg)))
    (hclose : ∀ i, Keeps I E (Xv6.closeDesc p i)) (hfree : ∀ i, Keeps I E (munmapFree p i))
    (hlock : ∀ s b, I s → I { s with ptableLock := b }) (hreparent : Keeps I E (reparent p))
    (hstate : Keeps I E (setState p .zombie)) : Keeps I E (exit p) := by
  refine .get fun t _ => .check (hI.stop _ rfl) fun _ => ?_
  refine .bind (.forM _ fun fd _ => hF.exitFd hI hpipe fd) fun _ => .bind (hF.exitCwd hI) fun _ => ?_
  refine .bind (.get fun t _ => .check (hI.stop _ rfl) fun _ => .modify fun s hs => hlock s _ hs) fun _ => ?_
  refine .bind hreparent fun _ => .bind (.forM _ fun i _ => .get fun t _ => .early fun _ =>
    .bind (hclose i) fun _ => hfree i) fun _ => ?_
  exact .bind hstate fun _ => .modify fun s hs => hlock s _ hs

variable {np : Fin NPROC}

theorem dupFd (hF : FileBlind np I E) (fd : Fin NOFILE) : Keeps I E (dupFd p np fd) := by
  refine .get fun t _ => ?_
  cases (t.proc p).ofile fd with
  | none => exact .pure _
  | some f => exact .bind (hF.filedup f) fun _ => .modify fun s hs => hF.ofile s _ hs

theorem dupCwd (hF : FileBlind np I E) (hI : Passive I E) : Keeps I E (dupCwd p np) := by
  refine .get fun t _ => ?_
  cases (t.proc p).cwd with
  | none => exact .throw (hI.stop _ rfl)
  | some n =>
    exact .update (fun s hs => hI.inode s _ hs) <| .modify fun s hs => hF.cwd s _ hs

end FileBlind

/-! ## Programs over memory

They have nothing to do with files and do not call `exit()`. -/

class Plain {α : Type} (m : RamM α) : Prop where
  keeps : Keeps (fun _ => True) (fun e _ => e.plain) m

namespace Plain

variable {d : PgDir}

instance kalloc : Plain kalloc where
  keeps := by
    refine ⟨fun r _ => ?_⟩
    unfold Xv6.kalloc
    cases r.freelist <;> trivial

instance memset (dst : Word) (c : Byte) : Plain (memset dst c) := ⟨.modify fun _ _ => trivial⟩

instance memmove (dst src : Word) : Plain (memmove dst src) := ⟨.modify fun _ _ => trivial⟩

instance storeBytes (dst : Word) (bs : Bytes) : Plain (storeBytes dst bs) :=
  ⟨.modify fun _ _ => trivial⟩

instance kfree (v : Word) : Plain (kfree v) where
  keeps := .get fun _ _ => .update (fun _ _ => trivial) <|
    .ite (fun _ => .bind (memset v 1).keeps fun _ => .modify fun _ _ => trivial)
      fun _ => .throw fun _ _ => rfl

instance walkpgdir (va : Word) : Plain (walkpgdir d va) where
  keeps := by
    refine .early fun _ => .bindOption kalloc.keeps (.pure _) fun pg => ?_
    exact .bind (memset pg 0).keeps fun _ => .pure _

instance mappagesLoop (perm : Word) (n : Nat) (a pa : Word) :
    Plain (mappagesLoop perm n d a pa) where
  keeps := by
    refine (mappagesLoop_rule (I := fun _ _ _ => True) (F := fun _ _ => True) n fun _ _ _ b _ =>
      (walkpgdir b).keeps.post fun o _ _ => ?_).post fun _ _ _ => trivial
    cases o with
    | none => trivial
    | some d =>
      rw [Option.elim_some]
      split
      next => rfl
      next => trivial

instance mappages (va size pa perm : Word) : Plain (mappages d va size pa perm) :=
  mappagesLoop _ _ _ _

instance mapPage (va mem prot : Word) : Plain (mapPage d va mem prot) where
  keeps := .bind (mappages _ _ _ _).keeps fun _ =>
    .ite (fun _ => .update (fun _ _ => trivial) <| .pure _) fun _ => .pure _

theorem deallocuvmLoop (oldsz : Word) (fuel : Nat) (a : Word) :
    Plain (deallocuvmLoop oldsz fuel d a) where
  keeps := by
    induction fuel generalizing d a with
    | zero => exact .pure _
    | succ fuel ih =>
      unfold Xv6.deallocuvmLoop
      refine .ite (fun _ => ?_) fun _ => .pure _
      cases d.walk a with
      | none => exact ih _
      | some pte =>
        refine .ite (fun _ => .check (fun _ _ => rfl) fun _ => ?_) fun _ => ih _
        exact .bind (kfree _).keeps fun _ => ih _

instance freevm : Plain (freevm d) where
  keeps := by
    refine .check (fun _ _ => rfl) fun _ => ?_
    refine .bind (.early fun _ => ?_) fun r => .bind (.forM _ fun i _ => ?_) fun _ =>
      (kfree _).keeps
    · exact .bind (deallocuvmLoop _ _ _).keeps fun _ => .pure _
    · exact .ite (fun _ => (kfree _).keeps) fun _ => .pure _

theorem setupkvmLoop (ks : List Kmap) : Plain (setupkvmLoop ks d) where
  keeps := by
    induction ks generalizing d with
    | nil => exact .pure _
    | cons k ks ih =>
      refine .bind (mappages _ _ _ _).keeps fun _ => .ite (fun _ => ih) fun _ => ?_
      exact .bind freevm.keeps fun _ => .pure _

theorem copyuvmLoop (pgdir : PgDir) (n : Nat) (i : Word) : Plain (copyuvmLoop pgdir n i d) where
  keeps := by
    induction n generalizing d i with
    | zero => exact .pure _
    | succ n ih =>
      unfold Xv6.copyuvmLoop
      cases pgdir.walk i with
      | none => exact .throw fun _ _ => rfl
      | some pte =>
        refine .check (fun _ _ => rfl) fun _ => .bindOption kalloc.keeps
          (.bind freevm.keeps fun _ => .pure _) fun mem => ?_
        refine .bind (memmove _ _).keeps fun _ => .bind (mappages _ _ _ _).keeps fun r => ?_
        refine .ite (fun _ => ih _) fun _ => .bind (kfree _).keeps fun _ => ?_
        exact .bind freevm.keeps fun _ => .pure _

instance copyuvm (pgdir : PgDir) (sz : Word) : Plain (copyuvm pgdir sz) where
  keeps := by
    refine .bind (.bind kalloc.keeps fun o => ?_) fun o => ?_
    · cases o with
      | none => exact .pure _
      | some pg =>
        refine .bind (memset pg 0).keeps fun _ => .check (fun _ _ => rfl) fun _ => ?_
        exact .get fun r _ => (setupkvmLoop _).keeps
    · cases o with
      | none => exact .pure _
      | some d => exact (copyuvmLoop _ _ _).keeps

end Plain

theorem keeps_onRam {α : Type} (m : RamM α) [hm : Plain m] (hstop : ∀ e, e.plain → ∀ s, I s → E e s)
    (hram : ∀ s r, I s → I { s with ram := r }) : Keeps I E (onRam m) := by
  refine ⟨fun s hs => ?_⟩
  have hrun := hm.keeps.run s.ram trivial
  unfold onRam
  cases hr : m s.ram with
  | ok a r => exact hram s r hs
  | error x r =>
    rw [hr] at hrun
    exact hstop x hrun _ (hram s r hs)

/-! ## Adding pages

`mappages` leaves the pages alone that are there. -/

/-- The entries that are present in `d` are in `d'` too. -/
def PgDir.Extends (d d' : PgDir) : Prop :=
  ∀ a, d.access a false false → d'.walk a = d.walk a

namespace PgDir.Extends

variable {d d' d'' : PgDir}

theorem refl (d : PgDir) : d.Extends d := fun _ _ => rfl

theorem access_eq (h : d.Extends d') {a : Word} (ha : d.access a false false) (user write : Bool) :
    d'.access a user write = d.access a user write := by
  unfold PgDir.access
  rw [h a ha]

theorem trans (h : d.Extends d') (h' : d'.Extends d'') : d.Extends d'' := by
  intro a ha
  rw [h' a (by rw [h.access_eq ha, ha]), h a ha]

theorem setTable {k : Nat} (hk : hasFlag (d.pde k) PTE_P = false) (pg : Word) :
    d.Extends (d.setTable k pg) := by
  intro a ha
  have hpresent : hasFlag (d.pde (pdx a)) PTE_P = true := by
    by_contra hp
    simp [PgDir.access, PgDir.walk, hp] at ha
  have hne : pdx a ≠ k := by
    rintro rfl
    rw [hk] at hpresent
    cases hpresent
  unfold PgDir.walk
  rw [PgDir.setTable_pde, PgDir.setTable_pte, vpn_div, if_neg hne, if_neg hne]

theorem setPte {n : Nat} (hn : hasFlag (d.pte n) PTE_P = false) (w : Word) : d.Extends (d.setPte n w) := by
  intro a ha
  unfold PgDir.walk
  rw [PgDir.setPte_pde, PgDir.setPte_pte]
  split
  next hp =>
    rw [if_neg]
    rintro rfl
    simp [PgDir.access, PgDir.walk, hp, hn] at ha
  next => rfl

end PgDir.Extends

theorem walkpgdir_extends (d : PgDir) (va : Word) :
    Triple (fun _ => True) (walkpgdir d va) (fun o _ => ∀ d', o = some d' → d.Extends d')
      ⊤ := by
  refine .ite (fun _ => .pure fun _ _ d' hd => ?_) fun hp => .bind (Keeps.anything _) fun o => ?_
  · cases hd
    exact .refl d
  · cases o with
    | none => exact .pure fun _ _ => nofun
    | some pg =>
      refine .bind (Keeps.anything _) fun _ => .pure fun _ _ d' hd => ?_
      cases hd
      exact .setTable (by simpa using hp) pg

theorem mappagesLoop_extends (perm : Word) (n : Nat) (d : PgDir) (a pa : Word) :
    Triple (fun _ => True) (mappagesLoop perm n d a pa) (fun x _ => d.Extends x.2)
      ⊤ := by
  refine ((mappagesLoop_rule (E := ⊤) (I := fun _ d' _ => d.Extends d') (F := fun d' _ => d.Extends d') n
    fun i _ d' b _ => ⟨fun r hd' => ?_⟩).pre fun r _ => .refl d).post fun x r hx => ?_
  · refine ((walkpgdir_extends d' b).post fun o r ho => ?_).run r trivial
    cases o with
    | none => exact hd'
    | some d₁ =>
      rw [Option.elim_some]
      split
      next => trivial
      next hp => exact (hd'.trans (ho d₁ rfl)).trans (.setPte (by simpa using hp) _)
  · rwa [ite_self] at hx

theorem mapPage_extends (d : PgDir) (va mem prot : Word) :
    Triple (fun _ => True) (mapPage d va mem prot) (fun x _ => d.Extends x.2) ⊤ := by
  refine .bind (mappagesLoop_extends _ _ _ _ _) fun x => ?_
  refine .ite (fun _ => ?_) fun _ => .pure fun _ h => h
  exact .update (R := fun _ => d.Extends x.2) (fun _ h => h) <| .pure fun _ h => h

/-! ## Bringing a page in

Page faults also add to the page table of the process and change its buffers, the free list and the
`killed` flag. A passive property that these changes leave alone is `Calm p`; a fault on a page that is
not a guard page keeps it. -/

structure Calm (p : Fin NPROC) (I : State → Prop) (E : Stop → State → Prop) : Prop
    extends Passive I E where
  exit : ∀ s, I s → E .exit s
  ram : ∀ s r, I s → I { s with ram := r }
  pgdir : ∀ s d, (s.proc p).pgdir.Extends d → I s → I (s.updProc p fun q => { q with pgdir := d })
  killed : ∀ s, I s → I (s.updProc p fun q => { q with killed := true })
  page : ∀ s i w, I s → I (s.updDesc p i fun md => { md with page := w })

theorem Calm.and (hI : Calm p I E) (hJ : Calm p J F) :
    Calm p (fun s => I s ∧ J s) E where
  toPassive := hI.toPassive.and hJ.toPassive
  exit s hs := hI.exit s hs.1
  ram s r hs := ⟨hI.ram s r hs.1, hJ.ram s r hs.2⟩
  pgdir s d hd hs := ⟨hI.pgdir s d hd hs.1, hJ.pgdir s d hd hs.2⟩
  killed s hs := ⟨hI.killed s hs.1, hJ.killed s hs.2⟩
  page s i w hs := ⟨hI.page s i w hs.1, hJ.page s i w hs.2⟩

/-- What a descriptor says, without its buffer. -/
def MmapDesc.frame (md : MmapDesc) : MmapDesc := { md with page := 0 }

section
variable {md md' : MmapDesc} (h : md.frame = md'.frame)
include h

theorem frame_virtualAddress : md.virtualAddress = md'.virtualAddress := by
  simp_all [MmapDesc.frame]
theorem frame_flags : md.flags = md'.flags := by simp_all [MmapDesc.frame]
theorem frame_guardPage : md.guardPage = md'.guardPage := by simp_all [MmapDesc.frame]
theorem frame_f : md.f = md'.f := by simp_all [MmapDesc.frame]

end

theorem findDesc_frame (mmaps : Mmaps) (a : Word) :
    findDesc mmaps a = findDesc (fun i => (mmaps i).frame) a := rfl

theorem calm_of_frame (C : Mmaps → Prop) :
    Calm p (fun s => C fun i => ((s.proc p).mmaps i).frame) ⊤ where
  toPassive := passive_of_proc fun q => C fun i => ((q p).mmaps i).frame
  exit _ _ := trivial
  ram _ _ hs := hs
  pgdir s d _ hs := by simpa using hs
  killed s hs := by simpa using hs
  page s i w hs := by
    have hframe : (fun j => (((s.updDesc p i fun md => { md with page := w }).proc p).mmaps j).frame) =
        fun j => ((s.proc p).mmaps j).frame := by
      funext j
      rw [updDesc_mmaps]
      by_cases hj : j = i
      · subst hj
        simp [MmapDesc.frame]
      · simp [hj]
    rwa [hframe]

namespace Calm

variable {α : Type}

section
variable (hI : Calm p I E)
include hI

theorem onRam (m : RamM α) [Plain m] : Keeps I E (onRam m) := keeps_onRam m hI.stop hI.ram

theorem kill : Keeps I E (kill p) := .modify hI.killed

theorem mapPage (d : PgDir) (va mem prot : Word) :
    Triple (fun s => I s ∧ (s.proc p).pgdir = d) (Xv6.onRam (mapPage d va mem prot))
      (fun x s => (I s ∧ (s.proc p).pgdir = d) ∧ d.Extends x.2) E := by
  refine ⟨fun s hs => ?_⟩
  have hkeep := (hI.onRam (Xv6.mapPage d va mem prot)).run s hs.1
  have hext := (mapPage_extends d va mem prot).run s.ram trivial
  unfold Xv6.onRam at hkeep ⊢
  cases hr : Xv6.mapPage d va mem prot s.ram with
  | ok x r =>
    rw [hr] at hkeep hext
    exact ⟨⟨hkeep, hs.2⟩, hext⟩
  | error x r =>
    rw [hr] at hkeep
    exact hkeep

theorem setPgdir {d d' : PgDir} (hd : d.Extends d') :
    Triple (fun s => I s ∧ (s.proc p).pgdir = d) (setPgdir p d') (fun _ => I) E := by
  refine .modify fun s hs => hI.pgdir s d' ?_ hs.1
  rw [hs.2]
  exact hd

theorem onRamDir (d : PgDir) (m : RamM α) [Plain m] :
    Keeps (fun s => I s ∧ (s.proc p).pgdir = d) E (Xv6.onRam m) :=
  (hI.onRam m).frame onRam_pgdir

theorem readFilePage (i : Index) (mem : Word) : Keeps I E (readFilePage p i mem) := by
  refine .bind (hI.onRam _) fun o => .bind (hI.bufferPage o) fun page => ?_
  refine .bind (hI.onRam _) fun _ => .get fun t _ => .bind (hI.mmapReadNull _) fun r => ?_
  refine .bind (hI.onRam _) fun _ => .bind (hI.onRam _) fun _ => ?_
  exact .modify fun s hs => hI.page s i _ hs

theorem allocatePageNonGuard (i : Index) (a : Word) : Keeps I E (allocatePageNonGuard p i a) := by
  refine .bindOption (hI.onRam _) (.throw (hI.stop _ rfl)) fun mem => ?_
  refine .bind (hI.onRam _) fun _ => Triple.get fun t ht => ?_
  refine .bind ((hI.mapPage (t.proc p).pgdir _ _ _).pre ?_) fun r => .pre_and fun hr => ?_
  · rintro _ rfl
    exact ⟨ht, rfl⟩
  refine .bind (hI.setPgdir hr) fun _ => Keeps.ite (fun _ => ?_) fun _ => ?_
  · exact .bind (hI.onRam _) fun _ => .bind hI.kill fun _ => .throw hI.exit
  · exact .early fun _ => hI.readFilePage i mem

theorem trap (user : Bool) (a : Word)
    (hguard : ∀ s i, I s → findDesc (s.proc p).mmaps a = some i →
      ((s.proc p).mmaps i).guardPage = false) : Keeps I E (trap p user a) := by
  refine .bind ?_ fun _ => .get fun t _ => .check hI.exit fun _ => .pure _
  refine .get fun t ht => ?_
  cases hfind : findDesc (t.proc p).mmaps a with
  | none => exact hI.kill
  | some i =>
    simp only [hguard t i ht hfind]
    exact hI.allocatePageNonGuard i a

/-- One round of `copy_maps`, for a property that does not look at the counts and buffers of the mappings,
nor at the page table of the child. -/
theorem copyMap {np : Fin NPROC} {i : Index}
    (hdir : ∀ d, Keeps I E (Xv6.setPgdir np d)) (hdeep : Keeps I E (deepCopy p np i))
    (hdesc : ∀ q g, (∀ md, g md = { md with ref := (g md).ref, page := (g md).page }) →
      Keeps I E (modify fun s => s.updDesc q i g : K Unit)) : Keeps I E (copyMap p np i) := by
  have hshare : ∀ w, Keeps I E (shareMap p np i w) := by
    intro w
    refine .get fun t _ => .bind (hI.onRam _) fun r => .check (hI.stop _ rfl) fun _ => ?_
    refine .bind (hdir _) fun _ => .bind (hdesc np _ fun _ => rfl) fun _ => ?_
    exact .bind (hdesc p _ fun _ => rfl) fun _ => .bind (hdesc np _ fun _ => rfl) fun _ => hdeep
  refine .get fun t _ => .early fun _ => .ite (fun _ => ?_) fun _ => ?_
  · refine .ite (fun _ => .early fun _ => ?_) fun _ => hshare _
    exact .bind (hI.allocatePageNonGuard i _) fun _ => .get fun t _ => hshare _
  · refine .ite (fun _ => hdeep) fun _ => .bindOption (hI.onRam _) (.throw hI.exit) fun mem => ?_
    refine .get fun t _ => .bind (hI.onRam _) fun r => .check (hI.stop _ rfl) fun _ => ?_
    refine .bind (hdir _) fun _ => .bind (hI.onRam _) fun _ => ?_
    exact .bind (hdesc np _ fun _ => rfl) fun _ => hdeep

theorem munmapFree {i : Index} (href : ∀ s, I s → I (s.updDesc p i fun md => { md with ref := md.ref - 1 }))
    (hclear : ∀ s, I s → I (s.updDesc p i MmapDesc.cleared)) : Keeps I E (munmapFree p i) := by
  refine .get fun t _ => .early fun _ => .ite (fun _ => .modify href) fun _ => ?_
  refine .update hclear <| .early fun _ => .bind (hI.onRam _) fun _ => ?_
  exact .modify fun s hs => hI.page s i 0 hs

theorem wait (hupd : ∀ q g, (∀ x : Proc, (g x).mmaps = x.mmaps ∧ (g x).sz = x.sz) →
    Keeps I E (modify fun s => s.updProc q g : K Unit)) : Keeps I E (wait p) := by
  refine .get fun t _ => ?_
  split
  · refine .bind (hI.onRam _) fun _ => .bind (hupd _ _ fun _ => ⟨rfl, rfl⟩) fun _ => ?_
    exact .bind (hI.onRam _) fun _ => .bind (hupd _ _ fun _ => ⟨rfl, rfl⟩) fun _ => .pure _
  · exact .early fun _ => .throw (hI.stop _ rfl)

end

end Calm

/-- A calm property that does not look at which mappings are valid either. Every fault keeps it. -/
structure Deaf (p : Fin NPROC) (I : State → Prop) (E : Stop → State → Prop) : Prop
    extends Calm p I E where
  shrink : ∀ s i, I s → I (s.updDesc p i fun md => { md with guardPage := false })
  grow : ∀ s i, I s → I (s.updDesc p i fun md => { md with valid := true, guardPage := true })
  outside : ∀ s k, I s → E (.outside k) s

namespace Deaf

theorem allocatePageGuard (hI : Deaf p I E) (i : Index) (a : Word) :
    Keeps I E (allocatePageGuard p i a) := by
  unfold Xv6.allocatePageGuard
  refine Triple.get fun t ht => ?_
  have hdir : Triple (fun s => s = t) (modify fun s => s.updDesc p i fun md =>
      { md with guardPage := false } : K Unit)
      (fun _ s => I s ∧ (s.proc p).pgdir = (t.proc p).pgdir) E := by
    refine .modify fun s hs => ?_
    subst hs
    exact ⟨hI.shrink s i ht, by simp [State.updDesc, Proc.updDesc]⟩
  split
  next h =>
    refine .ite (fun _ => hI.kill.pre fun s hs => hs ▸ ht) fun _ => .bind hdir fun _ => ?_
    refine .bindOption (hI.onRamDir _ _) (.throw fun s hs => hI.stop _ rfl s hs.1) fun mem => ?_
    refine .bind (hI.onRamDir _ _) fun _ => .bind (hI.mapPage _ _ _ _) fun r => .pre_and fun hr => ?_
    refine .check (fun s hs => hI.stop _ rfl s hs.1) fun _ => ?_
    refine .bind (hI.setPgdir hr) fun _ => ?_
    refine Keeps.update (fun s hs => hI.grow s _ hs) ?_
    exact .early fun _ => hI.readFilePage i mem
  next => exact .throw fun s hs => hs ▸ hI.outside t _ ht

theorem trap (hI : Deaf p I E) (user : Bool) (a : Word) : Keeps I E (trap p user a) := by
  refine .bind ?_ fun _ => .get fun t _ => .check hI.exit fun _ => .pure _
  refine .get fun t _ => ?_
  cases findDesc (t.proc p).mmaps a with
  | none => exact hI.kill
  | some i =>
    exact .ite (fun _ => hI.allocatePageGuard i a) fun _ => hI.allocatePageNonGuard i a

end Deaf

/-! ## Writing back under `ptable.lock`

`exit` writes mappings back while it holds `ptable.lock`. A write to a file that is not a pipe wakes the
processes that wait for the inode, so it does not come back then. -/

theorem locked_deaf : Deaf p (fun s => s.ptableLock = true) ⊤ where
  stop _ _ _ _ := trivial
  mem _ _ hs := hs
  nullPage _ hs := hs
  off _ _ _ hs := hs
  inode _ _ hs := hs
  pipe _ _ hs := hs
  ilocks _ _ hs := hs
  exit _ _ := trivial
  ram _ _ hs := hs
  pgdir _ _ _ hs := hs
  killed _ hs := hs
  page _ _ _ hs := hs
  shrink _ _ hs := hs
  grow _ _ hs := hs
  outside _ _ _ := trivial

theorem locked_iunlock (n : Nat) :
    Triple (fun s => s.ptableLock = true) (iunlock n) ⊥ ⊤ := by
  refine .read fun t _ => .check (fun _ _ => trivial) fun _ => ?_
  refine .update (R := fun s => s.ptableLock = true) (fun s hs => hs) ?_
  refine .read fun t ht => ?_
  rw [if_pos ht]
  exact .throw fun _ _ => trivial

theorem locked_filewriteLoop {addr : Word} {n fuel i : Nat} (hi : i < n) (hn : n ≤ 4096) :
    Triple (fun s => s.ptableLock = true) (filewriteLoop p f addr n (fuel + 1) i)
      ⊥ ⊤ := by
  unfold filewriteLoop
  rw [if_pos hi]
  have hchunk : 0 < min (n - i) maxWrite := by
    have : 0 < maxWrite := by decide
    omega
  have hI : Deaf p (fun s => s.ptableLock = true) ⊤ := locked_deaf
  refine .read fun t _ => .bind (Keeps.pure _) fun _ => .bind (hI.ilock _) fun _ => ?_
  refine .bind (hI.writeInode f hchunk (by omega) fun x _ => hI.touch x (hI.trap false x)) fun r => ?_
  exact .bind (locked_iunlock _) fun _ => ⟨fun _ h => h.elim⟩

variable {P : State → Prop}

/-- Under the lock a mapping is written back only in the sense that nothing happens: its file is not
writable, or the kernel stops. -/
theorem syncDesc_locked (md : MmapDesc) (hP : ∀ s, P s → s.ptableLock = true ∧ (s.fs.file f).type ≠ .pipe) :
    Triple P (syncDesc p f md) (fun _ => P) ⊤ := by
  refine .ite (fun _ => .pure fun s hs => hs) fun _ => .bind ?_ fun _ => .pure fun s hs => hs
  refine .read fun t ht => .ite (fun _ => .pure fun s hs => hs) fun _ => ?_
  cases htype : (t.fs.file f).type with
  | none => exact .throw fun _ _ => trivial
  | pipe => exact absurd htype (hP t ht).2
  | inode =>
    refine (locked_filewriteLoop (by decide) le_rfl).conseq (fun s hs => (hP s hs).1) ?_ fun _ _ => id
    exact fun _ _ h => h.elim

/-! ## Operations -/

variable {Q : State → Prop}

theorem syscall_triple {m : K α} (hm : Triple P m (fun _ => Q) E)
    (hP : ∀ s, P s → E .exit s) (hQ : ∀ s, Q s → E .exit s) :
    Triple P (Op.syscall p m) (fun _ => Q) E := by
  refine .read fun t _ => .check hP fun _ => ?_
  refine .bind hm fun _ => .read fun t _ => ?_
  exact .check hQ fun _ => .pure fun s hs => hs

variable {op : Op}

/-- An operation to its end: when it calls `exit`, what holds then is what `exit` starts from. -/
theorem outcome_triple
    (hbody : Triple P op.body (fun _ => Q) E) (hexit : Triple (E .exit) (exit op.proc) (fun _ => Q) F)
    (hF : ∀ x s, E x s → F x s) : Triple P op.outcome (fun _ => Q) F := by
  refine ⟨fun s hs => ?_⟩
  have hrun := hbody.run s hs
  unfold Op.outcome
  cases hb : op.body s with
  | ok a t =>
    rw [hb] at hrun
    exact hrun
  | error x t =>
    rw [hb] at hrun
    cases x with
    | exit => exact hexit.run t hrun
    | _ => exact hF _ _ hrun

theorem outcome_of_error {m : K α} {u : State}
    (hbody : op.body = Op.syscall op.proc m) (hkilled : (s.proc op.proc).killed = false)
    (hm : m s = .error e u) (he : e ≠ .exit) : op.outcome s = .error e u := by
  have hs : op.body s = .error e u := by
    rw [hbody]
    unfold Op.syscall
    rw [bind_ok (get_run _), if_neg (by simp [hkilled]), bind_of_error hm]
  unfold Op.outcome
  rw [hs]
  cases e <;> first | rfl | exact absurd rfl he

end Xv6

import Xv6.ExecStack
import Xv6.Growproc
import Xv6.Lib.Related

/-!
# A call of `exec`

The rest of what `exec` writes: the trap frame and the name of the process, and the count of operations that
the log has outstanding. The other operations do not look at them, so `exec` is written down once more over a
`World` that has them. `mirrors_exec` says that it is the same program.
-/

namespace Xv6.Exec

open Hoare

/-- The kernel, the trap frame and the name of the calling process, and `log.outstanding`. -/
structure World where
  state : State
  eip : Word
  esp : Word
  name : Bytes
  outstanding : Int

abbrev W := EStateM Stop World

/-- Run a kernel program. -/
def onState {α : Type} (m : K α) : W α := fun w =>
  match m w.state with
  | .ok a t => .ok a { w with state := t }
  | .error e t => .error e { w with state := t }

/-- What `exec` saves as the name: the last part of the path, cut to fifteen bytes. -/
def programName (path : Bytes) : Bytes :=
  ((path.reverse.takeWhile (· ≠ 47)).reverse).take 15

namespace Full

def beginOp : W Unit := do
  modify fun w => { w with outstanding := w.outstanding + 1 }
  onState Xv6.beginOp

def endOp : W Unit := do
  modify fun w => { w with outstanding := w.outstanding - 1 }
  onState Xv6.endOp

/-- `iunlockput(ip); end_op();` -/
def unlockputEnd (n : Nat) : W Unit := do
  onState (iunlock n)
  onState (iput n)
  endOp

def bad (pgdir : Option PgDir) (ip : Option Nat) : W Word := do
  onState (pgdir.forM fun d => onRam (freevm d))
  ip.forM unlockputEnd
  pure (-1)

def commit (p : Fin NPROC) (path : Bytes) (d : PgDir) (sz entry sp : Word) : W Word := do
  modify fun w => { w with name := programName path }
  let w ← get
  onState (setPgdir p d)
  onState (setSize p sz)
  modify fun w => { w with eip := entry, esp := sp }
  onState (switchuvm p)
  onState (onRam (freevm (w.state.proc p).pgdir))
  pure 0

def execStack (p : Fin NPROC) (path : Bytes) (argv : Argv) (entry : Word) (d : PgDir)
    (sz : Word) : W Word := do
  let r ← onState (onRam (allocuvm d (pgRoundUp sz) (pgRoundUp sz + 2 * PGSIZE)))
  if r.1 = 0 then
    bad (some r.2) none
  else do
    let d ← onState (onRam (clearpteu r.2 (r.1 - 2 * PGSIZE)))
    match ← onState (pushStackAt p d argv r.1) with
    | some sp => commit p path d r.1 entry sp
    | none => bad (some d) none

def execLoad (p : Fin NPROC) (path : Bytes) (n : Nat) (argv : Argv) (ip : Inode) : W Word :=
  match readAll ip 0 52 with
  | none => bad none (some n)
  | some bs =>
    if (Elfhdr.decode bs).magic ≠ ELF_MAGIC then
      bad none (some n)
    else do
      match ← onState (onRam setupkvm) with
      | none => bad none (some n)
      | some d => do
        let r ← onState (onRam (loadSegments ip (Elfhdr.decode bs).phnum (Elfhdr.decode bs).phoff d 0))
        if r.1 then do
          unlockputEnd n
          execStack p path argv (word bs 24) r.2.1 r.2.2
        else
          bad (some r.2.1) (some n)

/-- `exec(path, argv)`; `found` is the inode that `namei(path)` finds. -/
def exec (p : Fin NPROC) (path : Bytes) (found : Option Nat) (argv : Argv) : W Word := do
  beginOp
  match found with
  | none => do
    endOp
    pure (-1)
  | some n => do
    onState (modify fun s => s.updInode n fun ip => { ip with ref := ip.ref + 1 })
    onState (ilock n)
    let w ← get
    match (w.state.fs.inode n).type with
    | .dev major => if major = CONSOLE then throw .sleep else bad none (some n)
    | _ => execLoad p path n argv (w.state.fs.inode n)

end Full

/-! ## The same program -/

/-- The program over the larger state does to the kernel what `k` does. -/
structure Mirrors {α : Type} (m : W α) (k : K α) : Prop where
  related : Related (fun w s => w.state = s) Eq m k

namespace Mirrors

variable {α β : Type} {m : W α} {k : K α}

theorem pure (a : α) : Mirrors (Pure.pure a) (Pure.pure a) := ⟨.pure rfl⟩

theorem throw (e : Stop) : Mirrors (MonadExcept.throw e : W α) (MonadExcept.throw e) := ⟨.throw e⟩

theorem bind {f : α → W β} {g : α → K β} (h : Mirrors m k) (hf : ∀ a, Mirrors (f a) (g a)) :
    Mirrors (m >>= f) (k >>= g) :=
  ⟨h.related.bind fun a _ hab => hab ▸ (hf a).related⟩

theorem ite {c : Prop} [Decidable c] {m' : W α} {k' : K α} (h : c → Mirrors m k)
    (h' : ¬ c → Mirrors m' k') : Mirrors (if c then m else m') (if c then k else k') :=
  ⟨.ite (fun hc => (h hc).related) fun hc => (h' hc).related⟩

theorem onState (k : K α) : Mirrors (onState k) k := by
  refine ⟨?_⟩
  rintro w _ rfl
  unfold Exec.onState
  cases k w.state with
  | ok a t => exact ⟨rfl, rfl⟩
  | error e t => rfl

theorem skip {f : World → World} {g : Unit → W α} (hf : ∀ w, (f w).state = w.state)
    (h : Mirrors (g ()) k) : Mirrors (modify f >>= g) k := by
  refine ⟨?_⟩
  rintro w _ rfl
  rw [bind_ok (modify_run f w)]
  exact h.related (f w) w.state (hf w)

theorem get {f : World → W α} {g : State → K α} (h : ∀ w, Mirrors (f w) (g w.state)) :
    Mirrors (MonadState.get >>= f) (MonadState.get >>= g) := by
  refine ⟨?_⟩
  rintro w _ rfl
  rw [bind_ok (get_run w), bind_ok (get_run w.state)]
  exact (h w).related w _ rfl

theorem forM (o : Option α) {f : α → W Unit} {g : α → K Unit} (h : ∀ a, Mirrors (f a) (g a)) :
    Mirrors (o.forM f) (o.forM g) := by
  cases o with
  | none => exact .pure ()
  | some a => exact h a

end Mirrors

theorem mirrors_endOp : Mirrors Full.endOp endOp := .skip (fun _ => rfl) (.onState _)

theorem mirrors_unlockputEnd (n : Nat) : Mirrors (Full.unlockputEnd n) (do
    iunlock n
    iput n
    endOp) :=
  .bind (.onState _) fun _ => .bind (.onState _) fun _ => mirrors_endOp

theorem mirrors_bad (pgdir : Option PgDir) (ip : Option Nat) : Mirrors (Full.bad pgdir ip) (bad pgdir ip) :=
  .bind (.onState _) fun _ => .bind (.forM ip mirrors_unlockputEnd) fun _ => .pure _

theorem mirrors_commit (p : Fin NPROC) (path : Bytes) (d : PgDir) (sz entry sp : Word) :
    Mirrors (Full.commit p path d sz entry sp) (commit p d sz) := by
  refine .skip (fun _ => rfl) (.get fun w => ?_)
  refine .bind (.onState _) fun _ => .bind (.onState _) fun _ => ?_
  exact .skip (fun _ => rfl) (.bind (.onState _) fun _ => .bind (.onState _) fun _ => .pure _)

section
variable (p : Fin NPROC) (path : Bytes) (argv : Argv)

theorem mirrors_execStack (entry : Word)
    (d : PgDir) (sz : Word) : Mirrors (Full.execStack p path argv entry d sz) (execStack p argv d sz) := by
  unfold Full.execStack execStack
  refine .bind (.onState _) fun r => ?_
  refine .ite (fun _ => mirrors_bad _ _) fun _ => .bind (.onState _) fun d => ?_
  rw [pushStack_eq, bind_assoc]
  refine .bind (.onState _) fun o => ?_
  rw [pure_bind]
  cases o with
  | none => exact mirrors_bad _ _
  | some sp => exact mirrors_commit p path d r.1 entry sp

theorem mirrors_execLoad (n : Nat)
    (ip : Inode) : Mirrors (Full.execLoad p path n argv ip) (execLoad p n argv ip) := by
  unfold Full.execLoad execLoad
  cases readAll ip 0 52 with
  | none => exact mirrors_bad _ _
  | some bs =>
    refine .ite (fun _ => mirrors_bad _ _) fun _ => .bind (.onState _) fun o => ?_
    cases o with
    | none => exact mirrors_bad _ _
    | some d =>
      refine .bind (.onState _) fun r => .ite (fun _ => ?_) fun _ => mirrors_bad _ _
      have hboth := (mirrors_unlockputEnd n).bind fun _ =>
        mirrors_execStack p path argv (word bs 24) r.2.1 r.2.2
      simpa only [bind_assoc] using hboth

theorem mirrors_exec (found : Option Nat) : Mirrors (Full.exec p path found argv) (exec p found argv) := by
  unfold Full.exec exec
  refine .bind (.skip (fun _ => rfl) (.onState _)) fun _ => ?_
  cases found with
  | none => exact .bind mirrors_endOp fun _ => .pure _
  | some n =>
    refine .bind (.onState _) fun _ => .bind (.onState _) fun _ => .get fun w => ?_
    cases (w.state.fs.inode n).type with
    | dev major => exact .ite (fun _ => .throw _) fun _ => mirrors_bad _ _
    | _ => exact mirrors_execLoad p path argv n _

end

end Xv6.Exec

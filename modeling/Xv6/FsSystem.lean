import Xv6.CallSpec
import Xv6.Consistency
import Xv6.Lib.RefCount
import Xv6.Lib.Run
import Xv6.Sysfile

/-!
# Processes and the file system

A process has a current directory, and the system has a table of open files. Processes make calls, one at a
time. What a call does to the inodes is one of a few changes (`Effect`), and beyond that it only frees inodes
without links that nobody has a reference to (`Returned`).
-/

namespace Xv6.Calls

open Hoare Store
open Prog (seq_rule ite_rule)
open Function (update)
open RefCount (one count_update count_pos one_of_ne)

/-- `struct file`, of an inode. -/
structure OpenFile where
  ip : Nat
  readable : Bool
  writable : Bool
  off : Nat

/-- What `sys_open` sets. -/
def OpenFile.of (ip : Nat) (omode : Word) : OpenFile where
  ip := ip
  readable := !hasFlag omode O_WRONLY
  writable := hasFlag omode O_WRONLY || hasFlag omode O_RDWR
  off := 0

structure Tables where
  cwd : Fin NPROC → Option Nat
  file : Fin NFILE → Option OpenFile

def Tables.setCwd (t : Tables) (p : Fin NPROC) (i : Option Nat) : Tables :=
  { t with cwd := update t.cwd p i }

def Tables.setFile (t : Tables) (k : Fin NFILE) (f : Option OpenFile) : Tables :=
  { t with file := update t.file k f }

/-- A new open file. -/
def Tables.enter (t : Tables) (slot : Option (Fin NFILE)) (f : OpenFile) : Tables :=
  match slot with
  | none => t
  | some k => t.setFile k (some f)

inductive Call where
  /-- `slot` is where the new open file goes, if there is room for it. -/
  | open (path : Bytes) (omode : Word) (slot : Option (Fin NFILE))
  | mkdir (path : Bytes)
  | mknod (path : Bytes) (major minor : Nat)
  | link (old new : Bytes)
  | unlink (path : Bytes)
  | chdir (path : Bytes)
  | exec (path : Bytes) (reads : List (Word × Word))
  | read (k : Fin NFILE) (n : Word)
  | write (k : Fin NFILE) (src : Bytes)
  /-- The last reference to the open file is given up. -/
  | close (k : Fin NFILE)
  | fork (q : Fin NPROC)
  | exit

/-- The call of process `p`, and the tables it leaves. -/
def Call.prog (t : Tables) (p : Fin NPROC) (cwd : Nat) : Call → FsProg Tables
  | .open path omode slot => do
    let room := slot.any fun k => (t.file k).isNone
    match ← sysOpen cwd path (hasFlag omode O_CREATE) (omode == 0) room with
    | none => pure t
    | some ip => pure (t.enter slot (.of ip omode))
  | .mkdir path => do
    let _ ← sysMkdir cwd path
    pure t
  | .mknod path major minor => do
    let _ ← sysMknod cwd path major minor
    pure t
  | .link old new => do
    let _ ← sysLink cwd old new
    pure t
  | .unlink path => do
    let _ ← sysUnlink cwd path
    pure t
  | .chdir path => do
    match ← sysChdir cwd path with
    | none => pure t
    | some ip => pure (t.setCwd p (some ip))
  | .exec path reads => do
    Calls.exec cwd path reads
    pure t
  | .read k n =>
    match t.file k with
    | none => pure t
    | some f =>
      if f.readable then do
        let r ← fileread f.ip f.off n
        pure (t.setFile k (some { f with off := f.off + (r.getD []).length }))
      else
        pure t
  | .write k src =>
    match t.file k with
    | none => pure t
    | some f =>
      if f.writable then do
        let r ← filewrite f.ip f.off src
        pure (t.setFile k (some { f with off := r.1 }))
      else
        pure t
  | .close k =>
    match t.file k with
    | none => pure t
    | some f => do
      fileclose f.ip
      pure (t.setFile k none)
  | .fork q =>
    if (t.cwd q).isNone then do
      idup cwd
      pure (t.setCwd q (some cwd))
    else
      pure t
  | .exit => do
    iput cwd
    pure (t.setCwd p none)

structure Sys where
  disk : Disk
  tables : Tables

/-- Process `c.1` makes the call `c.2`. -/
def step (sb : Superblock) (s : Sys) (c : Fin NPROC × Call) : Option Sys :=
  match s.tables.cwd c.1 with
  | none => none
  | some cwd =>
    match (c.2.prog s.tables c.1 cwd).run (diskOps sb) s.disk with
    | .ok t d => some ⟨d, t⟩
    | .error _ _ => none

/-! ## References -/

/-- The inodes that the tables refer to. -/
def Tables.ptr (t : Tables) : Fin NPROC ⊕ Fin NFILE → Option Nat :=
  Sum.elim t.cwd fun k => (t.file k).map OpenFile.ip

def Tables.refs (t : Tables) (i : Nat) : Nat := RefCount.count t.ptr i

section Refs
variable (t : Tables) (p : Fin NPROC) (k : Fin NFILE) (i : Nat)

theorem ptr_setCwd (o : Option Nat) : (t.setCwd p o).ptr = update t.ptr (.inl p) o := by
  funext x
  cases x with
  | inl q => simp [Tables.ptr, Tables.setCwd, Function.update_apply]
  | inr k => simp [Tables.ptr, Tables.setCwd]

theorem ptr_setFile (o : Option OpenFile) :
    (t.setFile k o).ptr = update t.ptr (.inr k) (o.map OpenFile.ip) := by
  funext x
  cases x with
  | inl q => simp [Tables.ptr, Tables.setFile]
  | inr k' =>
    by_cases hk : k' = k
    · subst hk
      simp [Tables.ptr, Tables.setFile]
    · simp [Tables.ptr, Tables.setFile, hk]

theorem refs_setCwd (o : Option Nat) : ((t.setCwd p o).refs i : Int) =
    t.refs i - one (t.cwd p) i + one o i := by
  unfold Tables.refs
  rw [ptr_setCwd, count_update]
  rfl

theorem refs_setFile (o : Option OpenFile) : ((t.setFile k o).refs i : Int) =
    t.refs i - one ((t.file k).map OpenFile.ip) i + one (o.map OpenFile.ip) i := by
  unfold Tables.refs
  rw [ptr_setFile, count_update]
  rfl

end Refs

variable {sb : Superblock} {t t' : Tables} {a a' b : Inodes} {p : Fin NPROC} {k : Fin NFILE} {cwd i : Nat}
  {c : Call} {f : OpenFile} {h : List Nat} {N : Prop}

theorem refs_pos_of_cwd (hp : t.cwd p = some i) : 0 < t.refs i := by
  refine count_pos (x := Sum.inl p) ?_
  exact hp

theorem refs_pos_of_file (hk : t.file k = some f) : 0 < t.refs f.ip := by
  refine count_pos (x := .inr k) ?_
  show (t.file k).map OpenFile.ip = _
  rw [hk]
  rfl

/-- Between calls: no inode is locked, and the tables have all references. -/
structure Quiet (t : Tables) (a : Inodes) : Prop where
  locked : ∀ i, a.locked i = false
  ref : ∀ i, a.ref i = t.refs i

/-! ## What a call leaves -/

/-- What a call may do to the inodes. -/
inductive Effect (sb : Superblock) (t : Tables) (a : Inodes) (cwd : Nat) : Call → Inodes → Prop
  | same {c : Call} : Effect sb t a cwd c a
  | open {path : Bytes} {omode : Word} {slot : Option (Fin NFILE)} {ip : Nat} {a' : Inodes}
    (hcreate : hasFlag omode O_CREATE = true) (hmade : Created sb a cwd path T_FILE 0 0 ip a') :
    Effect sb t a cwd (.open path omode slot) a'
  | mkdir {path : Bytes} {ip : Nat} {a' : Inodes} (hmade : Created sb a cwd path T_DIR 0 0 ip a') :
    Effect sb t a cwd (.mkdir path) a'
  | mknod {path : Bytes} {major minor ip : Nat} {a' : Inodes}
    (hmade : Created sb a cwd path T_DEV major minor ip a') : Effect sb t a cwd (.mknod path major minor) a'
  | link {old new : Bytes} {ip dp n : Nat} {name : Name}
    (hold : resolve a.node cwd old = some ip) (hlive : (a.node ip).type ≠ 0)
    (htype : (a.node ip).type ≠ T_DIR) (hnew : resolveParent a.node cwd new = some (dp, name))
    (hvacant : Vacant (a.node dp) name n) :
    Effect sb t a cwd (.link old new) (setDirent (addLink a ip 1) dp n ⟨ip, name⟩)
  | unlink {path : Bytes} {dp ip n : Nat} {name : Name}
    (hparent : resolveParent a.node cwd path = some (dp, name)) (hdots : ¬ (name = dot ∨ name = dotdot))
    (hlook : lookup (a.node dp) name = some (ip, DIRENT * n)) (hne : ip ≠ dp)
    (hnlink : 1 ≤ (a.node ip).nlink)
    (hempty : (a.node ip).type = T_DIR → firstFrom (a.node ip) (fun de => de.inum ≠ 0) 2 = none) :
    Effect sb t a cwd (.unlink path) (unlinked a dp ip n)
  | write {k : Fin NFILE} {src : Bytes} {f : OpenFile} {c : Bytes} (hfile : t.file k = some f)
    (hwritable : f.writable = true) : Effect sb t a cwd (.write k src) (setContent a f.ip c)

/-- The call has made the change from `a` to `a'` and left the tables `t`. -/
structure Returned (a a' : Inodes) (t : Tables) (b : Inodes) : Prop where
  quiet : Quiet t b
  node : ∀ i, b.node i = a'.node i ∨ b.node i = {} ∧ t.refs i = 0 ∧ (a'.node i).nlink = 0
  orphan : NoOrphans a → NoOrphans b

theorem HoldsBut.returned (hb : Holds (NoOrphans a) a' h [] b)
    (href : ∀ i, a'.ref i + h.count i = t.refs i) (hheld : ∀ i ∈ h, b.node i = a'.node i) :
    Returned a a' t b where
  quiet := ⟨fun i => by simpa using hb.locked i, fun i => by rw [hb.ref, href]⟩
  node i := by
    by_cases hi : i ∈ h
    · exact .inl (hheld i hi)
    · refine (hb.node i).imp_right fun hfree => ⟨hfree.1, ?_, hfree.2.2⟩
      rw [← href, hfree.2.1, List.count_eq_zero_of_not_mem hi]
  orphan hO i := hb.orphan hO i nofun

variable {path : Bytes} {ip : Nat}

theorem Created.ref_eq {type major minor : Nat}
    (hmade : Created sb a cwd path type major minor ip a') : a'.ref = a.ref := by
  obtain ⟨-, -, -, -, -⟩ := hmade
  unfold created withDots
  split <;> rfl

theorem Effect.ref_eq (he : Effect sb t a cwd c a') : a'.ref = a.ref := by
  cases he with
  | same => rfl
  | «open» _ hmade => exact hmade.ref_eq
  | mkdir hmade => exact hmade.ref_eq
  | mknod hmade => exact hmade.ref_eq
  | link => rfl
  | unlink => rfl
  | write => rfl

/-! ## What the tables refer to -/

/-- Current directories are directories; open files are allocated, and directories only open for
reading. -/
structure Typed (t : Tables) (a : Inodes) : Prop where
  cwd : ∀ p i, t.cwd p = some i → (a.node i).type = T_DIR
  file : ∀ k f, t.file k = some f → (a.node f.ip).type ≠ 0 ∧ (f.writable = true → (a.node f.ip).type ≠ T_DIR)

theorem setNode_type {d : Node} (hd : d.type = (a.node i).type) (j : Nat) :
    ((a.setNode i d).node j).type = (a.node j).type := by
  by_cases hj : j = i
  · subst hj
    rw [setNode_self, hd]
  · rw [setNode_of_ne _ hj]

theorem setDirent_type (a : Inodes) (dp n : Nat) (de : Dirent) (j : Nat) :
    ((setDirent a dp n de).node j).type = (a.node j).type := by
  unfold setDirent
  exact setNode_type (d := putDirent (a.node dp) n de) rfl j

theorem withDots_type (a : Inodes) (dp ip type j : Nat) :
    ((withDots a dp ip type).node j).type = (a.node j).type := by
  unfold withDots
  split
  · rw [setDirent_type, setDirent_type, (addLink_same a dp 1 j).1]
  · rfl

theorem unlinked_type (a : Inodes) (dp ip n j : Nat) :
    ((unlinked a dp ip n).node j).type = (a.node j).type := by
  unfold unlinked
  rw [(addLink_same _ _ _ j).1, (addLink_same _ _ _ j).1, setDirent_type]

theorem Created.type_of_ref {type major minor : Nat}
    (hmade : Created sb a cwd path type major minor ip a') (hi : 0 < a.ref i)
    (htype : (a.node i).type ≠ 0) : (a'.node i).type = (a.node i).type := by
  obtain ⟨-, -, -, -, hfree⟩ := hmade
  have hne : i ≠ ip := by
    rintro rfl
    obtain h | h := hfree
    · exact htype h
    · omega
  unfold created
  rw [setDirent_type, withDots_type, setNode_of_ne _ hne]

theorem Effect.type_of_ref (he : Effect sb t a cwd c a') (hi : 0 < a.ref i)
    (htype : (a.node i).type ≠ 0) : (a'.node i).type = (a.node i).type := by
  cases he with
  | same => rfl
  | «open» _ hmade => exact hmade.type_of_ref hi htype
  | mkdir hmade => exact hmade.type_of_ref hi htype
  | mknod hmade => exact hmade.type_of_ref hi htype
  | link => rw [setDirent_type, (addLink_same _ _ _ i).1]
  | unlink => exact unlinked_type a _ _ _ i
  | write =>
    unfold setContent
    refine setNode_type ?_ i
    rfl

theorem Returned.type_of_ref (hr : Returned a a' t' b) (he : Effect sb t a cwd c a') (hq : Quiet t a)
    (hi : 0 < t.refs i) (hi' : 0 < t'.refs i) (htype : (a.node i).type ≠ 0) :
    (b.node i).type = (a.node i).type := by
  obtain hsame | ⟨-, hzero, -⟩ := hr.node i
  · rw [hsame, he.type_of_ref (by rwa [hq.ref]) htype]
  · omega

theorem Typed.returned (ht : Typed t a) (hq : Quiet t a) (he : Effect sb t a cwd c a')
    (hr : Returned a a' t' b)
    (hcwd : ∀ p i, t'.cwd p = some i → (∃ q, t.cwd q = some i) ∨ (b.node i).type = T_DIR)
    (hfile : ∀ k f, t'.file k = some f → (∃ g, t.file k = some g ∧ g.ip = f.ip ∧ g.writable = f.writable) ∨
      (b.node f.ip).type ≠ 0 ∧ (f.writable = true → (b.node f.ip).type ≠ T_DIR)) : Typed t' b where
  cwd p i hp := by
    obtain ⟨q, hq'⟩ | htype := hcwd p i hp
    · have htype := ht.cwd q i hq'
      rw [hr.type_of_ref he hq (refs_pos_of_cwd hq') (refs_pos_of_cwd hp) (by rw [htype]; decide), htype]
    · exact htype
  file k f hk := by
    obtain ⟨g, hg, hip, hw⟩ | htype := hfile k f hk
    · have htype := ht.file k g hg
      have hpos := refs_pos_of_file hg
      rw [hip] at htype hpos
      rw [hr.type_of_ref he hq hpos (refs_pos_of_file hk) htype.1, ← hw]
      exact htype
    · exact htype

/-! ## The calls -/

/-- The call waits for itself. -/
def SelfLock (a : Inodes) (cwd : Nat) : Call → Prop
  | .link old new => LinksItself a cwd old new
  | .unlink path => UnlinksItself a cwd path
  | _ => False

/-- The call meets no inode that could be free. -/
def SafeCall (t : Tables) (a : Inodes) (cwd : Nat) : Call → Prop
  | .open path _ _ | .mkdir path | .mknod path _ _ | .unlink path | .chdir path | .exec path _ =>
    Safe a cwd path
  | .link old new => Safe a cwd old ∧ Safe a cwd new
  | .read k _ | .write k _ => ∀ f, t.file k = some f → Kept a f.ip
  | .close _ | .fork _ | .exit => True

/-- What a call leaves that started between calls. -/
def After (sb : Superblock) (t : Tables) (a : Inodes) (p : Fin NPROC) (cwd : Nat) (c : Call) (t' : Tables)
    (b : Inodes) : Prop :=
  Quiet t a → t.cwd p = some cwd →
    ∃ a', Effect sb t a cwd c a' ∧ Returned a a' t' b ∧ (Typed t a → Typed t' b)

theorem After.same_tables (he : Effect sb t a cwd c a') (hb : Holds (NoOrphans a) a' [] [] b) :
    After sb t a p cwd c t b := by
  intro hq _
  have hr : Returned a a' t b := hb.returned (fun i => by rw [he.ref_eq, hq.ref]; rfl) nofun
  exact ⟨a', he, hr, fun ht => ht.returned hq he hr (fun q i hi => .inl ⟨q, hi⟩)
    fun k f hk => .inl ⟨f, hk, rfl, rfl⟩⟩

theorem count_singleton (i j : Nat) : ([j].count i : Int) = one (some j) i := by
  unfold one
  rw [List.count_singleton]
  by_cases hij : j = i
  · simp [hij]
  · simp [hij]

theorem After.setCwd {q : Fin NPROC} (hb : Keeping (NoOrphans a) a' [] ip b) (hnode : a'.node = a.node)
    (href : ∀ i, (a'.ref i : Int) = t.refs i - one (t.cwd q) i)
    (htype : Typed t a → (a.node ip).type = T_DIR) (hq : Quiet t a) :
    ∃ a', Effect sb t a cwd c a' ∧ Returned a a' (t.setCwd q (some ip)) b ∧
      (Typed t a → Typed (t.setCwd q (some ip)) b) := by
  have hr : Returned a a (t.setCwd q (some ip)) b := by
    have hr : Returned a a' (t.setCwd q (some ip)) b := by
      refine hb.holds.returned (fun i => ?_) fun i hi => ?_
      · have h1 := refs_setCwd t q i (some ip)
        have h2 := count_singleton i ip
        have h3 := href i
        omega
      · rw [List.mem_singleton.mp hi, hb.node]
    exact ⟨hr.quiet, fun i => by rw [← hnode]; exact hr.node i, hr.orphan⟩
  have he : Effect sb t a cwd c a := .same
  refine ⟨a, he, hr, fun ht => ht.returned hq he hr (fun p i hp => ?_) fun k f hk =>
    .inl ⟨f, hk, rfl, rfl⟩⟩
  by_cases hpq : p = q
  · subst hpq
    obtain rfl : ip = i := by simpa [Tables.setCwd] using hp
    rw [hb.node, hnode]
    exact .inr (htype ht)
  · refine .inl ⟨p, ?_⟩
    simpa [Tables.setCwd, hpq] using hp

theorem After.drop {x : Nat} (hb : 0 < a.ref x → Holds (NoOrphans a) (a.setRef x (a.ref x - 1)) [] [] b)
    (hx : 0 < t.refs x) (href : ∀ i, (t'.refs i : Int) = t.refs i - one (some x) i)
    (hcwd : ∀ p i, t'.cwd p = some i → t.cwd p = some i)
    (hfile : ∀ k f, t'.file k = some f → t.file k = some f) (hq : Quiet t a) :
    ∃ a', Effect sb t a cwd c a' ∧ Returned a a' t' b ∧ (Typed t a → Typed t' b) := by
  have hx' : 0 < a.ref x := by rwa [hq.ref]
  have hr : Returned a (a.setRef x (a.ref x - 1)) t' b := by
    refine (hb hx').returned (fun i => ?_) nofun
    have h1 := href i
    by_cases hi : i = x
    · subst hi
      rw [RefCount.one_self] at h1
      rw [Inodes.setRef_ref, Function.update_self, List.count_nil, hq.ref]
      omega
    · rw [one_of_ne hi] at h1
      rw [Inodes.setRef_ref, Function.update_of_ne hi, List.count_nil, hq.ref]
      omega
  have hr : Returned a a t' b := ⟨hr.quiet, hr.node, hr.orphan⟩
  have he : Effect sb t a cwd c a := .same
  exact ⟨a, he, hr, fun ht => ht.returned hq he hr (fun p i hp => .inl ⟨p, hcwd p i hp⟩)
    fun k f hk => .inl ⟨f, hfile k f hk, rfl, rfl⟩⟩

theorem After.seek (hf : t.file k = some f) (he : Effect sb t a cwd c a')
    (hb : Holds (NoOrphans a) a' [] [] b) (off : Nat) :
    After sb t a p cwd c (t.setFile k (some { f with off })) b := by
  intro hq _
  have hr : Returned a a' (t.setFile k (some { f with off })) b := by
    refine hb.returned (fun i => ?_) nofun
    have h1 := refs_setFile t k i (some { f with off })
    rw [hf] at h1
    rw [he.ref_eq, hq.ref, List.count_nil]
    dsimp only [Option.map_some] at h1
    omega
  refine ⟨a', he, hr, fun ht => ht.returned hq he hr (fun q i hi => .inl ⟨q, hi⟩) fun k' g hg => ?_⟩
  by_cases hk : k' = k
  · subst hk
    obtain rfl : { f with off } = g := by simpa [Tables.setFile] using hg
    exact .inl ⟨f, hf, rfl, rfl⟩
  · exact .inl ⟨g, by simpa [Tables.setFile, hk] using hg, rfl, rfl⟩

theorem After.enter {omode : Word} {slot : Option (Fin NFILE)}
    (he : Effect sb t a cwd c a') (hroom : (slot.any fun k => (t.file k).isNone) = true)
    (htype : (a'.node ip).type ≠ 0) (hdir : (a'.node ip).type = T_DIR → (omode == 0) = true)
    (hb : Keeping (NoOrphans a) a' [] ip b) : After sb t a p cwd c (t.enter slot (.of ip omode)) b := by
  intro hq _
  obtain _ | k := slot
  · cases hroom
  have hnone : t.file k = none := by simpa using hroom
  have hr : Returned a a' (t.setFile k (some (.of ip omode))) b := by
    refine hb.holds.returned (fun i => ?_) fun i hi => ?_
    · have h1 := refs_setFile t k i (some (.of ip omode))
      have h2 := count_singleton i ip
      rw [hnone] at h1
      rw [he.ref_eq, hq.ref]
      have h3 : one ((none : Option OpenFile).map OpenFile.ip) i = 0 := by simp
      have h4 : (some (OpenFile.of ip omode)).map OpenFile.ip = some ip := rfl
      rw [h3, h4] at h1
      omega
    · rw [List.mem_singleton.mp hi, hb.node]
  refine ⟨a', he, hr, fun ht => ht.returned hq he hr (fun q i hi => .inl ⟨q, hi⟩) fun k' g hg => ?_⟩
  by_cases hk : k' = k
  · subst hk
    obtain rfl : OpenFile.of ip omode = g := by simpa [Tables.enter, Tables.setFile] using hg
    refine .inr ?_
    show (b.node ip).type ≠ 0 ∧ (_ → (b.node ip).type ≠ T_DIR)
    rw [hb.node]
    refine ⟨htype, fun hw h => ?_⟩
    have h0 : omode = 0 := by simpa using hdir h
    subst h0
    cases hw
  · exact .inl ⟨g, by simpa [Tables.enter, Tables.setFile, hk] using hg, rfl, rfl⟩

theorem prog_open (hs : N ∨ Safe a cwd path) (omode : Word)
    (slot : Option (Fin NFILE)) : Spec sb (Holds (NoOrphans a) a [] [])
      ((Call.open path omode slot).prog t p cwd) (After sb t a p cwd (.open path omode slot)) False N := by
  have heffect : ∀ {a' : Inodes}, a' = a ∨ hasFlag omode O_CREATE = true ∧
      MayCreate sb a cwd path T_FILE 0 0 a' → Effect sb t a cwd (.open path omode slot) a' := by
    rintro a' (rfl | ⟨hcreate, rfl | ⟨ip, hmade⟩⟩)
    · exact .same
    · exact .same
    · exact .open hcreate hmade
  refine seq_rule (sysOpen_spec hs _ _ _) fun r => ⟨fun b hb => ?_⟩
  cases hb with
  | failed hmay hb => exact After.same_tables (heffect hmay) hb
  | opened hmay hroom htype hdir hb => exact After.enter (heffect hmay) hroom htype hdir hb

theorem prog_chdir (hs : N ∨ Safe a cwd path) :
    Spec sb (Holds (NoOrphans a) a [] []) ((Call.chdir path).prog t p cwd)
      (After sb t a p cwd (.chdir path)) False N := by
  refine seq_rule (sysChdir_spec hs) fun r => ⟨fun b hb => ?_⟩
  cases hb with
  | failed hb => exact After.same_tables .same hb
  | done htype hb =>
    intro hq hcwd
    have hpos : 0 < a.ref cwd := by
      rw [hq.ref]
      exact refs_pos_of_cwd hcwd
    refine After.setCwd (hb hpos) rfl (fun i => ?_) (fun _ => htype) hq
    rw [hcwd, ← hq.ref]
    by_cases hi : i = cwd
    · subst hi
      rw [Inodes.setRef_ref, Function.update_self, RefCount.one_self]
      omega
    · rw [Inodes.setRef_ref, Function.update_of_ne hi, one_of_ne hi]
      omega

theorem prog_fork (q : Fin NPROC) : Spec sb (Holds (NoOrphans a) a [] [])
    ((Call.fork q).prog t p cwd) (After sb t a p cwd (.fork q)) False N := by
  refine ite_rule (fun hq => ?_) fun _ => Spec.pure fun b hb => After.same_tables .same hb
  refine seq_rule (idup_spec cwd) fun _ => Spec.pure fun b hb hquiet hcwd => ?_
  have hnone : t.cwd q = none := by simpa using hq
  have hkeep : Keeping (NoOrphans a) a [] cwd b := by
    refine ⟨hb, (hb.node cwd).resolve_right fun hfree => ?_⟩
    have := refs_pos_of_cwd hcwd
    have := hquiet.ref cwd
    omega
  refine After.setCwd hkeep rfl (fun i => ?_) (fun ht => ht.cwd p cwd hcwd) hquiet
  rw [hnone, hquiet.ref]
  simp

theorem prog_exit : Spec sb (Holds (NoOrphans a) a [] []) (Call.exit.prog t p cwd)
    (After sb t a p cwd .exit) False N := by
  refine seq_rule (iput_own_spec (by simp)) fun _ => Spec.pure fun b hb hq hcwd => ?_
  refine After.drop hb (refs_pos_of_cwd hcwd) (fun i => ?_) (fun q i hi => ?_) (fun k f hk => hk) hq
  · rw [refs_setCwd, hcwd]
    simp
  · by_cases hqp : q = p
    · subst hqp
      simp [Tables.setCwd] at hi
    · simpa [Tables.setCwd, hqp] using hi

theorem prog_close (k : Fin NFILE) : Spec sb (Holds (NoOrphans a) a [] [])
    ((Call.close k).prog t p cwd) (After sb t a p cwd (.close k)) False N := by
  unfold Call.prog
  dsimp only
  cases hf : t.file k with
  | none => exact Spec.pure fun b hb => After.same_tables .same hb
  | some f =>
    refine seq_rule (iput_own_spec (by simp)) fun _ => Spec.pure fun b hb hq hcwd => ?_
    refine After.drop hb (refs_pos_of_file hf) (fun i => ?_) (fun q i hi => hi) (fun k' f' hk => ?_) hq
    · rw [refs_setFile, hf]
      simp
    · by_cases hkk : k' = k
      · subst hkk
        simp [Tables.setFile] at hk
      · simpa [Tables.setFile, hkk] using hk

theorem prog_read {n : Word} (hs : N ∨ ∀ f, t.file k = some f → Kept a f.ip) :
    Spec sb (Holds (NoOrphans a) a [] []) ((Call.read k n).prog t p cwd)
      (After sb t a p cwd (.read k n)) False N := by
  unfold Call.prog
  dsimp only
  cases hf : t.file k with
  | none => exact Spec.pure fun b hb => After.same_tables .same hb
  | some f =>
    refine ite_rule (fun _ => ?_) fun _ => Spec.pure fun b hb => After.same_tables .same hb
    exact seq_rule (fileread_spec (hs.imp_right fun hs => hs f hf) _ n) fun r =>
      Spec.pure fun b hb => After.seek hf .same hb _

theorem prog_write {src : Bytes} (hs : N ∨ ∀ f, t.file k = some f → Kept a f.ip) :
    Spec sb (Holds (NoOrphans a) a [] []) ((Call.write k src).prog t p cwd)
      (After sb t a p cwd (.write k src)) False N := by
  unfold Call.prog
  dsimp only
  cases hf : t.file k with
  | none => exact Spec.pure fun b hb => After.same_tables .same hb
  | some f =>
    refine ite_rule (fun hw => ?_) fun _ => Spec.pure fun b hb => After.same_tables .same hb
    exact seq_rule (filewriteLoop_spec (hs.imp_right fun hs => hs f hf)) fun r =>
      Spec.pure fun b ⟨_, hb⟩ => After.seek hf (.write hf hw) hb _

/-- What `c.prog` does. It waits for itself only in the two cases of `SelfLock`, and then it does not
return. -/
theorem prog_spec (hs : N ∨ SafeCall t a cwd c) : Spec sb (Holds (NoOrphans a) a [] [])
    (c.prog t p cwd) (fun t' b => After sb t a p cwd c t' b ∧ ¬ SelfLock a cwd c) (SelfLock a cwd c)
    N := by
  have hfree : ∀ {c : Call}, ¬ SelfLock a cwd c →
      Spec sb (Holds (NoOrphans a) a [] []) (c.prog t p cwd) (After sb t a p cwd c) False N →
      Spec sb (Holds (NoOrphans a) a [] []) (c.prog t p cwd)
        (fun t' b => After sb t a p cwd c t' b ∧ ¬ SelfLock a cwd c) (SelfLock a cwd c) N :=
    fun hnot hp => Spec.mono (hp.post fun _ _ hb => ⟨hb, hnot⟩) False.elim
  have hmake : ∀ {path : Bytes} {type major minor : Nat} {c : Call}, ¬ SelfLock a cwd c →
      c.prog t p cwd = (makeNode cwd path type major minor >>= fun _ => pure t) →
      (∀ ip a', Created sb a cwd path type major minor ip a' → Effect sb t a cwd c a') →
      type ≠ 0 → (N ∨ Safe a cwd path) → Spec sb (Holds (NoOrphans a) a [] []) (c.prog t p cwd)
        (fun t' b => After sb t a p cwd c t' b ∧ ¬ SelfLock a cwd c) (SelfLock a cwd c) N := by
    intro path type major minor c hnot heq heffect htype hs
    refine hfree hnot ?_
    rw [heq]
    refine seq_rule (makeNode_spec hs htype major minor) fun _ => Spec.pure fun b hb => ?_
    obtain ⟨a', hb, rfl | ⟨ip, hmade⟩⟩ := hb
    · exact After.same_tables .same hb
    · exact After.same_tables (heffect ip a' hmade) hb
  cases c with
  | «open» path omode slot => exact hfree id (prog_open hs omode slot)
  | mkdir path => exact hmake id rfl (fun _ _ => .mkdir) (by decide) hs
  | mknod path major minor => exact hmake id rfl (fun _ _ => .mknod) (by decide) hs
  | link old new =>
    refine seq_rule (sysLink_spec (hs.imp_right And.left) (hs.imp_right And.right)) fun r =>
      .pre_and fun hnot => Spec.pure fun b hb => ⟨?_, hnot⟩
    cases hb with
    | failed hb => exact After.same_tables .same hb
    | done hold hlive htype hnew hvacant hb =>
      exact After.same_tables (.link hold hlive htype hnew hvacant) hb
  | unlink path =>
    refine seq_rule (sysUnlink_spec hs) fun r =>
      .pre_and fun hnot => Spec.pure fun b hb => ⟨?_, hnot⟩
    cases hb with
    | failed hb => exact After.same_tables .same hb
    | done hparent hdots hlook hne hnlink hempty hb =>
      exact After.same_tables (.unlink hparent hdots hlook hne hnlink hempty) hb
  | chdir path => exact hfree id (prog_chdir hs)
  | exec path reads =>
    exact hfree id <| seq_rule (exec_spec hs reads) fun _ =>
      Spec.pure fun b hb => After.same_tables .same hb
  | read k n => exact hfree id (prog_read hs)
  | write k src => exact hfree id (prog_write hs)
  | close k => exact hfree id (prog_close k)
  | fork q => exact hfree id (prog_fork q)
  | exit => exact hfree id prog_exit

theorem prog_disk {s : Disk} (hc : s.Consistent sb) (hl : ∀ i, (s.icache i).locked = false)
    (hs : N ∨ SafeCall t s.inodes cwd c) :
    Triple (fun s' => s' = s) ((c.prog t p cwd).run (diskOps sb))
      (fun t' s' => s'.Consistent sb ∧ After sb t s.inodes p cwd c t' s'.inodes ∧ ¬ SelfLock s.inodes cwd c)
      fun e s' => (∃ b, Fails (SelfLock s.inodes cwd c) N (some e) b) ∨ OutOfBlocks sb e s' := by
  refine ⟨?_⟩
  rintro s rfl
  have hspec : Spec sb _ (c.prog t p cwd) _ _ N := prog_spec hs
  have hupper := hspec.run s.inodes (holds_start hl)
  have hno : ∀ b, (c.prog t p cwd).run (inodeOps sb) s.inodes ≠ .error none b := by
    intro b hb
    rw [hb] at hupper
    cases hupper
  have hlower := (refined_prog (c.prog t p cwd)).run s s.inodes ⟨hc, rfl⟩ hno
  cases hrun : (c.prog t p cwd).run (diskOps sb) s with
  | ok t' s' =>
    rw [hrun] at hlower
    obtain ⟨b, hb, hc', rfl⟩ := hlower
    rw [hb] at hupper
    exact ⟨hc', hupper⟩
  | error e s' =>
    rw [hrun] at hlower
    refine hlower.imp_left fun ⟨b, hb⟩ => ⟨b, ?_⟩
    rwa [hb] at hupper

end Xv6.Calls

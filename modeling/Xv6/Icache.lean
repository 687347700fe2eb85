import Xv6.Lib.Handles
import Xv6.Lib.Run
import Xv6.Lib.Threads
import Xv6.Store

/-!
# The inode cache

`iget`, `idup`, `ilock`, `iunlock`, `iput` and `ialloc` of `fs.c`, executed statement by statement by any
number of processes. A process gets references from `iget` and `idup`, may pass them on, and gives them back
with `iput`. Of the fields copied from the disk only the type and the number of links are here.
-/

namespace Xv6.Icache

open Function (update update_self update_of_ne)
open Store (NINODE)

abbrev Slot : Type := Fin NINODE

/-- A device and a number on it. -/
structure Key where
  dev : ℕ
  inum : ℕ
  deriving DecidableEq

structure Dinode where
  type : ℕ
  nlink : ℤ
  deriving DecidableEq

structure Inode (ι : Type) where
  key : Key
  ref : ℤ
  /-- The process that has the sleep lock. -/
  lock : Option ι
  valid : Bool
  type : ℕ
  nlink : ℤ

/-- A pointer to an entry, and what it was asked for. -/
abbrev Ref : Type := Slot × Key

inductive IgetAt where
  | acquire
  | scan (j : ℕ) (empty : Option Slot)
  | release
  deriving DecidableEq

inductive IdupAt where
  | acquire | inc | release
  deriving DecidableEq

inductive IlockAt where
  | check | acquiresleep | load
  deriving DecidableEq

inductive IunlockAt where
  | check | releasesleep
  deriving DecidableEq

inductive IputAt where
  | acquiresleep | test | acquireRef | readRef
  | releaseRef (r : ℤ)
  | free | releasesleep | acquire | dec | release
  deriving DecidableEq

/-- Where a process is. -/
inductive Pc where
  | idle
  /-- `ialloc` looks at inode `inum`. -/
  | ialloc (dev inum type : ℕ)
  | iget (k : Key) (a : IgetAt)
  | idup (r : Ref) (a : IdupAt)
  | ilock (r : Ref) (a : IlockAt)
  | iunlock (r : Ref) (a : IunlockAt)
  | iput (r : Ref) (a : IputAt)
  deriving DecidableEq

/-- A process calls a function, or goes on in it. -/
inductive Call (ι : Type) where
  | go
  | ialloc (dev type : ℕ)
  | iget (k : Key)
  | idup (r : Ref)
  | ilock (r : Ref)
  | iunlock (r : Ref)
  | iput (r : Ref)
  /-- `ip->nlink = n; iupdate(ip)`, with the lock. -/
  | setNlink (r : Ref) (n : ℤ)
  /-- A reference goes to process `q`. -/
  | give (r : Ref) (q : ι)

structure Sys (ι : Type) where
  inode : Slot → Inode ι
  disk : Key → Dinode
  /-- `sb.ninodes` -/
  ninodes : ℕ
  /-- The process that has `icache.lock`. -/
  lock : Option ι
  pc : ι → Pc
  /-- The references that are handed out. -/
  refs : List (Handle ι Slot Key)
  panic : Option String

namespace Sys

variable {ι : Type} [DecidableEq ι] (s : Sys ι) (p : ι)

def goto (a : Pc) : Sys ι := { s with pc := update s.pc p a }

def upd (e : Slot) (f : Inode ι → Inode ι) : Sys ι :=
  { s with inode := update s.inode e (f (s.inode e)) }

def stop (msg : String) : Sys ι := { s with panic := some msg }

/-- `acquire(&icache.lock)` -/
def acquire (a : Pc) : Option (Sys ι) := if s.lock = none then some { s.goto p a with lock := some p } else none

def release (a : Pc) : Sys ι := { s.goto p a with lock := none }

/-- `acquiresleep(&ip->lock)` -/
def acquiresleep (e : Slot) (a : Pc) : Option (Sys ι) :=
  if (s.inode e).lock = none then some ((s.upd e fun ip => { ip with lock := some p }).goto p a) else none

def releasesleep (e : Slot) (a : Pc) : Sys ι := (s.upd e fun ip => { ip with lock := none }).goto p a

/-- `ip->ref++`, for a caller that asked for `k`. -/
def ref (e : Slot) (k : Key) (a : Pc) : Sys ι :=
  { (s.upd e fun ip => { ip with ref := ip.ref + 1 }).goto p a with refs := ⟨p, e, k⟩ :: s.refs }

/-- `iget` takes an entry for another inode. -/
def recycle (e : Slot) (k : Key) (a : Pc) : Sys ι :=
  { (s.upd e fun ip => { ip with key := k, ref := 1, valid := false }).goto p a with
    refs := ⟨p, e, k⟩ :: s.refs }

/-- `ip->ref--` -/
def unref (r : Ref) (a : Pc) : Sys ι :=
  { (s.upd r.1 fun ip => { ip with ref := ip.ref - 1 }).goto p a with refs := s.refs.erase ⟨p, r.1, r.2⟩ }

/-- `iupdate(ip)`, as far as the type and the links go. -/
def iupdate (e : Slot) : Sys ι :=
  let ip := s.inode e
  { s with disk := update s.disk ip.key ⟨ip.type, ip.nlink⟩ }

def iget (k : Key) : IgetAt → Option (Sys ι)
  | .acquire => s.acquire p (.iget k (.scan 0 none))
  | .scan j empty =>
    if h : j < NINODE then
      let ip := s.inode ⟨j, h⟩
      if 0 < ip.ref ∧ ip.key = k then some (s.ref p ⟨j, h⟩ k (.iget k .release))
      else some (s.goto p (.iget k (.scan (j + 1)
        (if empty = none ∧ ip.ref = 0 then some ⟨j, h⟩ else empty))))
    else
      match empty with
      | none => some (s.stop "iget: no inodes")
      | some e => some (s.recycle p e k (.iget k .release))
  | .release => some (s.release p .idle)

def idup (r : Ref) : IdupAt → Option (Sys ι)
  | .acquire => s.acquire p (.idup r .inc)
  | .inc => some (s.ref p r.1 r.2 (.idup r .release))
  | .release => some (s.release p .idle)

def ilock (r : Ref) : IlockAt → Option (Sys ι)
  | .check => if (s.inode r.1).ref < 1 then some (s.stop "ilock") else some (s.goto p (.ilock r .acquiresleep))
  | .acquiresleep => s.acquiresleep p r.1 (.ilock r .load)
  | .load =>
    let ip := s.inode r.1
    if ip.valid then some (s.goto p .idle)
    else
      let d := s.disk ip.key
      let s := s.upd r.1 fun ip => { ip with type := d.type, nlink := d.nlink, valid := true }
      if d.type = 0 then some (s.stop "ilock: no type") else some (s.goto p .idle)

def iunlock (r : Ref) : IunlockAt → Option (Sys ι)
  | .check =>
    if (s.inode r.1).lock ≠ some p ∨ (s.inode r.1).ref < 1 then some (s.stop "iunlock")
    else some (s.goto p (.iunlock r .releasesleep))
  | .releasesleep => some (s.releasesleep p r.1 .idle)

def iput (r : Ref) : IputAt → Option (Sys ι)
  | .acquiresleep => s.acquiresleep p r.1 (.iput r .test)
  | .test =>
    let ip := s.inode r.1
    some (s.goto p (.iput r (if ip.valid ∧ ip.nlink = 0 then .acquireRef else .releasesleep)))
  | .acquireRef => s.acquire p (.iput r .readRef)
  | .readRef => some (s.goto p (.iput r (.releaseRef (s.inode r.1).ref)))
  | .releaseRef n => some (s.release p (.iput r (if n = 1 then .free else .releasesleep)))
  | .free =>
    -- itrunc(ip); ip->type = 0; iupdate(ip); ip->valid = 0
    let s := (s.upd r.1 fun ip => { ip with type := 0 }).iupdate r.1
    some ((s.upd r.1 fun ip => { ip with valid := false }).goto p (.iput r .releasesleep))
  | .releasesleep => some (s.releasesleep p r.1 (.iput r .acquire))
  | .acquire => s.acquire p (.iput r .dec)
  | .dec => some (s.unref p r (.iput r .release))
  | .release => some (s.release p .idle)

/-- One turn of the loop of `ialloc`. -/
def ialloc (dev inum type : ℕ) : Sys ι :=
  if inum < s.ninodes then
    if (s.disk ⟨dev, inum⟩).type = 0 then
      { s with disk := update s.disk ⟨dev, inum⟩ ⟨type, 0⟩ }.goto p (.iget ⟨dev, inum⟩ .acquire)
    else s.goto p (.ialloc dev (inum + 1) type)
  else s.stop "ialloc: no inodes"

/-- The process has the reference. -/
def has (r : Ref) : Prop := ⟨p, r.1, r.2⟩ ∈ s.refs

instance (r : Ref) : Decidable (s.has p r) := inferInstanceAs (Decidable (_ ∈ _))

/-- A process calls these functions with references that it has. -/
def call : Call ι → Option (Sys ι)
  | .go => none
  | .ialloc dev type => some (s.goto p (.ialloc dev 1 type))
  | .iget k => some (s.goto p (.iget k .acquire))
  | .idup r => if s.has p r then some (s.goto p (.idup r .acquire)) else none
  | .ilock r => if s.has p r then some (s.goto p (.ilock r .check)) else none
  | .iunlock r => if s.has p r then some (s.goto p (.iunlock r .check)) else none
  | .iput r => if s.has p r then some (s.goto p (.iput r .acquiresleep)) else none
  | .setNlink r n =>
    if s.has p r ∧ (s.inode r.1).lock = some p then
      some ((s.upd r.1 fun ip => { ip with nlink := n }).iupdate r.1)
    else none
  | .give r q =>
    if s.has p r then some { s with refs := ⟨q, r.1, r.2⟩ :: s.refs.erase ⟨p, r.1, r.2⟩ } else none

def go : Pc → Option (Sys ι)
  | .idle => none
  | .ialloc dev inum type => some (s.ialloc p dev inum type)
  | .iget k a => s.iget p k a
  | .idup r a => s.idup p r a
  | .ilock r a => s.ilock p r a
  | .iunlock r a => s.iunlock p r a
  | .iput r a => s.iput p r a

def exec (l : ι × Call ι) : Option (Sys ι) :=
  if s.panic.isSome then none
  else
    match s.pc l.1, l.2 with
    | .idle, x => s.call l.1 x
    | a, .go => s.go l.1 a
    | _, _ => none

end Sys

theorem Sys.exec_cases {ι : Type} [DecidableEq ι] {s s' : Sys ι} {p : ι} {x : Call ι}
    (h : s.exec (p, x) = some s') :
    s.pc p = .idle ∧ s.call p x = some s' ∨ s.pc p ≠ .idle ∧ s.go p (s.pc p) = some s' := by
  unfold Sys.exec at h
  replace h := (Option.ite_none_left_eq_some.mp h).2
  dsimp only at h
  cases hp : s.pc p with
  | idle =>
    rw [hp] at h
    exact .inl ⟨rfl, h⟩
  | _ =>
    rw [hp] at h
    cases x with
    | go => exact .inr ⟨nofun, h⟩
    | _ => cases h

/-- After `iinit`: all entries are zero. The disk may hold anything. -/
def init (ι : Type) (disk : Key → Dinode) (ninodes : ℕ) : Sys ι where
  inode _ := { key := ⟨0, 0⟩, ref := 0, lock := none, valid := false, type := 0, nlink := 0 }
  disk := disk
  ninodes := ninodes
  lock := none
  pc _ := .idle
  refs := []
  panic := none

/-! ## The invariant -/

/-- The process has `icache.lock`. -/
def Pc.hasLock : Pc → Bool
  | .iget _ (.scan _ _) | .iget _ .release => true
  | .idup _ .inc | .idup _ .release => true
  | .iput _ .readRef | .iput _ (.releaseRef _) | .iput _ .dec | .iput _ .release => true
  | _ => false

/-- The reference that the process works with. -/
def Pc.ref : Pc → Option Ref
  | .idup r _ | .ilock r _ | .iunlock r _ => some r
  | .iput r a => if a = .release then none else some r
  | _ => none

variable {ι : Type}

/-- `iget` has looked at `j` entries. -/
structure Scanned (inode : Slot → Inode ι) (k : Key) (j : ℕ) (empty : Option Slot) : Prop where
  missing : ∀ e : Slot, e.val < j → 0 < (inode e).ref → (inode e).key ≠ k
  empty : ∀ e, empty = some e → (inode e).ref = 0

structure Inv (s : Sys ι) : Prop where
  handles : Handles (fun e => (s.inode e).key) (fun e => 0 < (s.inode e).ref) (fun e => (s.inode e).ref) s.refs
  lock : ∀ p, s.lock = some p ↔ (s.pc p).hasLock = true
  scan : ∀ {p k j empty}, s.pc p = .iget k (.scan j empty) → Scanned s.inode k j empty
  ref : ∀ {p r}, (s.pc p).ref = some r → s.has p r

namespace Inv

variable [DecidableEq ι] {s s' : Sys ι} {p : ι} {a : Pc}

/-- The entries keep their counts, and what they are for. -/
def SameRefs (inode inode' : Slot → Inode ι) : Prop :=
  ∀ e, (inode' e).ref = (inode e).ref ∧ (inode' e).key = (inode e).key

section

omit [DecidableEq ι]

theorem SameRefs.refl (inode : Slot → Inode ι) : SameRefs inode inode := fun _ => ⟨rfl, rfl⟩

theorem SameRefs.upd (s : Sys ι) (e : Slot) {f : Inode ι → Inode ι}
    (hf : (f (s.inode e)).ref = (s.inode e).ref ∧ (f (s.inode e)).key = (s.inode e).key) :
    SameRefs s.inode (s.upd e f).inode := by
  intro e'
  by_cases he : e' = e
  · subst he
    simpa [Sys.upd] using hf
  · simp [Sys.upd, he]

theorem SameRefs.scanned {inode inode' : Slot → Inode ι} (h : SameRefs inode inode') {k : Key} {j : ℕ}
    {empty : Option Slot} (hs : Scanned inode k j empty) : Scanned inode' k j empty where
  missing e he hr := by
    rw [(h e).2]
    exact hs.missing e he ((h e).1 ▸ hr)
  empty e he := (h e).1.trans (hs.empty e he)

end

section
variable (hs : Inv s)
include hs

/-- Process `p` takes a step. Whatever it does to the references it does with the lock. -/
theorem moved (hpc : s'.pc = update s.pc p a)
    (hlock : ∀ q, s'.lock = some q ↔ (update s.pc p a q).hasLock = true)
    (hhandles : Handles (fun e => (s'.inode e).key) (fun e => 0 < (s'.inode e).ref)
    (fun e => (s'.inode e).ref) s'.refs)
    (hkept : SameRefs s.inode s'.inode ∨ s.lock = some p)
    (hscan : ∀ {k j empty}, a = .iget k (.scan j empty) → Scanned s'.inode k j empty)
    (href : ∀ {r}, a.ref = some r → s'.has p r)
    (hrefs : ∀ h ∈ s.refs, h.user ≠ p → h ∈ s'.refs) : Inv s' := by
  refine ⟨hhandles, fun q => by rw [hpc]; exact hlock q, fun {q k j empty} hq => ?_, fun {q r} hq => ?_⟩
  · rw [hpc] at hq
    by_cases hqp : q = p
    · subst hqp
      rw [update_self] at hq
      exact hscan hq
    · rw [update_of_ne hqp] at hq
      obtain hkept | hp := hkept
      · exact hkept.scanned (hs.scan hq)
      · have hq' := (hs.lock q).mpr (by rw [hq]; rfl)
        rw [hp] at hq'
        exact absurd (Option.some.inj hq').symm hqp
  · rw [hpc] at hq
    by_cases hqp : q = p
    · subst hqp
      rw [update_self] at hq
      exact href hq
    · rw [update_of_ne hqp] at hq
      exact hrefs _ (hs.ref hq) hqp

theorem lock_same (ha : a.hasLock = (s.pc p).hasLock) (q : ι) :
    s.lock = some q ↔ (update s.pc p a q).hasLock = true :=
  Threads.Held.same (f := Pc.hasLock) hs.lock ha q

theorem lock_acquire (hfree : s.lock = none) (ha : a.hasLock = true) (q : ι) :
    some p = some q ↔ (update s.pc p a q).hasLock = true :=
  Threads.Held.acquire (f := Pc.hasLock) (hfree ▸ hs.lock) ha q

theorem lock_release (hp : (s.pc p).hasLock = true) (ha : a.hasLock = false) (q : ι) :
    none = some q ↔ (update s.pc p a q).hasLock = true :=
  Threads.Held.release (f := Pc.hasLock) hs.lock hp ha q

theorem quiet (hpc : s'.pc = update s.pc p a) (hrefs : s'.refs = s.refs)
    (hkept : SameRefs s.inode s'.inode) (hlock : ∀ q, s'.lock = some q ↔ (update s.pc p a q).hasLock = true)
    (hscan : ∀ {k j empty}, a = .iget k (.scan j empty) → Scanned s.inode k j empty)
    (href : ∀ {r}, a.ref = some r → s.has p r) : Inv s' := by
  refine hs.moved hpc hlock ?_ (.inl hkept) (fun h => hkept.scanned (hscan h)) (fun h => ?_) fun h hh _ => ?_
  · rw [hrefs]
    exact hs.handles.congr (fun e => (hkept e).2) (fun e => by rw [(hkept e).1]) fun e => (hkept e).1
  · rw [Sys.has, hrefs]
    exact href h
  · rwa [hrefs]

/-! ## Steps -/

/-- The place `a` needs nothing but that its reference is there. -/
structure Entered (s : Sys ι) (p : ι) (a : Pc) : Prop where
  scan : ∀ {k j empty}, a = .iget k (.scan j empty) → Scanned s.inode k j empty
  ref : ∀ {r}, a.ref = some r → s.has p r

theorem goto (ha : a.hasLock = (s.pc p).hasLock) (he : Entered s p a) : Inv (s.goto p a) :=
  hs.quiet rfl rfl (.refl _) (hs.lock_same ha) he.scan he.ref

theorem acquire (h : s.acquire p a = some s') (ha : a.hasLock = true) (he : Entered s p a) : Inv s' := by
  obtain ⟨hfree, h⟩ := Option.ite_none_right_eq_some.mp h
  cases h
  exact hs.quiet rfl rfl (.refl _) (hs.lock_acquire hfree ha) he.scan he.ref

theorem release (hp : (s.pc p).hasLock = true) (ha : a.hasLock = false) (he : Entered s p a) :
    Inv (s.release p a) :=
  hs.quiet rfl rfl (.refl _) (hs.lock_release hp ha) he.scan he.ref

theorem upd {e : Slot} {f : Inode ι → Inode ι}
    (hf : (f (s.inode e)).ref = (s.inode e).ref ∧ (f (s.inode e)).key = (s.inode e).key)
    (ha : a.hasLock = (s.pc p).hasLock) (he : Entered s p a) : Inv ((s.upd e f).goto p a) :=
  hs.quiet rfl rfl (.upd s e hf) (hs.lock_same ha) he.scan he.ref

theorem acquiresleep {e : Slot} (h : s.acquiresleep p e a = some s')
    (ha : a.hasLock = (s.pc p).hasLock) (he : Entered s p a) : Inv s' := by
  obtain ⟨-, h⟩ := Option.ite_none_right_eq_some.mp h
  cases h
  exact hs.upd ⟨rfl, rfl⟩ ha he

section
variable (hp : (s.pc p).hasLock = true) (ha : a.hasLock = true) (hscan : ∀ k j empty, a ≠ .iget k (.scan j empty))
include hp ha hscan

theorem ref_inc {e : Slot} {k : Key} (hpos : 0 < (s.inode e).ref) (hkey : (s.inode e).key = k)
    (href : ∀ {r}, a.ref = some r → s.has p r) : Inv (s.ref p e k a) := by
  have hinode : ∀ e', ((s.ref p e k a).inode e').ref = (s.inode e').ref + (if e = e' then 1 else 0) ∧
      ((s.ref p e k a).inode e').key = (s.inode e').key := by
    intro e'
    by_cases he : e' = e
    · subst he
      simp [Sys.ref, Sys.goto, Sys.upd]
    · have he' : ¬ e = e' := fun h => he h.symm
      simp [Sys.ref, Sys.goto, Sys.upd, he, he']
  refine hs.moved rfl (hs.lock_same (by rw [ha, hp])) ?_ (.inr ((hs.lock p).mpr hp))
    (fun h => absurd h (hscan _ _ _))
    (fun h => List.mem_cons_of_mem _ (href h)) fun h hh _ => List.mem_cons_of_mem _ hh
  refine (hs.handles.hit (h := ⟨p, e, k⟩) hpos hkey (fun e' => (hinode e').1) (fun e' he' => ?_)
    fun e' he' => ?_).congr
    (fun e' => (hinode e').2) (fun e' => Iff.rfl) fun e' => rfl
  · rw [(hinode e').1]
    split <;> omega
  · rw [(hinode e').1] at he'
    split at he'
    · next he => exact he ▸ hpos
    · omega

/-- `iget` takes an entry that nobody has a reference to, when no entry is for the inode. -/
theorem recycle {e : Slot} {k : Key}
    (hzero : (s.inode e).ref = 0) (hmissing : ∀ e, 0 < (s.inode e).ref → (s.inode e).key ≠ k)
    (href : a.ref = none) : Inv (s.recycle p e k a) := by
  have hself : (s.recycle p e k a).inode e = { s.inode e with key := k, ref := 1, valid := false } :=
    update_self ..
  have hother : ∀ e', e' ≠ e → (s.recycle p e k a).inode e' = s.inode e' := fun e' he => update_of_ne he ..
  refine hs.moved rfl (hs.lock_same (by rw [ha, hp])) ?_ (.inr ((hs.lock p).mpr hp))
    (fun h => absurd h (hscan _ _ _))
    (fun h => ?_) fun h hh _ => List.mem_cons_of_mem _ hh
  · refine hs.handles.recycle (h := ⟨p, e, k⟩) hzero hmissing (fun e' he => ?_) ?_ (fun e' he => ?_) ?_
      (fun e' he => ?_) ?_
    · rw [hother e' he]
    · rw [hself]
    · rw [hother e' he]
    · rw [hself]
    · rw [hother e' he]
    · rw [hself]
      exact Int.one_pos
  · rw [href] at h
    cases h

theorem ref_dec {r : Ref} (hr : s.has p r) (href : a.ref = none) : Inv (s.unref p r a) := by
  have hinode : ∀ e, ((s.unref p r a).inode e).ref = (s.inode e).ref - (if r.1 = e then 1 else 0) ∧
      ((s.unref p r a).inode e).key = (s.inode e).key := by
    intro e
    by_cases he : e = r.1
    · subst he
      simp [Sys.unref, Sys.goto, Sys.upd]
    · have he' : ¬ r.1 = e := fun h => he h.symm
      simp [Sys.unref, Sys.goto, Sys.upd, he, he']
  refine hs.moved rfl (hs.lock_same (by rw [ha, hp])) ?_ (.inr ((hs.lock p).mpr hp))
    (fun h => absurd h (hscan _ _ _))
    (fun h => ?_) fun h hh hne => ?_
  · refine (hs.handles.drop hr (fun e => (hinode e).1) (fun _ => id) fun e he => ?_).congr
      (fun e => (hinode e).2) (fun _ => Iff.rfl) fun _ => rfl
    rw [(hinode e).1] at he
    split at he <;> omega
  · rw [href] at h
    cases h
  · have hne' : h ≠ ⟨p, r.1, r.2⟩ := fun heq => hne (by rw [heq])
    exact (List.mem_erase_of_ne hne').mpr hh

end

theorem give {r : Ref} {q : ι} (hp : s.pc p = .idle) (hr : s.has p r) :
    Inv { s with refs := ⟨q, r.1, r.2⟩ :: s.refs.erase ⟨p, r.1, r.2⟩ } := by
  refine ⟨hs.handles.pass hr rfl rfl, hs.lock, hs.scan, fun {q r'} hq => ?_⟩
  have hne : q ≠ p := by
    rintro rfl
    rw [hp] at hq
    cases hq
  have hne' : (⟨q, r'.1, r'.2⟩ : Handle ι Slot Key) ≠ ⟨p, r.1, r.2⟩ := fun h => hne (congrArg Handle.user h)
  exact List.mem_cons_of_mem _ ((List.mem_erase_of_ne hne').mpr (hs.ref hq))

omit [DecidableEq ι] in
theorem stop (msg : String) : Inv (s.stop msg) := ⟨hs.handles, hs.lock, hs.scan, hs.ref⟩

omit [DecidableEq ι] in
theorem data {disk : Key → Dinode} {inode : Slot → Inode ι} (h : SameRefs s.inode inode) :
    Inv { s with inode := inode, disk := disk } :=
  ⟨hs.handles.congr (fun e => (h e).2) (fun e => by rw [(h e).1]) fun e => (h e).1, hs.lock,
    fun hp => h.scanned (hs.scan hp), hs.ref⟩

/-! ## The functions -/

variable {r : Ref} {k : Key}

theorem iget_step {a : IgetAt} (hp : s.pc p = .iget k a) (h : s.iget p k a = some s') : Inv s' := by
  cases a with
  | acquire =>
    refine hs.acquire h rfl ⟨fun ha => ?_, nofun⟩
    cases ha
    exact ⟨fun e he => absurd he (Nat.not_lt_zero _), nofun⟩
  | release =>
    cases h
    exact hs.release (by rw [hp]; rfl) rfl ⟨nofun, nofun⟩
  | scan j empty =>
    have hscan := hs.scan hp
    have hlock : (s.pc p).hasLock = true := by rw [hp]; rfl
    simp only [Sys.iget] at h
    split at h
    · next hj =>
      split at h
      · next hfound =>
        cases h
        exact hs.ref_inc hlock rfl (by nofun) hfound.1 hfound.2 nofun
      · next hnot =>
        cases h
        refine hs.goto hlock.symm ⟨fun ha => ?_, nofun⟩
        cases ha
        refine ⟨fun e he hpos hkey => ?_, fun e he => ?_⟩
        · obtain hlt | heq := Nat.lt_succ_iff_lt_or_eq.mp he
          · exact hscan.missing e hlt hpos hkey
          · obtain rfl : e = ⟨j, hj⟩ := Fin.ext heq
            exact hnot ⟨hpos, hkey⟩
        · split at he
          · next hz =>
            cases he
            exact hz.2
          · exact hscan.empty e he
    · next hj =>
      split at h
      · cases h
        exact hs.stop _
      · next e =>
        cases h
        -- all entries have been looked at
        have hall : ∀ e : Slot, e.val < j := fun e => lt_of_lt_of_le e.isLt (Nat.not_lt.mp hj)
        exact hs.recycle hlock rfl (by nofun) (hscan.empty e rfl) (fun e he => hscan.missing e (hall e) he) rfl

theorem idup_step {a : IdupAt} (hp : s.pc p = .idup r a) (h : s.idup p r a = some s') : Inv s' := by
  have hr : s.has p r := hs.ref (by rw [hp]; rfl)
  have hme : ∀ {b r'}, (Pc.idup r b).ref = some r' → s.has p r' := fun h => Option.some.inj h ▸ hr
  cases a with
  | acquire =>
    exact hs.acquire h rfl ⟨nofun, hme⟩
  | inc =>
    cases h
    exact hs.ref_inc (by rw [hp]; rfl) rfl (by nofun) (hs.handles.pos hr) (hs.handles.key_eq _ hr) hme
  | release =>
    cases h
    exact hs.release (by rw [hp]; rfl) rfl ⟨nofun, nofun⟩

theorem ilock_step {a : IlockAt} (hp : s.pc p = .ilock r a) (h : s.ilock p r a = some s') : Inv s' := by
  have hr : s.has p r := hs.ref (by rw [hp]; rfl)
  have hme : ∀ {b r'}, (Pc.ilock r b).ref = some r' → s.has p r' := fun h => Option.some.inj h ▸ hr
  have hlock : (s.pc p).hasLock = false := by rw [hp]; rfl
  cases a with
  | check =>
    simp only [Sys.ilock] at h
    split at h <;> cases h
    · exact hs.stop _
    · exact hs.goto hlock.symm ⟨nofun, hme⟩
  | acquiresleep =>
    exact hs.acquiresleep h hlock.symm ⟨nofun, hme⟩
  | load =>
    simp only [Sys.ilock] at h
    split at h
    · cases h
      exact hs.goto hlock.symm ⟨nofun, nofun⟩
    · split at h <;> cases h
      · have hsame : SameRefs s.inode (s.upd r.1 fun ip => { ip with
            type := (s.disk (s.inode r.1).key).type, nlink := (s.disk (s.inode r.1).key).nlink,
              valid := true }).inode :=
          .upd s r.1 ⟨rfl, rfl⟩
        exact (hs.data hsame).stop _
      · exact hs.upd ⟨rfl, rfl⟩ hlock.symm ⟨nofun, nofun⟩

theorem iunlock_step {a : IunlockAt} (hp : s.pc p = .iunlock r a)
    (h : s.iunlock p r a = some s') : Inv s' := by
  have hr : s.has p r := hs.ref (by rw [hp]; rfl)
  have hlock : (s.pc p).hasLock = false := by rw [hp]; rfl
  cases a with
  | check =>
    simp only [Sys.iunlock] at h
    split at h <;> cases h
    · exact hs.stop _
    · exact hs.goto hlock.symm ⟨nofun, fun h => Option.some.inj h ▸ hr⟩
  | releasesleep =>
    cases h
    exact hs.upd ⟨rfl, rfl⟩ hlock.symm ⟨nofun, nofun⟩

theorem iput_step {a : IputAt} (hp : s.pc p = .iput r a) (h : s.iput p r a = some s') : Inv s' := by
  have hr : a ≠ .release → s.has p r := fun ha => hs.ref (by rw [hp]; exact if_neg ha)
  have hme : ∀ {b r'}, a ≠ .release → (Pc.iput r b).ref = some r' → s.has p r' := by
    intro b r' ha h
    simp only [Pc.ref] at h
    split at h <;> cases h
    exact hr ha
  have hlock : (s.pc p).hasLock = (Pc.iput r a).hasLock := by rw [hp]
  cases a with
  | acquiresleep =>
    exact hs.acquiresleep h hlock.symm ⟨nofun, hme nofun⟩
  | test =>
    cases h
    refine hs.goto ?_ ⟨nofun, hme nofun⟩
    rw [hlock]
    split <;> rfl
  | acquireRef =>
    exact hs.acquire h rfl ⟨nofun, hme nofun⟩
  | readRef =>
    cases h
    exact hs.goto hlock.symm ⟨nofun, hme nofun⟩
  | releaseRef n =>
    cases h
    refine hs.release hlock ?_ ⟨nofun, hme nofun⟩
    split <;> rfl
  | free =>
    cases h
    have hfree : Inv ((s.upd r.1 fun ip => { ip with type := 0 }).iupdate r.1) :=
      hs.data (.upd s r.1 ⟨rfl, rfl⟩)
    exact hfree.upd ⟨rfl, rfl⟩ hlock.symm ⟨nofun, hme nofun⟩
  | releasesleep =>
    cases h
    exact hs.upd ⟨rfl, rfl⟩ hlock.symm ⟨nofun, hme nofun⟩
  | acquire =>
    exact hs.acquire h rfl ⟨nofun, hme nofun⟩
  | dec =>
    cases h
    exact hs.ref_dec hlock rfl (by nofun) (hr nofun) rfl
  | release =>
    cases h
    exact hs.release hlock rfl ⟨nofun, nofun⟩

theorem ialloc_step {dev inum type : ℕ} (hp : s.pc p = .ialloc dev inum type) :
    Inv (s.ialloc p dev inum type) := by
  have hlock : (s.pc p).hasLock = false := by rw [hp]; rfl
  unfold Sys.ialloc
  split
  · split
    · exact hs.quiet rfl rfl (.refl _) (hs.lock_same hlock.symm) nofun nofun
    · exact hs.goto hlock.symm ⟨nofun, nofun⟩
  · exact hs.stop _

theorem call_step {x : Call ι} (hp : s.pc p = .idle) (h : s.call p x = some s') : Inv s' := by
  have hlock : (s.pc p).hasLock = false := by rw [hp]; rfl
  cases x with
  | go => cases h
  | ialloc | iget =>
    cases h
    exact hs.goto hlock.symm ⟨nofun, nofun⟩
  | idup r | ilock r | iunlock r | iput r =>
    obtain ⟨hr, h⟩ := Option.ite_none_right_eq_some.mp h
    cases h
    exact hs.goto hlock.symm ⟨nofun, fun h => Option.some.inj h ▸ hr⟩
  | setNlink r n =>
    obtain ⟨-, h⟩ := Option.ite_none_right_eq_some.mp h
    cases h
    exact hs.data (.upd s r.1 ⟨rfl, rfl⟩)
  | give r q =>
    obtain ⟨hr, h⟩ := Option.ite_none_right_eq_some.mp h
    cases h
    exact hs.give hp hr

theorem step {l : ι × Call ι} (h : s.exec l = some s') : Inv s' := by
  obtain ⟨hp, h⟩ | ⟨hne, h⟩ := Sys.exec_cases h
  · exact hs.call_step hp h
  · cases hp : s.pc l.1 with
    | idle => exact absurd hp hne
    | ialloc =>
      rw [hp] at h
      cases h
      exact hs.ialloc_step hp
    | iget => exact hs.iget_step hp (by rwa [hp] at h)
    | idup => exact hs.idup_step hp (by rwa [hp] at h)
    | ilock => exact hs.ilock_step hp (by rwa [hp] at h)
    | iunlock => exact hs.iunlock_step hp (by rwa [hp] at h)
    | iput => exact hs.iput_step hp (by rwa [hp] at h)

end

end Inv

/-! ## Recycling -/

/-- Every entry is for the inode that it was for. -/
def SameKeys (s s' : Sys ι) : Prop := ∀ e, (s'.inode e).key = (s.inode e).key

section
variable [DecidableEq ι] {s s' : Sys ι} {p : ι}

theorem SameKeys.upd (s : Sys ι) (p : ι) (e : Slot) (a : Pc) {f : Inode ι → Inode ι}
    (hf : ∀ ip, (f ip).key = ip.key) : SameKeys s ((s.upd e f).goto p a) := by
  intro e'
  by_cases he : e' = e
  · subst he
    simpa [Sys.upd, Sys.goto] using hf (s.inode e')
  · simp [Sys.upd, Sys.goto, he]

theorem SameKeys.acquire {a : Pc} (h : s.acquire p a = some s') : SameKeys s s' := by
  obtain ⟨-, h⟩ := Option.ite_none_right_eq_some.mp h
  cases h
  exact fun _ => rfl

theorem SameKeys.acquiresleep {e : Slot} {a : Pc} (h : s.acquiresleep p e a = some s') : SameKeys s s' := by
  obtain ⟨-, h⟩ := Option.ite_none_right_eq_some.mp h
  cases h
  exact .upd s p e a fun _ => rfl

theorem SameKeys.ilock {r : Ref} {a : IlockAt} (h : s.ilock p r a = some s') : SameKeys s s' := by
  cases a with
  | acquiresleep => exact .acquiresleep (a := .ilock r .load) h
  | check =>
    simp only [Sys.ilock] at h
    split at h <;> cases h <;> exact fun _ => rfl
  | load =>
    simp only [Sys.ilock] at h
    split_ifs at h <;> cases h
    · exact fun _ => rfl
    · exact SameKeys.upd s p r.1 .idle fun _ => rfl
    · exact .upd s p r.1 .idle fun _ => rfl

theorem SameKeys.iput {r : Ref} {a : IputAt} (h : s.iput p r a = some s') : SameKeys s s' := by
  cases a with
  | acquiresleep => exact .acquiresleep (a := .iput r .test) h
  | acquireRef => exact .acquire (a := .iput r .readRef) h
  | acquire => exact .acquire (a := .iput r .dec) h
  | test | readRef | releaseRef | release =>
    cases h
    exact fun _ => rfl
  | releasesleep =>
    cases h
    exact .upd s p r.1 _ fun _ => rfl
  | dec =>
    cases h
    exact SameKeys.upd s p r.1 .idle (f := fun ip => { ip with ref := ip.ref - 1 }) fun _ => rfl
  | free =>
    cases h
    have hfree := SameKeys.upd s p r.1 .idle (f := fun ip => { ip with type := 0 }) fun _ => rfl
    have hvalid := SameKeys.upd ((s.upd r.1 fun ip => { ip with type := 0 }).iupdate r.1) p r.1 .idle
      (f := fun ip => { ip with valid := false }) fun _ => rfl
    exact fun e => (hvalid e).trans (hfree e)

theorem SameKeys.call {x : Call ι} (h : s.call p x = some s') : SameKeys s s' := by
  cases x with
  | go => cases h
  | ialloc | iget =>
    cases h
    exact fun _ => rfl
  | idup | ilock | iunlock | iput | give =>
    obtain ⟨-, h⟩ := Option.ite_none_right_eq_some.mp h
    cases h
    exact fun _ => rfl
  | setNlink r n =>
    obtain ⟨-, h⟩ := Option.ite_none_right_eq_some.mp h
    cases h
    exact SameKeys.upd s p r.1 .idle (f := fun ip => { ip with nlink := n }) fun _ => rfl

theorem sameKeys_or_recycle {l : ι × Call ι} (h : s.exec l = some s') :
    SameKeys s s' ∨ ∃ k j e, s.pc l.1 = .iget k (.scan j (some e)) ∧ s' = s.recycle l.1 e k (.iget k .release) := by
  obtain ⟨p, x⟩ := l
  obtain ⟨-, h⟩ | ⟨hne, h⟩ := Sys.exec_cases h
  · exact .inl (.call h)
  · cases hp : s.pc p with
    | idle => exact absurd hp hne
    | ialloc dev inum type =>
      rw [hp] at h
      cases h
      simp only [Sys.ialloc]
      split_ifs <;> exact .inl fun _ => rfl
    | iget k a =>
      rw [hp] at h
      cases a with
      | acquire => exact .inl (.acquire (a := .iget k (.scan 0 none)) h)
      | release =>
        cases h
        exact .inl fun _ => rfl
      | scan j empty =>
        simp only [Sys.go, Sys.iget] at h
        split at h
        · split at h <;> cases h
          · exact .inl (SameKeys.upd s p _ .idle (f := fun ip => { ip with ref := ip.ref + 1 }) fun _ => rfl)
          · exact .inl fun _ => rfl
        · split at h <;> cases h
          · exact .inl fun _ => rfl
          · exact .inr ⟨k, j, _, rfl, rfl⟩
    | idup r a =>
      rw [hp] at h
      cases a with
      | acquire => exact .inl (.acquire (a := .idup r .inc) h)
      | inc =>
        cases h
        exact .inl (SameKeys.upd s p r.1 .idle (f := fun ip => { ip with ref := ip.ref + 1 }) fun _ => rfl)
      | release =>
        cases h
        exact .inl fun _ => rfl
    | ilock =>
      rw [hp] at h
      exact .inl (.ilock h)
    | iunlock r a =>
      rw [hp] at h
      cases a with
      | check =>
        simp only [Sys.go, Sys.iunlock] at h
        split at h <;> cases h <;> exact .inl fun _ => rfl
      | releasesleep =>
        cases h
        exact .inl (.upd s p r.1 .idle fun _ => rfl)
    | iput =>
      rw [hp] at h
      exact .inl (.iput h)

end

/-! ## Runs -/

section
variable [DecidableEq ι] {s : Sys ι} {disk : Key → Dinode} {ninodes : ℕ}

omit [DecidableEq ι] in
theorem inv_init : Inv (init ι disk ninodes) := by
  refine ⟨⟨fun _ => rfl, nofun, fun e he => ?_, fun {e e'} he => ?_⟩, fun p => iff_of_false nofun nofun,
    nofun, nofun⟩
  · exact he
  · exact absurd he (Int.lt_irrefl 0)

/-- Steps of any processes, in any order, from an empty cache. -/
abbrev Reached (disk : Key → Dinode) (ninodes : ℕ) (s : Sys ι) : Prop :=
  Run Sys.exec (fun _ _ => True) (init ι disk ninodes) s

theorem Reached.inv (h : Reached disk ninodes s) : Inv s :=
  h.invariant inv_init fun _ _ _ hs _ hx => hs.step hx

/-- At most one entry with references is for an inode, the count of an entry is the number of references to
it, and each of them is to an entry for the inode that was asked for. An entry that `iget` is going to
recycle has no references, and no other entry becomes one for another inode. -/
theorem icache_of_run (h : Reached disk ninodes s) :
    (∀ e e', 0 < (s.inode e).ref → 0 < (s.inode e').ref → (s.inode e).key = (s.inode e').key → e = e') ∧
    (∀ e, (s.inode e).ref = Handle.count s.refs e) ∧ (∀ r ∈ s.refs, (s.inode r.slot).key = r.key) ∧
    (∀ r ∈ s.refs, ∀ r' ∈ s.refs, r.key = r'.key → r.slot = r'.slot) ∧
    (∀ p k j e, s.pc p = .iget k (.scan j (some e)) → (s.inode e).ref = 0) ∧
    ∀ l s', s.exec l = some s' → ∀ e, (s'.inode e).key ≠ (s.inode e).key → (s.inode e).ref = 0 := by
  have hs := h.inv
  have hempty : ∀ p k j e, s.pc p = .iget k (.scan j (some e)) → (s.inode e).ref = 0 :=
    fun p k j e hp => (hs.scan hp).empty e rfl
  refine ⟨fun e e' => hs.handles.uniq, hs.handles.ref_eq, hs.handles.key_eq, fun r hr r' hr' =>
    hs.handles.slot_eq hr hr', hempty, fun l s' hx e hne => ?_⟩
  obtain hsame | ⟨k, j, e', hp, rfl⟩ := sameKeys_or_recycle hx
  · exact absurd (hsame e) hne
  · by_cases he : e = e'
    · exact he ▸ hempty _ k j e' hp
    · exact absurd (by simp [Sys.recycle, Sys.goto, Sys.upd, he]) hne

end

/-- Two processes ask for the root inode. -/
def bothGetRoot : List (Bool × Call Bool) :=
  [(false, .iget ⟨1, 1⟩)] ++ List.replicate 53 (false, .go) ++ [(true, .iget ⟨1, 1⟩), (true, .go), (true, .go)]

theorem icache_of_run_bothGetRoot :
    ∃ s : Sys Bool, Reached (fun _ => ⟨1, 1⟩) 2 s ∧ ∃ r ∈ s.refs, ∃ r' ∈ s.refs,
      r.user = false ∧ r'.user = true ∧ r.key = r'.key ∧ r.slot = r'.slot := by
  have hx : (Run.execAll Sys.exec (init Bool (fun _ => ⟨1, 1⟩) 2) bothGetRoot).any fun s =>
      s.refs.any (fun r => !r.user && decide (r.key = ⟨1, 1⟩)) &&
        s.refs.any fun r => r.user && decide (r.key = ⟨1, 1⟩) := by
    decide +kernel
  obtain ⟨s, hrun, hs⟩ := Run.exists_run hx
  simp only [Bool.and_eq_true, List.any_eq_true, Bool.not_eq_true', decide_eq_true_eq] at hs
  obtain ⟨⟨r, hr, hu, hk⟩, r', hr', hu', hk'⟩ := hs
  have hkeys : r.key = r'.key := by rw [hk, hk']
  exact ⟨s, hrun, r, hr, r', hr', hu, hu', hkeys, (icache_of_run hrun).2.2.2.1 r hr r' hr' hkeys⟩

end Xv6.Icache

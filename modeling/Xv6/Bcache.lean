import Xv6.Lib.Handles
import Xv6.Lib.LinkedRing
import Xv6.Lib.Run
import Xv6.Lib.Threads
import Xv6.Log

/-!
# The buffer cache

`bread`, `bwrite` and `brelse` of `bio.c`, `log_write` of `log.c` and the disk of `memide.c`, executed
statement by statement by any number of processes. A move in the list of the buffers is one step. What a
block should contain is what `log_write` or `bwrite` last stored in it. The log header changes in any way
while no process has `log.lock`.
-/

namespace Xv6.Bcache

open Function (update update_eq_self update_self update_of_ne)
open Log (LOGSIZE)

def NBUF : ℕ := MAXOPBLOCKS * 3
def ROOTDEV : ℕ := 1

abbrev Slot : Type := Fin NBUF

structure Key where
  dev : ℕ
  blockno : ℕ
  deriving DecidableEq

/-- Block `n` of the disk. -/
abbrev block (n : ℕ) : Key := ⟨ROOTDEV, n⟩

structure Buf (ι D : Type) where
  /-- `B_VALID` and `B_DIRTY` -/
  valid : Bool
  dirty : Bool
  key : Key
  /-- The process that has the sleep lock. -/
  lock : Option ι
  refcnt : ℤ
  data : D
  /-- Was the data changed, and not stored since? -/
  modified : Bool

/-- `struct log`, without what only `commit` uses. -/
structure LogState (ι : Type) where
  lock : Option ι
  lh : List ℕ
  outstanding : ℤ
  size : ℤ

inductive BgetAt where
  | acquire
  /-- At a buffer, or at the head of the list. -/
  | scan (b : Option Slot)
  | back (b : Option Slot)
  | release (b : Slot)
  | acquiresleep (b : Slot)
  deriving DecidableEq

inductive LogWriteAt where
  | check | acquire | absorb | dirty | release
  deriving DecidableEq

inductive BwriteAt where
  | check | dirty | iderw
  deriving DecidableEq

inductive BrelseAt where
  | check | releasesleep | acquire | dec | release
  deriving DecidableEq

/-- Where a process is. -/
inductive Pc where
  | idle
  | bget (n : ℕ) (a : BgetAt)
  /-- `bread` has the buffer. -/
  | bread (n : ℕ) (b : Slot)
  | logWrite (b : Slot) (a : LogWriteAt)
  | bwrite (b : Slot) (a : BwriteAt)
  | brelse (b : Slot) (a : BrelseAt)
  deriving DecidableEq

/-- A process calls a function, or goes on in it. -/
inductive Call (D : Type) where
  | go
  | bread (n : ℕ)
  | modify (b : Slot) (data : D)
  | logWrite (b : Slot)
  | bwrite (b : Slot)
  | brelse (b : Slot)
  | setLog (lh : List ℕ) (outstanding : ℤ)

structure Sys (ι D : Type) where
  buf : Slot → Buf ι D
  links : Links Slot
  /-- The process that has `bcache.lock`. -/
  lock : Option ι
  log : LogState ι
  disk : ℕ → D
  disksize : ℕ
  pc : ι → Pc
  /-- The references to buffers that `refcnt` counts. -/
  refs : List (Handle ι Slot Key)
  /-- What was stored last in each block. -/
  stored : ℕ → D
  panic : Option String

namespace Sys

variable {ι D : Type} [DecidableEq ι] (s : Sys ι D) (p : ι)

def goto (a : Pc) : Sys ι D := { s with pc := update s.pc p a }

def upd (b : Slot) (f : Buf ι D → Buf ι D) : Sys ι D :=
  { s with buf := update s.buf b (f (s.buf b)) }

def stop (msg : String) : Sys ι D := { s with panic := some msg }

/-- `holdingsleep(&b->lock)` -/
def holds (b : Slot) : Prop := (s.buf b).lock = some p

instance (b : Slot) : Decidable (s.holds p b) := inferInstanceAs (Decidable (_ = _))

/-- `acquire(&bcache.lock)` -/
def acquire (a : Pc) : Option (Sys ι D) :=
  if s.lock = none then some { s.goto p a with lock := some p } else none

def release (a : Pc) : Sys ι D := { s.goto p a with lock := none }

/-- `b->refcnt++` -/
def ref (b : Slot) (k : Key) (a : Pc) : Sys ι D :=
  { (s.upd b fun x => { x with refcnt := x.refcnt + 1 }).goto p a with refs := ⟨p, b, k⟩ :: s.refs }

def recycle (b : Slot) (k : Key) (a : Pc) : Sys ι D :=
  { (s.upd b fun x => { x with key := k, valid := false, dirty := false, refcnt := 1 }).goto p a with
    refs := ⟨p, b, k⟩ :: s.refs }

def bget (n : ℕ) : BgetAt → Option (Sys ι D)
  | .acquire => s.acquire p (.bget n (.scan (s.links.next none)))
  | .scan (some b) =>
    if (s.buf b).key = block n then some (s.ref p b (block n) (.bget n (.release b)))
    else some (s.goto p (.bget n (.scan (s.links.next b))))
  | .scan none => some (s.goto p (.bget n (.back (s.links.prev none))))
  | .back (some b) =>
    if (s.buf b).refcnt = 0 ∧ (s.buf b).dirty = false then
      some (s.recycle p b (block n) (.bget n (.release b)))
    else some (s.goto p (.bget n (.back (s.links.prev b))))
  | .back none => some (s.stop "bget: no buffers")
  | .release b => some (s.release p (.bget n (.acquiresleep b)))
  | .acquiresleep b =>
    if (s.buf b).lock = none then some ((s.upd b fun x => { x with lock := some p }).goto p (.bread n b))
    else none

/-- What `iderw` writes counts as stored. -/
def diskWrite (b : Slot) : Sys ι D :=
  let x := s.buf b
  let s := s.upd b fun x => { x with dirty := false, valid := true, modified := false }
  { s with
    disk := update s.disk x.key.blockno x.data
    stored := update s.stored x.key.blockno x.data }

def diskRead (b : Slot) : Sys ι D :=
  s.upd b fun x => { x with data := s.disk x.key.blockno, valid := true }

/-- `iderw(b)`, which goes on at `a`. -/
def iderw (b : Slot) (a : Pc) : Sys ι D :=
  let x := s.buf b
  if ¬ s.holds p b then s.stop "iderw: buf not locked"
  else if x.valid = true ∧ x.dirty = false then s.stop "iderw: nothing to do"
  else if x.key.dev ≠ 1 then s.stop "iderw: request not for disk 1"
  else if s.disksize ≤ x.key.blockno then s.stop "iderw: block out of range"
  else if x.dirty then (s.diskWrite b).goto p a
  else (s.diskRead b).goto p a

def bread (b : Slot) : Sys ι D := if (s.buf b).valid then s.goto p .idle else s.iderw p b .idle

/-- `b->flags |= B_DIRTY` of `log_write`, which stores the data. -/
def logDirty (b : Slot) : Sys ι D :=
  let x := s.buf b
  let s := s.upd b fun x => { x with dirty := true, modified := false }
  { s with stored := update s.stored x.key.blockno x.data }

def logWrite (b : Slot) : LogWriteAt → Option (Sys ι D)
  | .check =>
    if (LOGSIZE : ℤ) ≤ s.log.lh.length ∨ s.log.size - 1 ≤ s.log.lh.length then
      some (s.stop "too big a transaction")
    else if s.log.outstanding < 1 then some (s.stop "log_write outside of trans")
    else some (s.goto p (.logWrite b .acquire))
  | .acquire =>
    if s.log.lock = none then
      some { s.goto p (.logWrite b .absorb) with log := { s.log with lock := some p } }
    else none
  | .absorb =>
    let n := (s.buf b).key.blockno
    some { s.goto p (.logWrite b .dirty) with
      log := { s.log with lh := if n ∈ s.log.lh then s.log.lh else s.log.lh ++ [n] } }
  | .dirty => some ((s.logDirty b).goto p (.logWrite b .release))
  | .release => some { s.goto p .idle with log := { s.log with lock := none } }

def bwrite (b : Slot) : BwriteAt → Sys ι D
  | .check => if ¬ s.holds p b then s.stop "bwrite" else s.goto p (.bwrite b .dirty)
  | .dirty => (s.upd b fun x => { x with dirty := true }).goto p (.bwrite b .iderw)
  | .iderw => s.iderw p b .idle

/-- `b->refcnt--`, and the buffer moves to the head of the list if that was the last reference. -/
def unref (b : Slot) (a : Pc) : Sys ι D :=
  { (s.upd b fun x => { x with refcnt := x.refcnt - 1 }).goto p a with
    links := if (s.buf b).refcnt - 1 = 0 then (s.links.unlink b).pushFront b else s.links
    refs := s.refs.erase ⟨p, b, (s.buf b).key⟩ }

def brelse (b : Slot) : BrelseAt → Option (Sys ι D)
  | .check => some (if ¬ s.holds p b then s.stop "brelse" else s.goto p (.brelse b .releasesleep))
  | .releasesleep => some ((s.upd b fun x => { x with lock := none }).goto p (.brelse b .acquire))
  | .acquire => s.acquire p (.brelse b .dec)
  | .dec => some (s.unref p b (.brelse b .release))
  | .release => some (s.release p .idle)

def call : Call D → Option (Sys ι D)
  | .go => none
  | .bread n => some (s.goto p (.bget n .acquire))
  | .modify b d =>
    if s.holds p b then some (s.upd b fun x => { x with data := d, modified := true }) else none
  | .logWrite b => if s.holds p b then some (s.goto p (.logWrite b .check)) else none
  | .bwrite b => some (s.goto p (.bwrite b .check))
  | .brelse b => some (s.goto p (.brelse b .check))
  | .setLog lh outstanding =>
    if s.log.lock = none then some { s with log := { s.log with lh := lh, outstanding := outstanding } } else none

def go : Pc → Option (Sys ι D)
  | .idle => none
  | .bget n a => s.bget p n a
  | .bread _ b => some (s.bread p b)
  | .logWrite b a => s.logWrite p b a
  | .bwrite b a => some (s.bwrite p b a)
  | .brelse b a => s.brelse p b a

def exec (l : ι × Call D) : Option (Sys ι D) :=
  if s.panic.isSome then none
  else
    match s.pc l.1, l.2 with
    | .idle, x => s.call l.1 x
    | a, .go => s.go l.1 a
    | _, _ => none

/-- A buffer that was modified is stored before `brelse`. -/
def Stores (l : ι × Call D) : Prop :=
  match l.2 with
  | .brelse b => s.holds l.1 b → (s.buf b).modified = false
  | _ => True

end Sys

/-- The list that `binit` makes. -/
def binit : Links Slot := (List.finRange NBUF).foldl (fun R b => R.pushFront b) .empty

/-- After `binit`: all buffers are zero, and the disk has its contents. -/
def init (ι : Type) {D : Type} (disk : ℕ → D) (disksize : ℕ) (zero : D) (size : ℤ) : Sys ι D where
  buf _ := { valid := false, dirty := false, key := ⟨0, 0⟩, lock := none, refcnt := 0, data := zero, modified := false }
  links := binit
  lock := none
  log := ⟨none, [], 0, size⟩
  disk := disk
  disksize := disksize
  pc _ := .idle
  refs := []
  stored := disk
  panic := none

/-! ## The invariant -/

/-- The process has `bcache.lock`. -/
def Pc.hasLock : Pc → Bool
  | .bget _ (.scan _) | .bget _ (.back _) | .bget _ (.release _) => true
  | .brelse _ .dec | .brelse _ .release => true
  | _ => false

variable {ι D : Type}

/-- The process has a reference to the buffer. -/
def Sys.has (s : Sys ι D) (p : ι) (b : Slot) : Prop := ⟨p, b, (s.buf b).key⟩ ∈ s.refs

/-- The first loop of `bget` is at `b`, and no buffer before is for block `n`. -/
def Scanned (s : Sys ι D) (n : ℕ) (b : Option Slot) : Prop :=
  ∃ l₁ l₂, s.links.Circle (l₁ ++ l₂) ∧ (∀ x, x ∈ l₁ ++ l₂) ∧ b = l₂.head? ∧ ∀ x ∈ l₁, (s.buf x).key ≠ block n

/-- What a process knows at each place. -/
def Place (s : Sys ι D) (p : ι) : Pc → Prop
  | .bget n (.scan b) => Scanned s n b
  | .bget n (.back _) => ∀ x, (s.buf x).key ≠ block n
  | .bget n (.release b) | .bget n (.acquiresleep b) => ⟨p, b, block n⟩ ∈ s.refs
  | .bread n b => ⟨p, b, block n⟩ ∈ s.refs ∧ s.holds p b ∧ (s.buf b).modified = false
  | .logWrite b _ | .bwrite b .dirty => s.holds p b
  | .bwrite b .iderw => s.holds p b ∧ (s.buf b).dirty = true
  | .brelse b .check => s.holds p b → (s.buf b).modified = false
  | .brelse b .releasesleep => s.holds p b ∧ (s.buf b).modified = false
  | .brelse b .acquire | .brelse b .dec => s.has p b ∧ ¬ s.holds p b
  | .idle | .bget _ .acquire | .bwrite _ .check | .brelse _ .release => True

/-- A dirty buffer is valid, and a modified one is locked. -/
structure Buf.Ok (x : Buf ι D) : Prop where
  valid : x.dirty = true → x.valid = true
  locked : x.modified = true → x.lock ≠ none

structure Inv (s : Sys ι D) : Prop where
  handles : Handles (fun b => (s.buf b).key) (fun b => (s.buf b).key.dev = ROOTDEV)
    (fun b => (s.buf b).refcnt) s.refs
  circle : ∃ l, s.links.Circle l ∧ ∀ b, b ∈ l
  lock : ∀ p, s.lock = some p ↔ (s.pc p).hasLock = true
  place : ∀ p, Place s p (s.pc p)
  owns : ∀ {p b}, s.holds p b → s.has p b
  ready : ∀ {p b}, s.holds p b → (s.buf b).valid = true ∨ ∃ n, s.pc p = .bread n b
  ok : ∀ b, (s.buf b).Ok

/-- What process `p` leaves as it is for the others. -/
structure Frame (s s' : Sys ι D) (p : ι) : Prop where
  keys : (s'.links = s.links ∧ ∀ b, (s'.buf b).key = (s.buf b).key) ∨ s.lock = some p
  refs : ∀ h ∈ s.refs, h.user ≠ p → h ∈ s'.refs
  holds : ∀ {q} b, q ≠ p → (s'.holds q b ↔ s.holds q b)
  flags : ∀ {q b}, q ≠ p → s.holds q b → (s'.buf b).valid = (s.buf b).valid ∧
    (s'.buf b).dirty = (s.buf b).dirty ∧ (s'.buf b).modified = (s.buf b).modified

section Frame
variable {s s' : Sys ι D} {p q : ι}

theorem Scanned.congr (hlinks : s'.links = s.links) (hkeys : ∀ b, (s'.buf b).key = (s.buf b).key)
    {n : ℕ} {b : Option Slot} (h : Scanned s n b) : Scanned s' n b := by
  obtain ⟨l₁, l₂, hl, hall, hb, hmissing⟩ := h
  exact ⟨l₁, l₂, hlinks ▸ hl, hall, hb, fun x hx => by rw [hkeys]; exact hmissing x hx⟩

theorem Frame.has (hf : Frame s s' p) (hq : q ≠ p)
    (hkey : ∀ h ∈ s'.refs, (s'.buf h.slot).key = h.key) {b : Slot} (h : s.has q b) : s'.has q b := by
  have h' := hf.refs _ h hq
  have hk : (s'.buf b).key = (s.buf b).key := hkey _ h'
  rwa [Sys.has, hk]

theorem Frame.place (hf : Frame s s' p) (hq : q ≠ p) (hs : Inv s)
    (hkey : ∀ h ∈ s'.refs, (s'.buf h.slot).key = h.key) : Place s' q (s.pc q) := by
  have hplace := hs.place q
  -- who has `bcache.lock` is alone with the list
  have hkeys : (s.pc q).hasLock = true → s'.links = s.links ∧ ∀ b, (s'.buf b).key = (s.buf b).key := by
    intro hlock
    refine hf.keys.resolve_right fun hp => hq ?_
    have hq' := (hs.lock q).mpr hlock
    rw [hp] at hq'
    exact (Option.some.inj hq').symm
  generalize s.pc q = a at hplace hkeys
  cases a with
  | idle => trivial
  | bget n a =>
    cases a with
    | acquire => trivial
    | scan b => exact hplace.congr (hkeys rfl).1 (hkeys rfl).2
    | back b => exact fun x => by rw [(hkeys rfl).2]; exact hplace x
    | release b | acquiresleep b => exact hf.refs _ hplace hq
  | bread n b =>
    obtain ⟨hmem, hb, hm⟩ := hplace
    exact ⟨hf.refs _ hmem hq, (hf.holds b hq).mpr hb, (hf.flags hq hb).2.2.trans hm⟩
  | logWrite b a => exact (hf.holds b hq).mpr hplace
  | bwrite b a =>
    cases a with
    | check => trivial
    | dirty => exact (hf.holds b hq).mpr hplace
    | iderw => exact ⟨(hf.holds b hq).mpr hplace.1, (hf.flags hq hplace.1).2.1.trans hplace.2⟩
  | brelse b a =>
    cases a with
    | check =>
      intro hb
      have hb := (hf.holds b hq).mp hb
      exact (hf.flags hq hb).2.2.trans (hplace hb)
    | releasesleep => exact ⟨(hf.holds b hq).mpr hplace.1, (hf.flags hq hplace.1).2.2.trans hplace.2⟩
    | acquire | dec => exact ⟨hf.has hq hkey hplace.1, fun hb => hplace.2 ((hf.holds b hq).mp hb)⟩
    | release => trivial

end Frame

/-! ## What a step can do -/

variable [DecidableEq ι]

/-- The steps of process `p`, with what it knows where it is. -/
inductive Step (s : Sys ι D) (p : ι) : Sys ι D → Prop
  | stop (msg : String) : Step s p (s.stop msg)
  /-- It goes to another place. It may acquire or release a spin lock, and the log header may change. -/
  | move {a : Pc} {lock : Option ι} {log : LogState ι}
      (hlock : ∀ q, lock = some q ↔ (update s.pc p a q).hasLock = true) (hplace : Place s p a)
      (hready : ∀ {n b}, s.pc p = .bread n b → (s.buf b).valid = true)
      (hstored : ∀ b, s.pc p ≠ .logWrite b .dirty ∧ s.pc p ≠ .bwrite b .iderw) :
      Step s p { s with pc := update s.pc p a, lock := lock, log := log }
  | ref {n : ℕ} {b : Slot} (hpc : s.pc p = .bget n (.scan (some b))) (hkey : (s.buf b).key = block n) :
      Step s p (s.ref p b (block n) (.bget n (.release b)))
  | recycle {n : ℕ} {b : Slot} (hpc : s.pc p = .bget n (.back (some b))) (hzero : (s.buf b).refcnt = 0)
      (hclean : (s.buf b).dirty = false) : Step s p (s.recycle p b (block n) (.bget n (.release b)))
  | unref {b : Slot} (hpc : s.pc p = .brelse b .dec) : Step s p (s.unref p b (.brelse b .release))
  | lock {n : ℕ} {b : Slot} (hpc : s.pc p = .bget n (.acquiresleep b)) (hfree : (s.buf b).lock = none) :
      Step s p ((s.upd b fun x => { x with lock := some p }).goto p (.bread n b))
  | unlock {b : Slot} (hpc : s.pc p = .brelse b .releasesleep) :
      Step s p ((s.upd b fun x => { x with lock := none }).goto p (.brelse b .acquire))
  | modify {b : Slot} {d : D} (hpc : s.pc p = .idle) (hb : s.holds p b) :
      Step s p ((s.upd b fun x => { x with data := d, modified := true }).goto p .idle)
  | dirty {b : Slot} (hpc : s.pc p = .bwrite b .dirty) :
      Step s p ((s.upd b fun x => { x with dirty := true }).goto p (.bwrite b .iderw))
  | read {n : ℕ} {b : Slot} (hpc : s.pc p = .bread n b) (hvalid : (s.buf b).valid = false) :
      Step s p ((s.diskRead b).goto p .idle)
  | write {b : Slot} (hpc : s.pc p = .bwrite b .iderw) : Step s p ((s.diskWrite b).goto p .idle)
  | log {b : Slot} (hpc : s.pc p = .logWrite b .dirty) :
      Step s p ((s.logDirty b).goto p (.logWrite b .release))

variable {s s' : Sys ι D} {p : ι}

theorem Sys.exec_cases {x : Call D} (h : s.exec (p, x) = some s') :
    s.pc p = .idle ∧ s.call p x = some s' ∨ s.go p (s.pc p) = some s' := by
  unfold Sys.exec at h
  replace h := (Option.ite_none_left_eq_some.mp h).2
  dsimp only at h
  cases hp : s.pc p with
  | idle =>
    rw [hp] at h
    exact .inl ⟨rfl, h⟩
  | _ =>
    rw [hp] at h
    cases x with
    | go => exact .inr h
    | _ => cases h

theorem Sys.goto_self (s : Sys ι D) {a : Pc} (hp : s.pc p = a) : s.goto p a = s := by
  rw [Sys.goto, ← hp, update_eq_self]

theorem Sys.iderw_cases (s : Sys ι D) (p : ι) (b : Slot) (a : Pc) :
    (∃ msg, s.iderw p b a = s.stop msg) ∨ (s.buf b).dirty = true ∧ s.iderw p b a = (s.diskWrite b).goto p a ∨
      (s.buf b).dirty = false ∧ s.iderw p b a = (s.diskRead b).goto p a := by
  simp only [Sys.iderw]
  repeat' split
  · exact .inl ⟨_, rfl⟩
  · exact .inl ⟨_, rfl⟩
  · exact .inl ⟨_, rfl⟩
  · exact .inl ⟨_, rfl⟩
  · next hdirty => exact .inr (.inl ⟨hdirty, rfl⟩)
  · next hdirty => exact .inr (.inr ⟨Bool.eq_false_iff.mpr hdirty, rfl⟩)

namespace Inv

variable {s s' : Sys ι D} {p : ι} {a : Pc}

section
variable (hs : Inv s)
include hs

theorem lock_same (ha : a.hasLock = (s.pc p).hasLock) (q : ι) :
    s.lock = some q ↔ (update s.pc p a q).hasLock = true :=
  Threads.Held.same (f := Pc.hasLock) hs.lock ha q

theorem lock_acquire (hfree : s.lock = none) (ha : a.hasLock = true) (q : ι) :
    some p = some q ↔ (update s.pc p a q).hasLock = true :=
  Threads.Held.acquire (f := Pc.hasLock) (hfree ▸ hs.lock) ha q

theorem lock_release (hp : (s.pc p).hasLock = true) (ha : a.hasLock = false) (q : ι) :
    none = some q ↔ (update s.pc p a q).hasLock = true :=
  Threads.Held.release (f := Pc.hasLock) hs.lock hp ha q

theorem goto {a₀ : Pc} (hp : s.pc p = a₀) (ha : a.hasLock = a₀.hasLock) (hplace : Place s p a)
    (hready : ∀ n b, a₀ ≠ .bread n b) (hstored : ∀ b, a₀ ≠ .logWrite b .dirty ∧ a₀ ≠ .bwrite b .iderw) :
    Step s p (s.goto p a) := by
  subst hp
  exact .move (hs.lock_same ha) hplace (fun h => absurd h (hready _ _)) hstored

theorem bget_step {n : ℕ} {a : BgetAt} (hp : s.pc p = .bget n a) (h : s.bget p n a = some s') :
    Step s p s' := by
  have hplace := hs.place p
  rw [hp] at hplace
  cases a with
  | acquire =>
    obtain ⟨hfree, h⟩ := Option.ite_none_right_eq_some.mp h
    cases h
    obtain ⟨l, hl, hall⟩ := hs.circle
    refine .move (hs.lock_acquire hfree rfl) ⟨[], l, hl, hall, hl.first, nofun⟩ ?_ ?_ <;> simp [hp]
  | scan b =>
    cases b with
    | none =>
      cases h
      refine hs.goto hp rfl ?_ nofun fun _ => ⟨nofun, nofun⟩
      obtain ⟨l₁, l₂, hl, hall, hb, hmissing⟩ := hplace
      obtain rfl := List.head?_eq_none_iff.mp hb.symm
      rw [List.append_nil] at hall
      exact fun x => hmissing x (hall x)
    | some b =>
      simp only [Sys.bget] at h
      split at h <;> cases h
      · next hkey => exact .ref hp hkey
      · next hkey =>
        refine hs.goto hp rfl ?_ nofun fun _ => ⟨nofun, nofun⟩
        obtain ⟨l₁, l₂, hl, hall, hb, hmissing⟩ := hplace
        obtain ⟨l₂, rfl⟩ := List.head?_eq_some_iff.mp hb.symm
        refine ⟨l₁ ++ [b], l₂, by simpa using hl, by simpa using hall, hl.next rfl, fun x hx => ?_⟩
        obtain hx | hx := List.mem_append.mp hx
        · exact hmissing x hx
        · exact List.mem_singleton.mp hx ▸ hkey
  | back b =>
    cases b with
    | none =>
      cases h
      exact .stop _
    | some b =>
      simp only [Sys.bget] at h
      split at h <;> cases h
      · next hfree => exact .recycle hp hfree.1 hfree.2
      · exact hs.goto hp rfl hplace nofun fun _ => ⟨nofun, nofun⟩
  | release b =>
    cases h
    refine .move (hs.lock_release (by rw [hp]; rfl) rfl) hplace ?_ ?_ <;> simp [hp]
  | acquiresleep b =>
    obtain ⟨hfree, h⟩ := Option.ite_none_right_eq_some.mp h
    cases h
    exact .lock hp hfree

variable {b : Slot}

theorem bread_step {n : ℕ} (hp : s.pc p = .bread n b) : Step s p (s.bread p b) := by
  unfold Sys.bread
  split
  · next hvalid =>
    refine .move (hs.lock_same (by rw [hp]; rfl)) trivial (fun h => ?_) ?_
    · rw [hp] at h
      cases h
      exact hvalid
    · simp [hp]
  · next hvalid =>
    obtain ⟨msg, h⟩ | ⟨hdirty, -⟩ | ⟨-, h⟩ := s.iderw_cases p b .idle
    · exact h ▸ .stop msg
    · exact absurd ((hs.ok b).valid hdirty) hvalid
    · exact h ▸ .read hp (Bool.eq_false_iff.mpr hvalid)

theorem logWrite_step {a : LogWriteAt} (hp : s.pc p = .logWrite b a)
    (h : s.logWrite p b a = some s') : Step s p s' := by
  have hplace := hs.place p
  rw [hp] at hplace
  have hmove : ∀ {a' log}, a ≠ .dirty → a'.hasLock = false → Place s p a' →
      Step s p { s with pc := update s.pc p a', lock := s.lock, log := log } := by
    intro a' log ha hlock hplace'
    refine .move (hs.lock_same (by rw [hp]; exact hlock)) hplace' ?_ ?_ <;> simp [hp, ha]
  cases a with
  | check =>
    simp only [Sys.logWrite] at h
    split at h
    · cases h
      exact .stop _
    · split at h <;> cases h
      · exact .stop _
      · exact hmove nofun rfl hplace
  | acquire =>
    obtain ⟨-, h⟩ := Option.ite_none_right_eq_some.mp h
    cases h
    exact hmove nofun rfl hplace
  | absorb =>
    cases h
    exact hmove nofun rfl hplace
  | dirty =>
    cases h
    exact .log hp
  | release =>
    cases h
    exact hmove nofun rfl trivial

theorem bwrite_step {a : BwriteAt} (hp : s.pc p = .bwrite b a) : Step s p (s.bwrite p b a) := by
  have hplace := hs.place p
  rw [hp] at hplace
  cases a with
  | check =>
    simp only [Sys.bwrite]
    split
    · exact .stop _
    · next hb => exact hs.goto hp rfl (not_not.mp hb) nofun fun _ => ⟨nofun, nofun⟩
  | dirty => exact .dirty hp
  | iderw =>
    show Step s p (s.iderw p b .idle)
    obtain ⟨msg, h⟩ | ⟨-, h⟩ | ⟨hdirty, -⟩ := s.iderw_cases p b .idle
    · exact h ▸ .stop msg
    · exact h ▸ .write hp
    · rw [hplace.2] at hdirty
      cases hdirty

theorem brelse_step {a : BrelseAt} (hp : s.pc p = .brelse b a)
    (h : s.brelse p b a = some s') : Step s p s' := by
  have hplace := hs.place p
  rw [hp] at hplace
  cases a with
  | check =>
    simp only [Sys.brelse] at h
    split at h <;> cases h
    · exact .stop _
    · next hb =>
      have hb := not_not.mp hb
      exact hs.goto hp rfl ⟨hb, hplace hb⟩ nofun fun _ => ⟨nofun, nofun⟩
  | releasesleep =>
    cases h
    exact .unlock hp
  | acquire =>
    obtain ⟨hfree, h⟩ := Option.ite_none_right_eq_some.mp h
    cases h
    refine .move (hs.lock_acquire hfree rfl) hplace ?_ ?_ <;> simp [hp]
  | dec =>
    cases h
    exact .unref hp
  | release =>
    cases h
    refine .move (hs.lock_release (by rw [hp]; rfl) rfl) trivial ?_ ?_ <;> simp [hp]

theorem call_step {x : Call D} (hp : s.pc p = .idle) (hstores : s.Stores (p, x))
    (h : s.call p x = some s') : Step s p s' := by
  cases x with
  | go => cases h
  | bread n | bwrite b =>
    cases h
    exact hs.goto hp rfl trivial nofun fun _ => ⟨nofun, nofun⟩
  | modify b d =>
    obtain ⟨hb, h⟩ := Option.ite_none_right_eq_some.mp h
    cases h
    have hstep : Step s p ((s.upd b fun x => { x with data := d, modified := true }).goto p .idle) := .modify hp hb
    rwa [Sys.goto_self (s.upd b _) hp] at hstep
  | logWrite b =>
    obtain ⟨hb, h⟩ := Option.ite_none_right_eq_some.mp h
    cases h
    exact hs.goto hp rfl hb nofun fun _ => ⟨nofun, nofun⟩
  | brelse b =>
    cases h
    exact hs.goto hp rfl hstores nofun fun _ => ⟨nofun, nofun⟩
  | setLog lh outstanding =>
    obtain ⟨-, h⟩ := Option.ite_none_right_eq_some.mp h
    cases h
    have hstep : Step s p { s.goto p .idle with log := { s.log with lh := lh, outstanding := outstanding } } := by
      refine .move (hs.lock_same (by rw [hp])) trivial ?_ ?_ <;> simp [hp]
    rwa [Sys.goto_self _ hp] at hstep

theorem step {x : Call D} (hstores : s.Stores (p, x)) (h : s.exec (p, x) = some s') : Step s p s' := by
  obtain ⟨hp, h⟩ | h := Sys.exec_cases h
  · exact hs.call_step hp hstores h
  · cases hp : s.pc p with
    | idle =>
      rw [hp] at h
      cases h
    | bget n a => exact hs.bget_step hp (by rw [hp] at h; exact h)
    | bread n b =>
      rw [hp] at h
      cases h
      exact hs.bread_step hp
    | logWrite b a => exact hs.logWrite_step hp (by rw [hp] at h; exact h)
    | bwrite b a =>
      rw [hp] at h
      cases h
      exact hs.bwrite_step hp
    | brelse b a => exact hs.brelse_step hp (by rw [hp] at h; exact h)

end

end Inv

/-! ## The invariant is kept -/

namespace Inv

variable {s s' : Sys ι D} {p : ι} {a : Pc} {b : Slot} {n : ℕ}

theorem moved (hs : Inv s) (hf : Frame s s' p) (hpc : s'.pc = update s.pc p a)
    (hlock : ∀ q, s'.lock = some q ↔ (update s.pc p a q).hasLock = true)
    (hhandles : Handles (fun b => (s'.buf b).key) (fun b => (s'.buf b).key.dev = ROOTDEV)
      (fun b => (s'.buf b).refcnt) s'.refs)
    (hcircle : ∃ l, s'.links.Circle l ∧ ∀ b, b ∈ l) (hplace : Place s' p a)
    (howns : ∀ b, s'.holds p b → s'.has p b)
    (hready : ∀ b, s'.holds p b → (s'.buf b).valid = true ∨ ∃ n, a = .bread n b)
    (hok : ∀ b, (s'.buf b).Ok) : Inv s' := by
  have hkey := hhandles.key_eq
  refine ⟨hhandles, hcircle, fun q => by rw [hpc]; exact hlock q, fun q => ?_, fun {q b} hb => ?_,
    fun {q b} hb => ?_, hok⟩
  all_goals by_cases hq : q = p
  · subst hq
    rwa [hpc, update_self]
  · rw [hpc, update_of_ne hq]
    exact hf.place hq hs hkey
  · subst hq
    exact howns b hb
  · exact hf.has hq hkey (hs.owns ((hf.holds b hq).mp hb))
  · subst hq
    rw [hpc, update_self]
    exact hready b hb
  · have hb := (hf.holds b hq).mp hb
    rw [hpc, update_of_ne hq, (hf.flags hq hb).1]
    exact hs.ready hb

/-- The process changes a buffer that no other process has locked, but not what it is for or who refers
to it. -/
theorem touch (hs : Inv s) {x : Buf ι D} (hbuf : s'.buf = update s.buf b x)
    (hpc : s'.pc = update s.pc p a) (hlinks : s'.links = s.links) (hrefs : s'.refs = s.refs)
    (hlock : s'.lock = s.lock) (hkey : x.key = (s.buf b).key) (href : x.refcnt = (s.buf b).refcnt)
    (hmine : ∀ q, s.holds q b → q = p) (hmine' : ∀ q, x.lock = some q → q = p)
    (ha : a.hasLock = (s.pc p).hasLock) (hbread : ∀ {n b'}, s.pc p = .bread n b' → b' = b)
    (hhas : x.lock = some p → s.has p b) (hready : x.lock = some p → x.valid = true ∨ ∃ n, a = .bread n b)
    (hok : x.Ok) (hplace : Place s' p a) : Inv s' := by
  have hself : s'.buf b = x := by rw [hbuf, update_self]
  have hother : ∀ {b'}, b' ≠ b → s'.buf b' = s.buf b' := fun h => by rw [hbuf, update_of_ne h]
  have hkeys : ∀ b', (s'.buf b').key = (s.buf b').key := by
    intro b'
    by_cases hb : b' = b
    · rw [hb, hself, hkey]
    · rw [hother hb]
  have hcounts : ∀ b', (s'.buf b').refcnt = (s.buf b').refcnt := by
    intro b'
    by_cases hb : b' = b
    · rw [hb, hself, href]
    · rw [hother hb]
  have hframe : Frame s s' p := by
    refine ⟨.inl ⟨hlinks, hkeys⟩, fun h hh _ => hrefs ▸ hh, fun {q} b' hq => ?_, fun {q b'} hq hb' => ?_⟩
    · by_cases hb : b' = b
      · subst hb
        refine iff_of_false (fun h => hq (hmine' q ?_)) fun h => hq (hmine q h)
        rwa [Sys.holds, hself] at h
      · rw [Sys.holds, Sys.holds, hother hb]
    · have hb : b' ≠ b := fun h => hq (hmine q (h ▸ hb'))
      rw [hother hb]
      exact ⟨rfl, rfl, rfl⟩
  refine hs.moved hframe hpc (fun q => by rw [hlock]; exact hs.lock_same ha q) ?_ (hlinks ▸ hs.circle) hplace
    (fun b' hb' => ?_) (fun b' hb' => ?_) fun b' => ?_
  · rw [hrefs]
    exact hs.handles.congr hkeys (fun b' => by rw [hkeys]) hcounts
  all_goals by_cases hb : b' = b
  · subst hb
    rw [Sys.holds, hself] at hb'
    rw [Sys.has, hkeys, hrefs]
    exact hhas hb'
  · rw [Sys.holds, hother hb] at hb'
    rw [Sys.has, hkeys, hrefs]
    exact hs.owns hb'
  · subst hb
    rw [Sys.holds, hself] at hb'
    rw [hself]
    exact hready hb'
  · rw [Sys.holds, hother hb] at hb'
    rw [hother hb]
    obtain h | ⟨n, h⟩ := hs.ready hb'
    · exact .inl h
    · exact absurd (hbread h) hb
  · rwa [hb, hself]
  · rw [hother hb]
    exact hs.ok b'

omit [DecidableEq ι] in
theorem mine (hb : s.holds p b) (q : ι) (hq : s.holds q b) : q = p := by
  rw [Sys.holds] at hb hq
  rw [hb] at hq
  exact (Option.some.inj hq).symm

section
variable (hs : Inv s)
include hs

theorem touch_held {x : Buf ι D} (hbuf : s'.buf = update s.buf b x)
    (hpc : s'.pc = update s.pc p a) (hlinks : s'.links = s.links) (hrefs : s'.refs = s.refs)
    (hlock : s'.lock = s.lock) (hkey : x.key = (s.buf b).key) (href : x.refcnt = (s.buf b).refcnt)
    (hb : s.holds p b) (hxlock : x.lock = (s.buf b).lock) (ha : a.hasLock = (s.pc p).hasLock)
    (hbread : ∀ {n b'}, s.pc p = .bread n b' → b' = b) (hvalid : x.valid = true) (hplace : Place s' p a) :
    Inv s' :=
  hs.touch hbuf hpc hlinks hrefs hlock hkey href (mine hb) (fun q hq => mine hb q (hxlock.symm.trans hq)) ha hbread
    (fun _ => hs.owns hb) (fun _ => .inl hvalid) ⟨fun _ => hvalid, fun _ => by rw [hxlock, hb]; nofun⟩ hplace

omit [DecidableEq ι] in
/-- A buffer that the process has locked is valid, unless `bread` has not read it yet. -/
theorem valid_of_holds (hb : s.holds p b) (hpc : ∀ n, s.pc p ≠ .bread n b) : (s.buf b).valid = true :=
  (hs.ready hb).resolve_right fun ⟨n, h⟩ => hpc n h

omit [DecidableEq ι] in
theorem not_holds (hzero : (s.buf b).refcnt = 0) (q : ι) : ¬ s.holds q b := by
  intro hb
  have hpos : 0 < (s.buf b).refcnt := hs.handles.pos (hs.owns hb)
  omega

theorem ref (hpc : s.pc p = .bget n (.scan (some b))) (hkey : (s.buf b).key = block n) :
    Inv (s.ref p b (block n) (.bget n (.release b))) := by
  have hlock : (s.pc p).hasLock = true := by rw [hpc]; rfl
  generalize hs' : s.ref p b (block n) (.bget n (.release b)) = s'
  have hbuf : ∀ b', s'.buf b' = { s.buf b' with refcnt := (s.buf b').refcnt + if b = b' then 1 else 0 } := by
    intro b'
    subst hs'
    by_cases hb : b' = b
    · subst hb
      simp [Sys.ref, Sys.goto, Sys.upd]
    · have hb' : ¬ b = b' := fun h => hb h.symm
      simp [Sys.ref, Sys.goto, Sys.upd, hb, hb']
  have hrefs : s'.refs = ⟨p, b, block n⟩ :: s.refs := by rw [← hs']; rfl
  have hframe : Frame s s' p := by
    refine ⟨.inr ((hs.lock p).mpr hlock), fun h hh _ => ?_, fun b' _ => ?_, fun {q b'} _ _ => ?_⟩
    · exact hrefs ▸ List.mem_cons_of_mem _ hh
    · rw [Sys.holds, Sys.holds, hbuf]
    · rw [hbuf]
      exact ⟨rfl, rfl, rfl⟩
  refine hs.moved hframe (by rw [← hs']; rfl) (by rw [← hs']; exact hs.lock_same (by rw [hlock]; rfl)) ?_
    (by rw [← hs']; exact hs.circle) (by rw [Place, hrefs]; exact List.mem_cons_self ..) (fun b' hb => ?_)
    (fun b' hb => ?_) fun b' => ?_
  · rw [hrefs]
    simp only [hbuf]
    exact hs.handles.hit (h := ⟨p, b, block n⟩) (by simp [hkey]) hkey (fun _ => rfl) (fun _ => id) fun _ => id
  · rw [Sys.holds, hbuf] at hb
    rw [Sys.has, hrefs, hbuf]
    exact List.mem_cons_of_mem _ (hs.owns hb)
  · rw [Sys.holds, hbuf] at hb
    rw [hbuf]
    exact .inl (hs.valid_of_holds hb (by simp [hpc]))
  · rw [hbuf]
    exact ⟨(hs.ok b').valid, (hs.ok b').locked⟩

/-- `bget` takes a buffer that nobody has a reference to, when no buffer is for the block. -/
theorem recycle (hpc : s.pc p = .bget n (.back (some b))) (hzero : (s.buf b).refcnt = 0) :
    Inv (s.recycle p b (block n) (.bget n (.release b))) := by
  have hlock : (s.pc p).hasLock = true := by rw [hpc]; rfl
  have hmissing : ∀ x, (s.buf x).key ≠ block n := by
    have hplace := hs.place p
    rwa [hpc] at hplace
  generalize hs' : s.recycle p b (block n) (.bget n (.release b)) = s'
  have hself : s'.buf b = { s.buf b with key := block n, valid := false, dirty := false, refcnt := 1 } := by
    rw [← hs']
    exact update_self ..
  have hother : ∀ {b'}, b' ≠ b → s'.buf b' = s.buf b' := by
    intro b' hb
    rw [← hs']
    exact update_of_ne hb ..
  have hrefs : s'.refs = ⟨p, b, block n⟩ :: s.refs := by rw [← hs']; rfl
  have hholds : ∀ {q} b', s'.holds q b' ↔ s.holds q b' := by
    intro q b'
    by_cases hb : b' = b
    · rw [hb, Sys.holds, hself]
      rfl
    · rw [Sys.holds, Sys.holds, hother hb]
  -- the buffer is not one of those that processes have locked
  have hne : ∀ {q b'}, s.holds q b' → b' ≠ b := fun h hb => hs.not_holds hzero _ (hb ▸ h)
  have hframe : Frame s s' p := by
    refine ⟨.inr ((hs.lock p).mpr hlock), fun h hh _ => ?_, fun b' _ => hholds b', fun {q b'} _ hb => ?_⟩
    · exact hrefs ▸ List.mem_cons_of_mem _ hh
    · rw [hother (hne hb)]
      exact ⟨rfl, rfl, rfl⟩
  refine hs.moved hframe (by rw [← hs']; rfl) (by rw [← hs']; exact hs.lock_same (by rw [hlock]; rfl)) ?_
    (by rw [← hs']; exact hs.circle) (by rw [Place, hrefs]; exact List.mem_cons_self ..) (fun b' hb => ?_)
    (fun b' hb => ?_) fun b' => ?_
  · rw [hrefs]
    refine hs.handles.recycle (h := ⟨p, b, block n⟩) hzero (fun x _ => hmissing x) (fun x hx => ?_) ?_
      (fun x hx => ?_)
      ?_ (fun x hx => ?_) ?_
    · rw [hother hx]
    · rw [hself]
    · rw [hother hx]
    · rw [hself]
    · rw [hother hx]
    · rw [hself]
  · have hb := (hholds b').mp hb
    rw [Sys.has, hrefs, hother (hne hb)]
    exact List.mem_cons_of_mem _ (hs.owns hb)
  · have hb := (hholds b').mp hb
    rw [hother (hne hb)]
    exact .inl (hs.valid_of_holds hb (by simp [hpc]))
  · by_cases hb : b' = b
    · rw [hb, hself]
      exact ⟨nofun, (hs.ok b).locked⟩
    · rw [hother hb]
      exact hs.ok b'

theorem unref (hpc : s.pc p = .brelse b .dec) : Inv (s.unref p b (.brelse b .release)) := by
  have hlock : (s.pc p).hasLock = true := by rw [hpc]; rfl
  obtain ⟨hhas, hfree⟩ : s.has p b ∧ ¬ s.holds p b := by
    have hplace := hs.place p
    rwa [hpc] at hplace
  generalize hs' : s.unref p b (.brelse b .release) = s'
  have hbuf : ∀ b', s'.buf b' = { s.buf b' with refcnt := (s.buf b').refcnt - if b = b' then 1 else 0 } := by
    intro b'
    subst hs'
    by_cases hb : b' = b
    · subst hb
      simp [Sys.unref, Sys.goto, Sys.upd]
    · have hb' : ¬ b = b' := fun h => hb h.symm
      simp [Sys.unref, Sys.goto, Sys.upd, hb, hb']
  have hrefs : s'.refs = s.refs.erase ⟨p, b, (s.buf b).key⟩ := by rw [← hs']; rfl
  -- the other references stay
  have hkeep : ∀ h ∈ s.refs, (h.user ≠ p ∨ h.slot ≠ b) → h ∈ s'.refs := by
    intro h hh hne
    rw [hrefs]
    refine (List.mem_erase_of_ne fun heq => ?_).mpr hh
    rw [heq] at hne
    obtain hne | hne := hne <;> exact hne rfl
  have hframe : Frame s s' p := by
    refine ⟨.inr ((hs.lock p).mpr hlock), fun h hh hne => hkeep h hh (.inl hne), fun b' _ => ?_,
      fun {q b'} _ _ => ?_⟩
    · rw [Sys.holds, Sys.holds, hbuf]
    · rw [hbuf]
      exact ⟨rfl, rfl, rfl⟩
  refine hs.moved (a := .brelse b .release) hframe (by rw [← hs']; rfl)
    (by rw [← hs']; exact hs.lock_same (by rw [hlock]; rfl)) ?_ ?_ trivial (fun b' hb => ?_) (fun b' hb => ?_)
    fun b' => ?_
  · rw [hrefs]
    simp only [hbuf]
    refine hs.handles.drop hhas (fun _ => rfl) (fun b' hpos => hs.handles.live_of_pos b' ?_) fun _ => id
    split at hpos <;> omega
  · obtain ⟨l, hl, hall⟩ := hs.circle
    subst hs'
    simp only [Sys.unref]
    split
    · refine ⟨b :: l.erase b, hl.moveToFront (hall b), fun b' => ?_⟩
      by_cases hb : b' = b
      · exact hb ▸ List.mem_cons_self ..
      · exact List.mem_cons_of_mem _ ((List.mem_erase_of_ne hb).mpr (hall b'))
    · exact ⟨l, hl, hall⟩
  · rw [Sys.holds, hbuf] at hb
    rw [Sys.has, hbuf]
    exact hkeep _ (hs.owns hb) (.inr fun h => hfree (h ▸ hb))
  · rw [Sys.holds, hbuf] at hb
    rw [hbuf]
    exact .inl (hs.valid_of_holds hb (by simp [hpc]))
  · rw [hbuf]
    exact ⟨(hs.ok b').valid, (hs.ok b').locked⟩

end

end Inv

theorem Step.inv (h : Step s p s') (hs : Inv s) : Inv s' := by
  have hplace := hs.place p
  cases h with
  | stop msg => exact ⟨hs.handles, hs.circle, hs.lock, hs.place, hs.owns, hs.ready, hs.ok⟩
  | move hlock hplace' hready _ =>
    refine hs.moved ⟨.inl ⟨rfl, fun _ => rfl⟩, fun _ hh _ => hh, fun _ _ => Iff.rfl, fun _ _ => ⟨rfl, rfl, rfl⟩⟩ rfl
      hlock hs.handles hs.circle ?_ (fun _ hb => hs.owns hb) (fun b hb => .inl ?_) hs.ok
    · exact hplace'
    · obtain h | ⟨n, h⟩ := hs.ready hb
      · exact h
      · exact hready h
  | ref hpc hkey => exact hs.ref hpc hkey
  | recycle hpc hzero _ => exact hs.recycle hpc hzero
  | unref hpc => exact hs.unref hpc
  | @lock n b hpc hfree =>
    rw [hpc] at hplace
    have hno : ∀ q, ¬ s.holds q b := fun q h => by
      rw [Sys.holds, hfree] at h
      cases h
    refine hs.touch rfl rfl rfl rfl rfl rfl rfl (fun q h => absurd h (hno q)) (fun q h => (Option.some.inj h).symm)
      (by rw [hpc]; rfl) (by simp [hpc]) (fun _ => ?_) (fun _ => .inr ⟨n, rfl⟩) ⟨(hs.ok b).valid, nofun⟩
      ⟨hplace, ?_, ?_⟩
    · have hkey : (s.buf b).key = block n := hs.handles.key_eq _ hplace
      rw [Sys.has, hkey]
      exact hplace
    · simp [Sys.holds, Sys.goto, Sys.upd]
    · have hm : (s.buf b).modified = false := Bool.eq_false_iff.mpr fun h => (hs.ok b).locked h hfree
      simpa [Sys.goto, Sys.upd] using hm
  | @unlock b hpc =>
    rw [hpc] at hplace
    have hself : (((s.upd b fun x => { x with lock := none }).goto p (.brelse b .acquire)).buf b) =
        { s.buf b with lock := none } := update_self ..
    refine hs.touch rfl rfl rfl rfl rfl rfl rfl (Inv.mine hplace.1) nofun (by rw [hpc]; rfl) (by simp [hpc]) nofun
      nofun ⟨(hs.ok b).valid, fun hm => absurd hm (Bool.eq_false_iff.mp hplace.2)⟩ ⟨?_, ?_⟩
    · rw [Sys.has, hself]
      exact hs.owns hplace.1
    · rw [Sys.holds, hself]
      nofun
  | @modify b d hpc hb =>
    exact hs.touch_held rfl rfl rfl rfl rfl rfl rfl hb rfl (by rw [hpc]) (by simp [hpc])
      (hs.valid_of_holds hb (by simp [hpc])) trivial
  | @dirty b hpc =>
    rw [hpc] at hplace
    have hplace : s.holds p b := hplace
    refine hs.touch_held rfl rfl rfl rfl rfl rfl rfl hplace rfl (by rw [hpc]; rfl) (by simp [hpc])
      (hs.valid_of_holds hplace (by simp [hpc])) ⟨?_, ?_⟩
    · simpa [Sys.holds, Sys.goto, Sys.upd] using hplace
    · simp [Sys.goto, Sys.upd]
  | @read n b hpc hvalid =>
    rw [hpc] at hplace
    exact hs.touch_held rfl rfl rfl rfl rfl rfl rfl hplace.2.1 rfl (by rw [hpc]; rfl) (by simp [hpc]) rfl trivial
  | @write b hpc =>
    rw [hpc] at hplace
    exact hs.touch_held rfl rfl rfl rfl rfl rfl rfl hplace.1 rfl (by rw [hpc]; rfl) (by simp [hpc]) rfl trivial
  | @log b hpc =>
    rw [hpc] at hplace
    refine hs.touch_held rfl rfl rfl rfl rfl rfl rfl hplace rfl (by rw [hpc]; rfl) (by simp [hpc])
      (hs.valid_of_holds hplace (by simp [hpc])) ?_
    simpa [Place, Sys.holds, Sys.goto, Sys.logDirty, Sys.upd] using hplace

/-! ## Coherence -/

/-- The buffers and the disk hold what was stored. -/
structure Coherent (s : Sys ι D) : Prop where
  data : ∀ {b n}, (s.buf b).key = block n → (s.buf b).valid = true → (s.buf b).modified = false →
    (s.buf b).data = s.stored n
  disk : ∀ {n}, (∀ b, (s.buf b).key = block n → (s.buf b).dirty = false) → s.disk n = s.stored n

namespace Coherent

variable {s s' : Sys ι D} {p : ι} {b : Slot} {n : ℕ}

omit [DecidableEq ι] in
theorem upd (hc : Coherent s) {x : Buf ι D} (hbuf : s'.buf = update s.buf b x)
    (hdisk : s'.disk = s.disk) (hstored : s'.stored = s.stored) (hkey : x.key = (s.buf b).key)
    (hdata : ∀ {n}, (s.buf b).key = block n → x.valid = true → x.modified = false → x.data = s.stored n)
    (hdirty : (s.buf b).dirty = true → x.dirty = true) : Coherent s' := by
  have hself : s'.buf b = x := by rw [hbuf, update_self]
  have hother : ∀ {b'}, b' ≠ b → s'.buf b' = s.buf b' := fun h => by rw [hbuf, update_of_ne h]
  refine ⟨fun {b' n} hk hv hm => ?_, fun {n} hd => ?_⟩
  · rw [hstored]
    by_cases hb : b' = b
    · subst hb
      rw [hself] at hk hv hm ⊢
      exact hdata (hkey ▸ hk) hv hm
    · rw [hother hb] at hk hv hm ⊢
      exact hc.data hk hv hm
  · rw [hdisk, hstored]
    refine hc.disk fun b' hk => ?_
    by_cases hb : b' = b
    · subst hb
      have hx := hd b' (by rw [hself, hkey, hk])
      rw [hself] at hx
      exact Bool.eq_false_iff.mpr fun h => by rw [hdirty h] at hx; cases hx
    · have hx := hd b'
      rw [hother hb] at hx
      exact hx hk

omit [DecidableEq ι] in
/-- The data of the only buffer for a block is stored: the buffer is dirty, or the disk has the data too. -/
theorem store (hc : Coherent s) {x : Buf ι D} (hbuf : s'.buf = update s.buf b x)
    (hkey : (s.buf b).key = block n) (huniq : ∀ {b'}, (s.buf b').key = block n → b' = b)
    (hxkey : x.key = (s.buf b).key) (hstored : s'.stored = update s.stored n x.data)
    (hdisk : x.dirty = true ∧ s'.disk = s.disk ∨ s'.disk = update s.disk n x.data) : Coherent s' := by
  have hself : s'.buf b = x := by rw [hbuf, update_self]
  have hother : ∀ {b'}, b' ≠ b → s'.buf b' = s.buf b' := fun h => by rw [hbuf, update_of_ne h]
  have hxn : ∀ {m}, x.key = block m → m = n := by
    intro m hm
    rw [hxkey, hkey] at hm
    cases hm
    rfl
  -- another block than the one that is stored
  have hrest : ∀ {m}, m ≠ n → (∀ b', (s'.buf b').key = block m → (s'.buf b').dirty = false) →
      s.disk m = s.stored m := by
    intro m hm hd
    refine hc.disk fun b' hk => ?_
    have hb : b' ≠ b := by
      rintro rfl
      exact hm (hxn (hxkey.trans hk))
    have hd := hd b'
    rw [hother hb] at hd
    exact hd hk
  refine ⟨fun {b' m} hk hv hm => ?_, fun {m} hd => ?_⟩
  · rw [hstored]
    by_cases hb : b' = b
    · subst hb
      rw [hself] at hk ⊢
      rw [hxn hk, update_self]
    · rw [hother hb] at hk hv hm ⊢
      have hne : m ≠ n := fun h => hb (huniq (h ▸ hk))
      rw [update_of_ne hne]
      exact hc.data hk hv hm
  · rw [hstored]
    obtain ⟨hdirty, hdisk⟩ | hdisk := hdisk
    · have hne : m ≠ n := by
        rintro rfl
        have hx := hd b (by rw [hself, hxkey, hkey])
        rw [hself, hdirty] at hx
        cases hx
      rw [hdisk, update_of_ne hne]
      exact hrest hne hd
    · by_cases hm : m = n
      · rw [hdisk, hm, update_self, update_self]
      · rw [hdisk, update_of_ne hm, update_of_ne hm]
        exact hrest hm hd

theorem recycle (hc : Coherent s) (hclean : (s.buf b).dirty = false) {a : Pc} :
    Coherent (s.recycle p b (block n) a) := by
  have hself : (s.recycle p b (block n) a).buf b =
      { s.buf b with key := block n, valid := false, dirty := false, refcnt := 1 } := update_self ..
  have hother : ∀ {b'}, b' ≠ b → (s.recycle p b (block n) a).buf b' = s.buf b' :=
    fun hb => update_of_ne hb ..
  refine ⟨fun {b' m} hk hv hm => ?_, fun {m} hd => hc.disk fun b' hk => ?_⟩
  · by_cases hb : b' = b
    · rw [hb, hself] at hv
      cases hv
    · rw [hother hb] at hk hv hm ⊢
      exact hc.data hk hv hm
  · by_cases hb : b' = b
    · rw [hb, hclean]
    · have hd := hd b'
      rw [hother hb] at hd
      exact hd hk

end Coherent

omit [DecidableEq ι] in
theorem Inv.key_of_holds {b : Slot} (hs : Inv s) (hb : s.holds p b) :
    (s.buf b).key = block (s.buf b).key.blockno := by
  have hdev : (s.buf b).key.dev = ROOTDEV := hs.handles.live_of_mem (hs.owns hb)
  rw [block, ← hdev]

omit [DecidableEq ι] in
theorem Inv.only {b b' : Slot} (hs : Inv s) (hb : s.holds p b)
    (hk : (s.buf b').key = block (s.buf b).key.blockno) : b' = b := by
  have hk' : (s.buf b').key = (s.buf b).key := hk.trans (hs.key_of_holds hb).symm
  have hdev : (s.buf b').key.dev = ROOTDEV := by rw [hk]
  exact hs.handles.uniq hdev (hs.handles.live_of_mem (hs.owns hb)) hk'

theorem Step.coherent (h : Step s p s') (hs : Inv s) (hc : Coherent s) : Coherent s' := by
  have hplace := hs.place p
  cases h with
  | stop msg => exact ⟨hc.data, hc.disk⟩
  | move => exact ⟨hc.data, hc.disk⟩
  | @ref n b => exact hc.upd (b := b) rfl rfl rfl rfl hc.data id
  | recycle hpc hzero hclean => exact hc.recycle hclean
  | @unref b => exact hc.upd (b := b) rfl rfl rfl rfl hc.data id
  | @lock n b => exact hc.upd (b := b) rfl rfl rfl rfl hc.data id
  | @unlock b => exact hc.upd (b := b) rfl rfl rfl rfl hc.data id
  | @modify b => exact hc.upd (b := b) rfl rfl rfl rfl nofun id
  | @dirty b hpc => exact hc.upd (b := b) rfl rfl rfl rfl hc.data fun _ => rfl
  | @read n b hpc hvalid =>
    -- the buffer is the only one for the block, and it is not dirty
    rw [hpc] at hplace
    have hdirty : (s.buf b).dirty = false :=
      Bool.eq_false_iff.mpr fun h => Bool.eq_false_iff.mp hvalid ((hs.ok b).valid h)
    refine hc.upd (b := b) rfl rfl rfl rfl (fun {m} hk _ _ => ?_) id
    have hm : (s.buf b).key.blockno = m := by rw [hk]
    rw [← hm]
    exact hc.disk fun b' hk' => hs.only hplace.2.1 hk' ▸ hdirty
  | @write b hpc =>
    rw [hpc] at hplace
    exact hc.store rfl (hs.key_of_holds hplace.1) (hs.only hplace.1) rfl rfl (.inr rfl)
  | @log b hpc =>
    rw [hpc] at hplace
    exact hc.store rfl (hs.key_of_holds hplace) (hs.only hplace) rfl rfl (.inl ⟨rfl, rfl⟩)

/-! ## Runs -/

/-- What is stored after a step: at the end of `log_write` and of `bwrite`, the data of the buffer. -/
def Sys.nextStored (s : Sys ι D) (p : ι) : ℕ → D :=
  match s.pc p with
  | .logWrite b .dirty | .bwrite b .iderw => update s.stored (s.buf b).key.blockno (s.buf b).data
  | _ => s.stored

section
variable {s s' : Sys ι D} {p : ι} {b : Slot} {n : ℕ}

omit [DecidableEq ι] in
theorem not_lost_upd {b' : Slot} {x : Buf ι D}
    (h : (s'.buf b).key ≠ (s.buf b).key ∨ (s.buf b).valid = true ∧ (s'.buf b).valid = false)
    (hbuf : s'.buf = update s.buf b' x) (hkey : x.key = (s.buf b').key)
    (hvalid : (s.buf b').valid = true → x.valid = true) : False := by
  rw [hbuf] at h
  by_cases hb : b = b'
  · subst hb
    rw [update_self] at h
    obtain h | ⟨hv, hv'⟩ := h
    · exact h hkey
    · rw [hvalid hv] at hv'
      cases hv'
  · rw [update_of_ne hb] at h
    obtain h | ⟨hv, hv'⟩ := h
    · exact h rfl
    · rw [hv] at hv'
      cases hv'

/-- A buffer that gets another block, or loses its data, has no references and is not dirty. -/
theorem Step.recycled (h : Step s p s')
    (hb : (s'.buf b).key ≠ (s.buf b).key ∨ (s.buf b).valid = true ∧ (s'.buf b).valid = false) :
    (s.buf b).refcnt = 0 ∧ (s.buf b).dirty = false := by
  cases h with
  | stop | move =>
    obtain h | ⟨hv, hv'⟩ := hb
    · exact absurd rfl h
    · exact absurd hv (Bool.eq_false_iff.mp hv')
  | @recycle n b' hpc hzero hclean =>
    by_cases heq : b = b'
    · exact heq ▸ ⟨hzero, hclean⟩
    · have hsame : (s.recycle p b' (block n) (.bget n (.release b'))).buf b = s.buf b := update_of_ne heq ..
      rw [hsame] at hb
      obtain h | ⟨hv, hv'⟩ := hb
      · exact absurd rfl h
      · exact absurd hv (Bool.eq_false_iff.mp hv')
  | ref | unref | lock | unlock | modify | dirty | log => exact (not_lost_upd hb rfl rfl id).elim
  | read | write => exact (not_lost_upd hb rfl rfl fun _ => rfl).elim

theorem Step.stored (h : Step s p s') (hpanic : s'.panic = none) : s'.stored = s.nextStored p := by
  cases h with
  | stop msg => cases hpanic
  | move _ _ _ hno =>
    unfold Sys.nextStored
    split
    · next hpc => exact absurd hpc (hno _).1
    · next hpc => exact absurd hpc (hno _).2
    · rfl
  | ref hpc | recycle hpc | unref hpc | lock hpc | unlock hpc | modify hpc | dirty hpc | read hpc | write hpc
    | log hpc =>
    rw [Sys.nextStored, hpc]
    rfl

/-- `bread` returns the buffer locked, with what was stored last in the block. It panics only if the
disk has no such block. -/
theorem Inv.bread_returns (hs : Inv s) (hc : Coherent s) (hp : s.pc p = .bread n b) :
    s.disksize ≤ n ∧ (s.bread p b).panic = some "iderw: block out of range" ∨
      (s.bread p b).pc p = .idle ∧ (s.bread p b).panic = s.panic ∧ (s.bread p b).holds p b ∧
        ((s.bread p b).buf b).key = block n ∧ ((s.bread p b).buf b).data = (s.bread p b).stored n := by
  have hplace := hs.place p
  rw [hp] at hplace
  obtain ⟨hmem, hb, hm⟩ := hplace
  have hkey : (s.buf b).key = block n := hs.handles.key_eq _ hmem
  unfold Sys.bread
  split
  · next hvalid => exact .inr ⟨update_self .., rfl, hb, hkey, hc.data hkey hvalid hm⟩
  · next hvalid =>
    have hdirty : ¬ (s.buf b).dirty = true := fun h => hvalid ((hs.ok b).valid h)
    have hdev : ¬ (s.buf b).key.dev ≠ 1 := by simp [hkey, ROOTDEV]
    have hblock : (s.buf b).key.blockno = n := by rw [hkey]
    simp only [Sys.iderw, hb, not_true_eq_false, if_false, hvalid, Bool.false_eq_true, false_and, hdev,
      hblock, hdirty]
    split
    · next hsize => exact .inl ⟨hsize, rfl⟩
    · have hself : ((s.diskRead b).goto p .idle).buf b =
          { s.buf b with data := s.disk (s.buf b).key.blockno, valid := true } := update_self ..
      refine .inr ⟨update_self .., rfl, ?_, ?_, ?_⟩
      · rw [Sys.holds, hself]
        exact hb
      · rw [hself, hkey]
      · rw [hself, hblock]
        -- the only buffer for the block is this one
        refine hc.disk fun b' hk => ?_
        have hb' : b' = b := hs.only hb (by rw [hblock, hk])
        rw [hb']
        exact Bool.eq_false_iff.mpr hdirty

end

variable {disk : ℕ → D} {disksize : ℕ} {zero : D} {size : ℤ} {s : Sys ι D}

/-- Steps of any processes, in any order, from an empty cache. What a process modifies it stores before `brelse`. -/
abbrev Reached (disk : ℕ → D) (disksize : ℕ) (zero : D) (size : ℤ) (s : Sys ι D) : Prop :=
  Run Sys.exec Sys.Stores (init ι disk disksize zero size) s

omit [DecidableEq ι] in
theorem inv_init : Inv (init ι disk disksize zero size) := by
  refine ⟨⟨fun _ => rfl, nofun, fun b hb => absurd hb (Int.lt_irrefl 0), fun hb => by cases hb⟩, ?_,
    fun p => iff_of_false nofun nofun, fun p => trivial, nofun, nofun, fun b => ⟨nofun, nofun⟩⟩
  refine ⟨(List.finRange NBUF).reverse ++ [], Links.Circle.empty.foldl_pushFront
    (List.nodup_finRange _) nofun, fun b => ?_⟩
  simp

omit [DecidableEq ι] in
theorem coherent_init : Coherent (init ι disk disksize zero size) :=
  ⟨fun _ hv => absurd hv Bool.false_ne_true, fun _ => rfl⟩

theorem Reached.inv (h : Reached disk disksize zero size s) : Inv s ∧ Coherent s := by
  refine h.invariant (I := fun s => Inv s ∧ Coherent s) ⟨inv_init, coherent_init⟩ fun s l s' hs hstores hx => ?_
  have hstep := hs.1.step hstores hx
  exact ⟨hstep.inv hs.1, hstep.coherent hs.1 hs.2⟩

/-- At most one buffer is for a block, the list is a circle through all the buffers, and a step takes the
block or the data from a buffer only if it has no references and is not dirty. A buffer that `bread` has
locked is returned, with what `log_write` or `bwrite` stored last in the block. -/
theorem bcache_of_run (h : Reached disk disksize zero size s) :
    (∀ b b' n, (s.buf b).key = block n → (s.buf b').key = block n → b = b') ∧
    (∃ l, s.links.Circle l ∧ l.Perm (List.finRange NBUF)) ∧
    (∀ p x s', s.Stores (p, x) → s.exec (p, x) = some s' →
      (∀ b, (s'.buf b).key ≠ (s.buf b).key ∨ (s.buf b).valid = true ∧ (s'.buf b).valid = false →
        (s.buf b).refcnt = 0 ∧ (s.buf b).dirty = false) ∧ (s'.panic = none → s'.stored = s.nextStored p)) ∧
    ∀ p n b, s.pc p = .bread n b → s.panic = none → ∃ s', s.exec (p, .go) = some s' ∧
      (s.disksize ≤ n ∧ s'.panic = some "iderw: block out of range" ∨
        s'.pc p = .idle ∧ s'.panic = none ∧ s'.holds p b ∧ (s'.buf b).key = block n ∧
          (s'.buf b).data = s'.stored n) := by
  obtain ⟨hs, hc⟩ := h.inv
  refine ⟨fun b b' n hb hb' => ?_, ?_, fun p x s' hstores hx => ?_, fun p n b hp hpanic => ?_⟩
  · exact hs.handles.uniq (by rw [hb]) (by rw [hb']) (by rw [hb, hb'])
  · obtain ⟨l, hl, hall⟩ := hs.circle
    refine ⟨l, hl, (List.perm_ext_iff_of_nodup hl.nodup (List.nodup_finRange _)).mpr fun b => ?_⟩
    exact iff_of_true (hall b) (List.mem_finRange b)
  · have hstep := hs.step hstores hx
    exact ⟨fun b hb => hstep.recycled hb, hstep.stored⟩
  · refine ⟨s.bread p b, ?_, ?_⟩
    · simp [Sys.exec, hpanic, hp, Sys.go]
    · exact hpanic ▸ hs.bread_returns hc hp

instance (s : Sys ι D) : (l : ι × Call D) → Decidable (s.Stores l)
  | (p, .brelse b) => inferInstanceAs (Decidable (s.holds p b → (s.buf b).modified = false))
  | (_, .go) | (_, .bread _) | (_, .modify ..) | (_, .logWrite _) | (_, .bwrite _) |
      (_, .setLog ..) => .isTrue trivial

/-- `bcache.buf[0]`, the buffer at the end of the list -/
def lastBuf : Slot := ⟨0, by decide⟩

/-- A process stores 7 in block 5, in a transaction. Then another one reads the block. -/
def readBack : List (Bool × Call ℕ) :=
  [(false, .setLog [] 1), (false, .bread 5)] ++ List.replicate 36 (false, .go) ++
    [(false, .modify lastBuf 7), (false, .logWrite lastBuf)] ++ List.replicate 5 (false, .go) ++
    [(false, .brelse lastBuf)] ++ List.replicate 5 (false, .go) ++
    [(true, .bread 5)] ++ List.replicate 4 (true, .go)

theorem bcache_of_run_readBack :
    ∃ s : Sys Bool ℕ, Reached (fun _ => 0) 10 0 30 s ∧ s.stored 5 = 7 ∧ s.pc true = .bread 5 lastBuf ∧
      ∃ s', s.exec (true, .go) = some s' ∧ s'.holds true lastBuf ∧ (s'.buf lastBuf).data = s'.stored 5 := by
  have hrun : (Run.execAll (fun s l => if s.Stores l then s.exec l else none) (init Bool (fun _ => 0) 10 0 30)
      readBack).any (fun s => decide (s.stored 5 = 7 ∧ s.pc true = .bread 5 lastBuf ∧ s.panic = none ∧ s.disksize = 10)) =
      true := by
    decide +kernel
  obtain ⟨s, hs, hc⟩ := Run.exists_run hrun
  obtain ⟨hstored, hpc, hpanic, hsize⟩ := of_decide_eq_true hc
  have hs : Reached (fun _ => 0) 10 0 30 s := hs.of_checked
  obtain ⟨s', hx, ⟨hle, -⟩ | ⟨-, -, hb, -, hdata⟩⟩ := (bcache_of_run hs).2.2.2 true 5 lastBuf hpc hpanic
  · rw [hsize] at hle
    exact absurd hle (by decide)
  · exact ⟨s, hs, hstored, hpc, s', hx, hb, hdata⟩

end Xv6.Bcache

import Xv6.Lib.Monitor
import Xv6.Lib.RingBuffer
import Xv6.Mmu

/-!
# Pipes

`pipewrite`, `piperead` and `pipeclose` of `pipe.c`, as the program of a monitor: `p->lock` is the lock of
the data, and the channels are `&p->nread` and `&p->nwrite`. A record that the program does not read says
what was stored and by whom, what was taken, and which calls have returned.
-/

namespace Xv6.Pipe

open Monitor

variable {ι : Type}

/-- A call of `pipewrite(p, src, n)` that has returned, after it had stored `count` bytes. -/
structure Write (ι : Type) where
  proc : ι
  src : Bytes
  result : Int
  count : ℕ

/-- `struct pipe`, and what was done with it. -/
structure Data (ι : Type) where
  ring : RingBuffer 32 PIPESIZE Byte
  readopen : Bool
  writeopen : Bool
  stored : List (ι × Byte)
  taken : Bytes
  writes : List (Write ι)
  /-- What each `piperead` that did not fail has returned. -/
  reads : List Bytes

inductive Chan where
  | nread
  | nwrite
  deriving DecidableEq

/-- The statements under `p->lock`; `i` counts the bytes of `src` that were stored, and `fresh` says whether
there are any since the last `wakeup(&p->nread)`. -/
inductive Stmt where
  | writeTest (src : Bytes) (i : ℕ) (fresh : Bool)
  | writeFull (src : Bytes) (i : ℕ) (fresh : Bool)
  | writeSleep (src : Bytes) (i : ℕ)
  | writeStore (src : Bytes) (i : ℕ) (fresh : Bool)
  | writeWakeup (src : Bytes) (i : ℕ)
  | writeRelease (src : Bytes) (i : ℕ)
  | readEmpty (n : ℕ)
  | readCopy (n : ℕ) (got : Bytes)
  | readWakeup (got : Bytes)
  | readRelease (got : Bytes)
  | closeFlag (writable : Bool)
  | closeWakeup (writable : Bool)
  | closeTest (writable : Bool)
  deriving DecidableEq

def Data.store (d : Data ι) (p : ι) (b : Byte) : Data ι :=
  { d with ring := d.ring.push b, stored := d.stored ++ [(p, b)] }

def Data.take (d : Data ι) : Data ι :=
  { d with ring := d.ring.pop, taken := d.taken ++ [d.ring.head] }

def Data.wrote (d : Data ι) (w : Write ι) : Data ι := { d with writes := d.writes ++ [w] }

def Data.read (d : Data ι) (got : Bytes) : Data ι := { d with reads := d.reads ++ [got] }

def Data.close (d : Data ι) : Bool → Data ι
  | true => { d with writeopen := false }
  | false => { d with readopen := false }

def act (p : ι) (killed : Bool) (d : Data ι) : Stmt → Action (Data ι) Stmt Unit Chan
  -- pipewrite
  | .writeTest src i fresh =>
    if i < src.length then .run d (.writeFull src i fresh) else .run d (.writeWakeup src i)
  | .writeFull src i fresh =>
    if d.ring.isFull then
      if d.readopen = false ∨ killed = true then .leave (d.wrote ⟨p, src, -1, i⟩) ()
      else .wakeup .nread (.writeSleep src i)
    else .run d (.writeStore src i fresh)
  | .writeSleep src i => .sleep .nwrite (.writeFull src i false)
  | .writeStore src i _ => .run (d.store p (src.getD i 0)) (.writeTest src (i + 1) true)
  | .writeWakeup src i => .wakeup .nread (.writeRelease src i)
  | .writeRelease src i => .leave (d.wrote ⟨p, src, src.length, i⟩) ()
  -- piperead
  | .readEmpty n =>
    if d.ring.isEmpty ∧ d.writeopen = true then
      if killed then .leave d () else .sleep .nread (.readEmpty n)
    else .run d (.readCopy n [])
  | .readCopy n got =>
    if got.length < n ∧ ¬ d.ring.isEmpty then .run d.take (.readCopy n (got ++ [d.ring.head]))
    else .run d (.readWakeup got)
  | .readWakeup got => .wakeup .nwrite (.readRelease got)
  | .readRelease got => .leave (d.read got) ()
  -- pipeclose; the page is freed when both ends are closed
  | .closeFlag writable => .run (d.close writable) (.closeWakeup writable)
  | .closeWakeup writable => .wakeup (if writable then .nread else .nwrite) (.closeTest writable)
  | .closeTest _ => .leave d ()

/-- The first statements. -/
def call (_ : Unit) : Stmt → Bool
  | .writeTest _ i fresh => i == 0 && !fresh
  | .readEmpty _ | .closeFlag _ => true
  | _ => false

def code (ι : Type) : Code ι (Data ι) Stmt Unit Chan where
  act := act
  call := call

abbrev Sys (ι : Type) : Type := Monitor.Sys ι (Data ι) Stmt Unit Chan

/-- After `pipealloc`; the page holds anything. -/
def pipealloc (ι : Type) (data : Fin PIPESIZE → Byte) : Data ι where
  ring := ⟨data, 0, 0⟩
  readopen := true
  writeopen := true
  stored := []
  taken := []
  writes := []
  reads := []

def init (ι : Type) (data : Fin PIPESIZE → Byte) : Sys ι := .start (pipealloc ι data) ()

/-- What a statement can do. -/
inductive Acts (p : ι) (k : Bool) (d : Data ι) : Stmt → Action (Data ι) Stmt Unit Chan → Prop
  | more {src i fresh} (hi : i < src.length) :
    Acts p k d (.writeTest src i fresh) (.run d (.writeFull src i fresh))
  | all {src i fresh} (hi : src.length ≤ i) : Acts p k d (.writeTest src i fresh) (.run d (.writeWakeup src i))
  | giveUp {src i fresh} (hfull : d.ring.isFull) (h : d.readopen = false ∨ k = true) :
    Acts p k d (.writeFull src i fresh) (.leave (d.wrote ⟨p, src, -1, i⟩) ())
  | full {src i fresh} (hfull : d.ring.isFull) (hopen : d.readopen = true) :
    Acts p k d (.writeFull src i fresh) (.wakeup .nread (.writeSleep src i))
  | room {src i fresh} (hroom : ¬ d.ring.isFull) :
    Acts p k d (.writeFull src i fresh) (.run d (.writeStore src i fresh))
  | writeSleep {src i} : Acts p k d (.writeSleep src i) (.sleep .nwrite (.writeFull src i false))
  | store {src i fresh} : Acts p k d (.writeStore src i fresh)
    (.run (d.store p (src.getD i 0)) (.writeTest src (i + 1) true))
  | writeWakeup {src i} : Acts p k d (.writeWakeup src i) (.wakeup .nread (.writeRelease src i))
  | writeRelease {src i} : Acts p k d (.writeRelease src i) (.leave (d.wrote ⟨p, src, src.length, i⟩) ())
  | killed {n} (hempty : d.ring.isEmpty) : Acts p k d (.readEmpty n) (.leave d ())
  | empty {n} (hempty : d.ring.isEmpty) (hopen : d.writeopen = true) :
    Acts p k d (.readEmpty n) (.sleep .nread (.readEmpty n))
  | begin {n} (h : ¬ (d.ring.isEmpty ∧ d.writeopen = true)) :
    Acts p k d (.readEmpty n) (.run d (.readCopy n []))
  | copy {n got} (hne : ¬ d.ring.isEmpty) :
    Acts p k d (.readCopy n got) (.run d.take (.readCopy n (got ++ [d.ring.head])))
  | stop {n got} : Acts p k d (.readCopy n got) (.run d (.readWakeup got))
  | readWakeup {got} : Acts p k d (.readWakeup got) (.wakeup .nwrite (.readRelease got))
  | readRelease {got} : Acts p k d (.readRelease got) (.leave (d.read got) ())
  | closeFlag {w} : Acts p k d (.closeFlag w) (.run (d.close w) (.closeWakeup w))
  | closeWakeup {w} : Acts p k d (.closeWakeup w) (.wakeup (if w then .nread else .nwrite) (.closeTest w))
  | closeTest {w} : Acts p k d (.closeTest w) (.leave d ())

theorem acts (p : ι) (k : Bool) (d : Data ι) (l : Stmt) : Acts p k d l (act p k d l) := by
  cases l with
  | writeTest src i fresh =>
    simp only [act]
    split
    · next hi => exact .more hi
    · next hi => exact .all (not_lt.mp hi)
  | writeFull src i fresh =>
    simp only [act]
    split
    · next hfull =>
      split
      · next h => exact .giveUp hfull h
      · next h => exact .full hfull (Bool.not_eq_false _ ▸ (not_or.mp h).1)
    · next hroom => exact .room hroom
  | readEmpty n =>
    simp only [act]
    split
    · next h =>
      split
      · exact .killed h.1
      · exact .empty h.1 h.2
    · next h => exact .begin h
  | readCopy n got =>
    simp only [act]
    split
    · next h => exact .copy h.2
    · exact .stop
  | writeSleep => exact .writeSleep
  | writeStore => exact .store
  | writeWakeup => exact .writeWakeup
  | writeRelease => exact .writeRelease
  | readWakeup => exact .readWakeup
  | readRelease => exact .readRelease
  | closeFlag => exact .closeFlag
  | closeWakeup => exact .closeWakeup
  | closeTest => exact .closeTest

variable {p : ι} {k : Bool} {d d' : Data ι} {l : Stmt}

theorem acts_of_eq {x : Action (Data ι) Stmt Unit Chan}
    (h : act p k d l = x) : Acts p k d l x := h ▸ acts p k d l

/-! ## First in, first out -/

/-- All bytes that were stored, in order. -/
def Data.bytes (d : Data ι) : Bytes := d.stored.map Prod.snd

/-- What the call of a process has stored so far. -/
def Stmt.current : Stmt → Bytes
  | .writeTest src i _ | .writeFull src i _ | .writeSleep src i | .writeStore src i _ | .writeWakeup src i
  | .writeRelease src i => src.take i
  | _ => []

/-- What the call of a process has taken so far. -/
def Stmt.got : Stmt → Bytes
  | .readCopy _ got | .readWakeup got | .readRelease got => got
  | _ => []

/-- The ring holds what was stored and not yet taken. -/
def Data.Fifo (d : Data ι) : Prop := ∃ xs, d.bytes = d.taken ++ xs ∧ d.ring.Queue xs

/-- A call that did not fail has stored everything. -/
def Data.Done (d : Data ι) : Prop :=
  ∀ w ∈ d.writes, w.result = -1 ∨ w.result = w.src.length ∧ w.count = w.src.length

variable [DecidableEq ι]

/-- The bytes that process `p` has stored, in order. -/
def Data.byProc (d : Data ι) (p : ι) : Bytes :=
  d.stored.filterMap fun x => if x.1 = p then some x.2 else none

/-- The bytes that the finished calls of process `p` have stored. -/
def Data.finished (d : Data ι) (p : ι) : Bytes :=
  d.writes.flatMap fun w => if w.proc = p then w.src.take w.count else []

omit [DecidableEq ι] in
theorem Data.Fifo.store (h : d.Fifo) (p : ι) (b : Byte) (hroom : ¬ d.ring.isFull) : (d.store p b).Fifo := by
  obtain ⟨xs, hbytes, hq⟩ := h
  have hlt : xs.length < PIPESIZE :=
    lt_of_le_of_ne hq.length_le fun h => hroom ((hq.isFull_iff (by decide)).mpr h)
  refine ⟨xs ++ [b], ?_, hq.push (by decide) hlt b⟩
  show List.map Prod.snd (d.stored ++ [(p, b)]) = d.taken ++ (xs ++ [b])
  rw [List.map_append, ← List.append_assoc, ← hbytes]
  rfl

omit [DecidableEq ι] in
theorem Data.Fifo.take (h : d.Fifo) (hne : ¬ d.ring.isEmpty) : d.take.Fifo := by
  obtain ⟨xs, hbytes, hq⟩ := h
  cases xs with
  | nil => exact absurd ((hq.isEmpty_iff (by decide)).mpr rfl) hne
  | cons x xs =>
    refine ⟨xs, ?_, hq.pop⟩
    show d.bytes = (d.taken ++ [d.ring.head]) ++ xs
    rw [hbytes, hq.head_eq]
    simp

theorem Data.byProc_store (d : Data ι) (p q : ι) (b : Byte) :
    (d.store p b).byProc q = d.byProc q ++ if p = q then [b] else [] := by
  show List.filterMap _ (d.stored ++ [(p, b)]) = _
  by_cases hpq : p = q <;> simp [hpq, Data.byProc]

theorem Data.finished_wrote (d : Data ι) (w : Write ι) (q : ι) :
    (d.wrote w).finished q = d.finished q ++ if w.proc = q then w.src.take w.count else [] := by
  show List.flatMap _ (d.writes ++ [w]) = _
  rw [List.flatMap_append]
  simp [Data.finished]

variable {w : Write ι}

omit [DecidableEq ι] in
theorem Data.Done.wrote (h : d.Done)
    (hw : w.result = -1 ∨ w.result = w.src.length ∧ w.count = w.src.length) : (d.wrote w).Done := by
  intro w' hw'
  obtain hold | hnew := List.mem_append.mp hw'
  · exact h w' hold
  · rwa [List.mem_singleton.mp hnew]

/-- What the statement needs. -/
def Stmt.Here (d : Data ι) : Stmt → Prop
  | .writeTest src i _ => i ≤ src.length
  | .writeFull src i _ => i < src.length
  | .writeSleep src i => i < src.length ∧ d.ring.isFull ∧ d.readopen = true
  | .writeStore src i _ => i < src.length ∧ ¬ d.ring.isFull
  | .writeWakeup src i | .writeRelease src i => i = src.length
  | _ => True

/-- Where a process enters the lock: at the first statement of a call, or after `sleep`. -/
def Stmt.Entry : Stmt → Prop
  | .writeTest _ i _ => i = 0
  | .writeFull src i _ => i < src.length
  | .readEmpty _ | .closeFlag _ => True
  | _ => False

/-- Beside the bytes of its finished calls, process `p` has stored `cur`. -/
def Data.Own (d : Data ι) (p : ι) (cur : Bytes) : Prop := d.byProc p = d.finished p ++ cur

structure Free (d : Data ι) : Prop where
  fifo : d.Fifo
  done : d.Done
  reads : d.taken = d.reads.flatten

structure Inside (p : ι) (l : Stmt) (d : Data ι) : Prop where
  fifo : d.Fifo
  done : d.Done
  reads : d.taken = d.reads.flatten ++ l.got
  own : d.Own p l.current
  here : l.Here d

def Outside (p : ι) (x : Unit ⊕ Stmt) (d : Data ι) : Prop :=
  match x with
  | .inl _ => d.Own p []
  | .inr l => d.Own p l.current ∧ l.Entry

/-- The pipe is as it was for everybody but `p`. -/
def Others (p : ι) (d d' : Data ι) : Prop :=
  ∀ q, q ≠ p → d'.byProc q = d.byProc q ∧ d'.finished q = d.finished q

theorem Others.outside (h : Others p d d') (q : ι) (x : Unit ⊕ Stmt)
    (hq : q ≠ p) (hx : Outside q x d) : Outside q x d' := by
  have hown : ∀ cur, d.Own q cur → d'.Own q cur := by
    intro cur hcur
    obtain ⟨hby, hfin⟩ := h q hq
    unfold Data.Own
    rwa [hby, hfin]
  cases x with
  | inl _ => exact hown _ hx
  | inr l => exact ⟨hown _ hx.1, hx.2⟩

theorem Others.refl (p : ι) (d : Data ι) : Others p d d := fun _ _ => ⟨rfl, rfl⟩

theorem others_store (p : ι) (d : Data ι) (b : Byte) : Others p d (d.store p b) := by
  intro q hq
  refine ⟨?_, rfl⟩
  rw [Data.byProc_store, if_neg (Ne.symm hq), List.append_nil]

theorem others_wrote (d : Data ι) (w : Write ι) : Others w.proc d (d.wrote w) := by
  intro q hq
  refine ⟨rfl, ?_⟩
  rw [Data.finished_wrote, if_neg (Ne.symm hq), List.append_nil]

theorem others_close (p : ι) (d : Data ι) (w : Bool) : Others p d (d.close w) := by
  cases w <;> exact fun _ _ => ⟨rfl, rfl⟩

theorem Data.Own.wrote (h : d.Own w.proc (w.src.take w.count)) : (d.wrote w).Own w.proc [] := by
  show d.byProc w.proc = _
  rw [Data.finished_wrote, if_pos rfl, List.append_nil]
  exact h

theorem Data.Own.store {src : Bytes} {i : ℕ} (h : d.Own p (src.take i))
    (hi : i < src.length) : (d.store p (src.getD i 0)).Own p (src.take (i + 1)) := by
  show (d.store p _).byProc p = d.finished p ++ _
  have hby : d.byProc p = d.finished p ++ src.take i := h
  have hget : src.getD i 0 = src[i] := by simp [hi]
  rw [Data.byProc_store, if_pos rfl, hby, hget, List.take_succ_eq_append_getElem hi, List.append_assoc]

section
variable {p : ι} {k : Bool} {d d' : Data ι} {l l' : Stmt} {c : Chan} {o : Unit}

theorem Inside.free (h : Inside p l d) (hgot : l.got = []) : Free d where
  fifo := h.fifo
  done := h.done
  reads := by
    have hreads := h.reads
    rwa [hgot, List.append_nil] at hreads

theorem Inside.run (h : Inside p l d) (hact : Acts p k d l (.run d' l')) : Inside p l' d' ∧ Others p d d' := by
  cases hact with
  | more hi => exact ⟨⟨h.fifo, h.done, h.reads, h.own, hi⟩, .refl p d⟩
  | all hi => exact ⟨⟨h.fifo, h.done, h.reads, h.own, le_antisymm h.here hi⟩, .refl p d⟩
  | room hroom => exact ⟨⟨h.fifo, h.done, h.reads, h.own, h.here, hroom⟩, .refl p d⟩
  | store =>
    obtain ⟨hi, hroom⟩ := h.here
    exact ⟨⟨h.fifo.store p _ hroom, h.done, h.reads, h.own.store hi, hi⟩, others_store p d _⟩
  | copy hne =>
    next n got =>
    refine ⟨⟨h.fifo.take hne, h.done, ?_, h.own, trivial⟩, fun _ _ => ⟨rfl, rfl⟩⟩
    show d.taken ++ [d.ring.head] = d.reads.flatten ++ (got ++ [d.ring.head])
    rw [h.reads, ← List.append_assoc]
    rfl
  | begin | stop => exact ⟨⟨h.fifo, h.done, h.reads, h.own, trivial⟩, .refl p d⟩
  | closeFlag =>
    next w =>
    refine ⟨?_, others_close p d w⟩
    cases w <;> exact ⟨h.fifo, h.done, h.reads, h.own, trivial⟩

theorem Inside.sleep (h : Inside p l d) (hact : Acts p k d l (.sleep c l')) :
    Free d ∧ Outside p (.inr l') d := by
  cases hact with
  | writeSleep => exact ⟨h.free rfl, h.own, h.here.1⟩
  | empty => exact ⟨h.free rfl, h.own, trivial⟩

theorem Inside.wakeup (h : Inside p l d) (hact : Acts p k d l (.wakeup c l')) : Inside p l' d := by
  cases hact with
  | full hfull hopen => exact ⟨h.fifo, h.done, h.reads, h.own, h.here, hfull, hopen⟩
  | writeWakeup => exact ⟨h.fifo, h.done, h.reads, h.own, h.here⟩
  | readWakeup | closeWakeup => exact ⟨h.fifo, h.done, h.reads, h.own, trivial⟩

theorem Inside.wrote {w : Write ι} (h : Inside w.proc l d) (hgot : l.got = [])
    (hcur : l.current = w.src.take w.count)
    (hw : w.result = -1 ∨ w.result = w.src.length ∧ w.count = w.src.length) :
    Free (d.wrote w) ∧ Outside w.proc (.inl o) (d.wrote w) ∧ Others w.proc d (d.wrote w) := by
  have hown := h.own
  rw [hcur] at hown
  exact ⟨⟨h.fifo, h.done.wrote hw, (h.free hgot).reads⟩, hown.wrote, others_wrote d w⟩

theorem Inside.leave (h : Inside p l d) (hact : Acts p k d l (.leave d' o)) :
    Free d' ∧ Outside p (.inl o) d' ∧ Others p d d' := by
  cases hact with
  | giveUp =>
    next src i fresh _ _ => exact Inside.wrote (w := ⟨p, src, -1, i⟩) h rfl rfl (.inl rfl)
  | writeRelease =>
    next src i => exact Inside.wrote (w := ⟨p, src, src.length, i⟩) h rfl rfl (.inr ⟨rfl, h.here⟩)
  | killed | closeTest => exact ⟨h.free rfl, h.own, .refl p d⟩
  | readRelease =>
    next got =>
    refine ⟨⟨h.fifo, h.done, ?_⟩, h.own, fun _ _ => ⟨rfl, rfl⟩⟩
    show d.taken = (d.reads ++ [got]).flatten
    rw [h.reads, List.flatten_append]
    simp [Stmt.got]

end

/-- The rule for the data, whatever the guard. -/
def rule (G : Guard ι (Data ι) Stmt Unit Chan) : Rule (code ι) G where
  free := Free
  inside := Inside
  outside := Outside
  call := by
    intro p o l d hcall hout
    cases l with
    | writeTest src i fresh =>
      have hi : i = 0 := by simpa [code, call] using (Bool.and_eq_true_iff.mp hcall).1
      refine ⟨?_, hi⟩
      subst hi
      exact hout
    | readEmpty | closeFlag => exact ⟨hout, trivial⟩
    | _ => cases hcall
  enter := by
    intro p l d hfree hout
    have hreads : d.taken = d.reads.flatten ++ [] := by
      rw [List.append_nil, hfree.reads]
    cases l with
    | writeTest src i fresh =>
      refine ⟨hfree.fifo, hfree.done, hreads, hout.1, ?_⟩
      rw [show i = 0 from hout.2]
      exact Nat.zero_le _
    | writeFull | readEmpty | closeFlag => exact ⟨hfree.fifo, hfree.done, hreads, hout.1, hout.2⟩
    | _ => cases hout.2
  run _ hin hact := (hin.run (acts_of_eq hact)).imp_right Others.outside
  sleep _ hin hact := hin.sleep (acts_of_eq hact)
  wakeup _ hin hact := hin.wakeup (acts_of_eq hact)
  leave _ hin hact := (hin.leave (acts_of_eq hact)).imp_right (.imp_right Others.outside)

/-- What the call that a process is in has stored so far. -/
def current (s : Sys ι) (p : ι) : Bytes := (s.pc p).place.elim (fun _ => []) Stmt.current

variable {G : Guard ι (Data ι) Stmt Unit Chan} {s : Sys ι}

theorem own_of_inv (hs : (rule G).Inv s) (p : ι) : s.data.Own p (current s p) := by
  have hknows := hs.holds p
  unfold current
  cases hpc : s.pc p with
  | inside | wakeAcquire | wakeScan | wakeRelease =>
    rw [hpc] at hknows
    exact hknows.own
  | sleepAcquire | sleepRelease =>
    rw [hpc] at hknows
    exact hknows.2.1
  | enter | sleepSet | sleepSched | asleep | woken | resumed =>
    rw [hpc] at hknows
    exact hknows.1
  | out | killAcquire | killScan | killRelease =>
    rw [hpc] at hknows
    exact hknows

theorem inv_init (G : Guard ι (Data ι) Stmt Unit Chan) (data : Fin PIPESIZE → Byte) :
    (rule G).Inv (init ι data) := by
  refine Rule.inv_start ⟨⟨[], rfl, RingBuffer.queue_nil rfl⟩, nofun, rfl⟩ fun _ => ?_
  exact rfl

variable {data : Fin PIPESIZE → Byte}

/-- What was taken is a prefix of what was stored, the rest is in the buffer, every process has stored the
bytes of its calls in order, a call that returned `n` has stored all of them, and what was taken is what the
calls of `piperead` have returned. -/
theorem fifo_of_run (h : Run (Monitor.Sys.exec (code ι)) (fun _ _ => True) (init ι data) s) :
    s.data.taken <+: s.data.bytes ∧
    s.data.bytes = s.data.taken ++ s.data.ring.content ∧ s.data.ring.content.length ≤ PIPESIZE ∧
    (∀ p, s.data.byProc p = s.data.finished p ++ current s p) ∧
    (∀ w ∈ s.data.writes, w.result = -1 ∨ w.result = w.src.length ∧ w.count = w.src.length) ∧
    (s.lock = false → s.data.taken = s.data.reads.flatten) := by
  have hs : (rule Guard.none).Inv s := Rule.sound (inv_init _ data) (h.mono fun _ _ _ => guarded_none)
  obtain ⟨xs, hbytes, hq⟩ : s.data.Fifo := hs.always Free.fifo fun _ _ => Inside.fifo
  have hdone : s.data.Done := hs.always Free.done fun _ _ => Inside.done
  have hcontent : s.data.ring.content = xs := hq.content_eq (by decide)
  rw [hcontent]
  exact ⟨⟨xs, hbytes.symm⟩, hbytes, hq.length_le, own_of_inv hs, hdone, fun hlock => (hs.free hlock).reads⟩

/-- Process `false` writes two bytes, and process `true` reads as many as it can. -/
def writeThenRead : List (Label Bool Stmt) :=
  [.proc false (.call (.writeTest [1, 2] 0 false))] ++ List.replicate 13 (.proc false .go) ++
  [.proc true (.call (.readEmpty 5))] ++ List.replicate 10 (.proc true .go)

theorem fifo_of_run_writeThenRead :
    ∃ s, Run (Monitor.Sys.exec (code Bool)) (fun _ _ => True) (init Bool fun _ => 0) s ∧
      s.data.reads = [[1, 2]] ∧ s.data.ring.content = [] := by
  have hx : (Run.execAll (Monitor.Sys.exec (code Bool)) (init Bool fun _ => 0) writeThenRead).any
      fun s => decide (s.data.reads = [[1, 2]] ∧ s.data.bytes = [1, 2] ∧ s.lock = false) := by
    decide +kernel
  obtain ⟨s, hrun, hs⟩ := Run.exists_run hx
  obtain ⟨hreads, hbytes, hlock⟩ := of_decide_eq_true hs
  obtain ⟨-, hcontent, -, -, -, htaken⟩ := fifo_of_run hrun
  rw [hbytes, htaken hlock, hreads] at hcontent
  exact ⟨s, hrun, hreads, by simpa using hcontent⟩

/-! ## Sleepers -/

/-- Which end a call is about, and whether it closes it. -/
structure Use where
  writable : Bool
  closes : Bool
  deriving DecidableEq

def Stmt.use : Stmt → Use
  | .readEmpty _ | .readCopy .. | .readWakeup _ | .readRelease _ => ⟨false, false⟩
  | .closeFlag w | .closeWakeup w | .closeTest w => ⟨w, true⟩
  | _ => ⟨true, false⟩

def Data.isOpen (d : Data ι) : Bool → Bool
  | true => d.writeopen
  | false => d.readopen

/-- A process that calls `piperead` or `pipewrite` has an open file, and the last one when `fileclose` calls
`pipeclose`. -/
def Used (s : Sys ι) (l : Stmt) : Prop :=
  s.data.isOpen l.use.writable = true ∧
  ∀ q, ∀ y ∈ (s.pc q).kind Stmt.use, y.writable = l.use.writable → l.use.closes = false ∧ y.closes = false

/-- The calls that are made. -/
def used : Guard ι (Data ι) Stmt Unit Chan where
  call s _ l := Used s l
  act _ _ _ _ := True

/-- The process tests whether the pipe is full, and has stored bytes since its last wakeup. -/
def Stmt.fresh : Stmt → Bool
  | .writeFull _ _ fresh => fresh
  | _ => false

/-- A process that has stored bytes without a wakeup finds the pipe full only while it is not killed. -/
def announced : Guard ι (Data ι) Stmt Unit Chan where
  call s _ l := Used s l
  act _ killed d l := l.fresh = true → d.ring.isFull → killed = false

/-- Who sleeps on `&p->nread` waits for a writer of an empty pipe, and who sleeps on `&p->nwrite` waits for
a reader of a full one. -/
def NoStranded (s : Sys ι) : Prop :=
  s.lock = false → ∀ p, ((s.pc p).chan = some .nread → s.data.ring.isEmpty ∧ s.data.writeopen = true) ∧
    ((s.pc p).chan = some .nwrite → s.data.ring.isFull ∧ s.data.readopen = true)

def stay (d : Data ι) : Chan → Prop
  | .nread => d.ring.isEmpty ∧ d.writeopen = true ∨ d.readopen = false
  | .nwrite => d.ring.isFull ∧ d.readopen = true

def owes : Stmt → Chan → Prop
  | .writeTest _ _ fresh, .nread | .writeFull _ _ fresh, .nread | .writeStore _ _ fresh, .nread => fresh = true
  | .writeWakeup .., .nread | .closeWakeup true, .nread => True
  | .readCopy .., .nwrite | .readWakeup _, .nwrite | .closeWakeup false, .nwrite => True
  | _, _ => False

def slept : Chan → Stmt → Prop
  | .nread, l => ∃ n, l = .readEmpty n
  | .nwrite, l => ∃ src i fresh, l = .writeFull src i fresh

section
variable {p : ι} {k : Bool} {d d' : Data ι} {l l' : Stmt} {c : Chan} {o : Unit}

section

omit [DecidableEq ι]

theorem stay_run (hhere : l.Here d) (hact : Acts p k d l (.run d' l')) (h : stay d c ∨ owes l c) :
    stay d' c ∨ owes l' c := by
  cases hact with
  | more | room => cases c <;> exact h
  | all =>
    cases c with
    | nread => exact .inr trivial
    | nwrite => exact h
  | begin | stop =>
    cases c with
    | nread => exact h
    | nwrite => exact .inr trivial
  | store =>
    cases c with
    | nread => exact .inr rfl
    | nwrite => exact absurd (h.resolve_right id).1 hhere.2
  | copy hne =>
    cases c with
    | nread => exact .inl (.inr ((h.resolve_right id).resolve_left fun h => hne h.1))
    | nwrite => exact .inr trivial
  | closeFlag =>
    next w =>
    have hstay := h.resolve_right id
    cases w with
    | true =>
      cases c with
      | nread => exact .inr trivial
      | nwrite => exact .inl hstay
    | false =>
      cases c with
      | nread => exact .inl (.inr rfl)
      | nwrite => exact .inr trivial

theorem stay_sleep (hhere : l.Here d) (hact : Acts p k d l (.sleep c l')) :
    slept c l' ∧ stay d c ∧ ∀ c', ¬ owes l c' := by
  cases hact with
  | writeSleep => exact ⟨⟨_, _, _, rfl⟩, hhere.2, fun c' => by cases c' <;> exact id⟩
  | empty hempty hopen => exact ⟨⟨_, rfl⟩, .inl ⟨hempty, hopen⟩, fun c' => by cases c' <;> exact id⟩

theorem owes_wakeup {c' : Chan} (hact : Acts p k d l (.wakeup c l')) (h : owes l c') : c' = c := by
  cases hact with
  | full | writeWakeup | readWakeup =>
    cases c' with
    | nread => first | rfl | exact h.elim
    | nwrite => first | rfl | exact h.elim
  | closeWakeup =>
    next w => cases w <;> cases c' <;> first | rfl | exact h.elim

theorem stay_leave (hg : l.fresh = true → d.ring.isFull → k = false)
    (hact : Acts p k d l (.leave d' o)) (h : stay d c ∨ owes l c) : stay d' c := by
  cases hact with
  | giveUp hfull hor =>
    next src i fresh =>
    obtain hstay | howe := h
    · cases c <;> exact hstay
    · cases c with
      | nread =>
        have hk := hg howe hfull
        rw [hk] at hor
        exact .inr (hor.resolve_right nofun)
      | nwrite => exact howe.elim
  | writeRelease | killed | readRelease | closeTest =>
    cases c <;> exact h.resolve_right id

end

end

def waits (ι : Type) [DecidableEq ι] : Waits (rule (announced (ι := ι))) where
  stay c d := stay d c
  slept := slept
  owes l c _ := owes l c
  run _ hin hact := stay_run hin.here (acts_of_eq hact)
  sleep _ hin hact := by
    obtain ⟨hslept, hstay, howes⟩ := stay_sleep hin.here (acts_of_eq hact)
    exact ⟨hslept, hstay, fun c' h => (howes c' h).elim⟩
  wakeup _ _ hact howe := .inl (owes_wakeup (acts_of_eq hact) howe)
  leave hg _ hact := stay_leave hg (acts_of_eq hact)

/-! ## Who has which end -/

section

omit [DecidableEq ι]

theorem keeps_use : (code ι).Keeps Stmt.use where
  run := by
    intro p k d l d' l' hact
    cases acts_of_eq hact <;> rfl
  sleep := by
    intro p k d l c l' hact
    cases acts_of_eq hact <;> rfl
  wakeup := by
    intro p k d l c l' hact
    cases acts_of_eq hact <;> rfl

theorem isOpen_run {l' : Stmt} (hact : Acts p k d l (.run d' l')) :
    (∀ w, d'.isOpen w = d.isOpen w) ∨ ∃ w, l.use = ⟨w, true⟩ ∧ d' = d.close w := by
  cases hact with
  | closeFlag => exact .inr ⟨_, rfl, rfl⟩
  | _ => exact .inl fun w => by cases w <;> rfl

theorem isOpen_leave {o : Unit}
    (hact : Acts p k d l (.leave d' o)) (w : Bool) : d'.isOpen w = d.isOpen w := by
  cases hact <;> cases w <;> rfl

theorem isOpen_close {w w' : Bool} (h : w' ≠ w) : (d.close w).isOpen w' = d.isOpen w' := by
  cases w <;> cases w' <;> first | rfl | exact absurd rfl h

end

/-- Nobody else is in a call on an end while it is being closed, or after. -/
structure Ends (s : Sys ι) : Prop where
  sole : ∀ {p q x y}, p ≠ q → (s.pc p).kind Stmt.use = some x → (s.pc q).kind Stmt.use = some y →
    x.closes = true → y.writable ≠ x.writable
  closed : ∀ {p x}, (s.pc p).kind Stmt.use = some x → s.data.isOpen x.writable = false → x.closes = true

theorem Ends.step {t : Sys ι} (hG : ∀ p l, G.call s p l → Used s l)
    (hs : Ends s) (h : Step (code ι) G s t) : Ends t := by
  cases h.kinds keeps_use with
  | call hg hd hkind =>
    next p l =>
    obtain ⟨hopen, hothers⟩ := hG p l hg
    refine ⟨fun {q r x y} hqr hx hy hcloses hw => ?_, fun {q x} hx hclosed => ?_⟩
    · rw [hkind] at hx hy
      split at hx
      · next hq =>
        cases hx
        rw [if_neg (by rintro rfl; exact hqr hq)] at hy
        exact absurd hcloses (by simp [(hothers r y hy hw).1])
      · next hq =>
        split at hy
        · cases hy
          exact absurd hcloses (by simp [(hothers q x hx hw.symm).2])
        · exact hs.sole hqr hx hy hcloses hw
    · rw [hkind] at hx
      rw [hd] at hclosed
      split at hx
      · cases hx
        rw [hopen] at hclosed
        cases hclosed
      · exact hs.closed hx hclosed
  | run hp hact hkind =>
    next p l l' =>
    refine ⟨fun hqr hx hy => hs.sole hqr (hkind _ ▸ hx) (hkind _ ▸ hy), fun {q x} hx hclosed => ?_⟩
    rw [hkind] at hx
    obtain hsame | ⟨w, huse, hd⟩ := isOpen_run (acts_of_eq hact.2)
    · exact hs.closed hx ((hsame _).symm.trans hclosed)
    · rw [hd] at hclosed
      have hpkind : (s.pc p).kind Stmt.use = some ⟨w, true⟩ := by
        rw [hp, ← huse]
        rfl
      by_cases hq : p = q
      · subst hq
        rw [hpkind] at hx
        cases hx
        rfl
      · have hne : x.writable ≠ w := hs.sole hq hpkind hx rfl
        rw [isOpen_close hne] at hclosed
        exact hs.closed hx hclosed
  | leave hp hact hkind =>
    have hold : ∀ {q x}, (t.pc q).kind Stmt.use = some x → (s.pc q).kind Stmt.use = some x := by
      intro q x hx
      rw [hkind] at hx
      exact (Option.ite_none_left_eq_some.mp hx).2
    refine ⟨fun hqr hx hy => hs.sole hqr (hold hx) (hold hy), fun hx hclosed => hs.closed (hold hx) ?_⟩
    rwa [isOpen_leave (acts_of_eq hact.2)] at hclosed
  | same hd hkind =>
    refine ⟨fun hqr hx hy => hs.sole hqr (hkind _ ▸ hx) (hkind _ ▸ hy), fun hx hclosed => ?_⟩
    exact hs.closed (hkind _ ▸ hx) (hd ▸ hclosed)

omit [DecidableEq ι] in
theorem ends_init (data : Fin PIPESIZE → Byte) : Ends (init ι data) where
  sole _ hx := absurd hx.symm (Option.some_ne_none _)
  closed hx := absurd hx.symm (Option.some_ne_none _)

/-- As long as no process is killed that has stored bytes without a wakeup and finds the pipe full, nobody
sleeps in vain. -/
theorem noStranded_of_run
    (h : Run (Monitor.Sys.exec (code ι)) (Monitor.Sys.Guarded announced) (init ι data) s) : NoStranded s := by
  have hs : (rule announced).Inv s := Rule.sound (inv_init _ data) h
  have hwaits : (waits ι).Inv s := Waits.sound Waits.inv_start (inv_init _ data) h
  have hends : Ends s := h.invariant (ends_init data) fun _ _ _ hs hg hx =>
    hs.step (fun _ _ => id) (step_of_exec hg hx)
  intro hfree p
  refine ⟨fun hchan => ?_, fun hchan => hwaits.stay hs hfree hchan⟩
  have hstay : stay s.data .nread := hwaits.stay hs hfree hchan
  refine hstay.resolve_right fun hclosed => ?_
  -- a process in `piperead` has the read end open
  obtain ⟨l, hplace, n, rfl⟩ := hwaits.slept hchan
  have hkind : (s.pc p).kind Stmt.use = some ⟨false, false⟩ := by
    rw [Pc.kind, hplace]
    rfl
  cases hends.closed hkind hclosed

instance (s : Sys (Fin 3)) (l : Stmt) : Decidable (Used s l) := inferInstanceAs (Decidable (_ ∧ _))

instance (s : Sys (Fin 3)) (p : Fin 3) (l : Stmt) : Decidable (used.call s p l) :=
  inferInstanceAs (Decidable (Used s l))

instance (p : Fin 3) (k : Bool) (d : Data (Fin 3)) (l : Stmt) : Decidable (used.act p k d l) := isTrue trivial

instance (s : Sys (Fin 3)) (p : Fin 3) (l : Stmt) : Decidable (announced.call s p l) :=
  inferInstanceAs (Decidable (Used s l))

instance (p : Fin 3) (k : Bool) (d : Data (Fin 3)) (l : Stmt) : Decidable (announced.act p k d l) :=
  inferInstanceAs (Decidable (_ → _))

/-- Process 0 sleeps in `piperead`. -/
def sleepingReader : List (Label (Fin 3) Stmt) :=
  [.proc 0 (.call (.readEmpty 1))] ++ List.replicate 6 (.proc 0 .go) ++ [.schedRelease]

/-- Then process 1 fills the pipe, is killed by process 2, and gives up. -/
def killedWriter : List (Label (Fin 3) Stmt) :=
  sleepingReader ++
  [.proc 1 (.call (.writeTest (List.replicate 513 0) 0 false))] ++ List.replicate 1538 (.proc 1 .go) ++
  [.proc 2 (.kill 1)] ++ List.replicate 3 (.proc 2 .go) ++ [.proc 1 .go]

theorem noStranded_of_run_sleepingReader :
    ∃ s, Run (Monitor.Sys.exec (code (Fin 3))) (Monitor.Sys.Guarded announced) (init (Fin 3) fun _ => 0) s ∧
      (s.pc 0).chan = some .nread ∧ s.lock = false ∧ NoStranded s := by
  have hx : (Run.execAll (fun s i => if s.Guarded announced i then Monitor.Sys.exec (code (Fin 3)) s i else none)
      (init (Fin 3) fun _ => 0) sleepingReader).any
      fun s => decide ((s.pc 0).chan = some .nread ∧ s.lock = false) := by decide +kernel
  obtain ⟨s, hrun, hs⟩ := Run.exists_run hx
  obtain ⟨hchan, hlock⟩ := of_decide_eq_true hs
  exact ⟨s, .of_checked hrun, hchan, hlock, noStranded_of_run (.of_checked hrun)⟩

/-- A reader sleeps although the pipe is full. -/
theorem stranded_killedWriter :
    ∃ s, Run (Monitor.Sys.exec (code (Fin 3))) (Monitor.Sys.Guarded used) (init (Fin 3) fun _ => 0) s ∧
      ¬ NoStranded s := by
  have hx : (Run.execAll (fun s i => if s.Guarded used i then Monitor.Sys.exec (code (Fin 3)) s i else none)
      (init (Fin 3) fun _ => 0) killedWriter).any
      fun s => decide (s.lock = false ∧ (s.pc 0).chan = some .nread ∧ ¬ s.data.ring.isEmpty) := by
    decide +kernel
  obtain ⟨s, hrun, hs⟩ := Run.exists_run hx
  obtain ⟨hlock, hchan, hne⟩ := of_decide_eq_true hs
  exact ⟨s, .of_checked hrun, fun h => hne ((h hlock 0).1 hchan).1⟩

end Xv6.Pipe

import Xv6.Image
import Xv6.Lib.Interleave
import Xv6.Lib.Threads

/-!
# Writing through one open file

Any number of processes call `filewrite` on one `struct file`. A call writes its bytes in chunks, each in a
transaction of its own, and the inode is locked from before the offset is read until after it is moved. So a
chunk goes where the last one ended, whoever wrote that.

One step is one statement of `filewrite`, one turn of the loop of `writei`, or one call into the log or on
the lock. The bytes of a call are those in user memory when the call is made.
-/

namespace Xv6.SharedFile

export Store (BSIZE NDIRECT NINDIRECT MAXFILE)
open Function (update update_self update_of_ne update_eq_self)
open Store Hoare Interleave
open Calls (oneFile mkfsSb consistent_oneFile)

/-- The local variables of a call of `filewrite`. -/
structure Frame where
  /-- The number of the call. -/
  call : Nat
  /-- The `n` bytes at `addr`. -/
  addr : Bytes
  i : Nat
  deriving DecidableEq

def Frame.n1 (f : Frame) : Nat := min (f.addr.length - f.i) maxWrite

/-- The `n1` bytes at `addr + i`. -/
def Frame.chunk (f : Frame) : Bytes := (f.addr.drop f.i).take f.n1

/-- The next statement. -/
inductive Place where
  /-- `while(i < n)` -/
  | loop
  | beginOp
  | ilock
  /-- `writei(f->ip, addr + i, f->off, n1)` is entered. -/
  | enter
  /-- The loop of `writei`, with `src` to be written from `off` on. -/
  | turn (off : Nat) (src : Bytes)
  /-- After the loop. -/
  | size (off : Nat)
  /-- `f->off += r` -/
  | advance (r : Option Nat)
  | iunlock (r : Option Nat)
  | endOp (r : Option Nat)
  | check (r : Option Nat)
  deriving DecidableEq

inductive Pc where
  /-- Not in a call. -/
  | user
  | filewrite (f : Frame) (a : Place)
  | stopped (f : Frame) (e : Store.Stop)
  deriving DecidableEq

/-- The inode layer, the offset of the open file and the processes; the calls that were made, the chunks
that were written, and what the calls returned. -/
structure Sys (ι : Type) where
  disk : Disk
  off : Nat
  pc : ι → Pc
  calls : List Bytes
  written : List (Nat × Bytes)
  returned : List (Nat × Option Nat)

inductive Label (ι : Type) where
  /-- A process calls `filewrite` with the bytes `addr`. -/
  | call (p : ι) (addr : Bytes)
  /-- A process in a call goes on. -/
  | go (p : ι)

section Code
variable (sb : Superblock) (ip : Nat) {ι : Type} [DecidableEq ι]

/-- The body of the loop of `writei`. It returns by how much to go on. -/
def writeTurn (off : Nat) (src : Bytes) : DiskM Nat := do
  let b ← bmap sb ip (off / BSIZE)
  let m := min src.length (BSIZE - off % BSIZE)
  modify fun s => s.setBlock b (putBytes (s.blocks b) (off % BSIZE) (src.take m))
  pure m

/-- The end of `writei`. -/
def writeSize (n off : Nat) : DiskM (Option Nat) := do
  let s ← get
  if 0 < n ∧ (s.icache ip).copy.size < off then do
    modify fun s => s.updCopy ip fun d => { d with size := off }
    iupdate ip
    pure (some n)
  else
    pure (some n)

def Sys.moveTo (s : Sys ι) (p : ι) (c : Pc) : Sys ι := { s with pc := update s.pc p c }

/-- After an operation on inodes. A process that finds the lock taken waits. -/
def Sys.after {α : Type} (s : Sys ι) (p : ι) (f : Frame) (next : α → Place) :
    EStateM.Result Store.Stop Disk α → Option (Sys ι)
  | .ok x d => some { s with disk := d, pc := update s.pc p (.filewrite f (next x)) }
  | .error .deadlock _ => none
  | .error e d => some { s with disk := d, pc := update s.pc p (.stopped f e) }

/-- The call returns. -/
def Sys.return (s : Sys ι) (p : ι) (f : Frame) : Sys ι :=
  { s with
    pc := update s.pc p .user
    returned := s.returned ++ [(f.call, if f.i = f.addr.length then some f.addr.length else none)] }

def Sys.go (s : Sys ι) (p : ι) (f : Frame) : Place → Option (Sys ι)
  | .loop =>
    if f.i < f.addr.length then some (s.moveTo p (.filewrite f .beginOp)) else some (s.return p f)
  | .beginOp => some (s.moveTo p (.filewrite f .ilock))
  | .ilock => s.after p f (fun _ => .enter) (Store.ilock ip s.disk)
  | .enter =>
    let c := (s.disk.icache ip).copy
    if c.type = T_DEV then
      some (s.moveTo p (if c.major = CONSOLE then .stopped f .device else .filewrite f (.advance none)))
    else if c.size < s.off ∨ (s.off + f.n1) % 2 ^ 32 < s.off then
      some (s.moveTo p (.filewrite f (.advance none)))
    else if MAXFILE * BSIZE < (s.off + f.n1) % 2 ^ 32 then
      some (s.moveTo p (.filewrite f (.advance none)))
    else
      some (s.moveTo p (.filewrite f (.turn s.off f.chunk)))
  | .turn off src =>
    if src.length = 0 then
      some (s.moveTo p (.filewrite f (.size off)))
    else
      s.after p f (fun m => .turn (off + m) (src.drop m)) (writeTurn sb ip off src s.disk)
  | .size off =>
    (s.after p f .advance (writeSize ip f.n1 off s.disk)).map fun t =>
      { t with written := t.written ++ [(f.call, f.chunk)] }
  | .advance r =>
    some { s with
      off := (s.off + r.getD 0) % 2 ^ 32
      pc := update s.pc p (.filewrite f (.iunlock r)) }
  | .iunlock r => s.after p f (fun _ => .endOp r) (Store.iunlock ip s.disk)
  | .endOp r => some (s.moveTo p (.filewrite f (.check r)))
  | .check none => some (s.return p f) -- break
  | .check (some r) =>
    if r ≠ f.n1 then
      some (s.moveTo p (.stopped f (.panic "short filewrite")))
    else
      some (s.moveTo p (.filewrite { f with i := f.i + r } .loop))

def Sys.exec (s : Sys ι) : Label ι → Option (Sys ι)
  | .call p addr =>
    if s.pc p = .user then
      some { s with
        pc := update s.pc p (.filewrite ⟨s.calls.length, addr, 0⟩ .loop)
        calls := s.calls ++ [addr] }
    else
      none
  | .go p =>
    match s.pc p with
    | .filewrite f a => s.go sb ip p f a
    | _ => none

/-- An open file on an inode, before any of the calls. -/
def Sys.start (d : Disk) (off : Nat) : Sys ι where
  disk := d
  off := off
  pc _ := .user
  calls := []
  written := []
  returned := []

end Code

theorem maxWrite_pos : 0 < maxWrite := by decide

variable {l : Bytes}

theorem length_drop_lt {b : Byte} : ((b :: l).drop maxWrite).length < (b :: l).length := by
  have := maxWrite_pos
  rw [List.length_drop, List.length_cons]
  omega

/-- The bytes of a call in the chunks in which they are written. -/
def chunks : Bytes → List Bytes
  | [] => []
  | b :: l => (b :: l).take maxWrite :: chunks ((b :: l).drop maxWrite)
termination_by l => l.length
decreasing_by exact length_drop_lt

theorem chunks_nil : chunks [] = [] := by rw [chunks]

theorem chunks_of_ne_nil (h : l ≠ []) : chunks l = l.take maxWrite :: chunks (l.drop maxWrite) := by
  cases l with
  | nil => exact absurd rfl h
  | cons b l => rw [chunks]

theorem flatten_chunks (l : Bytes) : (chunks l).flatten = l := by
  fun_induction chunks l with
  | case1 => rfl
  | case2 b l ih => rw [List.flatten_cons, ih, List.take_append_drop]

theorem chunks_single (hne : l ≠ []) (hlen : l.length ≤ maxWrite) : chunks l = [l] := by
  rw [chunks_of_ne_nil hne, List.take_of_length_le hlen, List.drop_eq_nil_of_le hlen, chunks_nil]

theorem weight_chunks (l : Bytes) : weight List.length (chunks l) = l.length := by
  rw [weight, ← List.length_flatten, flatten_chunks]

theorem Frame.length_chunk {f : Frame} : f.chunk.length = f.n1 := by
  simp [Frame.chunk, Frame.n1]

theorem Frame.chunks_drop {f : Frame} (h : f.i < f.addr.length) :
    chunks (f.addr.drop f.i) = f.chunk :: chunks (f.addr.drop (f.i + f.n1)) := by
  have hne : f.addr.drop f.i ≠ [] := fun h0 => by
    rw [List.drop_eq_nil_iff] at h0
    omega
  have htake : (f.addr.drop f.i).take maxWrite = f.chunk := by
    rw [Frame.chunk, List.take_eq_take_iff, List.length_drop, Frame.n1]
    omega
  have hdrop : (f.addr.drop f.i).drop maxWrite = f.addr.drop (f.i + f.n1) := by
    rw [List.drop_drop, Frame.n1]
    by_cases hle : f.addr.length - f.i ≤ maxWrite
    · rw [List.drop_eq_nil_of_le (by omega), List.drop_eq_nil_of_le (by omega)]
    · rw [Nat.min_eq_right (by omega)]
  rw [chunks_of_ne_nil hne, htake, hdrop]

/-! ## The file between the chunks -/

section Data
variable {sb : Superblock} {ip : Nat} {content₀ : Bytes} {off₀ : Nat}

/-- The bytes of the chunks that were written. -/
def bytes (written : List (Nat × Bytes)) : Bytes := written.flatMap (·.2)

/-- The chunks are in the file one after the other from `off₀` on, and the offset is at their end. -/
structure Settled (sb : Superblock) (ip : Nat) (content₀ : Bytes) (off₀ : Nat) (d : Disk) (off : Nat)
    (written : List (Nat × Bytes)) : Prop where
  consistent : d.Consistent sb
  type : (d.inodes.node ip).type = T_FILE
  ref : 0 < d.inodes.ref ip
  content : (d.inodes.node ip).content = BlockArray.splice content₀ off₀ (bytes written)
  off : off = off₀ + (bytes written).length

variable {d d' : Disk} {off : Nat} {written : List (Nat × Bytes)}

theorem written_weight (written : List (Nat × Bytes)) :
    weight List.length (written.map (·.2)) = (bytes written).length := by
  rw [weight, bytes, List.length_flatMap, List.map_map]
  rfl

theorem jobs_weight (calls : List Bytes) :
    ((calls.map chunks).map (weight List.length)).sum = (calls.map List.length).sum := by
  rw [List.map_map]
  exact congrArg List.sum (List.map_congr_left fun l _ => weight_chunks l)

theorem node_of_type (h : (d.inode ip).type ≠ 0) :
    (d.inodes.node ip).type = (d.inode ip).type ∧ (d.inodes.node ip).content = d.content ip := by
  show (d.node ip).type = _ ∧ (d.node ip).content = _
  rw [Disk.node, if_neg h]
  exact ⟨rfl, rfl⟩

section
variable (h : Settled sb ip content₀ off₀ d off written)
include h

theorem Settled.of_nodes (hd : d'.Consistent sb)
    (hnode : d'.inodes.node = d.inodes.node) (href : d'.inodes.ref = d.inodes.ref) :
    Settled sb ip content₀ off₀ d' off written where
  consistent := hd
  type := by rw [hnode, h.type]
  ref := by rw [href]; exact h.ref
  content := by rw [hnode, h.content]
  off := h.off

theorem Settled.ilock (hlock : d.inodes.locked ip = false) :
    ∃ d', Store.ilock ip d = .ok () d' ∧ Settled sb ip content₀ off₀ d' off written ∧
      d'.inodes.locked ip = true ∧ d'.inodes.valid ip = true := by
  have hrun := Inodes.ilock_run h.ref hlock (by rw [h.type]; decide)
  obtain ⟨d', hd', hcons, hnodes⟩ | ⟨e, d', -, hlost⟩ :=
    (refined_ilock ip : Shown sb (fun _ _ => False) _ _).ok ⟨h.consistent, rfl⟩ hrun
  · refine ⟨d', hd', h.of_nodes hcons ?_ ?_, ?_, ?_⟩ <;> rw [hnodes]
    · rfl
    · rfl
    · simp
    · simp
  · exact hlost.elim

theorem Settled.iunlock (hlock : d.inodes.locked ip = true) :
    ∃ d', Store.iunlock ip d = .ok () d' ∧ Settled sb ip content₀ off₀ d' off written ∧
      d'.inodes.locked ip = false := by
  have hrun := Inodes.iunlock_run h.ref hlock
  obtain ⟨d', hd', hcons, hnodes⟩ | ⟨e, d', -, hlost⟩ :=
    (refined_iunlock ip : Shown sb (fun _ _ => False) _ _).ok ⟨h.consistent, rfl⟩ hrun
  · refine ⟨d', hd', h.of_nodes hcons ?_ ?_, ?_⟩ <;> rw [hnodes]
    · rfl
    · rfl
    · simp
  · exact hlost.elim

/-- With the inode in memory and room for the bytes, `writei` goes on to its loop. -/
structure Accepts (ip : Nat) (d : Disk) (off n : Nat) : Prop where
  type : (d.icache ip).copy.type ≠ T_DEV
  wraps : ¬ ((d.icache ip).copy.size < off ∨ (off + n) % 2 ^ 32 < off)
  fits : ¬ MAXFILE * BSIZE < (off + n) % 2 ^ 32

theorem Settled.accepts (hvalid : d.inodes.valid ip = true) (hoff₀ : off₀ ≤ content₀.length) {n : Nat}
    (hfits : off + n ≤ MAXFILE * BSIZE) : Accepts ip d off n := by
  obtain ⟨htype, -, hlen⟩ := h.consistent.tests hvalid
  have hmax : MAXFILE * BSIZE < 2 ^ 32 := by decide
  have hsize : off ≤ (d.icache ip).copy.size := by
    rw [← hlen, h.content, BlockArray.length_splice hoff₀, h.off]
    omega
  refine ⟨?_, ?_, ?_⟩
  · rw [← htype, h.type]
    decide
  · rw [Nat.mod_eq_of_lt (by omega)]
    omega
  · rw [Nat.mod_eq_of_lt (by omega)]
    omega

end

variable {src : Bytes}

theorem Accepts.writei {n : Nat} (h : Accepts ip d off n) (hn : src.length = n)
    (hloop : writeLoop sb ip n off src d = .ok () d') :
    Store.writei sb ip off src d = writeSize ip n (off + n) d' := by
  subst hn
  unfold Store.writei
  rw [bind_ok (get_run d), if_neg h.type, if_neg h.wraps, if_neg h.fits, bind_ok hloop]
  rfl

theorem Settled.writei (h : Settled sb ip content₀ off₀ d off written)
    (hvalid : d.inodes.valid ip = true) (hoff₀ : off₀ ≤ content₀.length)
    (hfits : off + src.length ≤ MAXFILE * BSIZE) {r : Option Nat}
    (hrun : Store.writei sb ip off src d = .ok r d') (k : Nat) :
    r = some src.length ∧ Settled sb ip content₀ off₀ d' (off + src.length) (written ++ [(k, src)]) ∧
      d'.inodes.locked = d.inodes.locked := by
  have hmax : MAXFILE * BSIZE < 2 ^ 32 := by decide
  have hlen : off ≤ (d.inodes.node ip).content.length := by
    rw [h.content, BlockArray.length_splice hoff₀, h.off]
    omega
  have hupper := Inodes.writei_run hvalid (by rw [h.type]; decide) hlen (hfits.trans_lt hmax)
  rw [if_neg (Nat.not_lt.mpr hfits)] at hupper
  obtain ⟨d'', hd'', hcons, hnodes⟩ | ⟨e, d'', he, -⟩ :=
    (refined_writei ip off src).ok ⟨h.consistent, rfl⟩ hupper
  · rw [hrun] at hd''
    injection hd'' with hr hd
    subst hr hd
    refine ⟨rfl, ⟨hcons, ?_, ?_, ?_, ?_⟩, by rw [hnodes]; rfl⟩
    · rw [hnodes]
      simpa using h.type
    · rw [hnodes]
      exact h.ref
    · rw [hnodes, bytes, List.flatMap_append, List.flatMap_singleton]
      simp only [Inodes.setNode_node, update_self]
      rw [h.content, h.off, BlockArray.splice_splice hoff₀]
      rfl
    · rw [h.off, bytes, bytes, List.flatMap_append, List.flatMap_singleton, List.length_append, Nat.add_assoc]
  · rw [hrun] at he
    cases he

/-! ## The loop of `writei`, one turn at a time -/

theorem writeLoop_turn (fuel : Nat) {m : Nat} (hsrc : src.length ≠ 0)
    (hturn : writeTurn sb ip off src d = .ok m d') :
    writeLoop sb ip (fuel + 1) off src d = writeLoop sb ip fuel (off + m) (src.drop m) d' ∧
      m = min src.length (BSIZE - off % BSIZE) := by
  unfold writeTurn at hturn
  obtain ⟨b, u, hb, hturn⟩ := bind_eq_ok.mp hturn
  obtain ⟨⟨⟩, v, hv, hturn⟩ := bind_eq_ok.mp hturn
  injection hturn with hm hd
  subst hm hd
  refine ⟨?_, rfl⟩
  rw [writeLoop, if_neg hsrc, bind_ok hb, bind_ok hv]

theorem writeLoop_nil (fuel : Nat) : writeLoop sb ip fuel off [] d = .ok () d := by
  cases fuel with
  | zero => rfl
  | succ fuel =>
    rfl

/-- Locks and reference counts are not touched by allocating blocks. -/
def SameCache (d : Disk) (s : Disk) : Prop :=
  s.inodes.locked = d.inodes.locked ∧ s.inodes.ref = d.inodes.ref

theorem sameCache_setAddr (s : Disk) (i : Nat) (k : Fin (NDIRECT + 1)) (b : Nat) :
    SameCache s (s.setAddr i k b) := by
  have hcache : ∀ j, ((s.setAddr i k b).icache j).locked = (s.icache j).locked ∧
      ((s.setAddr i k b).icache j).ref = (s.icache j).ref := by
    intro j
    show (update s.icache i _ j).locked = _ ∧ (update s.icache i _ j).ref = _
    by_cases hj : j = i
    · rw [hj, update_self]
      exact ⟨rfl, rfl⟩
    · rw [update_of_ne hj]
      exact ⟨rfl, rfl⟩
  exact ⟨funext fun j => (hcache j).1, funext fun j => (hcache j).2⟩

theorem SameCache.trans {s u : Disk} (h : SameCache d s) (h' : SameCache s u) : SameCache d u :=
  ⟨h'.1.trans h.1, h'.2.trans h.2⟩

theorem sameCache_balloc : Keeps (SameCache d) (fun _ => SameCache d) (balloc sb) := by
  refine .get fun s hs => ?_
  split
  · exact .throw fun _ => id
  · exact .bind ⟨fun _ _ => hs⟩ fun _ => .pure _

theorem sameCache_bmapAddr (k : Fin (NDIRECT + 1)) :
    Keeps (SameCache d) (fun _ => SameCache d) (bmapAddr sb ip k) := by
  refine .get fun s hs => .ite (fun _ => ?_) fun _ => .pure _
  exact .bind sameCache_balloc fun b => .bind
    (.modify fun u hu => hu.trans (sameCache_setAddr u ip k b)) fun _ => .pure _

theorem sameCache_writeTurn (src : Bytes) :
    Keeps (SameCache d) (fun _ => SameCache d) (writeTurn sb ip off src) := by
  refine .bind ?_ fun b => .update (fun _ => id) <| .pure _
  unfold bmap
  split
  · exact sameCache_bmapAddr _
  · refine .ite (fun _ => .bind (sameCache_bmapAddr _) fun a => ?_) fun _ => .throw fun _ => id
    refine .get fun s hs => .ite (fun _ => ?_) fun _ => .pure _
    exact .bind sameCache_balloc fun b => .update (fun _ => id) <| .pure _

end Data

/-! ## The invariant -/

/-- Between `ilock` and `iunlock`. -/
def Place.inside : Place → Bool
  | .enter | .turn .. | .size _ | .advance _ | .iunlock _ => true
  | _ => false

/-- The process has the lock, or has stopped with it. -/
def Pc.inside : Pc → Bool
  | .user => false
  | .filewrite _ a => a.inside
  | .stopped .. => true

/-- The chunk the process is at has been written. -/
def Place.past : Place → Bool
  | .advance _ | .iunlock _ | .endOp _ | .check _ => true
  | _ => false

/-- How far a call has come. -/
def Frame.done (f : Frame) (a : Place) : Nat := if a.past then f.i + f.n1 else f.i

/-- The call a process is in, and the chunks it has still to write. -/
def Pc.todo : Pc → Option (Nat × List Bytes)
  | .user => none
  | .filewrite f a => some (f.call, chunks (f.addr.drop (f.done a)))
  | .stopped f _ => some (f.call, chunks (f.addr.drop f.i))

/-- What a process knows of its own variables. -/
def Frame.Local (f : Frame) : Place → Prop
  | .loop => f.i ≤ f.addr.length
  | .advance r | .iunlock r | .endOp r | .check r => f.i < f.addr.length ∧ r = some f.n1
  | _ => f.i < f.addr.length

section Invariant
variable {ι : Type} (sb : Superblock) (ip : Nat) (content₀ : Bytes) (off₀ : Nat)

/-- The loop of `writei` has come from the disk `t` to the disk `d` and has `src` still to write. -/
def Underway (f : Frame) (off : Nat) (t d : Disk) (off' : Nat) (src : Bytes) : Prop :=
  off' + src.length = off + f.n1 ∧ ∃ fuel, src.length ≤ fuel ∧
    writeLoop sb ip f.n1 off f.chunk t = writeLoop sb ip fuel off' src d

/-- The disk from which a call of `writei` started. -/
structure Origin (d : Disk) (off n : Nat) (written : List (Nat × Bytes)) : Prop where
  settled : Settled sb ip content₀ off₀ d off written
  valid : d.inodes.valid ip = true
  locked : d.inodes.locked ip = true
  fits : off + n ≤ MAXFILE * BSIZE

/-- The file while a process has the lock. -/
def Critical (f : Frame) (d : Disk) (off : Nat) (written : List (Nat × Bytes)) : Place → Prop
  | .enter => Origin sb ip content₀ off₀ d off f.n1 written
  | .turn off' src =>
    ∃ t, Origin sb ip content₀ off₀ t off f.n1 written ∧ Underway sb ip f off t d off' src
  | .size off' =>
    ∃ t, Origin sb ip content₀ off₀ t off f.n1 written ∧ Underway sb ip f off t d off' []
  | .advance _ =>
    Settled sb ip content₀ off₀ d (off + f.n1) written ∧ off + f.n1 ≤ MAXFILE * BSIZE
  | .iunlock _ => Settled sb ip content₀ off₀ d off written
  | _ => True

structure Inv (s : Sys ι) : Prop where
  lock : Threads.Flag Pc.inside s.pc (s.disk.inodes.locked ip)
  ref : 0 < s.disk.inodes.ref ip
  /-- With nobody inside. -/
  settled : (∀ p, (s.pc p).inside = false) → Settled sb ip content₀ off₀ s.disk s.off s.written
  critical : ∀ p f a, s.pc p = .filewrite f a → Critical sb ip content₀ off₀ f s.disk s.off s.written a
  here : ∀ p f a, s.pc p = .filewrite f a → f.Local a ∧ s.calls[f.call]? = some f.addr
  jobs : Interleaving (s.calls.map chunks) s.written fun p => (s.pc p).todo
  returned : ∀ e ∈ s.returned, ∃ addr, s.calls[e.1]? = some addr ∧ e.2 = some addr.length

/-- The calls made so far fit into the file. -/
def Fits (off₀ : Nat) (s : Sys ι) : Prop :=
  off₀ + (s.calls.map List.length).sum ≤ MAXFILE * BSIZE

variable {sb ip content₀ off₀} {s t : Sys ι} {p : ι} {c : Pc} {f : Frame} {a : Place}
variable {off : Nat}

theorem critical_of_outside {d : Disk} {written : List (Nat × Bytes)}
    (ha : a.inside = false) : Critical sb ip content₀ off₀ f d off written a := by
  cases a <;> trivial

theorem Inv.room (h : Inv sb ip content₀ off₀ s) (hfits : Fits off₀ s)
    (hp : s.pc p = .filewrite f a) (ha : a.past = false) :
    off₀ + (bytes s.written).length + f.n1 ≤ MAXFILE * BSIZE := by
  have hdone : f.done a = f.i := by rw [Frame.done, ha, if_neg Bool.false_ne_true]
  have hle := h.jobs.weight_le List.length (p := p) (k := f.call)
    (show (s.pc p).todo = some (_, _) by rw [hp, Pc.todo])
  rw [jobs_weight, written_weight, weight_chunks, hdone, List.length_drop] at hle
  have hn1 : f.n1 ≤ f.addr.length - f.i := Nat.min_le_left _ _
  unfold Fits at hfits
  omega

variable [DecidableEq ι]

theorem todo_update (pc : ι → Pc) (p : ι) (c : Pc) :
    (fun q => (update pc p c q).todo) = update (fun q => (pc q).todo) p c.todo :=
  Function.comp_update Pc.todo pc p c

section Steps
variable (h : Inv sb ip content₀ off₀ s)
include h

theorem Inv.moved (hpc : t.pc = update s.pc p c)
    (hlock : Threads.Flag Pc.inside t.pc (t.disk.inodes.locked ip)) (href : 0 < t.disk.inodes.ref ip)
    (hdata : (t.disk = s.disk ∧ t.off = s.off ∧ t.written = s.written) ∨ ∀ q, q ≠ p → (s.pc q).inside = false)
    (hsettled : (∀ q, (t.pc q).inside = false) → Settled sb ip content₀ off₀ t.disk t.off t.written)
    (hc : ∀ f a, c = .filewrite f a → Critical sb ip content₀ off₀ f t.disk t.off t.written a ∧
      f.Local a ∧ t.calls[f.call]? = some f.addr)
    (hcalls : s.calls <+: t.calls)
    (hjobs : Interleaving (t.calls.map chunks) t.written
      (update (fun q => (s.pc q).todo) p c.todo))
    (hreturned : ∀ e ∈ t.returned, ∃ addr, t.calls[e.1]? = some addr ∧ e.2 = some addr.length) :
    Inv sb ip content₀ off₀ t where
  lock := hlock
  ref := href
  settled := hsettled
  critical q f a hq := by
    rw [hpc] at hq
    by_cases hqp : q = p
    · rw [hqp, update_self] at hq
      exact (hc f a hq).1
    · rw [update_of_ne hqp] at hq
      obtain ⟨hd, ho, hw⟩ | hnone := hdata
      · rw [hd, ho, hw]
        exact h.critical q f a hq
      · have hout := hnone q hqp
        rw [hq] at hout
        exact critical_of_outside hout
  here q f a hq := by
    rw [hpc] at hq
    by_cases hqp : q = p
    · rw [hqp, update_self] at hq
      exact (hc f a hq).2
    · rw [update_of_ne hqp] at hq
      obtain ⟨hlocal, haddr⟩ := h.here q f a hq
      obtain ⟨l, hl⟩ := hcalls
      have hlt := (List.getElem?_eq_some_iff.mp haddr).1
      exact ⟨hlocal, by rw [← hl, List.getElem?_append_left hlt, haddr]⟩
  jobs := by
    rw [hpc, todo_update]
    exact hjobs
  returned := hreturned

theorem Inv.outside (hpc : t.pc = update s.pc p c)
    (hp : (s.pc p).inside = false) (hcout : c.inside = false) (hdisk : t.disk = s.disk)
    (hoff : t.off = s.off) (hwritten : t.written = s.written)
    (hc : ∀ f a, c = .filewrite f a → f.Local a ∧ t.calls[f.call]? = some f.addr)
    (hcalls : s.calls <+: t.calls)
    (hjobs : Interleaving (t.calls.map chunks) t.written
      (update (fun q => (s.pc q).todo) p c.todo))
    (hreturned : ∀ e ∈ t.returned, ∃ addr, t.calls[e.1]? = some addr ∧ e.2 = some addr.length) :
    Inv sb ip content₀ off₀ t := by
  refine h.moved hpc ?_ (hdisk ▸ h.ref) (.inl ⟨hdisk, hoff, hwritten⟩) (fun hnone => ?_) (fun f a hfa => ?_) hcalls
    hjobs hreturned
  · rw [hpc, hdisk]
    exact h.lock.same (hcout.trans hp.symm)
  · rw [hdisk, hoff, hwritten]
    refine h.settled fun q => ?_
    by_cases hq : q = p
    · rw [hq, hp]
    · have := hnone q
      rwa [hpc, update_of_ne hq] at this
  · refine ⟨critical_of_outside ?_, hc f a hfa⟩
    rw [hfa] at hcout
    exact hcout

theorem Inv.keep (hpc : t.pc = update s.pc p c) (hp : (s.pc p).inside = true) (hcin : c.inside = true)
    (hlocked : t.disk.inodes.locked ip = s.disk.inodes.locked ip) (href : 0 < t.disk.inodes.ref ip)
    (hc : ∀ f a, c = .filewrite f a → Critical sb ip content₀ off₀ f t.disk t.off t.written a ∧
      f.Local a ∧ s.calls[f.call]? = some f.addr)
    (hcalls : t.calls = s.calls)
    (hjobs : Interleaving (s.calls.map chunks) t.written
      (update (fun q => (s.pc q).todo) p c.todo))
    (hreturned : t.returned = s.returned) : Inv sb ip content₀ off₀ t := by
  refine h.moved hpc ?_ href (.inr fun q hq => ?_) (fun hnone => ?_) (fun f a hfa => ?_)
    (hcalls ▸ List.prefix_refl _) (hcalls ▸ hjobs) (by rw [hreturned, hcalls]; exact h.returned)
  · rw [hpc, hlocked]
    exact h.lock.same (hcin.trans hp.symm)
  · exact Bool.eq_false_iff.mpr fun hqin => hq (h.lock.sole q p hqin hp)
  · have := hnone p
    rw [hpc, update_self, hcin] at this
    cases this
  · rw [hcalls]
    exact hc f a hfa

theorem Inv.jobs_same (hc : c.todo = (s.pc p).todo) : Interleaving (s.calls.map chunks) s.written
      (update (fun q => (s.pc q).todo) p c.todo) := by
  rw [hc, update_eq_self]
  exact h.jobs

theorem Inv.walk (hp : s.pc p = .filewrite f a)
    (ha : a.inside = false) {g : Frame} {b : Place} (hb : b.inside = false) (hcall : g.call = f.call)
    (haddr : g.addr = f.addr) (hdone : g.done b = f.done a) (hlocal : g.Local b) :
    Inv sb ip content₀ off₀ (s.moveTo p (.filewrite g b)) := by
  obtain ⟨-, hget⟩ := h.here p f a hp
  refine h.outside rfl (by rw [hp]; exact ha) hb rfl rfl rfl ?_ (List.prefix_refl _)
    (h.jobs_same ?_) h.returned
  · rintro _ _ ⟨⟩
    exact ⟨hlocal, by rw [hcall, haddr]; exact hget⟩
  · rw [hp, Pc.todo, Pc.todo, hcall, haddr, hdone]

theorem Inv.return (hp : s.pc p = .filewrite f .loop)
    (hi : ¬ f.i < f.addr.length) : Inv sb ip content₀ off₀ (s.return p f) := by
  obtain ⟨hlocal, hget⟩ := h.here p f .loop hp
  have hend : f.i = f.addr.length := Nat.le_antisymm hlocal (Nat.not_lt.mp hi)
  refine h.outside rfl (by rw [hp]; rfl) rfl rfl rfl rfl (fun _ _ hc => by cases hc)
    (List.prefix_refl _) (h.jobs.finish (k := f.call) ?_) fun e he => ?_
  · show (s.pc p).todo = _
    rw [hp, Pc.todo, show f.done .loop = f.i from rfl, List.drop_eq_nil_of_le hend.ge, chunks_nil]
  · obtain he | he := List.mem_append.mp he
    · exact h.returned e he
    · rw [List.mem_singleton.mp he]
      exact ⟨f.addr, hget, by rw [if_pos hend]⟩

theorem Inv.call (hp : s.pc p = .user) (addr : Bytes) :
    Inv sb ip content₀ off₀ { s with
      pc := update s.pc p (.filewrite ⟨s.calls.length, addr, 0⟩ .loop)
      calls := s.calls ++ [addr] } := by
  refine h.outside rfl (by rw [hp]; rfl) rfl rfl rfl rfl ?_ (List.prefix_append _ _) ?_ fun e he => ?_
  · rintro _ _ ⟨⟩
    exact ⟨Nat.zero_le _, by simp⟩
  · have hstart := h.jobs.start (p := p) (chunks addr) (by rw [hp, Pc.todo])
    rw [List.length_map] at hstart
    rw [List.map_append]
    exact hstart
  · obtain ⟨addr', hget, hlen⟩ := h.returned e he
    refine ⟨addr', ?_, hlen⟩
    rw [List.getElem?_append_left (List.getElem?_eq_some_iff.mp hget).1, hget]

theorem Inv.ilock (hfits : Fits off₀ s) (hp : s.pc p = .filewrite f .ilock)
    (hx : s.after p f (fun _ => .enter) (Store.ilock ip s.disk) = some t) : Inv sb ip content₀ off₀ t := by
  obtain ⟨hlocal, hget⟩ := h.here p f .ilock hp
  by_cases hlocked : s.disk.inodes.locked ip = true
  · -- another process has the lock, and this one waits
    have hwait : Store.ilock ip s.disk = .error .deadlock s.disk := by
      have href : 0 < (s.disk.icache ip).ref := h.ref
      unfold Store.ilock
      rw [bind_ok (get_run _), if_neg (by omega),
        if_pos (show (s.disk.icache ip).locked = true from hlocked)]
      rfl
    rw [hwait] at hx
    cases hx
  · rw [Bool.not_eq_true] at hlocked
    have hfree : ∀ q, (s.pc q).inside = false := by
      have := h.lock
      rw [hlocked] at this
      exact this.not_mem
    obtain ⟨d, hrun, hset, hlock, hvalid⟩ := (h.settled hfree).ilock hlocked
    rw [hrun] at hx
    cases hx
    have hroom := h.room hfits hp rfl
    refine h.moved rfl ?_ hset.ref (.inr fun q _ => hfree q) (fun hnone => ?_) ?_ (List.prefix_refl _)
      (h.jobs_same (by rw [hp]; rfl)) h.returned
    · have := h.lock
      rw [hlocked] at this
      rw [hlock]
      exact this.enter rfl
    · have hin := hnone p
      dsimp only at hin
      rw [update_self] at hin
      cases hin
    · rintro _ _ ⟨⟩
      refine ⟨⟨hset, hvalid, hlock, ?_⟩, hlocal, hget⟩
      show s.off + f.n1 ≤ _
      rw [hset.off]
      exact hroom

theorem Inv.enter (hoff₀ : off₀ ≤ content₀.length)
    (hp : s.pc p = .filewrite f .enter) (hx : s.go sb ip p f .enter = some t) :
    Inv sb ip content₀ off₀ t := by
  obtain ⟨hlocal, hget⟩ := h.here p f .enter hp
  have horigin : Origin sb ip content₀ off₀ s.disk s.off f.n1 s.written := h.critical p f _ hp
  have haccepts := horigin.settled.accepts horigin.valid hoff₀ horigin.fits
  unfold Sys.go at hx
  dsimp only at hx
  rw [if_neg haccepts.type, if_neg haccepts.wraps, if_neg haccepts.fits] at hx
  cases hx
  refine h.keep rfl (by rw [hp]; rfl) rfl rfl h.ref ?_ rfl (h.jobs_same (by rw [hp]; rfl)) rfl
  rintro _ _ ⟨⟩
  refine ⟨⟨s.disk, horigin, ?_, f.n1, ?_, rfl⟩, hlocal, hget⟩
  · rw [Frame.length_chunk]
    rfl
  · exact Frame.length_chunk.le

theorem Inv.turn {src : Bytes}
    (hp : s.pc p = .filewrite f (.turn off src)) (hx : s.go sb ip p f (.turn off src) = some t) :
    Inv sb ip content₀ off₀ t := by
  obtain ⟨hlocal, hget⟩ := h.here p f _ hp
  obtain ⟨d, horigin, hoff, fuel, hfuel, hloop⟩ := h.critical p f _ hp
  rw [Sys.go] at hx
  by_cases hsrc : src.length = 0
  · rw [if_pos hsrc] at hx
    cases hx
    obtain rfl := List.eq_nil_of_length_eq_zero hsrc
    refine h.keep rfl (by rw [hp]; rfl) rfl rfl h.ref ?_ rfl (h.jobs_same (by rw [hp]; rfl)) rfl
    rintro _ _ ⟨⟩
    exact ⟨⟨d, horigin, hoff, fuel, hfuel, hloop⟩, hlocal, hget⟩
  · rw [if_neg hsrc] at hx
    have hcache := (sameCache_writeTurn src : Keeps (SameCache s.disk) _ (writeTurn sb ip off src)).run
      s.disk ⟨rfl, rfl⟩
    cases hturn : writeTurn sb ip off src s.disk with
    | ok m d' =>
      rw [hturn] at hx hcache
      cases hx
      obtain ⟨fuel, rfl⟩ : ∃ k, fuel = k + 1 := ⟨fuel - 1, by omega⟩
      obtain ⟨hrest, hm⟩ := writeLoop_turn fuel hsrc hturn
      have hpos : 0 < m := by
        have := Nat.mod_lt off BSIZE_pos
        omega
      refine h.keep rfl (by rw [hp]; rfl) rfl (congrFun hcache.1 ip) (by rw [hcache.2]; exact h.ref) ?_
        rfl (h.jobs_same (by rw [hp]; rfl)) rfl
      rintro _ _ ⟨⟩
      refine ⟨⟨d, horigin, ?_, fuel, ?_, hloop.trans hrest⟩, hlocal, hget⟩
      · show off + m + (src.drop m).length = s.off + f.n1
        rw [List.length_drop]
        omega
      · rw [List.length_drop]
        omega
    | error e d' =>
      -- the disk is full
      rw [hturn] at hx hcache
      have hstop : t = { s with disk := d', pc := update s.pc p (.stopped f e) } := by
        cases e <;> cases hx <;> rfl
      subst hstop
      exact h.keep rfl (by rw [hp]; rfl) rfl (congrFun hcache.1 ip) (by rw [hcache.2]; exact h.ref)
        (fun _ _ hc => by cases hc) rfl (h.jobs_same (by rw [hp]; rfl)) rfl

theorem Inv.size (hoff₀ : off₀ ≤ content₀.length)
    (hp : s.pc p = .filewrite f (.size off)) (hx : s.go sb ip p f (.size off) = some t) :
    Inv sb ip content₀ off₀ t := by
  obtain ⟨hlocal, hget⟩ := h.here p f _ hp
  obtain ⟨d, horigin, hoff, fuel, -, hloop⟩ := h.critical p f _ hp
  rw [List.length_nil, Nat.add_zero] at hoff
  rw [writeLoop_nil] at hloop
  have hn1 : f.chunk.length = f.n1 := Frame.length_chunk
  -- the call of `writei` from the disk `d` is complete with this step
  have hwritei := (horigin.settled.accepts horigin.valid hoff₀ horigin.fits).writei hn1 hloop
  rw [← hoff] at hwritei
  obtain ⟨r, d', hsize⟩ : ∃ r d', writeSize ip f.n1 off s.disk = .ok r d' := by
    unfold writeSize
    rw [bind_ok (get_run _)]
    split <;> exact ⟨_, _, rfl⟩
  rw [hsize] at hwritei
  obtain ⟨rfl, hset, hlocked⟩ := horigin.settled.writei horigin.valid hoff₀
    (by rw [hn1]; exact horigin.fits) hwritei f.call
  rw [hn1] at hset
  rw [Sys.go, hsize] at hx
  cases hx
  have hpin : (s.pc p).inside = true := by
    rw [hp]
    rfl
  refine h.keep rfl hpin rfl ?_ hset.ref ?_ rfl ?_ rfl
  · show d'.inodes.locked ip = s.disk.inodes.locked ip
    rw [hlocked, horigin.locked, h.lock.set hpin]
  · rintro _ _ ⟨⟩
    exact ⟨⟨hset, horigin.fits⟩, ⟨hlocal, congrArg some hn1⟩, hget⟩
  · refine h.jobs.emit (p := p) ?_
    show (s.pc p).todo = _
    rw [hp, Pc.todo, show f.done (.size off) = f.i from rfl, f.chunks_drop hlocal]
    rfl

theorem Inv.advance {r : Option Nat}
    (hp : s.pc p = .filewrite f (.advance r)) (hx : s.go sb ip p f (.advance r) = some t) :
    Inv sb ip content₀ off₀ t := by
  obtain ⟨⟨hi, rfl⟩, hget⟩ := h.here p f _ hp
  obtain ⟨hset, hfits⟩ := h.critical p f _ hp
  have hmax : MAXFILE * BSIZE < 2 ^ 32 := by decide
  have hoff : (s.off + f.n1) % 2 ^ 32 = s.off + f.n1 := Nat.mod_eq_of_lt (by omega)
  cases hx
  refine h.keep rfl (by rw [hp]; rfl) rfl rfl h.ref ?_ rfl (h.jobs_same (by rw [hp]; rfl)) rfl
  rintro _ _ ⟨⟩
  refine ⟨?_, ⟨hi, rfl⟩, hget⟩
  show Settled sb ip content₀ off₀ s.disk ((s.off + f.n1) % 2 ^ 32) s.written
  rw [hoff]
  exact hset

theorem Inv.iunlock {r : Option Nat}
    (hp : s.pc p = .filewrite f (.iunlock r)) (hx : s.go sb ip p f (.iunlock r) = some t) :
    Inv sb ip content₀ off₀ t := by
  obtain ⟨hlocal, hget⟩ := h.here p f _ hp
  have hpin : (s.pc p).inside = true := by
    rw [hp]
    rfl
  have hset : Settled sb ip content₀ off₀ s.disk s.off s.written := h.critical p f _ hp
  obtain ⟨d, hrun, hset', hlock⟩ := hset.iunlock (h.lock.set hpin)
  rw [Sys.go, hrun] at hx
  cases hx
  refine h.moved rfl ?_ hset'.ref (.inr fun q hq => ?_) (fun _ => hset') ?_ (List.prefix_refl _)
    (h.jobs_same (by rw [hp]; rfl)) h.returned
  · show Threads.Flag _ _ (d.inodes.locked ip)
    rw [hlock]
    exact h.lock.leave hpin rfl
  · exact Bool.eq_false_iff.mpr fun hqin => hq (h.lock.sole q p hqin hpin)
  · rintro _ _ ⟨⟩
    exact ⟨trivial, hlocal, hget⟩

theorem Inv.go (hoff₀ : off₀ ≤ content₀.length) (hfits : Fits off₀ s)
    (hp : s.pc p = .filewrite f a) (hx : s.go sb ip p f a = some t) : Inv sb ip content₀ off₀ t := by
  obtain ⟨hlocal, -⟩ := h.here p f a hp
  cases a with
  | loop =>
    rw [Sys.go] at hx
    split at hx
    · next hi =>
      cases hx
      exact h.walk hp rfl rfl rfl rfl rfl hi
    · next hi =>
      cases hx
      exact h.return hp hi
  | beginOp =>
    cases hx
    exact h.walk hp rfl rfl rfl rfl rfl hlocal
  | ilock => exact h.ilock hfits hp hx
  | enter => exact h.enter hoff₀ hp hx
  | turn off src => exact h.turn hp hx
  | size off => exact h.size hoff₀ hp hx
  | advance r => exact h.advance hp hx
  | iunlock r => exact h.iunlock hp hx
  | endOp r =>
    cases hx
    exact h.walk hp rfl rfl rfl rfl rfl hlocal
  | check r =>
    obtain ⟨hi, rfl⟩ := hlocal
    rw [Sys.go, if_neg (fun hne => hne rfl)] at hx
    cases hx
    refine h.walk hp rfl rfl rfl rfl rfl ?_
    show f.i + f.n1 ≤ f.addr.length
    have : f.n1 ≤ f.addr.length - f.i := Nat.min_le_left _ _
    omega

theorem Inv.exec (hoff₀ : off₀ ≤ content₀.length)
    (hfits : Fits off₀ s) {l : Label ι} (hx : s.exec sb ip l = some t) : Inv sb ip content₀ off₀ t := by
  cases l with
  | call p addr =>
    rw [Sys.exec] at hx
    split at hx
    · next hp =>
      cases hx
      exact h.call hp addr
    · cases hx
  | go p =>
    rw [Sys.exec] at hx
    split at hx
    · next f a hp => exact h.go hoff₀ hfits hp hx
    · cases hx

end Steps

theorem after_calls {α : Type} {next : α → Place} {r : EStateM.Result Store.Stop Disk α}
    (h : s.after p f next r = some t) : t.calls = s.calls := by
  cases r with
  | ok x d =>
    cases h
    rfl
  | error e d => cases e <;> cases h <;> rfl

theorem go_calls (h : s.go sb ip p f a = some t) : t.calls = s.calls := by
  cases a with
  | ilock | iunlock r => exact after_calls h
  | turn off src =>
    rw [Sys.go] at h
    split at h
    · cases h
      rfl
    · exact after_calls h
  | size off =>
    obtain ⟨u, hu, rfl⟩ := Option.map_eq_some_iff.mp h
    exact (after_calls hu :)
  | loop =>
    rw [Sys.go] at h
    split at h <;> cases h <;> rfl
  | enter =>
    rw [Sys.go] at h
    split_ifs at h <;> cases h <;> rfl
  | check r =>
    cases r with
    | none =>
      cases h
      rfl
    | some r =>
      rw [Sys.go] at h
      split at h <;> cases h <;> rfl
  | beginOp | advance r | endOp r =>
    cases h
    rfl

theorem fits_of_exec {l : Label ι} (hx : s.exec sb ip l = some t) (ht : Fits off₀ t) : Fits off₀ s := by
  unfold Fits at ht ⊢
  cases l with
  | call p addr =>
    rw [Sys.exec] at hx
    split at hx
    · cases hx
      rw [List.map_append, List.sum_append] at ht
      omega
    · cases hx
  | go p =>
    rw [Sys.exec] at hx
    split at hx
    · rwa [← go_calls hx]
    · cases hx

omit [DecidableEq ι] in
theorem inv_start {d : Disk} (hd : d.Consistent sb) (htype : (d.inode ip).type = T_FILE)
    (href : 0 < (d.icache ip).ref) (hlock : (d.icache ip).locked = false) :
    Inv sb ip (d.content ip) off (Sys.start d off : Sys ι) where
  lock := ⟨by simp [Sys.start, Pc.inside, Disk.inodes, hlock], fun _ _ h => by cases h⟩
  ref := href
  settled _ := by
    have hne : (d.inode ip).type ≠ 0 := by
      rw [htype]
      decide
    obtain ⟨hnode, hcontent⟩ := node_of_type hne
    refine ⟨hd, hnode.trans htype, href, hcontent.trans ?_, rfl⟩
    simp [bytes, Sys.start, BlockArray.splice]
  critical _ _ _ h := by cases h
  here _ _ _ h := by cases h
  jobs := .nil
  returned _ h := absurd h List.not_mem_nil

end Invariant

/-- When all calls have returned, the file has their chunks one after the other from the offset on, those of
one call in order, and the offset is at their end. A call of up to 1536 bytes is one chunk. -/
theorem shared_writes {ι : Type} [DecidableEq ι] {sb : Superblock} {ip : Nat} {d : Disk} {off : Nat}
    (hd : d.Consistent sb) (htype : (d.inode ip).type = T_FILE) (href : 0 < (d.icache ip).ref)
    (hlock : (d.icache ip).locked = false) (hoff : off ≤ (d.inode ip).size) {s : Sys ι}
    (hrun : Run (Sys.exec sb ip) (fun _ _ => True) (Sys.start d off) s) (hreturned : ∀ p, s.pc p = .user)
    (hfits : off + (s.calls.map List.length).sum ≤ MAXFILE * BSIZE) : ∃ order : List (Nat × Bytes),
      s.disk.content ip = BlockArray.splice (d.content ip) off (order.flatMap (·.2)) ∧
      (∀ e ∈ order, e.1 < s.calls.length) ∧ (∀ k addr, s.calls[k]? = some addr → ofJob order k = chunks addr ∧
        (addr ≠ [] → addr.length ≤ 1536 → ofJob order k = [addr])) ∧
      s.off = off + (s.calls.map List.length).sum ∧
      ∀ e ∈ s.returned, ∃ addr, s.calls[e.1]? = some addr ∧ e.2 = some addr.length := by
  have hoff₀ : off ≤ (d.content ip).length := by rwa [length_content]
  have hinv : Fits off s → Inv sb ip (d.content ip) off s := by
    refine Run.invariant (I := fun s => Fits off s → Inv sb ip (d.content ip) off s)
      (fun _ => inv_start hd htype href hlock) (fun t l u ht _ hx hu => ?_) hrun
    have hfits' := fits_of_exec hx hu
    exact (ht hfits').exec hoff₀ hfits' hx
  have h := hinv hfits
  have hidle : ∀ p, (s.pc p).todo = none := fun p => by rw [hreturned p, Pc.todo]
  have hset := h.settled fun p => by rw [hreturned p, Pc.inside]
  refine ⟨s.written, ?_, fun e he => ?_, fun k addr hk => ?_, ?_, h.returned⟩
  · have hne : (s.disk.inode ip).type ≠ 0 := by
      intro h0
      have htype := hset.type
      rw [show s.disk.inodes.node ip = {} from if_pos h0] at htype
      cases htype
    rw [← (node_of_type hne).2]
    exact hset.content
  · have := h.jobs.tags e he
    rwa [List.length_map] at this
  · have hjob : ofJob s.written k = chunks addr :=
      h.jobs.all_done hidle (by rw [List.getElem?_map, hk, Option.map_some])
    exact ⟨hjob, fun hne hlen => hjob.trans (chunks_single hne hlen)⟩
  · have hweight := h.jobs.weight_eq List.length hidle
    rw [jobs_weight, written_weight] at hweight
    rw [hset.off, hweight]

/-- The file `"f"`, open. -/
def openFile : Disk := oneFile.updInode 2 fun ip => { ip with ref := 1 }

theorem consistent_openFile : openFile.Consistent mkfsSb :=
  (consistent_oneFile.updInode fun h => by cases h).1

/-- More bytes than one chunk has. -/
def twoChunks : Bytes := .replicate 1537 7

/-- Two processes that write, the second one between the two chunks of the first. -/
def bothWrite : List (Label Bool) :=
  [.call false twoChunks, .call true [3], .go false, .go true, .go false, .go true] ++
    .replicate 10 (.go false) ++ .replicate 10 (.go true) ++ .replicate 13 (.go false)

theorem shared_writes_bothWrite : ∃ (s : Sys Bool) (order : List (Nat × Bytes)),
    Run (Sys.exec mkfsSb 2) (fun _ _ => True) (Sys.start openFile 0) s ∧ s.off = 1538 ∧
      s.disk.content 2 = BlockArray.splice (openFile.content 2) 0 (order.flatMap (·.2)) ∧
      ofJob order 0 = chunks twoChunks ∧ ofJob order 1 = [[3]] := by
  have hx : (Run.execAll (Sys.exec mkfsSb 2) (Sys.start openFile 0) bothWrite).any (fun s =>
      s.pc false == .user && s.pc true == .user && s.calls == [twoChunks, [3]]) = true := by
    decide +kernel
  obtain ⟨s, hrun, hs⟩ := Run.exists_run hx
  simp only [Bool.and_eq_true, beq_iff_eq] at hs
  obtain ⟨⟨hfalse, htrue⟩, hcalls⟩ := hs
  obtain ⟨order, hcontent, -, horder, hoff, -⟩ := shared_writes consistent_openFile (by decide) (by decide)
    (by decide) (Nat.zero_le _) hrun (fun p => by cases p <;> assumption)
    (by rw [hcalls]; decide +kernel)
  refine ⟨s, order, hrun, by rw [hoff, hcalls]; decide +kernel, hcontent, ?_, ?_⟩
  · exact (horder 0 twoChunks (by rw [hcalls]; rfl)).1
  · exact (horder 1 [3] (by rw [hcalls]; rfl)).2 (by decide) (by decide)

end Xv6.SharedFile

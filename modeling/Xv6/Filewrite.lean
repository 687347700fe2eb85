import Xv6.SharedFile

/-!
# Long writes

`filewrite` cuts a write into pieces of 1536 bytes, with a transaction for each, and stops at the first one
that does not fit into the file. Nobody else writes meanwhile. What is written is seen on `Inodes`; on the
disk the same happens, or there are no blocks left.
-/

namespace Xv6.Calls

open Function (update update_self update_idem)
open Store
open SharedFile (openFile consistent_openFile twoChunks)
open Hoare

/-- The size a file can have. -/
def maxBytes : Nat := Store.MAXFILE * Store.BSIZE

/-- `ilock(ip); r = writei(ip, src, off, n); iunlock(ip);` -/
def writeOnce (ip off : Nat) (src : Bytes) : FsProg (Option Nat) := do
  ilock ip
  let r ← writei ip off src
  iunlock ip
  pure r

/-- A regular file that is open, with an offset inside of it, and that nobody is using. -/
structure Writable (ip off : Nat) (a : Inodes) : Prop where
  type : (a.node ip).type = T_FILE
  ref : 0 < a.ref ip
  locked : a.locked ip = false
  off : off ≤ (a.node ip).content.length

/-- `src` has been written from `off` on, and nothing else has changed. -/
structure Put (ip off : Nat) (src : Bytes) (a b : Inodes) : Prop where
  node : b.node = update a.node ip { a.node ip with content := BlockArray.splice (a.node ip).content off src }
  ref : b.ref = a.ref
  locked : b.locked = a.locked

variable {sb : Superblock} {ip off : Nat} {src : Bytes} {a b : Inodes}

theorem Put.node_self (h : Put ip off src a b) :
    b.node ip = { a.node ip with content := BlockArray.splice (a.node ip).content off src } := by
  rw [h.node, update_self]

theorem Put.append {src' : Bytes} {c : Inodes} (h : Put ip off src a b)
    (h' : Put ip (off + src.length) src' b c) (hoff : off ≤ (a.node ip).content.length) :
    Put ip off (src ++ src') a c where
  node := by
    rw [h'.node, h.node_self, h.node, update_idem]
    dsimp only
    rw [BlockArray.splice_splice hoff]
  ref := h'.ref.trans h.ref
  locked := h'.locked.trans h.locked

theorem Put.writable (h : Put ip off src a b) (ha : Writable ip off a) :
    Writable ip (off + src.length) b where
  type := by rw [h.node_self]; exact ha.type
  ref := by rw [h.ref]; exact ha.ref
  locked := by rw [h.locked]; exact ha.locked
  off := by
    rw [h.node_self]
    dsimp only
    rw [BlockArray.length_splice ha.off]
    exact Nat.le_max_right _ _

theorem Put.nil (hnode : b.node = a.node) (href : b.ref = a.ref)
    (hlocked : b.locked = a.locked) : Put ip off [] a b where
  node := by
    have hsplice : BlockArray.splice (a.node ip).content off [] = (a.node ip).content := by
      rw [BlockArray.splice, List.append_nil, List.length_nil, Nat.add_zero, List.take_append_drop]
    rw [hnode, hsplice, Function.update_eq_self]
  ref := href
  locked := hlocked

theorem writeOnce_run (sb : Superblock) (ha : Writable ip off a) (src : Bytes)
    (hlen : off + src.length < 2 ^ 32) :
    ∃ b, (writeOnce ip off src).run (inodeOps sb) a =
        .ok (if off + src.length ≤ maxBytes then some src.length else none) b ∧
      Put ip off (if off + src.length ≤ maxBytes then src else []) a b := by
  have hlock := Inodes.ilock_run ha.ref ha.locked (by rw [ha.type]; decide)
  have hlocked : update (update a.locked ip true) ip false = a.locked := by
    rw [update_idem, ← ha.locked, Function.update_eq_self]
  show ∃ b, (Inodes.ilock ip >>= fun _ => Inodes.writei ip off src >>= fun r =>
    Inodes.iunlock ip >>= fun _ => pure r : InodesM (Option Nat)) a = _ ∧ _
  rw [bind_ok hlock]
  have hwrite := Inodes.writei_run (a := (a.setLocked ip true).setValid ip true) (update_self ..)
    (show (a.node ip).type ≠ T_DEV by rw [ha.type]; decide) ha.off hlen
  by_cases hfit : off + src.length ≤ maxBytes
  · rw [if_neg (show ¬ Store.MAXFILE * Store.BSIZE < _ from Nat.not_lt.mpr hfit)] at hwrite
    rw [if_pos hfit, if_pos hfit, bind_ok hwrite]
    exact ⟨_, (bind_ok (Inodes.iunlock_run (by exact ha.ref) (by simp))).trans rfl, rfl, rfl, hlocked⟩
  · rw [if_pos (show Store.MAXFILE * Store.BSIZE < _ from Nat.lt_of_not_le hfit)] at hwrite
    rw [if_neg hfit, if_neg hfit, bind_ok hwrite]
    exact ⟨_, (bind_ok (Inodes.iunlock_run (by exact ha.ref) (by simp))).trans rfl, .nil rfl rfl hlocked⟩

/-- The rest of the loop of `filewrite` after a piece. -/
def afterPiece (ip fuel off : Nat) (src : Bytes) : Option Nat → FsProg (Nat × Bool)
  | none => pure (off, false)
  | some n =>
    if n ≠ (src.take maxWrite).length then panic "short filewrite"
    else filewriteLoop ip fuel (off + n) (src.drop maxWrite)

/-- How many of `n` bytes are written: all, or as many whole pieces as there is room for. -/
def Written (off n k : Nat) : Prop :=
  if off + n ≤ maxBytes then k = n
  else maxWrite ∣ k ∧ off + k ≤ maxBytes ∧ maxBytes < off + k + maxWrite

theorem Written.eq {n k : Nat} (h : Written off n k) (hfit : off + n ≤ maxBytes) : k = n := by
  rwa [Written, if_pos hfit] at h

theorem loop_done (hmax : off ≤ maxBytes) (fuel : Nat) :
    ∃ k b, Written off 0 k ∧ Put ip off (([] : Bytes).take k) a b ∧
      (filewriteLoop ip fuel off []).run (inodeOps sb) a = .ok (off + k, decide (off + 0 ≤ maxBytes)) b := by
  refine ⟨0, a, by rw [Written, if_pos (show off + 0 ≤ maxBytes from hmax)], .nil rfl rfl rfl, ?_⟩
  rw [decide_eq_true (show off + 0 ≤ maxBytes from hmax)]
  cases fuel <;> rfl

theorem filewriteLoop_run (sb : Superblock) (src : Bytes) {fuel : Nat} (hfuel : src.length ≤ fuel)
    (ha : Writable ip off a) (hmax : off ≤ maxBytes) :
    ∃ k b, Written off src.length k ∧ Put ip off (src.take k) a b ∧
      (filewriteLoop ip fuel off src).run (inodeOps sb) a =
        .ok (off + k, decide (off + src.length ≤ maxBytes)) b := by
  induction fuel generalizing off src a with
  | zero =>
    obtain rfl := List.length_eq_zero_iff.mp (Nat.le_zero.mp hfuel)
    exact loop_done hmax 0
  | succ fuel ih =>
    by_cases hsrc : src = []
    · subst hsrc
      exact loop_done hmax (fuel + 1)
    have hlen : (src.take maxWrite).length = min maxWrite src.length := List.length_take
    have hw : maxWrite = 1536 := rfl
    have hm : maxBytes = 71680 := rfl
    obtain ⟨b, hrun, hput⟩ := writeOnce_run sb ha (src.take maxWrite) (by omega)
    have hloop : (filewriteLoop ip (fuel + 1) off src).run (inodeOps sb) a =
        ((writeOnce ip off (src.take maxWrite)).run (inodeOps sb) >>= fun r =>
          (afterPiece ip fuel off src r).run (inodeOps sb)) a := by
      rw [filewriteLoop, if_neg hsrc, ← Prog.run_bind]
      rfl
    rw [hloop, bind_ok hrun]
    by_cases hfit : off + (src.take maxWrite).length ≤ maxBytes
    · rw [if_pos hfit] at hput ⊢
      have hdrop : (src.drop maxWrite).length = src.length - maxWrite := List.length_drop
      obtain ⟨k, c, hk, hput', hrun'⟩ := ih (src.drop maxWrite) (by omega) (hput.writable ha) hfit
      have htake : src.take ((src.take maxWrite).length + k) =
          src.take maxWrite ++ (src.drop maxWrite).take k := by
        by_cases hle : maxWrite ≤ src.length
        · rw [hlen, min_eq_left hle, List.take_add]
        · rw [List.take_of_length_le (by omega), List.take_of_length_le (by omega),
            List.drop_eq_nil_of_le (by omega), List.take_nil, List.append_nil]
      have hiff : off + (src.take maxWrite).length + (src.drop maxWrite).length ≤ maxBytes ↔
          off + src.length ≤ maxBytes := by omega
      refine ⟨(src.take maxWrite).length + k, c, ?_, ?_, ?_⟩
      · unfold Written at hk ⊢
        split at hk
        · rw [if_pos (by omega)]
          omega
        · -- more is to come, so this piece was a whole one
          obtain ⟨hdvd, hle, hlt⟩ := hk
          have hwhole : (src.take maxWrite).length = maxWrite := by omega
          rw [hwhole] at hle hlt
          rw [if_neg (by omega), hwhole]
          exact ⟨(Nat.dvd_add_right (Nat.dvd_refl _)).mpr hdvd, by omega, by omega⟩
      · rw [htake]
        exact hput.append hput' ha.off
      · dsimp only [afterPiece]
        rw [if_neg (not_not.mpr rfl), hrun', decide_eq_decide.mpr hiff, Nat.add_assoc]
    · rw [if_neg hfit] at hput ⊢
      have hno : ¬ off + src.length ≤ maxBytes := by omega
      refine ⟨0, b, ?_, hput, by rw [decide_eq_false hno]; rfl⟩
      rw [Written, if_neg hno]
      exact ⟨Nat.dvd_zero _, hmax, by omega⟩

/-- If everything fits into a file, `filewrite` writes it as a single `writei` does; otherwise it fails
after the pieces that fit. The offset is then behind what was written. The other way to end is that the disk
is full. -/
theorem filewrite_pieces {s : Disk} (hs : s.Consistent sb) (hw : Writable ip off s.inodes)
    (src : Bytes) : ∃ k, Written off src.length k ∧ ((∃ t, (filewrite ip off src).run (diskOps sb) s =
          .ok (off + k, decide (off + src.length ≤ maxBytes)) t ∧ t.Consistent sb ∧
        Put ip off (src.take k) s.inodes t.inodes ∧
        (off + src.length ≤ maxBytes → ∀ r u, (writeOnce ip off src).run (diskOps sb) s = .ok r u →
          r = some src.length ∧ u.inodes.node = t.inodes.node)) ∨
      ∃ t, (filewrite ip off src).run (diskOps sb) s = .error (.panic "balloc: out of blocks") t ∧
        ∀ b < sb.size, t.bitmap b = true) := by
  have hlive : (s.inode ip).type ≠ 0 := by
    intro h0
    have htype := hw.type
    rw [show s.inodes.node ip = {} from if_pos h0] at htype
    cases htype
  have hmax : off ≤ maxBytes := by
    have hoff := hw.off
    rw [(SharedFile.node_of_type hlive).2, length_content] at hoff
    exact hoff.trans (hs.sound.size_le hlive)
  obtain ⟨k, b, hk, hput, hrun⟩ := filewriteLoop_run sb src (Nat.le_refl src.length) hw hmax
  refine ⟨k, hk, ?_⟩
  obtain ⟨t, ht, hcons, rfl⟩ | ⟨e, t, ht, rfl, hfull⟩ :=
    (refined_prog (filewrite ip off src)).ok ⟨hs, rfl⟩ hrun
  · refine .inl ⟨t, ht, hcons, hput, fun hfit r u hu => ?_⟩
    obtain ⟨c, hone, hputc⟩ := writeOnce_run sb hw src (hfit.trans_lt (by decide))
    rw [if_pos hfit] at hone hputc
    obtain ⟨v, hv, -, rfl⟩ | ⟨e, v, hv, -⟩ := (refined_prog (writeOnce ip off src)).ok ⟨hs, rfl⟩ hone
    · rw [hu] at hv
      cases hv
      refine ⟨rfl, ?_⟩
      rw [hputc.node, hput.node, hk.eq hfit, List.take_length]
    · rw [hu] at hv
      cases hv
  · exact .inr ⟨t, ht, hfull⟩

theorem writable_openFile : Writable 2 0 openFile.inodes :=
  ⟨by decide, by decide, by decide, Nat.zero_le _⟩

theorem filewrite_pieces_openFile : Writable 2 0 openFile.inodes ∧
    ∃ t, (filewrite 2 0 twoChunks).run (diskOps mkfsSb) openFile = .ok (1537, true) t ∧
      (t.inodes.node 2).content = twoChunks := by
  refine ⟨writable_openFile, ?_⟩
  have hlen : twoChunks.length = 1537 := by decide +kernel
  have hpieces := filewrite_pieces consistent_openFile writable_openFile twoChunks
  rw [hlen] at hpieces
  obtain ⟨k, hk, ⟨t, ht, -, hput, -⟩ | ⟨t, ht, -⟩⟩ := hpieces
  · rw [hk.eq (by decide)] at ht hput
    exact ⟨t, ht, by rw [hput.node_self]; decide +kernel⟩
  · have hok : Hoare.returns ((filewrite 2 0 twoChunks).run (diskOps mkfsSb) openFile)
        (fun _ _ => true) = true := by decide +kernel
    rw [ht] at hok
    cases hok

/-- The disk ends behind the block of the root directory. -/
def fullSb : Superblock := { mkfsSb with size := 60, size_lt := by decide }

theorem consistent_full : openFile.Consistent fullSb :=
  { consistent_openFile with
    sound :=
      { consistent_openFile.sound with
        tidy :=
          { consistent_openFile.sound.tidy with
            area := fun hi h0 => ⟨(consistent_openFile.sound.tidy.area hi h0).1,
              of_decide_eq_true (consistent_openFile.sound.tidy.marked hi h0)⟩ } }
    used := fun b hb => consistent_openFile.used b (hb.trans (by decide)) }

/-- One byte for an empty file, on a disk without a free block. -/
theorem filewrite_full : openFile.Consistent fullSb ∧ Writable 2 0 openFile.inodes ∧
    ∃ t, (filewrite 2 0 [1]).run (diskOps fullSb) openFile = .error (.panic "balloc: out of blocks") t :=
  ⟨consistent_full, writable_openFile, _, rfl⟩

end Xv6.Calls

import Xv6.Lookup

/-!
# Names as strings

`namecmp` and the name field of a directory entry, with the bytes that `strncmp` and `strncpy` go through. A
string is the list of its bytes; what comes after them is zero. A name field has 14 bytes, and no zero at its
end if the name is that long.
-/

namespace Xv6.Calls

open Store (FsProg T_DIR)

/-- `strncmp(p, q, n)` -/
def strncmp : (n : Nat) → (p q : Bytes) → Int
  | 0, _, _ => 0
  | n + 1, p, q =>
    if p.headD 0 ≠ 0 ∧ p.headD 0 = q.headD 0 then strncmp n p.tail q.tail
    else (p.headD 0).toNat - (q.headD 0).toNat

/-- The bytes that `strncpy(s, t, n)` writes. -/
def strncpy : (n : Nat) → (t : Bytes) → Bytes
  | 0, _ => []
  | n + 1, t => if t.headD 0 = 0 then List.replicate (n + 1) 0 else t.headD 0 :: strncpy n t.tail

def namecmp (s t : Bytes) : Int := strncmp DIRSIZ s t

/-- `de.inum` and `de.name` of the bytes of a `struct dirent` -/
def inumOf (l : Bytes) : Nat := (l.getD 0 0).toNat + 256 * (l.getD 1 0).toNat
def nameOf (l : Bytes) : Bytes := l.drop 2

/-- The bytes of a `struct dirent`; the number is stored in an `ushort`. -/
def direntBytes (inum : Nat) (name : Bytes) : Bytes :=
  BitVec.ofNat 8 inum :: BitVec.ofNat 8 (inum / 256) :: strncpy DIRSIZ name

namespace Bytes

/-- The loop over the entries from `off` on. -/
def scan (dp : Nat) (msg : String) (p : Bytes → Bool) (size : Nat) :
    (fuel off : Nat) → FsProg (Option (Nat × Bytes))
  | 0, _ => pure none
  | fuel + 1, off =>
    if off < size then do
      match ← readi dp off DIRENT with
      | none => panic msg
      | some l =>
        if l.length ≠ DIRENT then panic msg
        else if p l then pure (some (off, l))
        else scan dp msg p size fuel (off + DIRENT)
    else
      pure none

def dirlookup (dp : Nat) (name : Bytes) : FsProg (Option (Nat × Nat)) := do
  let f ← fields dp
  if f.type ≠ T_DIR then
    panic "dirlookup not DIR"
  else
    match ← scan dp "dirlookup read" (fun l => inumOf l ≠ 0 ∧ namecmp name (nameOf l) = 0) f.size f.size 0 with
    | none => pure none
    | some (off, l) => do
      iget (inumOf l)
      pure (some (inumOf l, off))

def dirlink (dp : Nat) (name : Bytes) (inum : Nat) : FsProg Int := do
  match ← dirlookup dp name with
  | some (ip, _) => do
    iput ip
    pure (-1)
  | none => do
    let f ← fields dp
    let r ← scan dp "dirlink read" (fun l => inumOf l = 0) f.size f.size 0
    let w ← writei dp ((r.map Prod.fst).getD f.size) (direntBytes inum name)
    if w ≠ some DIRENT then panic "dirlink" else pure 0

end Bytes

/-! ## Strings and names -/

theorem headD_eq_zero {l : Bytes} (h : l.headD 0 = 0) (n : Nat) : (l.take n).takeWhile (· ≠ 0) = [] := by
  cases l with
  | nil => simp
  | cons c l =>
    cases n with
    | zero => rfl
    | succ n =>
      have hc : c = 0 := h
      simp [hc]

theorem takeWhile_of_headD_ne {l : Bytes} (h : l.headD 0 ≠ 0) (n : Nat) :
    (l.take (n + 1)).takeWhile (· ≠ 0) = l.headD 0 :: (l.tail.take n).takeWhile (· ≠ 0) := by
  cases l with
  | nil => exact absurd rfl h
  | cons c l =>
    have hc : decide (c ≠ 0) = true := decide_eq_true h
    rw [List.take_succ_cons, List.takeWhile_cons, if_pos hc]
    rfl

theorem strncmp_eq_zero_iff (n : Nat) (p q : Bytes) :
    strncmp n p q = 0 ↔ (p.take n).takeWhile (· ≠ 0) = (q.take n).takeWhile (· ≠ 0) := by
  induction n generalizing p q with
  | zero => simp [strncmp]
  | succ n ih =>
    unfold strncmp
    by_cases hp : p.headD 0 = 0
    · -- the first string ends here
      rw [if_neg fun h => h.1 hp, hp, headD_eq_zero hp]
      by_cases hq : q.headD 0 = 0
      · rw [hq, headD_eq_zero hq]
        simp
      · rw [takeWhile_of_headD_ne hq]
        refine iff_of_false (fun h => hq ?_) (List.cons_ne_nil _ _).symm
        exact BitVec.eq_of_toNat_eq (by omega)
    · rw [takeWhile_of_headD_ne hp]
      by_cases heq : p.headD 0 = q.headD 0
      · rw [if_pos ⟨hp, heq⟩, ih, takeWhile_of_headD_ne (heq ▸ hp), heq, List.cons_inj_right]
      · rw [if_neg fun h => heq h.2]
        refine iff_of_false (fun h => heq (BitVec.eq_of_toNat_eq (by omega))) ?_
        by_cases hq : q.headD 0 = 0
        · rw [headD_eq_zero hq]
          exact List.cons_ne_nil _ _
        · rw [takeWhile_of_headD_ne hq]
          exact fun h => heq (List.cons.inj h).1

theorem namecmp_eq_zero_iff {s t : Bytes} : namecmp s t = 0 ↔ Name.of s = Name.of t := by
  rw [namecmp, strncmp_eq_zero_iff]
  unfold Name.of
  rw [Name.mk.injEq]

theorem strncpy_eq (n : Nat) (t : Bytes) : strncpy n t = (t.take n).takeWhile (· ≠ 0) ++
    List.replicate (n - ((t.take n).takeWhile (· ≠ 0)).length) 0 := by
  induction n generalizing t with
  | zero => simp [strncpy]
  | succ n ih =>
    unfold strncpy
    by_cases ht : t.headD 0 = 0
    · rw [if_pos ht, headD_eq_zero ht]
      rfl
    · rw [if_neg ht, takeWhile_of_headD_ne ht, ih t.tail, List.length_cons, Nat.succ_sub_succ]
      rfl

theorem direntBytes_eq (inum : Nat) (name : Bytes) :
    direntBytes inum name = Dirent.toBytes ⟨inum, Name.of name⟩ := by
  unfold direntBytes Dirent.toBytes
  rw [strncpy_eq]
  rfl

/-! ## The programs -/

theorem Bytes.scan_eq (dp : Nat) (msg : String) {p : Bytes → Bool} {q : Dirent → Bool}
    (hpq : ∀ l, p l = q (.ofBytes l)) (size fuel off : Nat) :
    Calls.scan dp msg q size fuel off =
      (do
        let r ← Bytes.scan dp msg p size fuel off
        pure (r.map fun x => (x.1, .ofBytes x.2))) := by
  induction fuel generalizing off with
  | zero => rfl
  | succ fuel ih =>
    unfold Calls.scan Bytes.scan
    split
    · show Prog.call _ _ = Prog.call _ _
      congr 1
      funext r
      cases r with
      | none =>
        show Prog.call _ _ = Prog.call _ _
        congr 1
        funext x
        cases x
      | some l =>
        show (if l.length ≠ DIRENT then panic msg else if q (.ofBytes l) then _ else _ : FsProg _) =
          Prog.bind (if l.length ≠ DIRENT then panic msg else if p l then _ else _) _
        rw [hpq]
        split
        · show Prog.call _ _ = Prog.call _ _
          congr 1
          funext x
          cases x
        · split
          · rfl
          · exact ih (off + DIRENT)
    · rfl

theorem Bytes.dirlookup_eq (dp : Nat) (name : Bytes) :
    Bytes.dirlookup dp name = Calls.dirlookup dp (Name.of name) := by
  have hpq : ∀ l : Bytes, decide (inumOf l ≠ 0 ∧ namecmp name (nameOf l) = 0) =
      decide ((Dirent.ofBytes l).inum ≠ 0 ∧ (Dirent.ofBytes l).name = Name.of name) := by
    intro l
    rw [decide_eq_decide, namecmp_eq_zero_iff]
    exact and_congr_right' eq_comm
  unfold Bytes.dirlookup Calls.dirlookup
  congr 1
  funext f
  split
  · rfl
  · rw [Bytes.scan_eq dp _ hpq, bind_assoc]
    congr 1
    funext r
    cases r <;> rfl

theorem Bytes.dirlink_eq (dp : Nat) (name : Bytes) (inum : Nat) :
    Bytes.dirlink dp name inum =
      (do
        let r ← Calls.dirlink dp (Name.of name) inum
        pure (if r then 0 else -1)) := by
  unfold Bytes.dirlink Calls.dirlink
  rw [Bytes.dirlookup_eq, bind_assoc]
  congr 1
  funext r
  match r with
  | some (ip, off) => rfl
  | none =>
    simp only [bind_assoc]
    refine congrArg _ (funext fun f => ?_)
    rw [Bytes.scan_eq dp _ (p := fun l => inumOf l = 0) (q := fun de => de.inum = 0) fun _ => rfl, bind_assoc]
    congr 1
    funext r
    have hoff : (r.map fun x => (x.1, Dirent.ofBytes x.2)).map Prod.fst = r.map Prod.fst := by
      cases r <;> rfl
    rw [pure_bind, hoff, direntBytes_eq]
    congr 1
    funext w
    split
    · show Prog.call _ _ = Prog.call _ _
      congr 1
      funext x
      cases x
    · rfl

end Xv6.Calls

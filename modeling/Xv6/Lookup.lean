import Xv6.Session

/-!
# Looking up names

What a directory says is a function of its content: `lookup` for one name, `walk` for a path. `dirlookup`
and `namex` return that, and leave the call with a reference to what they found.
-/

namespace Xv6.Calls

open Store
open Prog (seq_rule ite_rule)

variable {sb : Superblock} {a b : Inodes} {h l : List Nat} {dp i : Nat} {O D N : Prop} {d : Node} {name : Name}

/-! ## Entries -/

/-- Entry `n` of a directory. -/
def direntAt (d : Node) (n : Nat) : Dirent := .ofBytes ((d.content.drop (DIRENT * n)).take DIRENT)

/-- The number of entries. -/
def nents (d : Node) : Nat := d.content.length / DIRENT

/-- The first entry with `p`, from entry `n` on. -/
def firstFrom (d : Node) (p : Dirent → Bool) (n : Nat) : Option Nat :=
  (List.range' n (nents d - n)).find? fun m => p (direntAt d m)

def lookup (d : Node) (name : Name) : Option (Nat × Nat) :=
  (firstFrom d (fun de => de.inum ≠ 0 ∧ de.name = name) 0).map fun n =>
    ((direntAt d n).inum, DIRENT * n)

variable {n ip cwd : Nat} {de : Dirent} {node : Nat → Node}
variable {p : Dirent → Bool}

theorem firstFrom_of_le (hn : nents d ≤ n) : firstFrom d p n = none := by
  unfold firstFrom
  rw [Nat.sub_eq_zero_of_le hn]
  rfl

theorem firstFrom_of_lt (hn : n < nents d) : firstFrom d p n =
    if p (direntAt d n) then some n else firstFrom d p (n + 1) := by
  obtain ⟨m, hm⟩ := Nat.exists_eq_add_of_lt hn
  unfold firstFrom
  rw [show nents d - n = (nents d - (n + 1)) + 1 by omega, List.range'_succ, List.find?_cons]
  split <;> simp [*]

theorem DIRENT_eq : DIRENT = 16 := rfl

/-- What the loop over the entries from `n` on returns. -/
structure Scanned (d : Node) (p : Dirent → Bool) (n : Nat) (r : Option (Nat × Dirent)) : Prop where
  eq : r = (firstFrom d p n).map fun m => (DIRENT * m, direntAt d m)
  /-- If it has come to the end, there was no part of an entry there. -/
  whole : r = none → DIRENT * n ≤ d.content.length → d.content.length % DIRENT = 0

variable {p : Dirent → Bool} {n : Nat}

theorem scanned_end (hle : d.content.length ≤ DIRENT * n) : Scanned d p n none where
  eq := by
    rw [firstFrom_of_le (Nat.div_le_of_le_mul hle)]
    rfl
  whole _ hge := by rw [Nat.le_antisymm hle hge, Nat.mul_mod_right]

theorem scanned_here (hn : n < nents d) (hp : p (direntAt d n) = true) :
    Scanned d p n (some (DIRENT * n, direntAt d n)) where
  eq := by
    rw [firstFrom_of_lt hn, if_pos hp]
    rfl
  whole := nofun

theorem Scanned.next {r : Option (Nat × Dirent)} (h : Scanned d p (n + 1) r) (hn : n < nents d)
    (hp : ¬ p (direntAt d n) = true) : Scanned d p n r where
  eq := by rw [h.eq, firstFrom_of_lt hn, if_neg hp]
  whole hr _ := by
    refine h.whole hr ?_
    unfold nents at hn
    rw [DIRENT_eq] at *
    omega

theorem scan_spec (hi : dp ∈ l) {msg : String} (hmsg : Plain msg) (p : Dirent → Bool) {fuel : Nat}
    (hfuel : (a.node dp).content.length ≤ DIRENT * (n + fuel)) :
    Spec sb (Holds O a h l) (scan dp msg p (a.node dp).content.length fuel (DIRENT * n))
      (fun r b => Holds O a h l b ∧ Scanned (a.node dp) p n r) D N := by
  induction fuel generalizing n with
  | zero => exact Spec.pure fun b hb => ⟨hb, scanned_end hfuel⟩
  | succ fuel ih =>
    unfold scan
    refine ite_rule (fun hlt => ?_) fun hlt =>
      Spec.pure fun b hb => ⟨hb, scanned_end (Nat.le_of_not_lt hlt)⟩
    refine seq_rule (readi_spec hi _ (by decide)) fun r => .pre_and fun hr => ?_
    obtain rfl | rfl := hr
    · exact Spec.panic _ hmsg _
    · refine ite_rule (fun _ => Spec.panic _ hmsg _) fun hlen => ?_
      -- a whole entry was read
      have hn : n < nents (a.node dp) := by
        have hlen := not_not.mp hlen
        rw [List.length_take, List.length_drop] at hlen
        unfold nents
        rw [DIRENT_eq] at *
        omega
      refine ite_rule (fun hp => Spec.pure fun b hb => ⟨hb, scanned_here hn hp⟩) fun hp => ?_
      have hfuel' : (a.node dp).content.length ≤ DIRENT * (n + 1 + fuel) := by
        rwa [Nat.add_right_comm]
      exact (ih hfuel').post fun r b hb => ⟨hb.1, hb.2.next hn hp⟩

/-- The reference that comes with the result of a lookup. -/
def found {α : Type} (r : Option (Nat × α)) : List Nat := (r.map Prod.fst).toList

theorem dirlookup_spec (hi : dp ∈ l) (name : Name) : Spec sb (Holds O a h l) (dirlookup dp name)
    (fun r b => Holds O a (found r ++ h) l b ∧ r = lookup (a.node dp) name ∧ (a.node dp).type = T_DIR ∧
      (r = none → (a.node dp).content.length % DIRENT = 0)) D N := by
  refine fields_bind hi ?_
  refine ite_rule (fun _ => Spec.panic _ (by decide) _) fun htype => ?_
  have htype := not_not.mp htype
  refine seq_rule (scan_spec (n := 0) hi (by decide) _ ?_) fun r => .pre_and fun hr => ?_
  · dsimp only
    rw [DIRENT_eq]
    omega
  obtain ⟨heq, hwhole⟩ := hr
  cases hfirst : firstFrom (a.node dp) (fun de => de.inum ≠ 0 ∧ de.name = name) 0 with
  | none =>
    rw [hfirst] at heq
    subst heq
    refine Spec.pure fun b hb => ⟨hb, ?_, htype, fun _ => hwhole rfl (by omega)⟩
    unfold lookup
    rw [hfirst]
    rfl
  | some n =>
    rw [hfirst] at heq
    subst heq
    refine seq_rule (iget_spec _) fun _ => Spec.pure fun b hb => ⟨hb, ?_, htype, nofun⟩
    unfold lookup
    rw [hfirst]
    rfl

/-! ## Changing an entry -/

theorem length_toBytes (de : Dirent) : de.toBytes.length = DIRENT := by
  have := de.name.length_le
  unfold Dirent.toBytes
  simp only [List.length_cons, List.length_append, List.length_replicate]
  rw [DIRENT_eq]
  unfold DIRSIZ at *
  omega

theorem Name.of_bytes (name : Name) (k : Nat) : Name.of (name.bytes ++ List.replicate k 0) = name := by
  obtain ⟨bytes, hlen, hzero⟩ := name
  have hbytes : ∀ c ∈ bytes, decide (c ≠ 0) = true := by
    intro c hc
    rw [decide_eq_true_eq]
    rintro rfl
    exact hzero hc
  have htake : (((bytes ++ List.replicate k 0).take DIRSIZ).takeWhile (· ≠ 0)) = bytes := by
    rw [List.take_append, List.take_of_length_le hlen, List.takeWhile_append_of_pos hbytes,
      List.take_replicate, List.takeWhile_replicate]
    simp
  unfold Name.of
  congr

theorem ofBytes_toBytes (hde : de.inum < 2 ^ 16) : Dirent.ofBytes de.toBytes = de := by
  obtain ⟨inum, name⟩ := de
  unfold Dirent.ofBytes Dirent.toBytes
  dsimp only at hde ⊢
  congr 1
  · simp only [List.getD_cons_zero, List.getD_cons_succ, BitVec.toNat_ofNat]
    omega
  · exact Name.of_bytes name _

/-- The directory with entry `n` set. -/
def putDirent (d : Node) (n : Nat) (de : Dirent) : Node :=
  { d with content := BlockArray.splice d.content (DIRENT * n) de.toBytes }

section
variable (hn : DIRENT * n ≤ d.content.length)
include hn

theorem direntAt_putDirent (hde : de.inum < 2 ^ 16)
    (m : Nat) : direntAt (putDirent d n de) m = if m = n then de else direntAt d m := by
  have hbytes : ∀ x : Nat, (((putDirent d n de).content.drop (DIRENT * m)).take DIRENT)[x]? =
      if m = n then de.toBytes[x]? else ((d.content.drop (DIRENT * m)).take DIRENT)[x]? := by
    intro x
    have hlen := length_toBytes de
    rw [List.getElem?_take, List.getElem?_take, List.getElem?_drop, List.getElem?_drop]
    unfold putDirent
    dsimp only
    rw [BlockArray.getElem?_splice hn, hlen]
    rw [DIRENT_eq] at *
    by_cases hx : x < 16
    · by_cases hmn : m = n
      · subst hmn
        rw [if_pos hx, if_pos (by omega), if_pos rfl, Nat.add_sub_cancel_left]
      · rw [if_pos hx, if_neg (by omega), if_neg hmn, if_pos hx]
    · by_cases hmn : m = n
      · rw [if_neg hx, if_pos hmn, List.getElem?_eq_none (by omega)]
      · rw [if_neg hx, if_neg hmn, if_neg hx]
  unfold direntAt
  by_cases hmn : m = n
  · rw [if_pos hmn, List.ext_getElem? fun x => (hbytes x).trans (if_pos hmn), ofBytes_toBytes hde]
  · rw [if_neg hmn, List.ext_getElem? fun x => (hbytes x).trans (if_neg hmn)]

theorem length_putDirent : (putDirent d n de).content.length = max d.content.length (DIRENT * (n + 1)) := by
  unfold putDirent
  rw [BlockArray.length_splice hn, length_toBytes]
  rfl

theorem nents_putDirent : nents (putDirent d n de) = max (nents d) (n + 1) := by
  unfold nents
  rw [length_putDirent hn, DIRENT_eq]
  omega

end

/-- Entry `n` of directory `dp` is set. -/
def setDirent (a : Inodes) (dp n : Nat) (de : Dirent) : Inodes :=
  a.setNode dp (putDirent (a.node dp) n de)

/-- The name is not in the directory, and entry `n` is where it goes. -/
structure Vacant (d : Node) (name : Name) (n : Nat) : Prop where
  absent : lookup d name = none
  whole : d.content.length % DIRENT = 0
  here : firstFrom d (fun de => de.inum = 0) 0 = some n ∨
    firstFrom d (fun de => de.inum = 0) 0 = none ∧ n = nents d

variable {m : Nat}

theorem firstFrom_eq_some (hfirst : firstFrom d p n = some m) :
    n ≤ m ∧ m < nents d ∧ p (direntAt d m) = true := by
  have hmem := List.mem_range'_1.mp (List.mem_of_find?_eq_some hfirst)
  have hp := List.find?_some hfirst
  exact ⟨hmem.1, by omega, hp⟩

theorem firstFrom_eq_none (hfirst : firstFrom d p n = none) (hnm : n ≤ m) (hm : m < nents d) :
    ¬ p (direntAt d m) = true :=
  List.find?_eq_none.mp hfirst m (List.mem_range'_1.mpr (by omega))

theorem Vacant.le (h : Vacant d name n) : n ≤ nents d := by
  obtain h | h := h.here
  · exact (firstFrom_eq_some h).2.1.le
  · exact h.2.le

/-- What `dirlink` does: it adds an entry, or it finds the name and lets go of what it found. -/
def Linked (O : Prop) (a : Inodes) (dp : Nat) (name : Name) (inum : Nat) (h l : List Nat) :
    Bool → Inodes → Prop
  | true, b => ∃ n, Holds O (setDirent a dp n ⟨inum, name⟩) h l b ∧ Vacant (a.node dp) name n
  | false, b => Holds O a h l b ∧ ∃ i off, lookup (a.node dp) name = some (i, off) ∧ i ∉ l

theorem dirlink_spec (hi : dp ∈ l) (name : Name) (inum : Nat) : Spec sb (Holds O a h l) (dirlink dp name inum)
      (fun r b => Linked O a dp name inum h l r b ∧ (a.node dp).type = T_DIR)
      (∃ i off, lookup (a.node dp) name = some (i, off) ∧ i ∈ l) N := by
  refine seq_rule (dirlookup_spec hi name) fun r => .pre_and fun hr => ?_
  obtain ⟨hlook, htype, hwhole⟩ := hr
  match r with
  | some (i, off) =>
    exact seq_rule (Spec.mono (iput_spec i) fun hi => ⟨i, off, hlook.symm, hi⟩) fun _ =>
      Spec.pure fun b hb => ⟨⟨hb.1, i, off, hlook.symm, hb.2⟩, htype⟩
  | none =>
    have hwhole := hwhole rfl
    refine fields_bind hi ?_
    refine seq_rule (scan_spec (n := 0) hi (by decide) _ ?_) fun r => .pre_and fun hr => ?_
    · dsimp only
      rw [DIRENT_eq]
      omega
    -- the offset is that of entry `n`
    obtain ⟨n, hn, hoff⟩ : ∃ n, (firstFrom (a.node dp) (fun de => de.inum = 0) 0 = some n ∨
        firstFrom (a.node dp) (fun de => de.inum = 0) 0 = none ∧ n = nents (a.node dp)) ∧
        (r.map Prod.fst).getD (a.node dp).content.length = DIRENT * n := by
      rw [hr.eq]
      cases hfirst : firstFrom (a.node dp) (fun de => de.inum = 0) 0 with
      | some n => exact ⟨n, .inl rfl, rfl⟩
      | none =>
        refine ⟨_, .inr ⟨rfl, rfl⟩, ?_⟩
        exact (Nat.mul_div_cancel' (Nat.dvd_of_mod_eq_zero hwhole)).symm
    dsimp only
    rw [hoff]
    have hlen : (Dirent.toBytes ⟨inum, name⟩).length < 2 ^ 32 := by
      rw [length_toBytes]
      decide
    refine seq_rule (writei_spec hi _ hlen) fun w => ite_rule (fun _ => Spec.panic _ (by decide) _)
      fun hw => Spec.pure fun b hb => ?_
    obtain ⟨rfl, -⟩ | hb := hb
    · exact absurd nofun hw
    · exact ⟨⟨n, hb.1.1, hlook.symm, hwhole, hn⟩, htype⟩

/-! ## Paths -/

/-- Where a path leads. -/
def walk (node : Nat → Node) (parent : Bool) : List Name → Nat → Option (Nat × Option Name)
  | [], ip => if parent then none else some (ip, none)
  | name :: rest, ip =>
    if (node ip).type ≠ T_DIR then none
    else if parent && rest.isEmpty then some (ip, some name)
    else
      match lookup (node ip) name with
      | none => none
      | some (next, _) => walk node parent rest next

/-- Where a path starts. -/
def start (cwd : Nat) (path : Bytes) : Nat := if path.head? = some slash then ROOTINO else cwd

def resolve (node : Nat → Node) (cwd : Nat) (path : Bytes) : Option Nat :=
  (walk node false (elems path) (start cwd path)).map Prod.fst

def resolveParent (node : Nat → Node) (cwd : Nat) (path : Bytes) : Option (Nat × Name) :=
  match walk node true (elems path) (start cwd path) with
  | some (dp, some name) => some (dp, name)
  | _ => none

variable {d' : Node}

theorem lookup_congr (hd : d'.content = d.content) (name : Name) : lookup d' name = lookup d name := by
  unfold lookup firstFrom nents direntAt
  rw [hd]

theorem Vacant.congr (h : Vacant d name n) (hd : d'.content = d.content) : Vacant d' name n := by
  obtain ⟨habsent, hwhole, hhere⟩ := h
  refine ⟨by rw [lookup_congr hd, habsent], by rw [hd, hwhole], ?_⟩
  unfold firstFrom nents direntAt at *
  rwa [hd]

variable {node' : Nat → Node}

section
variable (hsame : ∀ i, (node' i).type = (node i).type ∧ (node' i).content = (node i).content)
include hsame

theorem walk_congr (parent : Bool) (path : List Name) (ip : Nat) :
    walk node' parent path ip = walk node parent path ip := by
  induction path generalizing ip with
  | nil => rfl
  | cons name rest ih =>
    unfold walk
    rw [(hsame ip).1, lookup_congr (hsame ip).2]
    simp only [ih]

theorem resolveParent_congr (cwd : Nat) (path : Bytes) :
    resolveParent node' cwd path = resolveParent node cwd path := by
  unfold resolveParent
  rw [walk_congr hsame]

end

/-- No inode on the way can be free, nor the one that the last name leads to. -/
def SafeFrom (a : Inodes) : List Name → Nat → Prop
  | [], ip => Kept a ip
  | name :: rest, ip => Kept a ip ∧ ((a.node ip).type = T_DIR →
    ∀ next off, lookup (a.node ip) name = some (next, off) → SafeFrom a rest next)

def Safe (a : Inodes) (cwd : Nat) (path : Bytes) : Prop := SafeFrom a (elems path) (start cwd path)

theorem SafeFrom.kept {path : List Name} (hs : SafeFrom a path ip) : Kept a ip := by
  cases path with
  | nil => exact hs
  | cons name rest => exact hs.1

variable {parent : Bool} {r : Nat × Option Name}

theorem SafeFrom.walk {path : List Name}
    (hs : SafeFrom a path ip) (hw : walk a.node parent path ip = some r) : Kept a r.1 ∧
    ∀ name ∈ r.2, ∀ i off, lookup (a.node r.1) name = some (i, off) → Kept a i := by
  induction path generalizing ip with
  | nil =>
    unfold Calls.walk at hw
    split at hw
    · cases hw
    · cases hw
      exact ⟨hs, nofun⟩
  | cons name rest ih =>
    unfold Calls.walk at hw
    split at hw
    · cases hw
    · next htype =>
      have hs := hs.imp_right fun h => h (not_not.mp htype)
      split at hw
      · cases hw
        refine ⟨hs.1, ?_⟩
        rintro _ ⟨⟩ i off hi
        exact (hs.2 i off hi).kept
      · split at hw
        · cases hw
        · next hlook => exact ih (hs.2 _ _ hlook) hw

variable {path : Bytes}

theorem Safe.resolve (hs : Safe a cwd path) (hr : resolve a.node cwd path = some ip) : Kept a ip := by
  obtain ⟨r, hw, rfl⟩ := Option.map_eq_some_iff.mp hr
  exact (SafeFrom.walk hs hw).1

theorem Safe.resolveParent (hs : Safe a cwd path)
    (hr : resolveParent a.node cwd path = some (dp, name)) : Kept a dp ∧
    ∀ i off, lookup (a.node dp) name = some (i, off) → Kept a i := by
  unfold Calls.resolveParent at hr
  split at hr
  · next hw =>
    cases hr
    exact (SafeFrom.walk hs hw).imp_right fun h => h _ rfl
  · cases hr

theorem namexLoop_spec {path : List Name} (hs : N ∨ SafeFrom a path ip) :
    Spec sb (Holds O a (ip :: h) []) (namexLoop parent path ip)
      (fun r b => Holds O a (found r ++ h) [] b ∧ r = walk a.node parent path ip) D N := by
  induction path generalizing ip with
  | nil =>
    unfold namexLoop walk
    refine ite_rule (fun hpar => ?_) fun hpar => Spec.pure fun b hb => ⟨hb, by rw [if_neg hpar]⟩
    exact seq_rule (iput_unlocked_spec (by simp)) fun _ =>
      Spec.pure fun b hb => ⟨hb, by rw [if_pos hpar]⟩
  | cons name rest ih =>
    unfold namexLoop walk
    refine seq_rule (ilock_free_spec (hs.imp_right And.left) (by simp)) fun _ => ?_
    refine fields_bind List.mem_cons_self ?_
    refine ite_rule (fun htype => ?_) fun htype => ite_rule (fun hpar => ?_) fun hpar => ?_
    · refine iunlockput_pure fun b hb => ⟨hb, ?_⟩
      rw [if_pos htype]
    · refine seq_rule (iunlock_spec (by simp)) fun _ => Spec.pure fun b hb => ⟨hb, ?_⟩
      rw [if_neg htype, if_pos hpar]
    · rw [if_neg htype, if_neg hpar]
      refine seq_rule (dirlookup_spec List.mem_cons_self name) fun r => .pre_and fun hr => ?_
      rw [← hr.1]
      match r with
      | none =>
        exact iunlockput_pure fun b hb => ⟨hb, rfl⟩
      | some (next, off) =>
        refine seq_rule ((iunlockput_spec (by simp)).pre fun b hb => ?_) fun _ => ih ?_
        · exact hb.perm (List.Perm.swap _ _ _)
        · exact hs.imp_right fun hs => hs.2 (not_not.mp htype) next off hr.1.symm

theorem namex_spec (hs : N ∨ Safe a cwd path) (parent : Bool) :
    Spec sb (Holds O a h []) (namex cwd path parent)
      (fun r b => Holds O a (found r ++ h) [] b ∧
        r = walk a.node parent (elems path) (start cwd path)) D N := by
  unfold Safe start at hs
  unfold namex start
  refine ite_rule (fun hc => ?_) fun hc => ?_
  · rw [if_pos hc] at hs ⊢
    exact seq_rule (iget_spec _) fun _ => namexLoop_spec hs
  · rw [if_neg hc] at hs ⊢
    exact seq_rule (idup_spec _) fun _ => namexLoop_spec hs

theorem namei_spec (hs : N ∨ Safe a cwd path) : Spec sb (Holds O a h []) (namei cwd path)
    (fun r b => Holds O a (r.toList ++ h) [] b ∧ r = resolve a.node cwd path) D N := by
  refine seq_rule (namex_spec hs false) fun r => Spec.pure fun b hb => ⟨hb.1, ?_⟩
  rw [hb.2]
  rfl

theorem walk_parent {path : List Name}
    (hr : walk node true path ip = some r) : (node r.1).type = T_DIR ∧ ∃ name, r.2 = some name := by
  induction path generalizing ip with
  | nil => cases hr
  | cons name rest ih =>
    unfold walk at hr
    split at hr
    · cases hr
    · next htype =>
      split at hr
      · cases hr
        exact ⟨not_not.mp htype, name, rfl⟩
      · split at hr
        · cases hr
        · exact ih hr

theorem nameiparent_spec (hs : N ∨ Safe a cwd path) : Spec sb (Holds O a h []) (nameiparent cwd path)
    (fun r b => Holds O a (found r ++ h) [] b ∧ r = resolveParent a.node cwd path) D N := by
  refine seq_rule (namex_spec hs true) fun r => .pre_and fun hr => ?_
  unfold resolveParent
  rw [← hr]
  match r with
  | none => exact Spec.pure fun b hb => ⟨hb, rfl⟩
  | some (dp, some name) => exact Spec.pure fun b hb => ⟨hb, rfl⟩
  | some (dp, none) =>
    obtain ⟨-, name, hname⟩ := walk_parent hr.symm
    cases hname

end Xv6.Calls

import Xv6.Lookup

/-!
# What the calls do

For each call, what it leaves when it returns, in terms of the inodes it started with: references, links
and directory entries. A call of `link` or `unlink` that finds the directory it has locked under the name
it looks up waits for itself; no other call does.
-/

namespace Xv6.Calls

open Hoare Store
open Prog (seq_rule ite_rule)
open List (mem_cons_self)

variable {sb : Superblock} {O : Prop} {a b : Inodes} {h l : List Nat} {D N : Prop}

theorem setNode_setNode (a : Inodes) (i : Nat) (d d' : Node) : (a.setNode i d).setNode i d' = a.setNode i d' := by
  unfold Inodes.setNode
  simp

variable {i ip cwd dp n type : Nat} {d : Node} {name : Name}

theorem setNode_of_ne (a : Inodes) {j : Nat} (hj : j ≠ i) (d : Node) :
    (a.setNode i d).node j = a.node j := Function.update_of_ne hj _ _

theorem setNode_self (a : Inodes) (i : Nat) (d : Node) : (a.setNode i d).node i = d :=
  Function.update_self _ _ _

/-- `k` more links. -/
def addLink (a : Inodes) (i : Nat) (k : Int) : Inodes :=
  a.setNode i { a.node i with nlink := (a.node i).nlink + k }

theorem addLink_same (a : Inodes) (i : Nat) (k : Int) (j : Nat) :
    ((addLink a i k).node j).type = (a.node j).type ∧
      ((addLink a i k).node j).content = (a.node j).content := by
  unfold addLink
  by_cases hj : j = i
  · subst hj
    simp
  · simp [hj]

theorem addLink_cancel (a : Inodes) (i : Nat) (k : Int) : addLink (addLink a i k) i (-k) = a := by
  unfold addLink Inodes.setNode
  simp

theorem Kept.addLink (hi : Kept a i) (j : Nat) : Kept (addLink a j 1) i := by
  refine ⟨by rw [(addLink_same a j 1 i).1]; exact hi.1, ?_⟩
  obtain h | h := hi.2
  · left
    unfold Calls.addLink
    by_cases hij : i = j
    · subst hij
      rw [setNode_self]
      dsimp only
      omega
    · rwa [setNode_of_ne _ hij]
  · exact .inr h

theorem SafeFrom.addLink {path : List Name} (hs : SafeFrom a path ip) (j : Nat) :
    SafeFrom (addLink a j 1) path ip := by
  induction path generalizing ip with
  | nil => exact Kept.addLink hs j
  | cons name rest ih =>
    refine ⟨hs.1.addLink j, fun htype next off hlook => ?_⟩
    rw [(addLink_same a j 1 ip).1] at htype
    rw [lookup_congr (addLink_same a j 1 ip).2] at hlook
    exact ih (hs.2 htype next off hlook)

/-! ## `link` -/

/-- `new` names the directory it is looked up in. -/
def LinksItself (a : Inodes) (cwd : Nat) (old new : Bytes) : Prop :=
  ∃ ip dp name off, resolve a.node cwd old = some ip ∧ (a.node ip).type ≠ T_DIR ∧
    resolveParent a.node cwd new = some (dp, name) ∧ lookup (a.node dp) name = some (dp, off)

inductive LinkDone (O : Prop) (a : Inodes) (h : List Nat) (cwd : Nat) (old new : Bytes) :
    Int → Inodes → Prop
  | failed {b : Inodes} (hb : Holds O a h [] b) : LinkDone O a h cwd old new (-1) b
  | done {ip dp n : Nat} {name : Name} {b : Inodes} (hold : resolve a.node cwd old = some ip)
    (hlive : (a.node ip).type ≠ 0) (htype : (a.node ip).type ≠ T_DIR)
    (hnew : resolveParent a.node cwd new = some (dp, name)) (hvacant : Vacant (a.node dp) name n)
    (hb : Holds O (setDirent (addLink a ip 1) dp n ⟨ip, name⟩) h [] b) : LinkDone O a h cwd old new 0 b

theorem sysLink_bad_spec (hk : N ∨ Kept a ip) :
    Spec sb (Holds O (addLink a ip 1) (ip :: h) []) (sysLink.bad ip)
      (fun r b => Holds O a h [] b ∧ r = -1) D N := by
  refine seq_rule (ilock_free_spec (hk.imp_right (Kept.addLink · ip)) (by simp)) fun _ => ?_
  refine fields_bind mem_cons_self ?_
  refine seq_rule (iupdate_spec mem_cons_self _ _ _) fun _ => ?_
  refine seq_rule ((iunlockput_spec (by simp)).pre fun b hb => ?_) fun _ =>
    Spec.pure fun b hb => ⟨hb, rfl⟩
  rw [← addLink_cancel a ip 1]
  exact hb

/-- `sys_link` adds an entry and a link or changes nothing. -/
theorem sysLink_spec {old new : Bytes} (hold : N ∨ Safe a cwd old)
    (hsnew : N ∨ Safe a cwd new) : Spec sb (Holds O a h []) (sysLink cwd old new)
      (fun r b => LinkDone O a h cwd old new r b ∧ ¬ LinksItself a cwd old new)
      (LinksItself a cwd old new) N := by
  refine seq_rule (namei_spec hold) fun r => .pre_and fun hr => ?_
  match r with
  | none =>
    refine Spec.pure fun b hb => ⟨.failed hb, ?_⟩
    rintro ⟨ip, dp, name, off, hip, -⟩
    rw [← hr] at hip
    cases hip
  | some ip =>
    have hk : N ∨ Kept a ip := hold.imp_right fun hs => hs.resolve hr.symm
    refine seq_rule ((ilock_free_spec hk (by simp)).post fun _ b hb =>
      ⟨hb, hb.type_ne mem_cons_self⟩) fun _ => .pre_and fun hlive => ?_
    refine fields_bind mem_cons_self ?_
    refine ite_rule (fun htype => ?_) fun htype => ?_
    · refine iunlockput_pure fun b hb => ⟨.failed hb, ?_⟩
      rintro ⟨ip', dp, name, off, hip, htype', -⟩
      rw [← hr] at hip
      cases hip
      exact htype' htype
    refine seq_rule (iupdate_spec mem_cons_self _ _ _) fun _ => ?_
    refine seq_rule (iunlock_spec (by simp)) fun _ => ?_
    show Spec sb (Holds O (addLink a ip 1) (ip :: h) []) _ _ _ _
    refine seq_rule (nameiparent_spec (hsnew.imp_right (SafeFrom.addLink · ip))) fun r => .pre_and fun hnew => ?_
    rw [resolveParent_congr (addLink_same a ip 1)] at hnew
    match r with
    | none =>
      refine (sysLink_bad_spec hk).post fun r b hb => ?_
      obtain ⟨hb, rfl⟩ := hb
      refine ⟨.failed hb, ?_⟩
      rintro ⟨_, dp, name, off, -, -, hdp, -⟩
      rw [← hnew] at hdp
      cases hdp
    | some (dp, name) =>
      have hlook : ∀ name, lookup ((addLink a ip 1).node dp) name = lookup (a.node dp) name :=
        lookup_congr (addLink_same a ip 1 dp).2
      have hkdp : N ∨ Kept (addLink a ip 1) dp :=
        hsnew.imp_right fun hs => (hs.resolveParent hnew.symm).1.addLink ip
      refine seq_rule (ilock_free_spec hkdp (by simp)) fun _ => ?_
      refine seq_rule (Spec.mono (dirlink_spec mem_cons_self name ip) ?_) fun r =>
        .pre_and fun hdir => ?_
      · rintro ⟨i, off, hi, hmem⟩
        obtain rfl : i = dp := by simpa using hmem
        rw [hlook] at hi
        exact ⟨ip, i, name, off, hr.symm, htype, hnew.symm, hi⟩
      refine ite_rule (fun hr' => ?_) fun hr' => ?_
      · subst hr'
        refine .pre_exists fun n => .pre_and fun hv => ?_
        have hv : Vacant (a.node dp) name n := hv.congr (addLink_same a ip 1 dp).2.symm
        refine seq_rule (iunlockput_spec (by simp)) fun _ => ?_
        refine seq_rule (iput_unlocked_spec (by simp)) fun _ =>
          Spec.pure fun b hb => ⟨.done hr.symm hlive htype hnew.symm hv hb, ?_⟩
        rintro ⟨_, dp', name', off, -, -, hdp, hself⟩
        rw [← hnew] at hdp
        cases hdp
        rw [hv.absent] at hself
        cases hself
      · obtain rfl : r = false := by simpa using hr'
        refine .pre_and fun hthere => ?_
        obtain ⟨i, off, hi, hmem⟩ := hthere
        refine seq_rule (iunlockput_spec (by simp)) fun _ => ?_
        refine (sysLink_bad_spec hk).post fun r b hb => ?_
        obtain ⟨hb, rfl⟩ := hb
        refine ⟨.failed hb, ?_⟩
        rintro ⟨_, dp', name', off', -, -, hdp, hself⟩
        rw [← hnew] at hdp
        cases hdp
        rw [hlook, hself] at hi
        cases hi
        simp at hmem

/-! ## `unlink` -/

/-- The name to be removed names the directory it is looked up in. -/
def UnlinksItself (a : Inodes) (cwd : Nat) (path : Bytes) : Prop :=
  ∃ dp name off, resolveParent a.node cwd path = some (dp, name) ∧ ¬ (name = dot ∨ name = dotdot) ∧
    lookup (a.node dp) name = some (dp, off)

def Dirent.empty : Dirent := ⟨0, .of []⟩

/-- Entry `n` of `dp`, which named `ip`, is removed, and with a directory its `".."`. -/
def unlinked (a : Inodes) (dp ip n : Nat) : Inodes :=
  addLink (addLink (setDirent a dp n .empty) dp (if (a.node ip).type = T_DIR then -1 else 0)) ip (-1)

inductive UnlinkDone (O : Prop) (a : Inodes) (h : List Nat) (cwd : Nat) (path : Bytes) :
    Int → Inodes → Prop
  | failed {b : Inodes} (hb : Holds O a h [] b) : UnlinkDone O a h cwd path (-1) b
  | done {dp ip n : Nat} {name : Name} {b : Inodes}
    (hparent : resolveParent a.node cwd path = some (dp, name)) (hdots : ¬ (name = dot ∨ name = dotdot))
    (hlook : lookup (a.node dp) name = some (ip, DIRENT * n)) (hne : ip ≠ dp)
    (hnlink : 1 ≤ (a.node ip).nlink)
    (hempty : (a.node ip).type = T_DIR → firstFrom (a.node ip) (fun de => de.inum ≠ 0) 2 = none)
    (hb : Holds O (unlinked a dp ip n) h [] b) : UnlinkDone O a h cwd path 0 b

theorem isdirempty_spec (hi : ip ∈ l) : Spec sb (Holds O a h l) (isdirempty ip)
    (fun r b => Holds O a h l b ∧ r = (firstFrom (a.node ip) (fun de => de.inum ≠ 0) 2).isNone) D N := by
  refine fields_bind hi ?_
  refine seq_rule (scan_spec (n := 2) hi (by decide) _ ?_) fun r => Spec.pure fun b hb => ⟨hb.1, ?_⟩
  · dsimp only
    rw [DIRENT_eq]
    omega
  · rw [hb.2.eq, Option.isNone_map]

theorem addLink_zero (a : Inodes) (i : Nat) : addLink a i 0 = a := by
  unfold addLink Inodes.setNode
  simp

theorem sysUnlink_finish_spec (hne : ip ≠ dp) :
    Spec sb (Holds O a (ip :: dp :: h) [ip, dp]) (sysUnlink.finish dp ip)
      (fun r b => Holds O (addLink a ip (-1)) h [] b ∧ r = 0) D N := by
  have hput : Spec sb (Holds O a (dp :: ip :: h) [dp, ip]) (iunlockput dp)
      (fun _ => Holds O a (ip :: h) [ip]) D N := iunlockput_spec (by simpa using hne.symm)
  refine seq_rule (hput.pre fun b hb => ?_) fun _ => ?_
  · exact (hb.perm (List.Perm.swap _ _ _)).locks fun i => by simp [or_comm]
  refine fields_bind mem_cons_self ?_
  refine seq_rule (iupdate_spec mem_cons_self _ _ _) fun _ => ?_
  exact iunlockput_pure fun b hb => ⟨hb, rfl⟩

theorem sysUnlink_remove_spec (hne : ip ≠ dp) {isdir : Bool}
    (hdir : isdir = true ↔ (a.node ip).type = T_DIR) :
    Spec sb (Holds O a (ip :: dp :: h) [ip, dp]) (sysUnlink.remove dp ip (DIRENT * n) isdir)
      (fun r b => Holds O (unlinked a dp ip n) h [] b ∧ r = 0) D N := by
  refine seq_rule (writei_spec (by simp) _ (by decide)) fun r =>
    ite_rule (fun _ => Spec.panic _ (by decide) _) fun hr => ?_
  obtain rfl := not_not.mp hr
  refine Triple.pre (P := Holds O (setDirent a dp n .empty) (ip :: dp :: h) [ip, dp]) ?_ fun b hb => ?_
  · unfold unlinked
    refine ite_rule (fun hd => ?_) fun hd => ?_
    · rw [if_pos (hdir.mp hd)]
      refine fields_bind (by simp) ?_
      exact seq_rule (iupdate_spec (by simp) _ _ _) fun _ => sysUnlink_finish_spec hne
    · rw [if_neg fun h => hd (hdir.mpr h), addLink_zero]
      exact sysUnlink_finish_spec hne
  · obtain ⟨h0, -⟩ | hb := hb
    · cases h0
    · exact hb.1.1

variable {off : Nat}

theorem lookup_eq_some (hlook : lookup d name = some (ip, off)) :
    ∃ n, off = DIRENT * n ∧ n < nents d ∧ direntAt d n = ⟨ip, name⟩ ∧ ip ≠ 0 := by
  unfold lookup at hlook
  obtain ⟨n, hfirst, heq⟩ := Option.map_eq_some_iff.mp hlook
  obtain ⟨-, hlt, hp⟩ := firstFrom_eq_some hfirst
  cases heq
  simp only [ne_eq, decide_eq_true_eq] at hp
  refine ⟨n, rfl, hlt, ?_, hp.1⟩
  rw [← hp.2]

variable {path : Bytes}

/-- `sys_unlink` removes an entry and a link or nothing. -/
theorem sysUnlink_spec (hs : N ∨ Safe a cwd path) : Spec sb (Holds O a h []) (sysUnlink cwd path)
      (fun r b => UnlinkDone O a h cwd path r b ∧ ¬ UnlinksItself a cwd path)
      (UnlinksItself a cwd path) N := by
  refine seq_rule (nameiparent_spec hs) fun r => .pre_and fun hr => ?_
  match r with
  | none =>
    refine Spec.pure fun b hb => ⟨.failed hb, ?_⟩
    rintro ⟨dp, name, off, hdp, -⟩
    rw [← hr] at hdp
    cases hdp
  | some (dp, name) =>
    have hbad : ¬ UnlinksItself a cwd path → Spec sb (Holds O a (dp :: h) [dp]) (sysUnlink.bad dp)
        (fun r b => UnlinkDone O a h cwd path r b ∧ ¬ UnlinksItself a cwd path)
        (UnlinksItself a cwd path) N := fun hself => iunlockput_pure fun b hb => ⟨.failed hb, hself⟩
    have hself : ∀ {ip off}, lookup (a.node dp) name = some (ip, off) → UnlinksItself a cwd path →
        ip = dp := by
      rintro ip off hlook ⟨dp', name', off', hdp, -, hlook'⟩
      rw [← hr] at hdp
      cases hdp
      rw [hlook] at hlook'
      cases hlook'
      rfl
    have hk := hs.imp_right fun hs => hs.resolveParent hr.symm
    refine seq_rule (ilock_free_spec (hk.imp_right And.left) (by simp)) fun _ => ?_
    refine ite_rule (fun hdots => hbad ?_) fun hdots => ?_
    · rintro ⟨dp', name', off', hdp, hdots', -⟩
      rw [← hr] at hdp
      cases hdp
      exact hdots' hdots
    refine seq_rule (dirlookup_spec mem_cons_self name) fun r => .pre_and fun hlook => ?_
    obtain ⟨hlook, -⟩ := hlook
    match r with
    | none =>
      refine hbad ?_
      rintro ⟨dp', name', off', hdp, -, hlook'⟩
      rw [← hr] at hdp
      cases hdp
      rw [← hlook] at hlook'
      cases hlook'
    | some (ip, off) =>
      obtain ⟨n, rfl, -⟩ := lookup_eq_some hlook.symm
      have hkip : N ∨ Kept a ip := hk.imp_right fun hk => hk.2 ip _ hlook.symm
      refine seq_rule (Spec.mono (ilock_kept_spec hkip) fun hmem => ?_) fun _ =>
        .pre_and fun hne => ?_
      · obtain rfl : ip = dp := by simpa using hmem
        exact ⟨ip, name, _, hr.symm, hdots, hlook.symm⟩
      have hne : ip ≠ dp := by simpa using hne
      have hnot : ¬ UnlinksItself a cwd path := fun h => hne (hself hlook.symm h)
      refine fields_bind mem_cons_self ?_
      refine ite_rule (fun _ => Spec.panic _ (by decide) _) fun hnlink =>
        ite_rule (fun htype => ?_) fun htype => ?_
      · refine seq_rule (isdirempty_spec mem_cons_self) fun r => .pre_and fun hempty => ?_
        refine ite_rule (fun hr' => ?_) fun hr' => ?_
        · refine (sysUnlink_remove_spec hne (by simpa using htype)).post fun r b hb => ?_
          obtain ⟨hb, rfl⟩ := hb
          refine ⟨.done hr.symm hdots hlook.symm hne (by simpa using hnlink) (fun _ => ?_) hb, hnot⟩
          rw [hr'] at hempty
          exact Option.isNone_iff_eq_none.mp hempty.symm
        · refine seq_rule (iunlockput_spec ?_) fun _ => hbad hnot
          simpa using hne
      · refine (sysUnlink_remove_spec hne (by simpa using htype)).post fun r b hb => ?_
        obtain ⟨hb, rfl⟩ := hb
        exact ⟨.done hr.symm hdots hlook.symm hne (by simpa using hnlink) (fun h => absurd h htype) hb, hnot⟩

/-! ## `create` -/

/-- The entries of a new directory. -/
def withDots (a : Inodes) (dp ip type : Nat) : Inodes :=
  if type = T_DIR then setDirent (setDirent (addLink a dp 1) ip 0 ⟨ip, dot⟩) ip 1 ⟨dp, dotdot⟩ else a

/-- A new inode `ip`, with entry `n` of directory `dp`. -/
def created (a : Inodes) (dp n : Nat) (name : Name) (ip type major minor : Nat) : Inodes :=
  setDirent (withDots (a.setNode ip { type, major, minor, nlink := 1 }) dp ip type) dp n ⟨ip, name⟩

/-- What `create` does when it makes `ip`. -/
inductive Created (sb : Superblock) (a : Inodes) (cwd : Nat) (path : Bytes) (type major minor : Nat) :
    Nat → Inodes → Prop
  | made {dp ip n : Nat} {name : Name} (hparent : resolveParent a.node cwd path = some (dp, name))
    (hvacant : Vacant (a.node dp) name n) (hne : ip ≠ dp) (hnum : ip ≠ 0 ∧ ip < sb.ninodes)
    (hfree : (a.node ip).type = 0 ∨ a.ref ip = 0 ∧ (a.node ip).nlink = 0) :
    Created sb a cwd path type major minor ip (created a dp n name ip type major minor)

inductive CreateDone (sb : Superblock) (O : Prop) (a : Inodes) (h : List Nat) (cwd : Nat)
    (path : Bytes) (type major minor : Nat) : Option Nat → Inodes → Prop
  | failed {b : Inodes} (hb : Holds O a h [] b) : CreateDone sb O a h cwd path type major minor none b
  | there {dp ip off : Nat} {name : Name} {b : Inodes}
    (hparent : resolveParent a.node cwd path = some (dp, name))
    (hlook : lookup (a.node dp) name = some (ip, off)) (htype : type = T_FILE ∧ (a.node ip).type = T_FILE)
    (hb : Holds O a (ip :: h) [ip] b) : CreateDone sb O a h cwd path type major minor (some ip) b
  | made {ip : Nat} {a' b : Inodes} (hmade : Created sb a cwd path type major minor ip a')
    (hb : Holds O a' (ip :: h) [ip] b) : CreateDone sb O a h cwd path type major minor (some ip) b

theorem Vacant.of_nil (h : Vacant d name n) (hd : d.content = []) : n = 0 := by
  have := h.le
  unfold nents at this
  rw [hd] at this
  simpa using this

theorem lookup_nil (hd : d.content = []) (name : Name) : lookup d name = none := by
  unfold lookup
  rw [firstFrom_of_le (by unfold nents; rw [hd]; simp)]
  rfl

variable {de : Dirent}

theorem lookup_single (hd : d.content = []) (hde : de.inum < 2 ^ 16) (hname : de.name ≠ name) :
    lookup (putDirent d 0 de) name = none := by
  have hbound : DIRENT * 0 ≤ d.content.length := Nat.zero_le _
  have hnents : nents (putDirent d 0 de) = 1 := by
    rw [nents_putDirent hbound]
    unfold nents
    rw [hd]
    rfl
  unfold lookup
  rw [firstFrom_of_lt (by omega), direntAt_putDirent hbound hde, if_pos rfl, if_neg (by simp [hname]),
    firstFrom_of_le (by omega)]
  rfl

theorem Vacant.of_single
    (h : Vacant (putDirent d 0 de) name n) (hd : d.content = []) (hde : de.inum < 2 ^ 16)
    (h0 : de.inum ≠ 0) : n = 1 := by
  have hbound : DIRENT * 0 ≤ d.content.length := Nat.zero_le _
  have hnents : nents (putDirent d 0 de) = 1 := by
    rw [nents_putDirent hbound]
    unfold nents
    rw [hd]
    rfl
  obtain h | h := h.here
  · obtain ⟨-, hlt, hp⟩ := firstFrom_eq_some h
    obtain rfl : n = 0 := by omega
    rw [direntAt_putDirent hbound hde, if_pos rfl] at hp
    exact absurd (by simpa using hp) h0
  · rw [h.2, hnents]

theorem dot_ne_dotdot : dot ≠ dotdot := by decide

theorem dirlink_absent_spec (hi : dp ∈ l) (inum : Nat)
    (habsent : lookup (a.node dp) name = none) : Spec sb (Holds O a h l) (dirlink dp name inum)
      (fun r b => (∃ n, Holds O (setDirent a dp n ⟨inum, name⟩) h l b ∧ Vacant (a.node dp) name n) ∧
        r = true) D N := by
  refine Spec.mono ((dirlink_spec hi name inum).post fun r b hb => ?_) ?_
  · obtain ⟨hb, -⟩ := hb
    cases r with
    | true => exact ⟨hb, rfl⟩
    | false =>
      obtain ⟨-, i, off, hsome, -⟩ := hb
      rw [habsent] at hsome
      cases hsome
  · rintro ⟨i, off, hsome, -⟩
    rw [habsent] at hsome
    cases hsome

theorem create_finish_spec (hne : ip ≠ dp) (habsent : lookup (a.node dp) name = none) :
    Spec sb (Holds O a (ip :: dp :: h) [ip, dp]) (create.finish dp ip name)
      (fun r b => (∃ n, Holds O (setDirent a dp n ⟨ip, name⟩) (ip :: h) [ip] b ∧
        Vacant (a.node dp) name n) ∧ r = some ip) D N := by
  refine seq_rule (dirlink_absent_spec (by simp) ip habsent) fun r => .pre_and fun hr => ?_
  subst hr
  refine .pre_exists fun n => .pre_and fun hvacant => ?_
  have hput : Spec sb (Holds O (setDirent a dp n ⟨ip, name⟩) (dp :: ip :: h) [dp, ip]) (iunlockput dp)
      (fun _ => Holds O (setDirent a dp n ⟨ip, name⟩) (ip :: h) [ip]) D N :=
    iunlockput_spec (by simpa using hne.symm)
  refine seq_rule (hput.pre fun b hb => ?_) fun _ =>
    Spec.pure fun b hb => ⟨⟨n, hb, hvacant⟩, rfl⟩
  exact (hb.perm (List.Perm.swap _ _ _)).locks fun i => by simp [or_comm]

theorem withDots_content (hne : ip ≠ dp) (type : Nat) :
    ((withDots a dp ip type).node dp).content = (a.node dp).content := by
  unfold withDots
  split
  · unfold setDirent
    rw [setNode_of_ne _ hne.symm, setNode_of_ne _ hne.symm, (addLink_same a dp 1 dp).2]
  · rfl

variable {major minor : Nat}

theorem create_make_spec (hne : ip ≠ dp)
    (hi0 : ip ≠ 0) (hlt : ip < 2 ^ 16) (hip : a.node ip = { type, major, minor, nlink := 1 })
    (habsent : lookup (a.node dp) name = none) : Spec sb (Holds O a (ip :: dp :: h) [ip, dp])
      (if type = T_DIR then do
        let d ← fields dp
        iupdate dp d.major d.minor (d.nlink + 1)
        if ← dirlink ip dot ip then
          if ← dirlink ip dotdot dp then create.finish dp ip name else panic "create dots"
        else
          panic "create dots"
      else
        create.finish dp ip name)
      (fun r b => (∃ n, Holds O (setDirent (withDots a dp ip type) dp n ⟨ip, name⟩) (ip :: h) [ip] b ∧
        Vacant (a.node dp) name n) ∧ r = some ip) D N := by
  have hfinish : Spec sb (Holds O (withDots a dp ip type) (ip :: dp :: h) [ip, dp])
      (create.finish dp ip name)
      (fun r b => (∃ n, Holds O (setDirent (withDots a dp ip type) dp n ⟨ip, name⟩) (ip :: h) [ip] b ∧
        Vacant (a.node dp) name n) ∧ r = some ip) D N := by
    have hsame := withDots_content (a := a) hne type
    refine (create_finish_spec hne (by rw [lookup_congr hsame, habsent])).post fun r b hb => ?_
    obtain ⟨⟨n, hb, hvacant⟩, hr⟩ := hb
    exact ⟨⟨n, hb, hvacant.congr hsame.symm⟩, hr⟩
  refine ite_rule (fun htype => ?_) fun htype => ?_
  · have hdots : withDots a dp ip type =
        setDirent (setDirent (addLink a dp 1) ip 0 ⟨ip, dot⟩) ip 1 ⟨dp, dotdot⟩ := if_pos htype
    rw [hdots] at hfinish ⊢
    have hnil : ((addLink a dp 1).node ip).content = [] := by rw [(addLink_same a dp 1 ip).2, hip]
    refine fields_bind (by simp) ?_
    refine seq_rule (iupdate_spec (by simp) _ _ _) fun _ => ?_
    show Spec sb (Holds O (addLink a dp 1) (ip :: dp :: h) [ip, dp]) _ _ D N
    refine seq_rule (dirlink_absent_spec mem_cons_self ip (lookup_nil hnil _)) fun r =>
      .pre_and fun hr => .pre_exists fun n => .pre_and fun hvacant => ?_
    subst hr
    obtain rfl := hvacant.of_nil hnil
    have hself : (setDirent (addLink a dp 1) ip 0 ⟨ip, dot⟩).node ip =
        putDirent ((addLink a dp 1).node ip) 0 ⟨ip, dot⟩ := setNode_self _ _ _
    refine seq_rule (dirlink_absent_spec mem_cons_self dp
      (by rw [hself]; exact lookup_single hnil hlt dot_ne_dotdot)) fun r =>
      .pre_and fun hr => .pre_exists fun n => .pre_and fun hvacant => ?_
    subst hr
    rw [hself] at hvacant
    obtain rfl := hvacant.of_single hnil hlt hi0
    exact hfinish
  · have hdots : withDots a dp ip type = a := if_neg htype
    rw [hdots] at hfinish ⊢
    exact hfinish

/-- `create` finds the file, makes it or fails. -/
theorem create_spec (hs : N ∨ Safe a cwd path)
    (htype : N ∨ type ≠ 0) (major minor : Nat) : Spec sb (Holds O a h []) (create cwd path type major minor)
      (CreateDone sb O a h cwd path type major minor) D N := by
  refine seq_rule (nameiparent_spec hs) fun r => .pre_and fun hr => ?_
  match r with
  | none => exact Spec.pure fun b hb => .failed hb
  | some (dp, name) =>
    have hk := hs.imp_right fun hs => hs.resolveParent hr.symm
    refine seq_rule (ilock_free_spec (hk.imp_right And.left) (by simp)) fun _ => ?_
    refine seq_rule (dirlookup_spec mem_cons_self name) fun r => .pre_and fun hlook => ?_
    obtain ⟨hlook, -⟩ := hlook
    match r with
    | some (ip, off) =>
      refine seq_rule ((iunlockput_spec (by simp)).pre fun b hb =>
        hb.perm (List.Perm.swap _ _ _)) fun _ => ?_
      have hkip : N ∨ Kept a ip := hk.imp_right fun hk => hk.2 ip off hlook.symm
      refine seq_rule (ilock_free_spec hkip (by simp)) fun _ => ?_
      refine fields_bind mem_cons_self ?_
      refine ite_rule (fun htype => Spec.pure fun b hb => ?_) fun _ => ?_
      · exact .there hr.symm hlook.symm htype hb
      · exact iunlockput_pure fun b hb => .failed hb
    | none =>
      refine seq_rule (ialloc_spec type) fun ip => .pre_and fun hip => ?_
      obtain ⟨hi0, hlt, hne, hfree⟩ := hip
      have hne : ip ≠ dp := by simpa using hne
      have hlock : Spec sb (fun b => HoldsBut (some ip) O (a.setNode ip { type := type }) (ip :: dp :: h) [dp] b ∧
          (N ∨ (b.node ip).type ≠ 0)) (ilock ip) _ _ N := ilock_spec (by rintro j ⟨⟩; rfl)
      refine seq_rule (Spec.mono ((hlock.pre fun b hb => ?_).post fun _ _ hb => hb.1) fun hmem => ?_)
        fun _ => ?_
      · exact ⟨hb.1, htype.imp_right fun htype => by rwa [hb.2]⟩
      · exact absurd (List.mem_singleton.mp hmem) hne
      refine seq_rule (iupdate_spec mem_cons_self major minor 1) fun _ => ?_
      rw [setNode_self, setNode_setNode]
      have hdp : (a.setNode ip { type, major, minor, nlink := 1 }).node dp = a.node dp :=
        setNode_of_ne a hne.symm _
      refine (create_make_spec hne hi0 (hlt.trans_le sb.ninodes_le)
        (setNode_self _ _ _) (by rw [hdp, ← hlook])).post fun r b hb => ?_
      obtain ⟨⟨n, hb, hvacant⟩, rfl⟩ := hb
      exact .made (.made hr.symm (hdp ▸ hvacant) hne ⟨hi0, hlt⟩ hfree) hb

/-- Nothing changes, or `create` makes an inode. -/
def MayCreate (sb : Superblock) (a : Inodes) (cwd : Nat) (path : Bytes) (type major minor : Nat)
    (a' : Inodes) : Prop := a' = a ∨ ∃ ip, Created sb a cwd path type major minor ip a'

/-! ## The other calls -/

inductive OpenDone (sb : Superblock) (O : Prop) (a : Inodes) (h : List Nat) (cwd : Nat)
    (path : Bytes) (ocreate rdonly room : Bool) : Option Nat → Inodes → Prop
  | failed {a' b : Inodes} (hmay : a' = a ∨ ocreate = true ∧ MayCreate sb a cwd path T_FILE 0 0 a')
    (hb : Holds O a' h [] b) : OpenDone sb O a h cwd path ocreate rdonly room none b
  | opened {ip : Nat} {a' b : Inodes}
    (hmay : a' = a ∨ ocreate = true ∧ MayCreate sb a cwd path T_FILE 0 0 a')
    (hroom : room = true) (htype : (a'.node ip).type ≠ 0)
    (hdir : (a'.node ip).type = T_DIR → rdonly = true) (hb : Keeping O a' h ip b) :
    OpenDone sb O a h cwd path ocreate rdonly room (some ip) b

theorem sysOpen_finish_spec (room : Bool) (ip : Nat) :
    Spec sb (Holds O a (ip :: h) [ip]) (sysOpen.finish room ip)
      (fun r b => r = none ∧ Holds O a h [] b ∨
        r = some ip ∧ room = true ∧ Keeping O a h ip b ∧ (a.node ip).type ≠ 0) D N := by
  refine ite_rule (fun hroom => ?_) fun _ => ?_
  · exact seq_rule iunlock_keeping_spec fun _ => Spec.pure fun b hb => .inr ⟨rfl, hroom, hb⟩
  · exact iunlockput_pure fun b hb => .inl ⟨rfl, hb⟩

theorem Created.type_eq {a' : Inodes}
    (hmade : Created sb a cwd path type major minor ip a') (htype : type ≠ T_DIR) :
    (a'.node ip).type = type := by
  obtain ⟨-, -, hne, -, -⟩ := hmade
  unfold created withDots setDirent
  rw [if_neg htype, setNode_of_ne _ hne, setNode_self]

/-- `sys_open` changes at most what `create` does. -/
theorem sysOpen_spec (hs : N ∨ Safe a cwd path)
    (ocreate rdonly room : Bool) : Spec sb (Holds O a h []) (sysOpen cwd path ocreate rdonly room)
      (OpenDone sb O a h cwd path ocreate rdonly room) D N := by
  have hfinish : ∀ {a' : Inodes} {ip : Nat},
      (a' = a ∨ ocreate = true ∧ MayCreate sb a cwd path T_FILE 0 0 a') →
      ((a'.node ip).type = T_DIR → rdonly = true) →
      Spec sb (Holds O a' (ip :: h) [ip]) (sysOpen.finish room ip)
        (OpenDone sb O a h cwd path ocreate rdonly room) D N := by
    intro a' ip hmay hdir
    refine (sysOpen_finish_spec room ip).post fun r b hb => ?_
    obtain ⟨rfl, hb⟩ | ⟨rfl, hroom, hb, htype⟩ := hb
    · exact .failed hmay hb
    · exact .opened hmay hroom htype hdir hb
  refine ite_rule (fun hcreate => ?_) fun _ => ?_
  · refine seq_rule (create_spec hs (.inr (by decide)) 0 0) fun r => ⟨fun b hb => ?_⟩
    cases hb with
    | failed hb => exact .failed (.inl rfl) hb
    | there _ _ htype hb =>
      refine (hfinish (.inl rfl) fun hdir => ?_).run b hb
      rw [htype.2] at hdir
      cases hdir
    | made hmade hb =>
      refine (hfinish (.inr ⟨hcreate, .inr ⟨_, hmade⟩⟩) fun hdir => ?_).run b hb
      rw [hmade.type_eq (by decide)] at hdir
      cases hdir
  · refine seq_rule (namei_spec hs) fun r => .pre_and fun hr => ?_
    match r with
    | none => exact Spec.pure fun b hb => .failed (.inl rfl) hb
    | some ip =>
      have hk : N ∨ Kept a ip := hs.imp_right fun hs => hs.resolve hr.symm
      refine seq_rule (ilock_free_spec hk (by simp)) fun _ => ?_
      refine fields_bind mem_cons_self ?_
      refine ite_rule (fun _ => ?_) fun hdir => hfinish (.inl rfl) fun htype => ?_
      · exact iunlockput_pure fun b hb => .failed (.inl rfl) hb
      · simpa [htype] using hdir

/-- `sys_mkdir` and `sys_mknod`. -/
theorem makeNode_spec (hs : N ∨ Safe a cwd path)
    (htype : type ≠ 0) (major minor : Nat) : Spec sb (Holds O a h []) (makeNode cwd path type major minor)
      (fun _ b => ∃ a', Holds O a' h [] b ∧ MayCreate sb a cwd path type major minor a') D N := by
  have hput : ∀ {a' : Inodes} {ip : Nat}, MayCreate sb a cwd path type major minor a' →
      Spec sb (Holds O a' (ip :: h) [ip]) (iunlockput ip >>= fun _ => pure 0)
        (fun (_ : Int) b => ∃ a', Holds O a' h [] b ∧ MayCreate sb a cwd path type major minor a')
        D N := fun hmay =>
    iunlockput_pure fun b hb => ⟨_, hb, hmay⟩
  refine seq_rule (create_spec hs (.inr htype) major minor) fun r => ⟨fun b hb => ?_⟩
  cases hb with
  | failed hb => exact ⟨a, hb, .inl rfl⟩
  | there _ _ _ hb => exact (hput (.inl rfl)).run b hb
  | made hmade hb => exact (hput (.inr ⟨_, hmade⟩)).run b hb

/-- The reference that a process had to its current directory goes to the new one. -/
inductive ChdirDone (O : Prop) (a : Inodes) (h : List Nat) (cwd : Nat) : Option Nat → Inodes → Prop
  | failed {b : Inodes} (hb : Holds O a h [] b) : ChdirDone O a h cwd none b
  | done {ip : Nat} {b : Inodes} (htype : (a.node ip).type = T_DIR)
    (hb : 0 < a.ref cwd → Keeping O (a.setRef cwd (a.ref cwd - 1)) h ip b) : ChdirDone O a h cwd (some ip) b

theorem sysChdir_spec (hs : N ∨ Safe a cwd path) :
    Spec sb (Holds O a h []) (sysChdir cwd path) (ChdirDone O a h cwd) D N := by
  refine seq_rule (namei_spec hs) fun r => .pre_and fun hr => ?_
  match r with
  | none => exact Spec.pure fun b hb => .failed hb
  | some ip =>
    have hk : N ∨ Kept a ip := hs.imp_right fun hs => hs.resolve hr.symm
    refine seq_rule (ilock_free_spec hk (by simp)) fun _ => ?_
    refine fields_bind mem_cons_self ?_
    refine ite_rule (fun _ => ?_) fun htype => ?_
    · exact iunlockput_pure fun b hb => .failed hb
    have htype : (a.node ip).type = T_DIR := not_not.mp htype
    refine seq_rule iunlock_keeping_spec fun _ => .pre_and fun _ => ?_
    by_cases href : 0 < a.ref cwd
    · exact seq_rule (iput_keeping_spec href) fun _ =>
        Spec.pure fun b hb => .done htype fun _ => hb
    · exact seq_rule ((iput_any_spec (by simp)).pre fun _ hb => hb.holds) fun _ =>
        Spec.pure fun b hb => .done htype fun h => absurd h href

theorem exec_loads_spec (hi : ip ∈ l) (reads : List (Word × Word)) :
    Spec sb (Holds O a h l) (exec.loads ip reads) (fun _ => Holds O a h l) D N := by
  induction reads with
  | nil => exact Spec.pure fun b hb => hb
  | cons r rest ih =>
    exact seq_rule ((readi_spec hi _ r.2.isLt).post fun _ _ hb => hb.1) fun _ => ih

/-- `exec` only reads. -/
theorem exec_spec (hs : N ∨ Safe a cwd path) (reads : List (Word × Word)) :
    Spec sb (Holds O a h []) (exec cwd path reads) (fun _ => Holds O a h []) D N := by
  refine seq_rule (namei_spec hs) fun r => .pre_and fun hr => ?_
  match r with
  | none => exact Spec.pure fun b hb => hb
  | some ip =>
    have hk : N ∨ Kept a ip := hs.imp_right fun hs => hs.resolve hr.symm
    refine seq_rule (ilock_free_spec hk (by simp)) fun _ => ?_
    refine seq_rule (exec_loads_spec mem_cons_self reads) fun _ => ?_
    exact iunlockput_spec (by simp)

/-! ## Open files -/

theorem fileread_spec (hk : N ∨ Kept a ip) (off : Nat) (n : Word) :
    Spec sb (Holds O a h []) (fileread ip off n) (fun _ => Holds O a h []) D N := by
  refine seq_rule (ilock_free_spec hk (by simp)) fun _ => ?_
  refine seq_rule ((readi_spec mem_cons_self _ n.isLt).post fun _ _ hb => hb.1) fun _ => ?_
  exact seq_rule (iunlock_spec (by simp)) fun _ => Spec.pure fun b hb => hb

/-- The content is replaced. -/
def setContent (a : Inodes) (i : Nat) (c : Bytes) : Inodes :=
  a.setNode i { a.node i with content := c }

theorem setContent_self (a : Inodes) (i : Nat) : setContent a i (a.node i).content = a := by
  unfold setContent Inodes.setNode
  rw [Function.update_eq_self]

theorem setContent_setContent (a : Inodes) (i : Nat) (c c' : Bytes) :
    setContent (setContent a i c) i c' = setContent a i c' := by
  unfold setContent
  rw [setNode_self, setNode_setNode]

theorem Kept.setContent (hi : Kept a i) (c : Bytes) : Kept (setContent a i c) i := by
  unfold Kept Calls.setContent
  rw [setNode_self]
  exact hi

/-- A write changes one content only. -/
theorem filewriteLoop_spec {fuel : Nat} {src : Bytes} (hk : N ∨ Kept a ip) :
    Spec sb (Holds O a h []) (filewriteLoop ip fuel off src)
      (fun _ b => ∃ c, Holds O (setContent a ip c) h [] b) D N := by
  induction fuel generalizing a off src with
  | zero => exact Spec.pure fun b hb => ⟨(a.node ip).content, by rwa [setContent_self]⟩
  | succ fuel ih =>
    have hdone : ∀ b, Holds O a h [] b → ∃ c, Holds O (setContent a ip c) h [] b := fun b hb =>
      ⟨(a.node ip).content, by rwa [setContent_self]⟩
    refine ite_rule (fun _ => Spec.pure hdone) fun _ => ?_
    refine seq_rule (ilock_free_spec hk (by simp)) fun _ => ?_
    have hlen : (src.take maxWrite).length < 2 ^ 32 := (List.length_take_le _ _).trans_lt (by decide)
    refine seq_rule (writei_spec mem_cons_self _ hlen) fun r => ?_
    match r with
    | none =>
      have hunlock : Spec sb (Holds O a h [ip]) (iunlock ip) (fun _ => Holds O a h []) D N :=
        iunlock_spec (by simp)
      refine seq_rule (hunlock.pre fun b hb => ?_) fun _ => Spec.pure hdone
      obtain ⟨-, hb⟩ | ⟨-, hr⟩ := hb
      · exact hb
      · cases hr
    | some n =>
      have hunlock : Spec sb (Holds O (written a ip off (src.take maxWrite)) h [ip]) (iunlock ip)
        (fun _ => Holds O (written a ip off (src.take maxWrite)) h []) D N := iunlock_spec (by simp)
      refine seq_rule (hunlock.pre fun b hb => ?_) fun _ =>
        ite_rule (fun _ => Spec.panic _ (by decide) _) fun _ => ?_
      · obtain ⟨hr, -⟩ | ⟨hb, -⟩ := hb
        · cases hr
        · exact hb.1
      · have hkept : N ∨ Kept (written a ip off (src.take maxWrite)) ip := hk.imp_right (Kept.setContent · _)
        refine (ih hkept).post fun _ b ⟨c, hb⟩ => ⟨c, ?_⟩
        rw [← setContent_setContent a ip]
        exact hb

end Xv6.Calls

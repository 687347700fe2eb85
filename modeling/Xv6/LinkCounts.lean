import Xv6.Bitmap
import Xv6.NameTree

/-!
# Link counts

Every call keeps the tree of directories, and with it the link counts, if it makes new names only in
directories that have links themselves. `mkfs` makes such a tree.
-/

namespace Xv6.Calls

open Store

variable {sb : Superblock} {t t' : Tables} {a a' b : Inodes} {cwd dp ip n : Nat} {name : Name}
  {path : Bytes} {c : Call}

/-! ## The calls -/

/-- The directory that a new name is made in has links. -/
def InLinked (a : Inodes) (cwd : Nat) (path : Bytes) : Prop :=
  ∀ r ∈ resolveParent a.node cwd path, 0 < (a.node r.1).nlink

instance (a : Inodes) (cwd : Nat) (path : Bytes) : Decidable (InLinked a cwd path) :=
  inferInstanceAs (Decidable (∀ r ∈ resolveParent a.node cwd path, 0 < (a.node r.1).nlink))

/-- The new names of a call. -/
def Call.newNames : Call → List Bytes
  | .open path omode _ => if hasFlag omode O_CREATE then [path] else []
  | .mkdir path | .mknod path _ _ => [path]
  | .link _ new => [new]
  | _ => []

theorem resolveParent_type (hr : resolveParent a.node cwd path = some (dp, name)) :
    (a.node dp).type = T_DIR := by
  unfold resolveParent at hr
  split at hr
  · next hw =>
    cases hr
    exact (walk_parent hw).1
  · cases hr

theorem InLinked.linked (hin : InLinked a cwd path)
    (hr : resolveParent a.node cwd path = some (dp, name)) : (graph a.node).Linked dp :=
  ⟨resolveParent_type hr, hin (dp, name) hr⟩

theorem NameTree.lt (hn : NameTree sb a.node) (hip : (a.node ip).type ≠ 0) : ip < 2 ^ 16 :=
  Nat.lt_of_lt_of_le ((hn.formed ip).num hip).2 sb.ninodes_le

theorem created_file_node (a : Inodes) (n : Nat) (name : Name) {type : Nat} (major minor : Nat)
    (hne : ip ≠ dp) (htype : type ≠ T_DIR) (x : Nat) :
    (created a dp n name ip type major minor).node x =
      if x = dp then putDirent (a.node dp) n ⟨ip, name⟩
      else if x = ip then { type, major, minor, nlink := 1 } else a.node x := by
  unfold created withDots
  rw [if_neg htype]
  unfold setDirent
  rw [setNode_of_ne _ hne.symm]
  by_cases hx : x = dp
  · rw [if_pos hx, hx, setNode_self]
  · rw [if_neg hx, setNode_of_ne _ hx]
    by_cases hip : x = ip
    · rw [if_pos hip, hip, setNode_self]
    · rw [if_neg hip, setNode_of_ne _ hip]

/-- A new directory. -/
def dotsNode (dp ip : Nat) : Node :=
  putDirent (putDirent { type := T_DIR, nlink := 1 } 0 ⟨ip, dot⟩) 1 ⟨dp, dotdot⟩

theorem created_dir_node (a : Inodes) (n : Nat) (name : Name) (hne : ip ≠ dp) (x : Nat) :
    (created a dp n name ip T_DIR 0 0).node x =
      if x = dp then { putDirent (a.node dp) n ⟨ip, name⟩ with nlink := (a.node dp).nlink + 1 }
      else if x = ip then dotsNode dp ip else a.node x := by
  unfold created withDots
  rw [if_pos rfl]
  unfold setDirent addLink dotsNode
  by_cases hx : x = dp
  · subst hx
    rw [if_pos rfl, setNode_self, setNode_of_ne _ hne.symm, setNode_of_ne _ hne.symm,
      setNode_self, setNode_of_ne _ hne.symm]
    rfl
  · rw [if_neg hx, setNode_of_ne _ hx]
    by_cases hip : x = ip
    · subst hip
      rw [if_pos rfl, setNode_self, setNode_self, setNode_of_ne _ hne, setNode_self]
    · rw [if_neg hip, setNode_of_ne _ hip, setNode_of_ne _ hip, setNode_of_ne _ hx,
        setNode_of_ne _ hip]

theorem entry_dotsNode (hdp : dp < 2 ^ 16) (hip : ip < 2 ^ 16) (m : Nat) : entry (dotsNode dp ip) m =
    if m = 1 then ⟨dp, dotdot⟩ else if m = 0 then ⟨ip, dot⟩ else .empty := by
  unfold dotsNode
  have hnents : nents (putDirent { type := T_DIR, nlink := 1 } 0 ⟨ip, dot⟩) = 1 := by
    rw [nents_putDirent (Nat.zero_le _)]
    rfl
  rw [entry_putDirent (by omega) hdp, entry_putDirent (Nat.zero_le _) hip]
  rfl

theorem formed_dotsNode (hdp : dp < 2 ^ 16 ∧ dp ≠ 0) (hip : ip ≠ 0 ∧ ip < sb.ninodes) :
    Formed sb ip (dotsNode dp ip) := by
  have hentry := entry_dotsNode hdp.1 (Nat.lt_of_lt_of_le hip.2 sb.ninodes_le)
  refine ⟨fun _ => hip, fun _ => ⟨hentry 0, ?_, fun n hn => ?_, ?_⟩⟩
  · rw [hentry 1]
    exact ⟨rfl, hdp.2⟩
  · rw [hentry] at hn
    exact absurd rfl hn
  · have hone : DIRENT * 1 ≤ (putDirent { type := T_DIR, nlink := 1 } 0 ⟨ip, dot⟩).content.length := by
      rw [length_putDirent (Nat.zero_le _)]
      exact Nat.le_max_right _ _
    unfold dotsNode
    rw [length_putDirent hone, length_putDirent (Nat.zero_le _)]
    rfl

theorem Created.free {type major minor : Nat} (hO : NoOrphans a)
    (hmade : Created sb a cwd path type major minor ip a') : (a.node ip).type = 0 := by
  obtain ⟨-, -, -, -, hfree⟩ := hmade
  refine hfree.elim id fun hfree => ?_
  by_contra htype
  have := (hO ip htype hfree.2).1
  omega

section
variable (hn : NameTree sb a.node)
include hn

theorem NameTree.slot (hd : (graph a.node).Linked dp) (hvacant : Vacant (a.node dp) name n) :
    name ≠ dot ∧ ∃ k, n = k + 2 ∧ (graph a.node dp).child k = none := by
  have hdp : (a.node dp).type ≠ 0 := hn.tree.live hd.1
  obtain ⟨hname, k, rfl, hslot⟩ := hvacant.slot ((hn.formed dp).dotted hd.1) ((hn.formed dp).num hdp).1
  exact ⟨hname, k, rfl, if_neg fun h => h.2 hslot⟩

theorem NameTree.created_file {type major minor : Nat} (hO : NoOrphans a)
    (hin : InLinked a cwd path) (hmade : Created sb a cwd path type major minor ip a') (h0 : type ≠ 0)
    (htype : type ≠ T_DIR) : NameTree sb a'.node := by
  have hfree := hmade.free hO
  obtain ⟨hparent, hvacant, hne, hnum, -⟩ := hmade
  next dp n name =>
  have hlinked := hin.linked hparent
  obtain ⟨hname, k, rfl, hslot⟩ := hn.slot hlinked hvacant
  have hlt : ip < 2 ^ 16 := Nat.lt_of_lt_of_le hnum.2 sb.ninodes_le
  have hnode := created_file_node a (k + 2) name major minor hne htype
  have hip : (created a dp (k + 2) name ip type major minor).node ip =
      { type, major, minor, nlink := 1 } := by
    rw [hnode, if_neg hne, if_pos rfl]
  have hs : SetsEntry a.node (created a dp (k + 2) name ip type major minor).node dp k ⟨ip, name⟩
      (a.node dp).nlink ip :=
    { here := by
        rw [hnode, if_pos rfl]
        rfl
      rest := fun hx hxi => by rw [hnode, if_neg hx, if_neg hxi]
      linked := hlinked
      le := hvacant.le
      inum := hlt
      name := fun _ => hname }
  have hsets := hs.sets (by rw [hfree]; decide) (by rw [hip]; exact htype)
  rw [if_neg hnum.1] at hsets
  refine hs.nameTree hn (hn.tree.addFile hsets hslot ?_ ?_) ?_
  · show (Inodes.node _ ip).type ≠ 0
    rwa [hip]
  · have hone : (graph (created a dp (k + 2) name ip type major minor).node ip).nlink = 1 := by
      show (Inodes.node _ ip).nlink = 1
      rw [hip]
    rw [hone]
    exact Counts.zero (hn.tree.not_refers fun hlive => hlive hfree)
  · rw [hip]
    exact ⟨fun _ => hnum, fun h => absurd h htype⟩

theorem NameTree.created_dir (hO : NoOrphans a) (hin : InLinked a cwd path)
    (hmade : Created sb a cwd path T_DIR 0 0 ip a') : NameTree sb a'.node := by
  have hfree := hmade.free hO
  obtain ⟨hparent, hvacant, hne, hnum, -⟩ := hmade
  next dp n name =>
  have hlinked := hin.linked hparent
  have hdp : (a.node dp).type ≠ 0 := hn.tree.live hlinked.1
  obtain ⟨hname, k, rfl, hslot⟩ := hn.slot hlinked hvacant
  have hlt : ip < 2 ^ 16 := Nat.lt_of_lt_of_le hnum.2 sb.ninodes_le
  have hnode := created_dir_node a (k + 2) name hne
  have hip : (created a dp (k + 2) name ip T_DIR 0 0).node ip = dotsNode dp ip := by
    rw [hnode, if_neg hne, if_pos rfl]
  have hview : graph (created a dp (k + 2) name ip T_DIR 0 0).node ip = view (dotsNode dp ip) :=
    congrArg view hip
  have hs : SetsEntry a.node (created a dp (k + 2) name ip T_DIR 0 0).node dp k ⟨ip, name⟩
      ((a.node dp).nlink + 1) ip :=
    { here := by rw [hnode, if_pos rfl]
      rest := fun hx hxi => by rw [hnode, if_neg hx, if_neg hxi]
      linked := hlinked
      le := hvacant.le
      inum := hlt
      name := fun _ => hname }
  have hgd := hs.view_here
  rw [if_neg hnum.1] at hgd
  have hentry := entry_dotsNode (hn.lt hdp) hlt
  refine hs.nameTree hn (hn.tree.addDir hlinked hslot (fun hlive => hlive hfree) hgd ?_ ?_ ?_ ?_
    (fun m => ?_) hs.view_rest) ?_
  · rw [hview]
    show T_DIR ≠ 0
    decide
  · rw [hview]
    rfl
  · rw [hview]
    rfl
  · rw [hview]
    show (entry (dotsNode dp ip) 1).inum = dp
    rw [hentry]
    rfl
  · rw [hview]
    refine if_neg fun h => h.2 ?_
    rw [hentry]
    rfl
  · rw [hip]
    exact formed_dotsNode ⟨hn.lt hdp, ((hn.formed dp).num hdp).1⟩ hnum

theorem NameTree.link (hin : InLinked a cwd path) (hlive : (a.node ip).type ≠ 0)
    (htype : (a.node ip).type ≠ T_DIR) (hparent : resolveParent a.node cwd path = some (dp, name))
    (hvacant : Vacant (a.node dp) name n) :
    NameTree sb (setDirent (addLink a ip 1) dp n ⟨ip, name⟩).node := by
  have hlinked := hin.linked hparent
  obtain ⟨hname, k, rfl, hslot⟩ := hn.slot hlinked hvacant
  have hne : ip ≠ dp := by
    rintro rfl
    exact htype hlinked.1
  have hnum := (hn.formed ip).num hlive
  have hip : (setDirent (addLink a ip 1) dp (k + 2) ⟨ip, name⟩).node ip =
      { a.node ip with nlink := (a.node ip).nlink + 1 } := by
    unfold setDirent addLink
    rw [setNode_of_ne _ hne, setNode_self]
  have hs : SetsEntry a.node (setDirent (addLink a ip 1) dp (k + 2) ⟨ip, name⟩).node dp k ⟨ip, name⟩
      (a.node dp).nlink ip :=
    { here := by
        unfold setDirent addLink
        rw [setNode_self, setNode_of_ne _ hne.symm]
        rfl
      rest := fun hx hxi => by
        unfold setDirent addLink
        rw [setNode_of_ne _ hx, setNode_of_ne _ hxi]
      linked := hlinked
      le := hvacant.le
      inum := hn.lt hlive
      name := fun _ => hname }
  have hsets := hs.sets htype (by rw [hip]; exact htype)
  rw [if_neg hnum.1] at hsets
  refine hs.nameTree hn (hn.tree.addFile hsets hslot ?_ ?_) ?_
  · show (Inodes.node _ ip).type ≠ 0
    rwa [hip]
  · have hnlink : (graph (setDirent (addLink a ip 1) dp (k + 2) ⟨ip, name⟩).node ip).nlink =
        (graph a.node ip).nlink + 1 := by
      show (Inodes.node _ ip).nlink = _
      rw [hip]
      rfl
    rw [hnlink, Int.add_sub_cancel]
    exact hn.tree.exact hlive
  · rw [hip]
    exact ⟨fun _ => hnum, fun h => absurd h htype⟩

/-! ## `unlink` -/

theorem NameTree.slot_of_lookup (hd : (a.node dp).type = T_DIR)
    (hdots : ¬ (name = dot ∨ name = dotdot)) (hlook : lookup (a.node dp) name = some (ip, DIRENT * n)) :
    (graph a.node).Linked dp ∧ ∃ k, n = k + 2 ∧ k + 2 < nents (a.node dp) ∧
      (graph a.node dp).child k = some ip := by
  obtain ⟨m, hm, hentry, hip⟩ := entry_of_lookup hlook
  obtain rfl : n = m := Nat.eq_of_mul_eq_mul_left (by decide) hm
  have hlt : n < nents (a.node dp) := lt_of_entry (by rwa [hentry])
  have hdotted := (hn.formed dp).dotted hd
  obtain ⟨k, rfl⟩ : ∃ k, n = k + 2 := by
    match n with
    | 0 =>
      rw [hdotted.dot] at hentry
      exact absurd (.inl (congrArg Dirent.name hentry).symm) hdots
    | 1 =>
      have hname := hdotted.dotdot.1
      rw [hentry] at hname
      exact absurd (.inr hname) hdots
    | k + 2 => exact ⟨k, rfl⟩
  have hchild : (graph a.node dp).child k = some ip := by
    have hinum : (entry (a.node dp) (k + 2)).inum = ip := by rw [hentry]
    rw [← hinum] at hip ⊢
    exact if_pos ⟨hd, hip⟩
  refine ⟨⟨hd, ?_⟩, k, rfl, hlt, hchild⟩
  by_contra hle
  have hnone := hn.tree.empty (d := dp) hd (not_lt.mp hle) k
  rw [hchild] at hnone
  cases hnone

end

theorem unlinked_node (hne : ip ≠ dp) (x : Nat) : (unlinked a dp ip n).node x =
    if x = dp then { putDirent (a.node dp) n .empty with
      nlink := (a.node dp).nlink + if (a.node ip).type = T_DIR then -1 else 0 }
    else if x = ip then { a.node ip with nlink := (a.node ip).nlink - 1 } else a.node x := by
  unfold unlinked setDirent addLink
  by_cases hx : x = dp
  · subst hx
    rw [if_pos rfl, setNode_of_ne _ hne.symm, setNode_self, setNode_self]
    rfl
  · rw [if_neg hx]
    by_cases hip : x = ip
    · subst hip
      rw [if_pos rfl, setNode_self, setNode_of_ne _ hx, setNode_of_ne _ hx]
      rfl
    · rw [if_neg hip, setNode_of_ne _ hip, setNode_of_ne _ hx, setNode_of_ne _ hx]

theorem NameTree.unlink (hn : NameTree sb a.node) (hd : (a.node dp).type = T_DIR)
    (hdots : ¬ (name = dot ∨ name = dotdot)) (hlook : lookup (a.node dp) name = some (ip, DIRENT * n))
    (hne : ip ≠ dp)
    (hempty : (a.node ip).type = T_DIR → firstFrom (a.node ip) (fun de => de.inum ≠ 0) 2 = none) :
    NameTree sb (unlinked a dp ip n).node := by
  obtain ⟨hlinked, k, rfl, hlt, hslot⟩ := hn.slot_of_lookup hd hdots hlook
  have hnode := unlinked_node (a := a) (n := k + 2) hne
  have hlive : (a.node ip).type ≠ 0 := hn.tree.alloc hlinked hslot
  have hip : (unlinked a dp ip (k + 2)).node ip = { a.node ip with nlink := (a.node ip).nlink - 1 } := by
    rw [hnode, if_neg hne, if_pos rfl]
  have hview : graph (unlinked a dp ip (k + 2)).node ip =
      { graph a.node ip with nlink := (graph a.node ip).nlink - 1 } := congrArg view hip
  have hs : SetsEntry a.node (unlinked a dp ip (k + 2)).node dp k .empty
      ((a.node dp).nlink + if (a.node ip).type = T_DIR then -1 else 0) ip :=
    { here := by rw [hnode, if_pos rfl]
      rest := fun hx hxi => by rw [hnode, if_neg hx, if_neg hxi]
      linked := hlinked
      le := hlt.le
      inum := by decide
      name := fun h => absurd rfl h }
  have hformed : Formed sb ip ((unlinked a dp ip (k + 2)).node ip) := by
    rw [hip]
    refine ⟨fun _ => (hn.formed ip).num hlive, fun htype => ?_⟩
    have hold := (hn.formed ip).dotted htype
    exact ⟨hold.dot, hold.dotdot, hold.named, hold.whole⟩
  refine hs.nameTree hn ?_ hformed
  by_cases htype : (a.node ip).type = T_DIR
  · rw [if_pos htype] at hs
    -- an empty directory
    refine hn.tree.removeDir hlinked hslot htype (fun m => ?_) hs.view_here hview hs.view_rest
    refine if_neg fun h => ?_
    have hm := lt_of_entry h.2
    have hnone := firstFrom_eq_none (hempty htype) (Nat.le_add_left 2 m) hm
    rw [entry_of_lt hm] at h
    exact hnone (by simpa using h.2)
  · rw [if_neg htype, Int.add_zero] at hs
    have hsets := hs.sets htype (by rw [hip]; exact htype)
    refine hn.tree.removeFile hsets hslot ?_ ?_
    · rw [hview]
      exact hlive
    · rw [hview]

/-! ## Runs -/

theorem Effect.nameTree (he : Effect sb t a cwd c a') (hn : NameTree sb a.node) (hO : NoOrphans a)
    (ht : Typed t a) (hin : ∀ path ∈ c.newNames, InLinked a cwd path) : NameTree sb a'.node := by
  cases he with
  | same => exact hn
  | «open» hcreate hmade =>
    refine hn.created_file hO (hin _ ?_) hmade (by decide) (by decide)
    simp [Call.newNames, hcreate]
  | mkdir hmade => exact hn.created_dir hO (hin _ List.mem_cons_self) hmade
  | mknod hmade => exact hn.created_file hO (hin _ List.mem_cons_self) hmade (by decide) (by decide)
  | link hold hlive htype hnew hvacant =>
    exact hn.link (hin _ List.mem_cons_self) hlive htype hnew hvacant
  | unlink hparent hdots hlook hne _ hempty =>
    exact hn.unlink (resolveParent_type hparent) hdots hlook hne hempty
  | write hfile hwritable =>
    next f c =>
    have htype := (ht.file _ f hfile).2 hwritable
    have hnode : ∀ i, (setContent a f.ip c).node i = a.node i ∨ i = f.ip := by
      intro i
      by_cases hi : i = f.ip
      · exact .inr hi
      · exact .inl (setNode_of_ne _ hi _)
    refine hn.same_view (fun i => ?_) fun i hdir => (hnode i).resolve_right fun hi => htype (hi ▸ hdir)
    obtain hi | rfl := hnode i
    · rw [hi]
    · unfold setContent
      rw [setNode_self]
      unfold view
      simp only [htype, false_and, if_false]

/-- Between calls, with names in order. -/
structure Sys.Ordered (sb : Superblock) (s : Sys) : Prop extends s.Good sb where
  names : NameTree sb s.disk.inodes.node
  orphan : NoOrphans s.disk.inodes
  typed : Typed s.tables s.disk.inodes

/-- The next call makes its new names in directories that have links. -/
def NewInLinked (s : Sys) (pc : Fin NPROC × Call) : Prop :=
  ∀ cwd ∈ s.tables.cwd pc.1, ∀ path ∈ pc.2.newNames, InLinked s.disk.inodes cwd path

instance (s : Sys) (pc : Fin NPROC × Call) : Decidable (NewInLinked s pc) :=
  inferInstanceAs (Decidable (∀ cwd ∈ s.tables.cwd pc.1, ∀ path ∈ pc.2.newNames,
    InLinked s.disk.inodes cwd path))

variable {s s' : Sys} {files : List (Name × Bytes)}

theorem step_ordered {pc : Fin NPROC × Call} (hs : s.Ordered sb) (hguard : NewInLinked s pc)
    (hstep : step sb s pc = some s') : s'.Ordered sb := by
  obtain ⟨hd, cwd, hcwd, hafter⟩ := step_after hs.toGood hstep
  obtain ⟨a', he, hret, htyped⟩ := hafter hs.quiet hcwd
  have hn := he.nameTree hs.names hs.orphan hs.typed (hguard cwd hcwd)
  exact
    { consistent := hd
      quiet := hret.quiet
      names := hn.forget fun i => (hret.node i).imp_right fun hfree => ⟨hfree.1, hfree.2.2⟩
      orphan := hret.orphan hs.orphan
      typed := htyped hs.typed }

/-! ## The first tree -/

theorem entry_cons {d e : Node} {de : Dirent} (hd : d.content = de.toBytes ++ e.content)
    (hde : de.inum < 2 ^ 16) (m : Nat) :
    entry d m = match m with
      | 0 => de
      | m + 1 => entry e m := by
  have hlen := length_toBytes de
  have hnents : nents d = nents e + 1 := by
    unfold nents
    rw [hd, List.length_append, hlen, DIRENT_eq]
    omega
  match m with
  | 0 =>
    rw [entry_of_lt (by omega)]
    unfold direntAt
    rw [hd, Nat.mul_zero, List.drop_zero, ← hlen, List.take_left, ofBytes_toBytes hde]
  | m + 1 =>
    have hdrop : d.content.drop (DIRENT * (m + 1)) = e.content.drop (DIRENT * m) := by
      rw [hd, Nat.mul_succ, Nat.add_comm, ← List.drop_drop, ← hlen, List.drop_left]
    unfold entry direntAt
    rw [hnents, hdrop]
    simp only [Nat.add_lt_add_iff_right]

theorem entry_flatMap {l : List Dirent} (hl : ∀ de ∈ l, de.inum < 2 ^ 16) {d : Node} {k : Nat}
    (hd : d.content = l.flatMap Dirent.toBytes ++ List.replicate (DIRENT * k) 0) (m : Nat) :
    entry d m = l.getD m .empty := by
  induction l generalizing d m with
  | nil =>
    unfold entry
    split
    · next hm =>
      unfold nents at hm
      unfold direntAt
      rw [hd] at hm ⊢
      simp only [List.flatMap_nil, List.nil_append, List.length_replicate, List.drop_replicate,
        List.take_replicate] at hm ⊢
      rw [DIRENT_eq] at *
      rw [Nat.min_eq_left (by omega)]
      rfl
    · rfl
  | cons de l ih =>
    rw [entry_cons (e := { content := l.flatMap Dirent.toBytes ++ List.replicate (DIRENT * k) 0 })
      (by rw [hd, List.flatMap_cons, List.append_assoc]) (hl de List.mem_cons_self)]
    cases m with
    | zero => rfl
    | succ m => exact ih (fun de hde => hl de (List.mem_cons_of_mem _ hde)) rfl m

theorem whole_mkfsRound (l : Bytes) : (mkfsRound l).length % DIRENT = 0 := by
  have hbsize : Store.BSIZE = 512 := rfl
  unfold mkfsRound
  rw [List.length_append, List.length_replicate, hbsize, DIRENT_eq]
  omega

theorem entry_mkfs (hfiles : files.length + 2 ≤ sb.ninodes) (m : Nat) :
    entry (mkfs files 1) m = (mkfsEntries files).getD m .empty := by
  have hle := sb.ninodes_le
  have hl : ∀ de ∈ mkfsEntries files, de.inum < 2 ^ 16 := by
    intro de hde
    unfold mkfsEntries at hde
    simp only [List.mem_cons, List.mem_mapIdx] at hde
    obtain rfl | rfl | ⟨i, hi, rfl⟩ := hde
    · decide
    · decide
    · dsimp only
      omega
  have hlength : ((mkfsEntries files).flatMap Dirent.toBytes).length =
      DIRENT * (mkfsEntries files).length := by
    induction mkfsEntries files with
    | nil => rfl
    | cons de l ih => rw [List.flatMap_cons, List.length_append, ih, length_toBytes, List.length_cons,
        Nat.mul_succ, Nat.add_comm]
  -- a block has room for 32 entries
  obtain ⟨k, hk⟩ : ∃ k, (((mkfsEntries files).flatMap Dirent.toBytes).length / Store.BSIZE + 1) *
      Store.BSIZE - ((mkfsEntries files).flatMap Dirent.toBytes).length = DIRENT * k := by
    refine ⟨(DIRENT * (mkfsEntries files).length / Store.BSIZE + 1) * 32 - (mkfsEntries files).length, ?_⟩
    have hbsize : Store.BSIZE = 512 := rfl
    rw [hlength, DIRENT_eq, hbsize]
    omega
  refine entry_flatMap hl (k := k) ?_ m
  rw [← hk]
  rfl

theorem child_mkfs (hfiles : files.length + 2 ≤ sb.ninodes) (m : Nat) :
    (graph (mkfs files) 1).child m = if m < files.length then some (m + 2) else none := by
  have hentry : (entry (mkfs files 1) (m + 2)).inum = if m < files.length then m + 2 else 0 := by
    rw [entry_mkfs hfiles]
    show ((files.mapIdx fun i f => (⟨i + 2, f.1⟩ : Dirent)).getD m .empty).inum = _
    rw [List.getD_eq_getElem?_getD, List.getElem?_mapIdx]
    by_cases hm : m < files.length
    · rw [List.getElem?_eq_getElem hm, if_pos hm]
      rfl
    · rw [List.getElem?_eq_none (by omega), if_neg hm]
      rfl
  show (if (mkfs files 1).type = T_DIR ∧ (entry (mkfs files 1) (m + 2)).inum ≠ 0 then
    some (entry (mkfs files 1) (m + 2)).inum else none) = _
  rw [hentry]
  have hroot : (mkfs files 1).type = T_DIR := rfl
  by_cases hm : m < files.length
  · rw [if_pos hm, if_pos ⟨hroot, by omega⟩, if_pos hm]
  · rw [if_neg hm, if_neg (by simp), if_neg hm]

theorem mkfs_file (m : Nat) : mkfs files (m + 2) =
    ((files[m]?).map fun f => { type := T_FILE, nlink := 1, content := f.2 }).getD {} := by
  cases hf : files[m]? <;> simp [mkfs, hf]

theorem dir_mkfs {i : Nat} (hi : (graph (mkfs files) i).dir) : i = ROOTINO := by
  have htype : (mkfs files i).type = T_DIR := hi
  match i with
  | 0 => cases htype
  | 1 => rfl
  | i + 2 =>
    rw [mkfs_file] at htype
    cases hf : files[i]? <;> rw [hf] at htype <;> cases htype

theorem live_mkfs {i : Nat} (hi : (mkfs files i).type ≠ 0) :
    (mkfs files i).nlink = 1 ∧ (i = ROOTINO ∨ ∃ m, i = m + 2 ∧ m < files.length) := by
  match i with
  | 0 => exact absurd rfl hi
  | 1 => exact ⟨rfl, .inl rfl⟩
  | i + 2 =>
    rw [mkfs_file] at hi ⊢
    cases hf : files[i]? with
    | none =>
      rw [hf] at hi
      exact absurd rfl hi
    | some f => exact ⟨rfl, .inr ⟨i, rfl, (List.getElem?_eq_some_iff.mp hf).1⟩⟩

theorem nameTree_mkfs (hfiles : files.length + 2 ≤ sb.ninodes) (hnames : ∀ f ∈ files, f.1 ≠ dot) :
    NameTree sb (mkfs files) := by
  have hchild : ∀ m, (graph (mkfs files) 1).child m = if m < files.length then some (m + 2) else none :=
    child_mkfs hfiles
  have hup : (graph (mkfs files) ROOTINO).up = ROOTINO := by
    show (if (mkfs files 1).type = T_DIR then (entry (mkfs files 1) 1).inum else 0) = _
    rw [entry_mkfs hfiles]
    rfl
  have htop : (graph (mkfs files)).Linked ROOTINO := ⟨rfl, Int.one_pos⟩
  have hslot : ∀ {d m i}, (graph (mkfs files)).Linked d → (graph (mkfs files) d).child m = some i →
      d = ROOTINO ∧ i = m + 2 ∧ m < files.length := by
    intro d m i hd hm
    have hroot := dir_mkfs hd.1
    subst hroot
    rw [show ROOTINO = 1 from rfl, hchild] at hm
    split at hm
    · next hlt => exact ⟨rfl, (Option.some.inj hm).symm, hlt⟩
    · cases hm
  have hfile : ∀ {d m i}, (graph (mkfs files)).Linked d → (graph (mkfs files) d).child m = some i →
      ¬ (graph (mkfs files) i).dir := by
    intro d m i hd hm hi
    obtain ⟨-, rfl, -⟩ := hslot hd hm
    exact absurd (dir_mkfs hi) (by unfold ROOTINO; omega)
  refine ⟨⟨fun hd => ?_, ⟨htop, hup⟩, fun hd hm => ?_, fun hd hm => hfile hd hm rfl,
    fun hd hm hi => absurd hi (hfile hd hm), fun hd hm _ hi => absurd hi (hfile hd hm),
    fun hd hroot => absurd (dir_mkfs hd.1) hroot, fun {d} hd hle => ?_, fun {i} hi => ?_⟩, fun i => ?_⟩
  · rw [dir_mkfs hd]
    exact nofun
  · obtain ⟨-, rfl, hlt⟩ := hslot hd hm
    show (mkfs files (_ + 2)).type ≠ 0
    rw [mkfs_file, List.getElem?_eq_getElem hlt]
    exact nofun
  · rw [dir_mkfs hd] at hle
    exact absurd htop.2 (not_lt.mpr hle)
  · obtain ⟨hone, hi⟩ := live_mkfs hi
    show Counts _ (mkfs files i).nlink
    rw [hone]
    obtain rfl | ⟨m, rfl, hlt⟩ := hi
    · refine Counts.single (x := (ROOTINO, none)) ?_
      rintro ⟨d, m⟩
      constructor
      · rintro ⟨hd, hm⟩
        cases m with
        | none => exact congrArg (·, none) (dir_mkfs hd.1)
        | some m => exact absurd rfl (hfile hd hm)
      · rintro ⟨⟩
        exact ⟨htop, hup⟩
    · refine Counts.single (x := (ROOTINO, some m)) ?_
      rintro ⟨d, k⟩
      constructor
      · rintro ⟨hd, hk⟩
        cases k with
        | none =>
          rw [show d = ROOTINO from dir_mkfs hd.1, hup] at hk
          exact absurd hk (by unfold ROOTINO; omega)
        | some k =>
          obtain ⟨rfl, hmk, -⟩ := hslot hd hk
          obtain rfl : m = k := by omega
          rfl
      · rintro ⟨⟩
        exact ⟨htop, by show (graph (mkfs files) 1).child m = _; rw [hchild, if_pos hlt]⟩
  · refine ⟨fun hi => ?_, fun hi => ?_⟩
    · obtain ⟨-, rfl | ⟨m, rfl, hlt⟩⟩ := live_mkfs hi
      · unfold ROOTINO
        omega
      · omega
    · have hroot := dir_mkfs hi
      subst hroot
      have hentry : ∀ m, entry (mkfs files 1) m = (mkfsEntries files).getD m .empty := entry_mkfs hfiles
      refine ⟨hentry 0, by rw [show ROOTINO = 1 from rfl, hentry 1]; exact ⟨rfl, nofun⟩, fun m hm => ?_,
        whole_mkfsRound _⟩
      rw [show ROOTINO = 1 from rfl, hentry] at hm ⊢
      have hget : (mkfsEntries files).getD (m + 2) .empty =
          ((files[m]?).map fun f => (⟨m + 2, f.1⟩ : Dirent)).getD .empty := by
        show (files.mapIdx fun i f => (⟨i + 2, f.1⟩ : Dirent)).getD m .empty = _
        rw [List.getD_eq_getElem?_getD, List.getElem?_mapIdx]
      rw [hget] at hm ⊢
      cases hf : files[m]? with
      | none =>
        rw [hf] at hm
        exact absurd rfl hm
      | some f => exact hnames f (List.mem_of_getElem? hf)

/-- The machine has booted from an image of `mkfs`, and the first process runs. -/
structure Sys.Booted (sb : Superblock) (files : List (Name × Bytes)) (s : Sys) : Prop
    extends s.Good sb where
  image : s.disk.inodes.node = mkfs files
  tables : s.tables = firstTables
  room : files.length + 2 ≤ sb.ninodes
  names : ∀ f ∈ files, f.1 ≠ dot

theorem Sys.Booted.ordered (h : s.Booted sb files) : s.Ordered sb where
  toGood := h.toGood
  names := by
    rw [h.image]
    exact nameTree_mkfs h.room h.names
  orphan i htype hnlink := by
    rw [h.image] at htype hnlink
    rw [(live_mkfs htype).1] at hnlink
    cases hnlink
  typed := by
    rw [h.tables]
    refine ⟨fun p i hp => ?_, nofun⟩
    have hi : i = ROOTINO := by
      by_cases hp0 : p = 0
      · subst hp0
        simpa [firstTables, Tables.setCwd] using hp.symm
      · simp [firstTables, Tables.setCwd, hp0] at hp
    rw [hi, h.image]
    rfl

/-- While new names are only made in directories that have links, each inode has as many links as there are
names for it, and without links and references it is free. -/
theorem links_exact_of_run (hs : s.Booted sb files) (h : Run (step sb) NewInLinked s s') (i : Nat) :
    ((s'.disk.inodes.node i).type ≠ 0 → (s'.disk.inodes.node i).nlink = links sb s'.disk.inodes.node i) ∧
    ((s'.disk.inodes.node i).nlink = 0 → s'.tables.refs i = 0 → (s'.disk.inodes.node i).type = 0) := by
  have ht : s'.Ordered sb := h.invariant hs.ordered fun _ _ _ hs hg => step_ordered hs hg
  refine ⟨fun htype => (ht.names.links_eq htype).symm, fun hnlink hrefs => ?_⟩
  by_contra htype
  have hpos := (ht.orphan i htype hnlink).1
  rw [ht.quiet.ref, hrefs] at hpos
  exact absurd hpos (Nat.lt_irrefl 0)

theorem node_oneFile : oneFile.inodes.node = mkfs [(.of [102], [])] := by
  funext i
  match i with
  | 0 => rfl
  | 1 => decide +kernel
  | 2 => decide +kernel
  | i + 3 => rfl

theorem booted_oneFile : Sys.Booted mkfsSb [(.of [102], [])] ⟨oneFile, firstTables⟩ where
  toGood := good_oneFile
  image := node_oneFile
  tables := rfl
  room := by decide
  names := by decide

/-- A second name for the file, in a new directory. -/
theorem links_exact_of_run_oneFile :
    ∃ t, Run (step mkfsSb) NewInLinked ⟨oneFile, firstTables⟩ t ∧ (t.disk.inodes.node 2).nlink = 2 ∧
      links mkfsSb t.disk.inodes.node 2 = 2 := by
  have hx : (Run.execAll (fun s pc => if NewInLinked s pc then step mkfsSb s pc else none)
      ⟨oneFile, firstTables⟩ [(0, .mkdir [100]), (0, .link [102] [100, 47, 103])]).any fun t =>
      decide ((t.disk.inodes.node 2).type ≠ 0 ∧ (t.disk.inodes.node 2).nlink = 2) := by
    decide +kernel
  obtain ⟨t, hrun, ht⟩ := Run.exists_run hx
  obtain ⟨htype, hnlink⟩ := of_decide_eq_true ht
  have hrun := Run.of_checked hrun
  have hexact := (links_exact_of_run booted_oneFile hrun 2).1 htype
  refine ⟨t, hrun, hnlink, ?_⟩
  omega

/-- A directory is removed while it is the current directory, and then a file is made in it. -/
theorem links_lost : Sys.Booted mkfsSb [(.of [102], [])] ⟨oneFile, firstTables⟩ ∧
    ∃ t, Run (step mkfsSb) (fun _ _ => True) ⟨oneFile, firstTables⟩ t ∧
      (t.disk.inodes.node 4).type = T_FILE ∧ (t.disk.inodes.node 4).nlink = 1 ∧
      links mkfsSb t.disk.inodes.node 4 = 0 := by
  have hx : (Run.execAll (step mkfsSb) ⟨oneFile, firstTables⟩
      [(0, .mkdir [100]), (0, .chdir [100]), (0, .unlink [46, 46, 47, 100]),
        (0, .open [120] 0x202 (some 0))]).any fun t =>
      decide ((t.disk.inodes.node 4).type = T_FILE ∧ (t.disk.inodes.node 4).nlink = 1 ∧
        links mkfsSb t.disk.inodes.node 4 = 0) := by
    decide +kernel
  obtain ⟨t, hrun, ht⟩ := Run.exists_run hx
  exact ⟨booted_oneFile, t, hrun, of_decide_eq_true ht⟩

end Xv6.Calls

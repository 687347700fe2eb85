import Xv6.LinkCounts

/-!
# Lookups meet no free inode

In the tree of directories every name leads to an inode that is allocated. Only the `".."` of a directory
without links, which somebody still has as current directory, may be the number of an inode that is free by
now. A lookup that climbs out of such directories only through inodes that are allocated returns, and what it
returns is allocated.
-/

namespace Xv6.Calls

open Hoare Store
open Prog (seq_rule ite_rule op_rule)
open Prog (only_op)

variable {sb : Superblock} {a b : Inodes} {s s' : Sys} {files : List (Name × Bytes)} {cwd i d : Nat}
  {path : Bytes} {p : Fin NPROC}

/-! ## The way of a path -/

/-- The entries `"."` and `".."` at the start of the path, looked up in directories without links, lead to
inodes that are allocated. -/
def Climbs (node : Nat → Node) : List Name → Nat → Prop
  | [], _ => True
  | name :: rest, d => (node d).type = T_DIR → (node d).nlink ≤ 0 → (name = dot → Climbs node rest d) ∧
    (name = dotdot → (node (entry (node d) 1).inum).type ≠ 0 ∧ Climbs node rest (entry (node d) 1).inum)

section
variable (hn : NameTree sb a.node)
include hn

theorem NameTree.lookup_linked (hd : (graph a.node).Linked d) {name : Name}
    {next off : Nat} (hlook : lookup (a.node d) name = some (next, off)) :
    (a.node next).type ≠ 0 ∧ 0 < (a.node next).nlink := by
  obtain ⟨n, -, hentry, hnext⟩ := entry_of_lookup hlook
  have hdir : (a.node d).type = T_DIR := hd.1
  have hdotted := (hn.formed d).dotted hdir
  match n with
  | 0 =>
    rw [hdotted.dot] at hentry
    obtain rfl : d = next := congrArg Dirent.inum hentry
    exact ⟨hn.tree.live hd.1, hd.2⟩
  | 1 =>
    have hup : (graph a.node d).up = next := (if_pos hdir).trans (congrArg Dirent.inum hentry)
    have hlinked := hn.tree.linked_up hd
    rw [hup] at hlinked
    exact ⟨hn.tree.live hlinked.1, hlinked.2⟩
  | n + 2 =>
    have hchild : (graph a.node d).child n = some next := by
      have hinum : (entry (a.node d) (n + 2)).inum = next := congrArg Dirent.inum hentry
      rw [← hinum] at hnext ⊢
      exact if_pos ⟨hdir, hnext⟩
    exact ⟨hn.tree.alloc hd hchild, hn.tree.nlink_pos hd hchild⟩

theorem NameTree.safe_linked {names : List Name}
    (hd : (a.node d).type ≠ 0 ∧ 0 < (a.node d).nlink) : SafeFrom a names d := by
  induction names generalizing d with
  | nil => exact ⟨hd.1, .inl hd.2⟩
  | cons name rest ih =>
    exact ⟨⟨hd.1, .inl hd.2⟩, fun htype next off hlook => ih (hn.lookup_linked ⟨htype, hd.2⟩ hlook)⟩

theorem NameTree.lookup_unlinked (hdir : (a.node d).type = T_DIR)
    (hnlink : (a.node d).nlink ≤ 0) {name : Name} {next off : Nat}
    (hlook : lookup (a.node d) name = some (next, off)) :
    name = dot ∧ next = d ∨ name = dotdot ∧ next = (entry (a.node d) 1).inum := by
  obtain ⟨n, -, hentry, hnext⟩ := entry_of_lookup hlook
  have hdotted := (hn.formed d).dotted hdir
  match n with
  | 0 =>
    rw [hdotted.dot] at hentry
    exact .inl ⟨(congrArg Dirent.name hentry).symm, (congrArg Dirent.inum hentry).symm⟩
  | 1 =>
    have hname := hdotted.dotdot.1
    rw [hentry] at hname ⊢
    exact .inr ⟨hname, rfl⟩
  | n + 2 =>
    have hnone := hn.tree.empty (d := d) hdir hnlink n
    have hinum : (entry (a.node d) (n + 2)).inum = next := congrArg Dirent.inum hentry
    rw [← hinum] at hnext
    have hchild : (graph a.node d).child n = some (entry (a.node d) (n + 2)).inum := if_pos ⟨hdir, hnext⟩
    rw [hchild] at hnone
    cases hnone

theorem NameTree.kept (hO : NoOrphans a) (hd : (a.node d).type ≠ 0) : Kept a d := by
  refine ⟨hd, ?_⟩
  by_cases hnlink : (a.node d).nlink = 0
  · exact .inr (hO d hd hnlink).1
  · have hnonneg : 0 ≤ (a.node d).nlink := (hn.tree.exact (i := d) hd).nonneg
    exact .inl (by omega)

theorem NameTree.safe (hO : NoOrphans a) {names : List Name}
    (hd : (a.node d).type ≠ 0) (hclimb : Climbs a.node names d) : SafeFrom a names d := by
  induction names generalizing d with
  | nil => exact hn.kept hO hd
  | cons name rest ih =>
    refine ⟨hn.kept hO hd, fun htype next off hlook => ?_⟩
    by_cases hnlink : 0 < (a.node d).nlink
    · exact hn.safe_linked (hn.lookup_linked ⟨htype, hnlink⟩ hlook)
    · have hnlink := not_lt.mp hnlink
      obtain ⟨hdot, hdotdot⟩ := hclimb htype hnlink
      obtain ⟨hname, rfl⟩ | ⟨hname, rfl⟩ := hn.lookup_unlinked htype hnlink hlook
      · exact ih hd (hdot hname)
      · exact ih (hdotdot hname).1 (hdotdot hname).2

end

/-- The path names of a call. -/
def Call.paths : Call → List Bytes
  | .open path _ _ | .mkdir path | .mknod path _ _ | .unlink path | .chdir path | .exec path _ => [path]
  | .link old new => [old, new]
  | .read _ _ | .write _ _ | .close _ | .fork _ | .exit => []

theorem Sys.Ordered.safe (hs : s.Ordered sb) (hcwd : s.tables.cwd p = some cwd)
    (hclimb : Climbs s.disk.inodes.node (elems path) (start cwd path)) : Safe s.disk.inodes cwd path := by
  refine hs.names.safe hs.orphan ?_ hclimb
  unfold start
  split
  · exact hs.names.tree.live hs.names.tree.top.1.1
  · rw [hs.typed.cwd p cwd hcwd]
    decide

theorem Sys.Ordered.safeCall (hs : s.Ordered sb) (hcwd : s.tables.cwd p = some cwd) {c : Call}
    (hclimb : ∀ path ∈ c.paths, Climbs s.disk.inodes.node (elems path) (start cwd path)) :
    SafeCall s.tables s.disk.inodes cwd c := by
  have hfile : ∀ k f, s.tables.file k = some f → Kept s.disk.inodes f.ip := fun k f hf =>
    hs.names.kept hs.orphan (hs.typed.file k f hf).1
  cases c with
  | link old new => exact ⟨hs.safe hcwd (hclimb old (by simp [Call.paths])),
      hs.safe hcwd (hclimb new (by simp [Call.paths]))⟩
  | read k n => exact hfile k
  | write k src => exact hfile k
  | close k => trivial
  | fork q => trivial
  | exit => trivial
  | «open» path | mkdir path | mknod path | unlink path | chdir path | exec path =>
    exact hs.safe hcwd (hclimb path (by simp [Call.paths]))

/-! ## Lookups return -/

section Total
variable {α : Type} {P : Inodes → Prop} {O : Prop} {h l : List Nat}

/-- The program does not stop. -/
abbrev Total (sb : Superblock) (P : Inodes → Prop) (p : FsProg α) (Q : α → Inodes → Prop) : Prop :=
  Triple P (p.run (inodeOps sb)) Q fun _ _ => False

theorem Spec.total {p : FsProg α} {Q : α → Inodes → Prop} {D N : Prop} (hp : Spec sb P p Q D N)
    (hr : Total sb P p fun _ _ => True) : Total sb P p Q := by
  refine ⟨fun b hb => ?_⟩
  obtain ⟨r, b', hrun, -⟩ := hr.returns hb
  have hq := hp.run b hb
  rw [hrun] at hq ⊢
  exact hq

theorem length_filter_le_add {p q r : Nat → Bool} (hpqr : ∀ i, p i = true → q i = true ∨ r i = true)
    (l : List Nat) : (l.filter p).length ≤ (l.filter q).length + (l.filter r).length := by
  induction l with
  | nil => rfl
  | cons i l ih =>
    have hi := hpqr i
    simp only [List.filter_cons]
    split <;> split <;> split <;> simp_all <;> omega

theorem HoldsBut.cached_le {x : Option Nat} (hb : HoldsBut x O a h l b) :
    b.cached sb ≤ a.cached sb + h.length := by
  have hsplit := length_filter_le_add (p := fun i => 0 < b.ref i) (q := fun i => 0 < a.ref i)
    (r := fun i => decide (i ∈ h)) (fun i hi => by
      have href := hb.ref i
      simp only [decide_eq_true_eq] at hi ⊢
      by_cases hmem : i ∈ h
      · exact .inr hmem
      · rw [List.count_eq_zero_of_not_mem hmem] at href
        exact .inl (by omega)) (List.range sb.ninodes)
  have hheld : ((List.range sb.ninodes).filter fun i => decide (i ∈ h)).length ≤ h.length :=
    List.Subperm.length_le <| (List.nodup_range.filter _).subperm fun i hi => by
      simpa using (List.mem_filter.mp hi).2
  exact hsplit.trans (Nat.add_le_add_left hheld _)

theorem iget_total (i : Nat) (hroom : a.cached sb + h.length < NINODE) :
    Total sb (Holds O a h l) (iget i) (fun _ => Holds O a (i :: h) l) := by
  refine (iget_spec (D := True) (N := True) i).total <| op_rule <| .get fun b hb =>
    .ite (fun _ => ⟨fun _ _ => trivial⟩) fun _ => .ite (fun hfull => ?_) fun _ => ⟨fun _ _ => trivial⟩
  have : b.cached sb ≤ a.cached sb + h.length := hb.cached_le
  omega

theorem idup_total (i : Nat) : Total sb (Holds O a h l) (idup i) (fun _ => Holds O a (i :: h) l) :=
  (idup_spec (D := True) (N := True) i).total <| op_rule <| .modify fun _ _ => trivial

theorem ilock_total (hk : Kept a i) (hl : i ∉ l) (hh : i ∈ h) :
    Total sb (Holds O a h l) (ilock i) (fun _ => Holds O a h (i :: l)) := by
  refine (ilock_free_spec (D := True) (N := True) (.inr hk) hl).total <| op_rule <|
    .get fun b hb => .ite (fun href => ?_) fun _ => .ite (fun hlock => ?_) fun _ =>
      .ite (fun htype => absurd htype (hb.type_of_kept hk)) fun _ => ⟨fun _ _ => trivial⟩
  · have := hb.ref i
    have := List.count_pos_iff.mpr hh
    omega
  · exact absurd ((hb.locked i).mp hlock) hl

theorem iunlock_total (hl : i ∉ l) :
    Total sb (Holds O a h (i :: l)) (iunlock i) (fun _ => Holds O a h l) := by
  refine (iunlock_spec (D := True) (N := True) hl).total <| op_rule <| .get fun b hb =>
    .ite (fun hbad => ?_) fun _ => ⟨fun _ _ => trivial⟩
  have hlock : b.locked i = true := (hb.locked i).mpr List.mem_cons_self
  have hheld := (hb.held i List.mem_cons_self).1
  simp [hlock] at hbad
  omega

theorem iput_total (hl : i ∉ l) : Total sb (Holds O a (i :: h) l) (iput i) (fun _ => Holds O a h l) := by
  refine (iput_unlocked_spec (D := True) (N := True) hl).total <| op_rule <| .get fun b hb =>
    .ite (fun hlock => absurd ((hb.locked i).mp hlock) hl) fun _ =>
      .ite (fun _ => ⟨fun _ _ => trivial⟩) fun _ => ⟨fun _ _ => trivial⟩

theorem iunlockput_total (hl : i ∉ l) :
    Total sb (Holds O a (i :: h) (i :: l)) (iunlockput i) (fun _ => Holds O a h l) :=
  seq_rule (iunlock_total hl) fun _ => iput_total hl

theorem fields_total (hi : i ∈ l) : Total sb (Holds O a h l) (fields i)
    (fun f b => Holds O a h l b ∧ f = { a.node i with size := (a.node i).content.length }) := by
  refine (fields_spec (D := True) (N := True) hi).total <| op_rule <| .get fun b hb =>
    .ite (fun hv => ?_) fun _ => .pure fun _ _ => trivial
  simp [(hb.held i hi).2.1] at hv

theorem readi_total (hi : i ∈ l) (htype : (a.node i).type = T_DIR) {off n : Nat}
    (hoff : off + n ≤ (a.node i).content.length) (hn : off + n < 2 ^ 32) :
    Total sb (Holds O a h l) (readi i off n)
      (fun r b => Holds O a h l b ∧ r = some (((a.node i).content.drop off).take n)) := by
  refine op_rule (.get fun b hb => .ite (fun hmis => ?_) fun _ => .ite (fun hdev => ?_) fun _ =>
    .ite (fun hbad => ?_) fun _ => .pure ?_)
  · simp [(hb.held i hi).2.1] at hmis
    omega
  · rw [hb.node_eq hi, htype] at hdev
    cases hdev
  · rw [hb.node_eq hi, Nat.mod_eq_of_lt hn] at hbad
    omega
  · rintro _ rfl
    exact ⟨hb, by rw [hb.node_eq hi]⟩

variable {dp : Nat}

section
variable (hi : dp ∈ l) (htype : (a.node dp).type = T_DIR) (hwhole : (a.node dp).content.length % DIRENT = 0)
  (hlen : (a.node dp).content.length < 2 ^ 32)
include hi htype hwhole hlen

theorem scan_total (msg : String) (q : Dirent → Bool) (fuel n : Nat) :
    Total sb (Holds O a h l) (scan dp msg q (a.node dp).content.length fuel (DIRENT * n))
      (fun _ => Holds O a h l) := by
  induction fuel generalizing n with
  | zero => exact .pure fun _ hb => hb
  | succ fuel ih =>
    unfold scan
    refine ite_rule (fun hlt => ?_) fun _ => .pure fun _ hb => hb
    have hbound : DIRENT * n + DIRENT ≤ (a.node dp).content.length := by
      rw [DIRENT_eq] at *
      omega
    refine seq_rule (readi_total hi htype hbound (by omega)) fun r => .pre_and fun hr => ?_
    subst hr
    refine ite_rule (fun hshort => ?_) fun _ =>
      ite_rule (fun _ => .pure fun _ hb => hb) fun _ => ih (n + 1)
    rw [List.length_take, List.length_drop] at hshort
    omega

theorem dirlookup_total (hroom : a.cached sb + h.length < NINODE) (name : Name) :
    Total sb (Holds O a h l) (dirlookup dp name)
      (fun r b => Holds O a (found r ++ h) l b ∧ r = lookup (a.node dp) name) := by
  refine ((dirlookup_spec (D := True) (N := True) hi name).total ?_).post fun _ _ hb => ⟨hb.1, hb.2.1⟩
  refine seq_rule (fields_total hi) fun f => .pre_and fun hf => ?_
  subst hf
  refine ite_rule (fun hnot => absurd htype hnot) fun _ => ?_
  refine seq_rule (scan_total (n := 0) hi htype hwhole hlen _ _ _) fun r => ?_
  match r with
  | none => exact .pure fun _ _ => trivial
  | some (off, de) =>
    exact seq_rule (iget_total de.inum hroom) fun _ => .pure fun _ _ => trivial

end

/-- The contents of directories are whole entries, and of a length that fits. -/
def WholeDirs (a : Inodes) : Prop :=
  ∀ d, (a.node d).type = T_DIR → (a.node d).content.length % DIRENT = 0 ∧ (a.node d).content.length < 2 ^ 32

theorem namexLoop_total {parent : Bool} {names : List Name} {ip : Nat} (hs : SafeFrom a names ip)
    (hdirs : WholeDirs a) (hroom : a.cached sb + h.length + 1 < NINODE) :
    Total sb (Holds O a (ip :: h) []) (namexLoop parent names ip)
      (fun r b => Holds O a (found r ++ h) [] b ∧ r = walk a.node parent names ip) := by
  refine (namexLoop_spec (D := True) (N := True) (.inr hs)).total ?_
  induction names generalizing ip with
  | nil =>
    unfold namexLoop
    refine ite_rule (fun _ => ?_) fun _ => .pure fun _ _ => trivial
    exact seq_rule (iput_total (by simp)) fun _ => .pure fun _ _ => trivial
  | cons name rest ih =>
    unfold namexLoop
    refine seq_rule (ilock_total hs.1 (by simp) List.mem_cons_self) fun _ => ?_
    refine seq_rule (fields_total List.mem_cons_self) fun f => .pre_and fun hf => ?_
    subst hf
    refine ite_rule (fun _ => ?_) fun htype => ite_rule (fun _ => ?_) fun _ => ?_
    · exact seq_rule (iunlockput_total (by simp)) fun _ => .pure fun _ _ => trivial
    · exact seq_rule (iunlock_total (by simp)) fun _ => .pure fun _ _ => trivial
    · have htype := not_not.mp htype
      have hroom' : a.cached sb + (ip :: h).length < NINODE := by
        rw [List.length_cons]
        omega
      refine seq_rule (dirlookup_total List.mem_cons_self htype (hdirs ip htype).1
        (hdirs ip htype).2 hroom' name) fun r => .pre_and fun hr => ?_
      cases r with
      | none => exact seq_rule (iunlockput_total (by simp)) fun _ => .pure fun _ _ => trivial
      | some found =>
        obtain ⟨next, off⟩ := found
        refine seq_rule ((iunlockput_total (by simp)).pre fun b hb => ?_) fun _ => ih ?_
        · exact hb.perm (List.Perm.swap _ _ _)
        · exact hs.2 htype next off hr.symm

theorem namex_total {cwd : Nat} {path : Bytes} (hs : Safe a cwd path) (hdirs : WholeDirs a)
    (hroom : a.cached sb + h.length + 1 < NINODE) (parent : Bool) :
    Total sb (Holds O a h []) (namex cwd path parent)
      (fun r b => Holds O a (found r ++ h) [] b ∧ r = walk a.node parent (elems path) (start cwd path)) := by
  unfold Safe start at hs
  unfold namex start
  refine ite_rule (fun hc => ?_) fun hc => ?_
  · rw [if_pos hc] at hs ⊢
    exact seq_rule (iget_total _ (by omega)) fun _ => namexLoop_total hs hdirs hroom
  · rw [if_neg hc] at hs ⊢
    exact seq_rule (idup_total _) fun _ => namexLoop_total hs hdirs hroom

end Total

/-! ## On the disk -/

abbrev Reads {α : Type} (q : FsProg α) : Prop := q.Only fun o => ¬ o.Writes

theorem reads_panic {α : Type} (msg : String) : Reads (panic msg : FsProg α) := ⟨id, nofun⟩

theorem reads_scan (dp : Nat) (msg : String) (q : Dirent → Bool) (size fuel off : Nat) :
    Reads (scan dp msg q size fuel off) := by
  induction fuel generalizing off with
  | zero => trivial
  | succ fuel ih =>
    refine .ite (.bind (only_op id) fun r => ?_) trivial
    match r with
    | none => exact reads_panic msg
    | some bytes => exact .ite (reads_panic msg) (.ite trivial (ih _))

theorem reads_dirlookup (dp : Nat) (name : Name) : Reads (dirlookup dp name) := by
  refine .bind (only_op id) fun f => .ite (reads_panic _) (.bind (reads_scan ..) fun r => ?_)
  match r with
  | none => trivial
  | some (off, de) => exact .bind (only_op id) fun _ => trivial

theorem reads_iunlockput (i : Nat) : Reads (iunlockput i) :=
  .bind (only_op id) fun _ => only_op id

theorem reads_namexLoop (parent : Bool) (names : List Name) (ip : Nat) :
    Reads (namexLoop parent names ip) := by
  induction names generalizing ip with
  | nil => exact .ite (.bind (only_op id) fun _ => trivial) trivial
  | cons name rest ih =>
    refine .bind (only_op id) fun _ => .bind (only_op id) fun f =>
      .ite (.bind (reads_iunlockput ip) fun _ => trivial) <|
      .ite (.bind (only_op id) fun _ => trivial) <| .bind (reads_dirlookup ip name) fun r => ?_
    match r with
    | none => exact .bind (reads_iunlockput ip) fun _ => trivial
    | some (next, off) => exact .bind (reads_iunlockput ip) fun _ => ih next

theorem reads_namex (cwd : Nat) (path : Bytes) (parent : Bool) : Reads (namex cwd path parent) :=
  .ite (.bind (only_op id) fun _ => reads_namexLoop ..)
    (.bind (only_op id) fun _ => reads_namexLoop ..)

theorem Sys.Ordered.wholeDirs (hs : s.Ordered sb) : WholeDirs s.disk.inodes := by
  intro d hd
  refine ⟨((hs.names.formed d).dotted hd).whole, ?_⟩
  have hlive : s.disk.Live d := by
    intro h0
    have hnode : s.disk.inodes.node d = {} := if_pos h0
    rw [hnode] at hd
    cases hd
  have hcontent : (s.disk.inodes.node d).content.length = (s.disk.inode d).size := by
    have hnode : s.disk.inodes.node d = { s.disk.inode d with content := s.disk.content d } := if_neg hlive
    rw [hnode]
    exact length_content s.disk d
  rw [hcontent]
  exact Nat.lt_of_le_of_lt (hs.consistent.sound.size_le hlive) (by decide)

/-- `namei` and `nameiparent` of a path: they meet no free inode and return none, and with two entries
of the inode cache to spare they do return. -/
structure LooksUp (sb : Superblock) (d : Disk) (cwd : Nat) (path : Bytes) (parent : Bool) : Prop where
  meets : ∀ d', (namex cwd path parent).run (diskOps sb) d ≠ .error (.panic "ilock: no type") d'
  result : ∀ r d', (namex cwd path parent).run (diskOps sb) d = .ok (some r) d' →
    (d'.inodes.node r.1).type ≠ 0
  returns : d.cached sb + 1 < NINODE → ∃ r d', (namex cwd path parent).run (diskOps sb) d = .ok r d'

theorem Sys.Ordered.looksUp (hs : s.Ordered sb) (hsafe : Safe s.disk.inodes cwd path) (parent : Bool) :
    LooksUp sb s.disk cwd path parent := by
  have hspec : Spec sb (Holds (NoOrphans s.disk.inodes) s.disk.inodes [] []) (namex cwd path parent) _
      False False := namex_spec (.inr hsafe) parent
  have hupper := hspec.run s.disk.inodes (holds_start hs.quiet.locked)
  have hno : ∀ b, (namex cwd path parent).run (inodeOps sb) s.disk.inodes ≠ .error none b := by
    intro b hb
    rw [hb] at hupper
    cases hupper
  have hshown : Shown sb (fun _ _ => False) _ _ := Prog.Sim.prog_only shown_op (reads_namex cwd path parent)
  have hlower := hshown.run s.disk s.disk.inodes ⟨hs.consistent, rfl⟩ hno
  cases hrun : (namex cwd path parent).run (diskOps sb) s.disk with
  | ok r d' =>
    rw [hrun] at hlower
    obtain ⟨b, hb, -, rfl⟩ := hlower
    rw [hb] at hupper
    refine ⟨fun d'' heq => ?_, fun r' d'' heq => ?_, fun _ => ⟨r, d', hrun⟩⟩
    · rw [hrun] at heq
      cases heq
    · rw [hrun] at heq
      cases heq
      exact hupper.1.type_of_kept (SafeFrom.walk hsafe hupper.2.symm).1
  | error e d' =>
    rw [hrun] at hlower
    obtain ⟨b, hb⟩ := hlower.resolve_right id
    rw [hb] at hupper
    refine ⟨fun d'' heq => ?_, fun _ _ heq => ?_, fun hroom => ?_⟩
    · rw [hrun] at heq
      injection heq with he
      subst he
      generalize hmsg : "ilock: no type" = msg at hupper
      cases hupper with
      | panic hplain => exact hplain.2 hmsg.symm
      | noType h => exact h
    · rw [hrun] at heq
      cases heq
    · have htotal : Total sb (Holds (NoOrphans s.disk.inodes) s.disk.inodes [] []) _ _ :=
        namex_total (h := []) hsafe hs.wholeDirs hroom parent
      obtain ⟨r, b', hok, -⟩ := htotal.returns (holds_start hs.quiet.locked)
      rw [hb] at hok
      cases hok

/-- While new names are only made in directories that have links: a lookup that climbs through inodes that
are allocated, and a call with such lookups. -/
theorem lookups_of_run (hs : s.Booted sb files) (h : Run (step sb) NewInLinked s s')
    (hcwd : s'.tables.cwd p = some cwd) :
    (∀ path, Climbs s'.disk.inodes.node (elems path) (start cwd path) →
      ∀ parent, LooksUp sb s'.disk cwd path parent) ∧
    ∀ c : Call, (∀ path ∈ c.paths, Climbs s'.disk.inodes.node (elems path) (start cwd path)) →
      ∀ d', (c.prog s'.tables p cwd).run (diskOps sb) s'.disk ≠ .error (.panic "ilock: no type") d' := by
  have ht : s'.Ordered sb := h.invariant hs.ordered fun _ _ _ hs hg => step_ordered hs hg
  refine ⟨fun path hclimb parent => ht.looksUp (ht.safe hcwd hclimb) parent, fun c hclimb d' hr => ?_⟩
  have hsafe : False ∨ SafeCall s'.tables s'.disk.inodes cwd c := .inr (ht.safeCall hcwd hclimb)
  have hrun := (prog_disk (p := p) ht.consistent ht.quiet.locked hsafe).run s'.disk rfl
  rw [hr] at hrun
  obtain ⟨b, hfail⟩ | ⟨hpanic, -⟩ := hrun
  · generalize hmsg : "ilock: no type" = msg at hfail
    cases hfail with
    | panic hplain => exact hplain.2 hmsg.symm
    | noType h => exact h
  · injection hpanic with hmsg
    exact absurd hmsg (by decide)

/-- The current directory is removed; its parent is still there. -/
theorem lookups_of_run_oneFile : ∃ t, Run (step mkfsSb) NewInLinked ⟨oneFile, firstTables⟩ t ∧
    t.tables.cwd 0 = some 3 ∧ (t.disk.inodes.node 3).nlink = 0 ∧
    ∃ r d', (namex 3 [46, 46] false).run (diskOps mkfsSb) t.disk = .ok r d' := by
  have hx : (Run.execAll (fun s pc => if NewInLinked s pc then step mkfsSb s pc else none)
      ⟨oneFile, firstTables⟩ [(0, .mkdir [100]), (0, .chdir [100]), (0, .unlink [46, 46, 47, 100])]).any
      fun t => decide (t.tables.cwd 0 = some 3 ∧ (t.disk.inodes.node 3).nlink = 0 ∧
        (t.disk.inodes.node (entry (t.disk.inodes.node 3) 1).inum).type ≠ 0 ∧
        t.disk.cached mkfsSb + 1 < NINODE) := by
    decide +kernel
  obtain ⟨t, hrun, ht⟩ := Run.exists_run hx
  obtain ⟨hcwd, hnlink, hup, hroom⟩ := of_decide_eq_true ht
  have hrun := Run.of_checked hrun
  have hclimb : Climbs t.disk.inodes.node (elems [46, 46]) (start 3 [46, 46]) := by
    show Climbs t.disk.inodes.node [dotdot] 3
    exact fun _ _ => ⟨fun h => absurd h (by decide), fun _ => ⟨hup, trivial⟩⟩
  exact ⟨t, hrun, hcwd, hnlink, ((lookups_of_run booted_oneFile hrun hcwd).1 _ hclimb false).returns hroom⟩

/-- Two nested directories are removed while the inner one is the current directory. -/
theorem dotdot_free : Sys.Booted mkfsSb [(.of [102], [])] ⟨oneFile, firstTables⟩ ∧
    ∃ t, Run (step mkfsSb) NewInLinked ⟨oneFile, firstTables⟩ t ∧ t.tables.cwd 0 = some 4 ∧
      ∃ d', ((Call.open [46, 46] 0 (some 0)).prog t.tables 0 4).run (diskOps mkfsSb) t.disk =
        .error (.panic "ilock: no type") d' := by
  have hx : (Run.execAll (fun s pc => if NewInLinked s pc then step mkfsSb s pc else none)
      ⟨oneFile, firstTables⟩ [(0, .mkdir [97]), (0, .mkdir [97, 47, 98]), (0, .chdir [97, 47, 98]),
        (0, .unlink [47, 97, 47, 98]), (0, .unlink [47, 97])]).any
      fun t => decide (t.tables.cwd 0 = some 4) &&
        stopsWith (((Call.open [46, 46] 0 (some 0)).prog t.tables 0 4).run (diskOps mkfsSb) t.disk)
          fun e _ => e == .panic "ilock: no type" := by
    decide +kernel
  obtain ⟨t, hrun, ht⟩ := Run.exists_run hx
  simp only [Bool.and_eq_true, decide_eq_true_eq] at ht
  obtain ⟨e, d', hstop, he⟩ := exists_of_stopsWith ht.2
  exact ⟨booted_oneFile, t, Run.of_checked hrun, ht.1, d', by rw [hstop, eq_of_beq he]⟩

end Xv6.Calls

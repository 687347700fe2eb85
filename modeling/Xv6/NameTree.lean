import Xv6.FsSystem
import Xv6.Lib.LinkGraph

/-!
# Directories and link counts

The directories of the file system as a `LinkGraph`: entry 1 of a directory, `".."`, is its parent and the
entries from 2 on are its slots. What the calls do to inodes are the operations of the library, as long as
new entries are made in directories that have links.
-/

namespace Xv6.Calls

open Store

variable {sb : Superblock} {d : Node} {n : Nat} {name : Name} {de : Dirent} {node node' : Nat → Node} {i : Nat}

/-! ## Entries -/

/-- Entry `n`; past the end it is empty. -/
def entry (d : Node) (n : Nat) : Dirent := if n < nents d then direntAt d n else .empty

theorem entry_of_lt (hn : n < nents d) : entry d n = direntAt d n := if_pos hn

theorem lt_of_entry (hn : (entry d n).inum ≠ 0) : n < nents d := by
  by_contra hlt
  unfold entry at hn
  rw [if_neg hlt] at hn
  exact hn rfl

theorem entry_putDirent (hn : n ≤ nents d) (hde : de.inum < 2 ^ 16) (m : Nat) :
    entry (putDirent d n de) m = if m = n then de else entry d m := by
  have hbound : DIRENT * n ≤ d.content.length := by
    unfold nents at hn
    rw [DIRENT_eq] at *
    omega
  unfold entry
  rw [nents_putDirent hbound, direntAt_putDirent hbound hde]
  by_cases hm : m = n
  · rw [if_pos hm, if_pos hm, if_pos (by omega)]
  · rw [if_neg hm, if_neg hm]
    by_cases hlt : m < nents d
    · rw [if_pos hlt, if_pos (by omega)]
    · rw [if_neg hlt, if_neg (by omega)]

theorem entry_of_lookup {off : Nat} (hlook : lookup d name = some (i, off)) :
    ∃ n, off = DIRENT * n ∧ entry d n = ⟨i, name⟩ ∧ i ≠ 0 := by
  obtain ⟨n, hoff, hlt, hentry, hi⟩ := lookup_eq_some hlook
  exact ⟨n, hoff, by rw [entry_of_lt hlt, hentry], hi⟩

theorem name_ne_of_lookup (hlook : lookup d name = none) (hn : (entry d n).inum ≠ 0) :
    (entry d n).name ≠ name := by
  have hlt := lt_of_entry hn
  unfold lookup at hlook
  have hnot := firstFrom_eq_none (Option.map_eq_none_iff.mp hlook) (Nat.zero_le n) hlt
  rw [entry_of_lt hlt] at hn ⊢
  intro hname
  exact hnot (by simpa using ⟨hn, hname⟩)

/-- The entries that every directory has. -/
structure Dotted (i : Nat) (d : Node) : Prop where
  dot : entry d 0 = ⟨i, Calls.dot⟩
  dotdot : (entry d 1).name = Calls.dotdot ∧ (entry d 1).inum ≠ 0
  named : ∀ n, (entry d (n + 2)).inum ≠ 0 → (entry d (n + 2)).name ≠ Calls.dot
  whole : d.content.length % DIRENT = 0

theorem Vacant.slot (h : Vacant d name n) (hd : Dotted i d) (hi : i ≠ 0) :
    name ≠ dot ∧ ∃ m, n = m + 2 ∧ (entry d (m + 2)).inum = 0 := by
  have h0 : (entry d 0).inum ≠ 0 := by rwa [hd.dot]
  have hname : name ≠ dot := by
    have := name_ne_of_lookup h.absent h0
    rw [hd.dot] at this
    exact this.symm
  have hzero : (entry d n).inum = 0 := by
    obtain hfirst | ⟨-, rfl⟩ := h.here
    · obtain ⟨-, hlt, hp⟩ := firstFrom_eq_some hfirst
      rw [entry_of_lt hlt]
      simpa using hp
    · unfold entry
      rw [if_neg (Nat.lt_irrefl _)]
      rfl
  refine ⟨hname, n - 2, ?_⟩
  match n with
  | 0 => exact absurd hzero h0
  | 1 => exact absurd hzero hd.dotdot.2
  | m + 2 => exact ⟨rfl, hzero⟩

def view (d : Node) : LinkNode Nat Nat where
  live := d.type ≠ 0
  dir := d.type = T_DIR
  nlink := d.nlink
  up := if d.type = T_DIR then (entry d 1).inum else 0
  child n := if d.type = T_DIR ∧ (entry d (n + 2)).inum ≠ 0 then some (entry d (n + 2)).inum else none

def graph (node : Nat → Node) : LinkGraph Nat Nat := fun i => view (node i)

theorem view_putDirent (htype : d.type = T_DIR) (hn : n + 2 ≤ nents d) (hde : de.inum < 2 ^ 16) :
    view (putDirent d (n + 2) de) = (view d).set n (if de.inum = 0 then none else some de.inum) := by
  have hentry := entry_putDirent (d := d) hn hde
  have htype' : (putDirent d (n + 2) de).type = T_DIR := htype
  unfold view LinkNode.set
  simp only [htype, htype', hentry, true_and, if_true]
  congr 1
  funext m
  rw [Function.update_apply]
  by_cases hm : m = n
  · subst hm
    by_cases h0 : de.inum = 0 <;> simp [h0]
  · simp [hm]

/-- An inode that is allocated has a number, and a directory its two entries. -/
structure Formed (sb : Superblock) (i : Nat) (d : Node) : Prop where
  num : d.type ≠ 0 → i ≠ 0 ∧ i < sb.ninodes
  dotted : d.type = T_DIR → Dotted i d

/-- The file system is a tree of directories with right link counts. -/
structure NameTree (sb : Superblock) (node : Nat → Node) : Prop where
  tree : LinkGraph.Tree ROOTINO (graph node)
  formed : ∀ i, Formed sb i (node i)

/-! ## Counting -/

/-- An entry other than `"."` of a directory that has links itself. -/
def LinkAt (d : Node) (i n : Nat) : Prop :=
  d.type = T_DIR ∧ 0 < d.nlink ∧ (direntAt d n).inum = i ∧ (direntAt d n).name ≠ dot

instance (d : Node) (i n : Nat) : Decidable (LinkAt d i n) :=
  inferInstanceAs (Decidable (_ ∧ _ ∧ _ ∧ _))

/-- How many such entries name `i`. -/
def links (sb : Superblock) (node : Nat → Node) (i : Nat) : Nat :=
  ∑ d ∈ Finset.range sb.ninodes, ((Finset.range (nents (node d))).filter (LinkAt (node d) i)).card

/-- The entry of a place. -/
def placeEntry (x : Nat × Option Nat) : (_ : Nat) × Nat := ⟨x.1, x.2.elim 1 (· + 2)⟩

theorem placeEntry_injective : Function.Injective placeEntry := by
  rintro ⟨d, m⟩ ⟨d', m'⟩ heq
  cases m <;> cases m' <;> simp_all [placeEntry]

theorem linkAt_iff (hd : (node i).type = T_DIR → Dotted i (node i)) {j n : Nat} (hj : j ≠ 0) :
    n < nents (node i) ∧ LinkAt (node i) j n ↔ ∃ x, (graph node).Refers j x ∧ placeEntry x = ⟨i, n⟩ := by
  constructor
  · rintro ⟨hlt, htype, hnlink, hinum, hname⟩
    rw [← entry_of_lt hlt] at hinum hname
    match n with
    | 0 =>
      rw [(hd htype).dot] at hname
      exact absurd rfl hname
    | 1 => exact ⟨(i, none), ⟨⟨htype, hnlink⟩, by rw [← hinum]; exact if_pos htype⟩, rfl⟩
    | m + 2 =>
      refine ⟨(i, some m), ⟨⟨htype, hnlink⟩, ?_⟩, rfl⟩
      subst hinum
      exact if_pos ⟨htype, hj⟩
  · rintro ⟨⟨x, m⟩, ⟨⟨htype, hnlink⟩, hm⟩, heq⟩
    have hx : x = i := congrArg Sigma.fst heq
    subst hx
    cases m with
    | none =>
      obtain rfl : 1 = n := by simpa [placeEntry] using heq
      have hinum : (entry (node x) 1).inum = j := by
        rw [← (show (graph node x).up = j from hm)]
        exact (if_pos htype).symm
      have hlt := lt_of_entry (d := node x) (n := 1) (by rwa [hinum])
      refine ⟨hlt, htype, hnlink, ?_⟩
      rw [← entry_of_lt hlt, (hd htype).dotdot.1]
      exact ⟨hinum, dot_ne_dotdot.symm⟩
    | some m =>
      obtain rfl : m + 2 = n := by simpa [placeEntry] using heq
      have hchild : (if (node x).type = T_DIR ∧ (entry (node x) (m + 2)).inum ≠ 0 then
          some (entry (node x) (m + 2)).inum else none) = some j := hm
      split at hchild
      · next h =>
        have hlt := lt_of_entry h.2
        refine ⟨hlt, htype, hnlink, ?_⟩
        rw [← entry_of_lt hlt]
        exact ⟨Option.some.inj hchild, (hd htype).named m h.2⟩
      · cases hchild

theorem NameTree.links_eq (h : NameTree sb node) (hi : (node i).type ≠ 0) :
    (links sb node i : Int) = (node i).nlink := by
  obtain ⟨R, hR, hcard⟩ := h.tree.exact (i := i) hi
  rw [show (node i).nlink = R.card from hcard]
  unfold links
  rw [← Finset.card_sigma, ← Finset.card_map ⟨placeEntry, placeEntry_injective⟩]
  congr 2
  ext ⟨x, n⟩
  have hmem := linkAt_iff (h.formed x).dotted (n := n) ((h.formed i).num hi).1
  simp only [Finset.mem_sigma, Finset.mem_range, Finset.mem_filter, Finset.mem_map,
    Function.Embedding.coeFn_mk, hR]
  rw [hmem]
  refine ⟨fun hx => hx.2, fun hx => ⟨?_, hx⟩⟩
  -- a directory is an inode
  refine ((h.formed x).num ?_).2
  obtain ⟨⟨y, m⟩, hy, heq⟩ := hx
  obtain rfl : y = x := congrArg Sigma.fst heq
  exact h.tree.live hy.1.1

/-! ## Making and removing names -/

theorem Dotted.put (hd : Dotted i d) (hn : n + 2 ≤ nents d) (hde : de.inum < 2 ^ 16)
    (hname : de.inum ≠ 0 → de.name ≠ Calls.dot) : Dotted i (putDirent d (n + 2) de) := by
  have hentry := entry_putDirent (d := d) hn hde
  refine ⟨?_, ?_, fun m hm => ?_, ?_⟩
  · rw [hentry, if_neg (by omega)]
    exact hd.dot
  · rw [hentry, if_neg (by omega)]
    exact hd.dotdot
  · rw [hentry] at hm ⊢
    split at hm
    · next h =>
      rw [if_pos h]
      exact hname hm
    · next h =>
      rw [if_neg h]
      exact hd.named m hm
  · have hwhole := hd.whole
    unfold nents at hn
    rw [length_putDirent (by rw [DIRENT_eq] at *; omega), DIRENT_eq] at *
    omega

theorem NameTree.of_tree (h : NameTree sb node) (ht : LinkGraph.Tree ROOTINO (graph node'))
    (hformed : ∀ x, node' x = node x ∨ Formed sb x (node' x)) : NameTree sb node' := by
  refine ⟨ht, fun x => ?_⟩
  obtain heq | hx := hformed x
  · rw [heq]
    exact h.formed x
  · exact hx

theorem NameTree.forget (h : NameTree sb node)
    (hfree : ∀ i, node' i = node i ∨ node' i = {} ∧ (node i).nlink = 0) : NameTree sb node' := by
  refine h.of_tree (h.tree.forget fun i => ?_) fun i => (hfree i).imp_right fun hi => ?_
  · refine (hfree i).imp (fun hi => ?_) fun hi => ?_
    · unfold graph
      rw [hi]
    · have hview : graph node' i = view {} := congrArg view hi.1
      rw [hview]
      exact ⟨fun hlive => hlive rfl, nofun, hi.2⟩
  · rw [hi.1]
    exact ⟨fun h => absurd rfl h, nofun⟩

theorem NameTree.same_view (h : NameTree sb node) (hview : ∀ i, view (node' i) = view (node i))
    (hdir : ∀ i, (node i).type = T_DIR → node' i = node i) : NameTree sb node' := by
  have hgraph : graph node' = graph node := funext hview
  refine ⟨hgraph ▸ h.tree, fun i => ⟨fun htype => ?_, fun htype => ?_⟩⟩
  · have hlive : (view (node i)).live := by
      rw [← hview]
      exact htype
    exact (h.formed i).num hlive
  · have hd : (view (node i)).dir := by
      rw [← hview]
      exact htype
    rw [hdir i hd]
    exact (h.formed i).dotted hd

variable {a : Inodes} {dp ip k : Nat}

/-- Entry `k + 2` of the directory `dp`, which has links, is set. Another inode `ip` may change. -/
structure SetsEntry (node node' : Nat → Node) (dp k : Nat) (de : Dirent) (nlink : Int) (ip : Nat) :
    Prop where
  here : node' dp = { putDirent (node dp) (k + 2) de with nlink }
  rest : ∀ {x}, x ≠ dp → x ≠ ip → node' x = node x
  linked : (graph node).Linked dp
  le : k + 2 ≤ nents (node dp)
  inum : de.inum < 2 ^ 16
  name : de.inum ≠ 0 → de.name ≠ dot

section
variable {nl : Int} (h : SetsEntry node node' dp k de nl ip)
include h

theorem SetsEntry.view_here : graph node' dp =
    { (graph node dp).set k (if de.inum = 0 then none else some de.inum) with nlink := nl } := by
  have hput : view (putDirent (node dp) (k + 2) de) = _ := view_putDirent h.linked.1 h.le h.inum
  have hview : graph node' dp = { view (putDirent (node dp) (k + 2) de) with nlink := nl } :=
    congrArg view h.here
  rw [hview, hput]
  rfl

theorem SetsEntry.view_rest {x : Nat} (hx : x ≠ dp)
    (hip : x ≠ ip) : graph node' x = graph node x := congrArg view (h.rest hx hip)

theorem SetsEntry.nameTree (hn : NameTree sb node)
    (ht : LinkGraph.Tree ROOTINO (graph node')) (hip : Formed sb ip (node' ip)) : NameTree sb node' := by
  refine hn.of_tree ht fun x => ?_
  by_cases hx : x = ip
  · subst hx
    exact .inr hip
  · by_cases hxd : x = dp
    · subst hxd
      have htype : (node x).type = T_DIR := h.linked.1
      have hput := ((hn.formed x).dotted htype).put h.le h.inum h.name
      rw [h.here]
      refine .inr ⟨fun _ => (hn.formed x).num (by rw [htype]; decide), fun _ => ?_⟩
      exact ⟨hput.dot, hput.dotdot, hput.named, hput.whole⟩
    · exact .inl (h.rest hxd hx)

end

theorem SetsEntry.sets (h : SetsEntry node node' dp k de (node dp).nlink ip)
    (hfile : (node ip).type ≠ T_DIR) (hfile' : (node' ip).type ≠ T_DIR) :
    LinkGraph.Sets (graph node) (graph node') dp k (if de.inum = 0 then none else some de.inum) ip where
  here := h.view_here
  rest := h.view_rest
  linked := h.linked
  file := hfile
  file' := hfile'

end Xv6.Calls

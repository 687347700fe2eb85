import Xv6.Calls

/-!
# What a call holds

In the middle of a call a process has references to some inodes and the locks of some of them. `Holds`
describes the inodes then, with the changes the call has made so far. One rule for each operation says what it
does to this.
-/

namespace Xv6.Calls

open Store.Inodes (setRef_ref setValid_ref setValid_valid setRef_valid setValid_node setRef_node
  setNode_node setNode_valid setNode_ref)
open Function (update_of_ne update_self)
open Prog (seq_rule op_rule)
open Hoare Store

/-- A call that started with the inodes `a`, not counting what it changed, has the references `h` and the
locks `l`. If `O`, an inode without links is in memory for somebody who has a reference to it. An inode `x`
that was just allocated has no links yet. -/
structure HoldsBut (x : Option Nat) (O : Prop) (a : Inodes) (h l : List Nat) (b : Inodes) : Prop where
  ref : ∀ i, b.ref i = a.ref i + h.count i
  locked : ∀ i, b.locked i = true ↔ i ∈ l
  node : ∀ i, b.node i = a.node i ∨ b.node i = {} ∧ a.ref i = 0 ∧ (a.node i).nlink = 0
  held : ∀ i ∈ l, 0 < b.ref i ∧ b.valid i = true ∧ (b.node i).type ≠ 0
  orphan : O → ∀ i, x ≠ some i → (b.node i).type ≠ 0 → (b.node i).nlink = 0 → 0 < b.ref i ∧ b.valid i = true

abbrev Holds : Prop → Inodes → List Nat → List Nat → Inodes → Prop := HoldsBut none

/-- Every inode without links is in memory for somebody. -/
def NoOrphans (a : Inodes) : Prop :=
  ∀ i, (a.node i).type ≠ 0 → (a.node i).nlink = 0 → 0 < a.ref i ∧ a.valid i = true

/-- An inode that stays allocated through the call: it has links, or somebody has a reference to it. -/
def Kept (a : Inodes) (i : Nat) : Prop := (a.node i).type ≠ 0 ∧ (0 < (a.node i).nlink ∨ 0 < a.ref i)

/-- Not the panic of `bfree`, nor that of `ilock` when it meets a free inode. -/
abbrev Plain (msg : String) : Prop := msg ≠ "freeing free block" ∧ msg ≠ "ilock: no type"

/-- How a call stops: with a panic, in a device driver, or by waiting for itself. The last needs `D`, and
to meet a free inode needs `N`. -/
inductive Fails (D N : Prop) : Option Store.Stop → Inodes → Prop
  | panic {msg : String} {b : Inodes} (hmsg : Plain msg) : Fails D N (some (.panic msg)) b
  | noType {b : Inodes} (hN : N) : Fails D N (some (.panic "ilock: no type")) b
  | device {b : Inodes} : Fails D N (some .device) b
  | deadlock {b : Inodes} (hD : D) : Fails D N (some .deadlock) b

variable {sb : Superblock} {x : Option Nat} {O : Prop} {a b : Inodes} {h l : List Nat} {i : Nat}
  {D D' N : Prop} {α : Type}

theorem Fails.mono {e : Option Store.Stop} (he : Fails D N e b) (hD : D → D') : Fails D' N e b := by
  cases he with
  | panic hmsg => exact .panic hmsg
  | noType hN => exact .noType hN
  | device => exact .device
  | deadlock h => exact .deadlock (hD h)

/-- A program over the inode layer, without blocks. -/
abbrev Spec (sb : Superblock) (P : Inodes → Prop) (p : FsProg α) (Q : α → Inodes → Prop) (D N : Prop) :
    Prop := Triple P (p.run (inodeOps sb)) Q (Fails D N)

theorem Spec.panic (P : Inodes → Prop) {msg : String} (hmsg : Plain msg) (Q : α → Inodes → Prop) :
    Spec sb P (panic msg) Q D N := ⟨fun _ _ => .panic hmsg⟩

theorem Spec.pure {P : Inodes → Prop} {Q : α → Inodes → Prop} {x : α} (hQ : ∀ b, P b → Q x b) :
    Spec sb P (Pure.pure x) Q D N := ⟨fun b hb => hQ b hb⟩

theorem Spec.mono {P : Inodes → Prop} {p : FsProg α} {Q : α → Inodes → Prop}
    (hp : Spec sb P p Q D N) (hD : D → D') : Spec sb P p Q D' N :=
  hp.conseq (fun _ hb => hb) (fun _ _ hb => hb) fun _ _ he => he.mono hD

theorem HoldsBut.perm {h' : List Nat} (hb : HoldsBut x O a h l b) (hperm : h.Perm h') :
    HoldsBut x O a h' l b :=
  { hb with
    ref := fun i => by rw [hb.ref, hperm.count_eq] }

theorem HoldsBut.locks {l' : List Nat} (hb : HoldsBut x O a h l b) (hl : ∀ i, i ∈ l' ↔ i ∈ l) :
    HoldsBut x O a h l' b :=
  { hb with
    locked := fun i => by rw [hb.locked, hl]
    held := fun i hi => hb.held i ((hl i).mp hi) }

theorem holds_start (hl : ∀ i, a.locked i = false) : Holds (NoOrphans a) a [] [] a where
  ref _ := rfl
  locked i := by simp [hl i]
  node _ := .inl rfl
  held := nofun
  orphan hO i _ := hO i

section
variable (hb : HoldsBut x O a h l b)
include hb

theorem HoldsBut.node_eq (hi : i ∈ l) : b.node i = a.node i := by
  refine (hb.node i).resolve_right fun hfree => (hb.held i hi).2.2 ?_
  rw [hfree.1]

theorem HoldsBut.type_ne (hi : i ∈ l) : (a.node i).type ≠ 0 := by
  rw [← hb.node_eq hi]
  exact (hb.held i hi).2.2

theorem HoldsBut.type_of_kept (hi : Kept a i) : (b.node i).type ≠ 0 := by
  obtain hsame | ⟨-, href, hnlink⟩ := hb.node i
  · rw [hsame]
    exact hi.1
  · obtain h | h := hi.2 <;> omega

/-! ## References -/

theorem HoldsBut.dup (i : Nat) : HoldsBut x O a (i :: h) l (b.setRef i (b.ref i + 1)) := by
  have hpos : ∀ {j}, 0 < b.ref j → 0 < (b.setRef i (b.ref i + 1)).ref j := by
    intro j hj
    by_cases hji : j = i
    · subst hji
      simp
    · simpa only [setRef_ref, update_of_ne hji] using hj
  refine { hb with ref := fun j => ?_, held := fun j hj => ?_, orphan := fun hO j hx htype hnlink => ?_ }
  · have := hb.ref j
    by_cases hj : j = i
    · subst hj
      simp only [setRef_ref, update_self, List.count_cons_self]
      omega
    · simp only [setRef_ref, update_of_ne hj, List.count_cons_of_ne (Ne.symm hj)]
      exact this
  · exact ⟨hpos (hb.held j hj).1, (hb.held j hj).2⟩
  · exact (hb.orphan hO j hx htype hnlink).imp_left hpos

theorem HoldsBut.get (hi : b.ref i = 0) : HoldsBut x O a (i :: h) l ((b.setRef i 1).setValid i false) := by
  have hzero : a.ref i = 0 ∧ h.count i = 0 := by
    have := hb.ref i
    omega
  have hne : ∀ j ∈ l, j ≠ i := by
    rintro j hj rfl
    have := (hb.held j hj).1
    omega
  refine ⟨fun j => ?_, hb.locked, hb.node, fun j hj => ?_, fun hO j hx htype hnlink => ?_⟩
  · by_cases hj : j = i
    · subst hj
      simp [hzero]
    · simp only [setValid_ref, setRef_ref, update_of_ne hj, List.count_cons_of_ne (Ne.symm hj)]
      exact hb.ref j
  · simpa only [setValid_ref, setRef_ref, setValid_valid, setRef_valid,
      setValid_node, setRef_node, update_of_ne (hne j hj)] using hb.held j hj
  · have horphan := hb.orphan hO j hx htype hnlink
    have hj : j ≠ i := by
      rintro rfl
      omega
    simpa only [setValid_ref, setRef_ref, setValid_valid, setRef_valid, update_of_ne hj] using horphan

end

theorem iget_spec (i : Nat) :
    Spec sb (HoldsBut x O a h l) (iget i) (fun _ => HoldsBut x O a (i :: h) l) D N := by
  refine op_rule (.get fun b hb => .ite (fun href => ?_) fun href => .ite (fun _ => ?_) fun _ => ?_)
  · exact ⟨fun _ _ => hb.dup i⟩
  · exact .throw fun _ _ => .panic (by decide)
  · exact ⟨fun _ _ => hb.get (by omega)⟩

theorem iget_type (i type : Nat) : Triple (fun b => (b.node i).type = type) (Inodes.iget sb i)
    (fun _ b => (b.node i).type = type) fun _ _ => True :=
  .get fun _ hb => .ite (fun _ => ⟨fun _ _ => hb⟩) fun _ =>
    .check (fun _ _ => trivial) fun _ => ⟨fun _ _ => hb⟩

theorem idup_spec (i : Nat) : Spec sb (Holds O a h l) (idup i) (fun _ => Holds O a (i :: h) l) D N :=
  op_rule (.modify fun _ hb => hb.dup i)

theorem HoldsBut.put (hb : HoldsBut x O a (i :: h) l b) (hi : i ∉ l)
    (hkeep : ¬ (b.valid i = true ∧ (b.node i).nlink = 0 ∧ b.ref i = 1)) :
    HoldsBut x O a h l (b.setRef i (b.ref i - 1)) := by
  refine { hb with ref := fun j => ?_, held := fun j hj => ?_, orphan := fun hO j hx htype hnlink => ?_ }
  · have := hb.ref j
    by_cases hj : j = i
    · subst hj
      rw [List.count_cons_self] at this
      simp only [setRef_ref, update_self]
      omega
    · rw [List.count_cons_of_ne (Ne.symm hj)] at this
      simp only [setRef_ref, update_of_ne hj]
      exact this
  · have hji : j ≠ i := fun h => hi (h ▸ hj)
    simpa only [setRef_ref, setRef_valid, setRef_node, update_of_ne hji]
      using hb.held j hj
  · obtain ⟨hpos, hv⟩ := hb.orphan hO j hx htype hnlink
    refine ⟨?_, hv⟩
    by_cases hj : j = i
    · subst hj
      have : b.ref j ≠ 1 := fun h => hkeep ⟨hv, hnlink, h⟩
      simp only [setRef_ref, update_self]
      omega
    · simpa only [setRef_ref, update_of_ne hj] using hpos

theorem HoldsBut.free (hb : HoldsBut x O a h l b) (hi : i ∉ l) (hnlink : (b.node i).nlink = 0)
    (href : a.ref i = 0) : HoldsBut x O a h l (b.free i) := by
  unfold Inodes.free
  refine ⟨hb.ref, hb.locked, fun j => ?_, fun j hj => ?_, fun hO j hx htype hnl => ?_⟩
  · by_cases hj : j = i
    · subst hj
      simp only [setValid_node, setNode_node, update_self]
      refine .inr ⟨trivial, href, ?_⟩
      obtain hsame | hfree := hb.node j
      · rw [← hsame, hnlink]
      · exact hfree.2.2
    · simp only [setValid_node, setNode_node, update_of_ne hj]
      exact hb.node j
  · have hji : j ≠ i := fun h => hi (h ▸ hj)
    simp only [setValid_node, setNode_node, setValid_valid, setNode_valid, update_of_ne hji]
    exact hb.held j hj
  · have hji : j ≠ i := by
      rintro rfl
      simp at htype
    simp only [setValid_node, setNode_node, setValid_valid, setNode_valid,
      setValid_ref, setNode_ref, update_of_ne hji] at htype hnl ⊢
    exact hb.orphan hO j hx htype hnl

theorem iput_spec (i : Nat) :
    Spec sb (Holds O a (i :: h) l) (iput i) (fun _ b => Holds O a h l b ∧ i ∉ l) (i ∈ l) N := by
  refine op_rule (.get fun b hb => .ite (fun hlock => ?_) fun hlock => ?_)
  · exact .throw fun _ _ => .deadlock ((hb.locked i).mp hlock)
  · have hi : i ∉ l := fun hi => hlock ((hb.locked i).mpr hi)
    have htest : (b.valid i && (b.node i).nlink == 0 && b.ref i == 1) = true ↔
        b.valid i = true ∧ (b.node i).nlink = 0 ∧ b.ref i = 1 := by
      simp only [Bool.and_eq_true, beq_iff_eq, and_assoc]
    refine .ite (fun hfree => ⟨fun _ _ => ⟨?_, hi⟩⟩) fun hkeep =>
      ⟨fun _ _ => ⟨hb.put hi fun h => hkeep (htest.mpr h), hi⟩⟩
    obtain ⟨-, hnlink, href⟩ := htest.mp hfree
    have hzero : a.ref i = 0 := by
      have := hb.ref i
      rw [List.count_cons_self] at this
      omega
    refine (hb.free hi hnlink hzero).put hi fun h => ?_
    simp [Inodes.free] at h

theorem iput_unlocked_spec (hl : i ∉ l) :
    Spec sb (Holds O a (i :: h) l) (iput i) (fun _ => Holds O a h l) D N :=
  Spec.mono ((iput_spec i).post fun _ _ hb => hb.1) fun h => absurd h hl

theorem iput_any_spec (hl : i ∉ l) : Spec sb (Holds O a h l) (iput i) (fun _ _ => True) D N := by
  refine op_rule (.get fun b hb => .ite (fun hlock => ?_) fun _ => .ite (fun _ => ?_) fun _ => ?_)
  · exact absurd ((hb.locked i).mp hlock) hl
  · exact ⟨fun _ _ => trivial⟩
  · exact ⟨fun _ _ => trivial⟩

theorem HoldsBut.own (hb : HoldsBut x O a h l b) (hi : 0 < a.ref i) :
    HoldsBut x O (a.setRef i (a.ref i - 1)) (i :: h) l b := by
  refine { hb with ref := fun j => ?_, node := fun j => (hb.node j).imp_right fun hfree => ?_ }
  · have := hb.ref j
    by_cases hj : j = i
    · subst hj
      simp only [setRef_ref, update_self, List.count_cons_self]
      omega
    · simp only [setRef_ref, update_of_ne hj, List.count_cons_of_ne (Ne.symm hj)]
      exact this
  · refine ⟨hfree.1, ?_, hfree.2.2⟩
    have hj : j ≠ i := by
      rintro rfl
      omega
    simpa only [setRef_ref, update_of_ne hj] using hfree.2.1

theorem iput_own_spec (hl : i ∉ l) : Spec sb (Holds O a h l) (iput i)
    (fun _ b => 0 < a.ref i → Holds O (a.setRef i (a.ref i - 1)) h l b) D N := by
  by_cases hi : 0 < a.ref i
  · exact ((iput_unlocked_spec hl).pre fun _ hb => hb.own hi).post fun _ _ hb _ => hb
  · exact (iput_any_spec hl).post fun _ _ _ h => absurd h hi

/-- An inode is not freed by giving up another one, or one of several references to it. -/
theorem iput_keeps_node {i j : Nat} {d : Node} :
    Triple (fun b => b.node j = d ∧ (j = i → 2 ≤ b.ref i)) ((iput i).run (inodeOps sb))
      (fun _ b => b.node j = d) fun _ _ => True := by
  refine op_rule (.get fun b hb => .check (fun _ _ => trivial) fun _ =>
    .ite (fun hfree => ⟨fun _ _ => ?_⟩) fun _ => ⟨fun _ _ => hb.1⟩)
  have hji : j ≠ i := by
    intro hji
    have := hb.2 hji
    simp only [Bool.and_eq_true, beq_iff_eq] at hfree
    omega
  show ((b.free i).setRef i (b.ref i - 1)).node j = d
  rw [← hb.1]
  exact update_of_ne hji _ _

/-! ## Locks -/

theorem HoldsBut.lock (hb : HoldsBut x O a h l b) (hx : ∀ j, x = some j → j = i) (hi : 0 < b.ref i)
    (htype : (b.node i).type ≠ 0) : Holds O a h (i :: l) ((b.setLocked i true).setValid i true) := by
  refine ⟨hb.ref, fun j => ?_, hb.node, fun j hj => ?_, fun hO j _ htype hnlink => ?_⟩
  · by_cases hj : j = i
    · subst hj
      simp
    · simp [hj, hb.locked j]
  · by_cases hji : j = i
    · subst hji
      exact ⟨hi, by simp, htype⟩
    · simp only [setValid_valid, Inodes.setLocked_valid, update_of_ne hji]
      exact hb.held j ((List.mem_cons.mp hj).resolve_left hji)
  · by_cases hji : j = i
    · subst hji
      exact ⟨hi, by simp⟩
    · simp only [setValid_ref, Inodes.setLocked_ref, setValid_valid, Inodes.setLocked_valid, update_of_ne hji]
      exact hb.orphan hO j (fun h => hji (hx j h)) htype hnlink

theorem HoldsBut.unlock (hb : HoldsBut x O a h (i :: l) b) (hi : i ∉ l) :
    HoldsBut x O a h l (b.setLocked i false) := by
  refine { hb with locked := fun j => ?_, held := fun j hj => hb.held j (List.mem_cons_of_mem _ hj) }
  by_cases hj : j = i
  · subst hj
    simp [hi]
  · simp [hj, hb.locked j]

theorem ilock_spec (hx : ∀ j, x = some j → j = i) :
    Spec sb (fun b => HoldsBut x O a h l b ∧ (N ∨ (b.node i).type ≠ 0)) (ilock i)
      (fun _ b => Holds O a h (i :: l) b ∧ i ∉ l) (i ∈ l) N := by
  refine op_rule (.get fun b hb => .ite (fun _ => ?_) fun href => .ite (fun hlock => ?_) fun hlock =>
    .ite (fun htype => ?_) fun htype => ?_)
  · exact .throw fun _ _ => .panic (by decide)
  · exact .throw fun _ _ => .deadlock ((hb.1.locked i).mp hlock)
  · exact .throw fun _ _ => .noType (hb.2.resolve_right (not_not.mpr htype))
  · exact ⟨fun _ _ => ⟨hb.1.lock hx (by omega) htype, fun hl => hlock ((hb.1.locked i).mpr hl)⟩⟩

theorem ilock_kept_spec (hk : N ∨ Kept a i) :
    Spec sb (Holds O a h l) (ilock i) (fun _ b => Holds O a h (i :: l) b ∧ i ∉ l) (i ∈ l) N :=
  (ilock_spec (x := none) nofun).pre fun _ hb => ⟨hb, hk.imp_right hb.type_of_kept⟩

theorem ilock_free_spec (hk : N ∨ Kept a i) (hl : i ∉ l) :
    Spec sb (Holds O a h l) (ilock i) (fun _ => Holds O a h (i :: l)) D N :=
  Spec.mono ((ilock_kept_spec hk).post fun _ _ hb => hb.1) fun h => absurd h hl

theorem iunlock_spec (hl : i ∉ l) :
    Spec sb (Holds O a h (i :: l)) (iunlock i) (fun _ => Holds O a h l) D N := by
  refine op_rule (.get fun b hb => .ite (fun _ => ?_) fun _ => ?_)
  · exact .throw fun _ _ => .panic (by decide)
  · exact ⟨fun _ _ => hb.unlock hl⟩

/-- The call keeps its reference to `i`. -/
structure Keeping (O : Prop) (a : Inodes) (h : List Nat) (i : Nat) (b : Inodes) : Prop where
  holds : Holds O a (i :: h) [] b
  node : b.node i = a.node i

theorem iunlock_keeping_spec : Spec sb (Holds O a (i :: h) [i]) (iunlock i)
    (fun _ b => Keeping O a h i b ∧ (a.node i).type ≠ 0) D N := by
  refine op_rule (.get fun b hb => .ite (fun _ => ?_) fun _ => ?_)
  · exact .throw fun _ _ => .panic (by decide)
  · have hi : i ∈ [i] := List.mem_cons_self
    exact ⟨fun _ _ => ⟨⟨hb.unlock (by simp), hb.node_eq hi⟩, hb.type_ne hi⟩⟩

theorem iput_keeping_spec {j : Nat} (hj : 0 < a.ref j) :
    Spec sb (Keeping O a h i) (iput j) (fun _ => Keeping O (a.setRef j (a.ref j - 1)) h i) D N := by
  have hput : Spec sb (Holds O a (i :: h) []) (iput j)
      (fun _ => Holds O (a.setRef j (a.ref j - 1)) (i :: h) []) D N :=
    (iput_own_spec (by simp)).post fun _ _ hb => hb hj
  refine ((hput.and (iput_keeps_node (j := i) (d := a.node i))).pre fun b hb => ?_).post fun _ b hb =>
    ⟨hb.1, hb.2⟩
  refine ⟨hb.holds, hb.node, ?_⟩
  rintro rfl
  rw [hb.holds.ref, List.count_cons_self]
  omega

theorem iunlockput_spec (hl : i ∉ l) :
    Spec sb (Holds O a (i :: h) (i :: l)) (iunlockput i) (fun _ => Holds O a h l) D N :=
  seq_rule (iunlock_spec hl) fun _ => iput_unlocked_spec hl

theorem iunlockput_pure {x : α} {Q : α → Inodes → Prop} (hQ : ∀ b, Holds O a h l b → Q x b)
    (hl : i ∉ l := by simp) : Spec sb (Holds O a (i :: h) (i :: l))
      (iunlockput i >>= fun _ => pure x) Q D N :=
  seq_rule (iunlockput_spec hl) fun _ => Spec.pure hQ

/-! ## Inodes -/

theorem fields_spec (hi : i ∈ l) : Spec sb (Holds O a h l) (fields i)
    (fun f b => Holds O a h l b ∧ f = { a.node i with size := (a.node i).content.length }) D N := by
  refine op_rule (.get fun b hb => .ite (fun hv => ?_) fun _ => .pure ?_)
  · rw [(hb.held i hi).2.1] at hv
    cases hv
  · rintro _ rfl
    exact ⟨hb, by rw [hb.node_eq hi]⟩

theorem fields_bind {m : Fields → FsProg α} {Q : α → Inodes → Prop} (hi : i ∈ l)
    (hm : Spec sb (Holds O a h l) (m { a.node i with size := (a.node i).content.length }) Q D N) :
    Spec sb (Holds O a h l) (fields i >>= m) Q D N :=
  seq_rule (fields_spec hi) fun f => .pre_and fun hf => by
    subst hf
    exact hm

theorem HoldsBut.setNode (hb : HoldsBut x O a h l b) (hi : i ∈ l) {d : Node} (hd : d.type ≠ 0) :
    HoldsBut x O (a.setNode i d) h l (b.setNode i d) := by
  refine ⟨hb.ref, hb.locked, fun j => ?_, fun j hj => ?_, fun hO j hx htype hnlink => ?_⟩
  · by_cases hj : j = i
    · subst hj
      simp
    · simp only [setNode_node, setNode_ref, update_of_ne hj]
      exact hb.node j
  · obtain ⟨hmem, hv, htype⟩ := hb.held j hj
    refine ⟨hmem, hv, ?_⟩
    by_cases hji : j = i
    · subst hji
      simpa using hd
    · simpa only [setNode_node, update_of_ne hji] using htype
  · by_cases hji : j = i
    · subst hji
      exact ⟨(hb.held j hi).1, (hb.held j hi).2.1⟩
    · simp only [setNode_node, update_of_ne hji] at htype hnlink
      exact hb.orphan hO j hx htype hnlink

theorem iupdate_spec (hi : i ∈ l) (major minor : Nat) (nlink : Int) :
    Spec sb (Holds O a h l) (iupdate i major minor nlink)
      (fun _ => Holds O (a.setNode i { a.node i with major, minor, nlink }) h l) D N := by
  refine op_rule (.get fun b hb => .ite (fun hv => ?_) fun _ => ⟨fun _ _ => ?_⟩)
  · rw [(hb.held i hi).2.1] at hv
    cases hv
  · show Holds O _ h l (b.setNode i _)
    rw [hb.node_eq hi]
    exact hb.setNode hi (d := { a.node i with major, minor, nlink }) (hb.type_ne hi)

theorem readi_spec (hi : i ∈ l) (off : Nat) {n : Nat} (hn : n < 2 ^ 32) :
    Spec sb (Holds O a h l) (readi i off n)
      (fun r b => Holds O a h l b ∧ (r = none ∨ r = some (((a.node i).content.drop off).take n))) D N := by
  refine op_rule (.get fun b hb => .ite (fun hmis => ?_) fun _ =>
    .ite (fun _ => .ite (fun _ => ?_) fun _ => .pure ?_) fun _ => .ite (fun _ => .pure ?_) fun _ => .pure ?_)
  · simp [(hb.held i hi).2.1] at hmis
    omega
  · exact .throw fun _ _ => .device
  · rintro _ rfl
    exact ⟨hb, .inl rfl⟩
  · rintro _ rfl
    exact ⟨hb, .inl rfl⟩
  · rintro _ rfl
    exact ⟨hb, .inr (by rw [hb.node_eq hi])⟩

/-- `src` is written into an inode. -/
def written (a : Inodes) (i off : Nat) (src : Bytes) : Inodes :=
  a.setNode i { a.node i with content := BlockArray.splice (a.node i).content off src }

theorem writei_spec (hi : i ∈ l) (off : Nat) {src : Bytes} (hn : src.length < 2 ^ 32) :
    Spec sb (Holds O a h l) (writei i off src)
      (fun r b => r = none ∧ Holds O a h l b ∨
        (Holds O (written a i off src) h l b ∧ off ≤ (a.node i).content.length) ∧
          r = some src.length) D N := by
  refine op_rule (.get fun b hb => .ite (fun hmis => ?_) fun _ =>
    .ite (fun _ => .ite (fun _ => ?_) fun _ => .pure ?_) fun _ => .ite (fun _ => .pure ?_) fun hoff =>
    .ite (fun _ => .pure ?_) fun _ => ⟨fun _ _ => ?_⟩)
  · simp [(hb.held i hi).2.1] at hmis
    omega
  · exact .throw fun _ _ => .device
  · rintro _ rfl
    exact .inl ⟨rfl, hb⟩
  · rintro _ rfl
    exact .inl ⟨rfl, hb⟩
  · rintro _ rfl
    exact .inl ⟨rfl, hb⟩
  · refine .inr ⟨⟨?_, ?_⟩, rfl⟩
    · unfold written
      show Holds O _ h l (b.setNode i _)
      rw [hb.node_eq hi]
      exact hb.setNode hi (hb.type_ne hi)
    · rw [← hb.node_eq hi]
      omega

theorem ialloc_spec (type : Nat) : Spec sb (Holds O a h l) (ialloc type)
    (fun i b => (HoldsBut (some i) O (a.setNode i { type := type }) (i :: h) l b ∧
      (b.node i).type = type) ∧ i ≠ 0 ∧ i < sb.ninodes ∧ i ∉ l ∧
        ((a.node i).type = 0 ∨ a.ref i = 0 ∧ (a.node i).nlink = 0)) D N := by
  refine op_rule (.get fun b hb => ?_)
  cases hfind : (List.range sb.ninodes).find? fun i => i ≠ 0 && (b.node i).type == 0 with
  | none => exact .throw fun _ _ => .panic (by decide)
  | some i =>
    have hp := List.find?_some hfind
    simp only [ne_eq, decide_not, Bool.and_eq_true, Bool.not_eq_true', decide_eq_false_iff_not,
      beq_iff_eq] at hp
    obtain ⟨hi0, hfree⟩ := hp
    have hlt := List.mem_range.mp (List.mem_of_find?_eq_some hfind)
    have hl : i ∉ l := fun hi => (hb.held i hi).2.2 hfree
    have hb' : HoldsBut (some i) O (a.setNode i { type := type }) h l (b.setNode i { type := type }) := by
      refine ⟨hb.ref, hb.locked, fun j => ?_, fun j hj => ?_, fun hO j hx htype hnlink => ?_⟩
      · by_cases hj : j = i
        · subst hj
          simp
        · simp only [setNode_node, setNode_ref, update_of_ne hj]
          exact hb.node j
      · have hji : j ≠ i := fun h => hl (h ▸ hj)
        simp only [setNode_node, setNode_valid, update_of_ne hji]
        exact hb.held j hj
      · have hji : j ≠ i := fun h => hx (congrArg some h.symm)
        simp only [setNode_node, update_of_ne hji] at htype hnlink
        exact hb.orphan hO j nofun htype hnlink
    have hget : Spec sb (HoldsBut (some i) O (a.setNode i { type := type }) h l) (iget i)
        (fun _ => HoldsBut (some i) O (a.setNode i { type := type }) (i :: h) l) D N := iget_spec i
    unfold Spec iget at hget
    rw [Prog.run_op] at hget
    refine .bind (R := fun _ b => HoldsBut (some i) O (a.setNode i { type := type }) h l b ∧
        (b.node i).type = type) ⟨fun _ _ => ⟨hb', ?_⟩⟩ fun _ =>
      .bind (hget.and (iget_type i type)) fun _ => .pure fun _ hb' => ⟨hb', hi0, hlt, hl, ?_⟩
    · show ((b.setNode i { type := type }).node i).type = type
      simp
    exact (hb.node i).imp (fun h => by rw [← h, hfree]) And.right

end Xv6.Calls

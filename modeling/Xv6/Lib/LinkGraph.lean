import Mathlib.Data.Finset.Card

/-!
# Directories that count their links

Directories refer to nodes from slots, and to their parent (`up`), and every node counts the places that
refer to it, in directories that have links themselves. Among these the references make a tree: each but the
root is in exactly one slot, of its parent. Directories without links are empty. This is kept by linking a
node that is no directory, by making a node, by removing a link, for a directory only if it is empty, and by
forgetting nodes without links.
-/

/-- `n` is the number of things with `P`. -/
def Counts {α : Type} (P : α → Prop) (n : Int) : Prop :=
  ∃ R : Finset α, (∀ x, x ∈ R ↔ P x) ∧ n = R.card

namespace Counts

variable {α : Type} {P P' : α → Prop} {n : Int} {x y : α}

theorem congr (h : Counts P n) (hP : ∀ y, P' y ↔ P y) : Counts P' n := by
  obtain ⟨R, hR, hn⟩ := h
  exact ⟨R, fun y => (hR y).trans (hP y).symm, hn⟩

theorem zero (h : ∀ y, ¬ P y) : Counts P 0 := ⟨∅, fun y => by simp [h y], rfl⟩

theorem insert (h : Counts P n) (hx : ¬ P x) (hP : ∀ y, P' y ↔ y = x ∨ P y) : Counts P' (n + 1) := by
  obtain ⟨R, hR, rfl⟩ := h
  refine ⟨R.cons x (fun h => hx ((hR x).mp h)), fun y => ?_, ?_⟩
  · rw [Finset.mem_cons, hR, hP]
  · rw [Finset.card_cons]
    rfl

theorem erase [DecidableEq α] (h : Counts P n) (hx : P x) (hP : ∀ y, P' y ↔ y ≠ x ∧ P y) :
    Counts P' (n - 1) := by
  obtain ⟨R, hR, rfl⟩ := h
  have hmem : x ∈ R := (hR x).mpr hx
  refine ⟨R.erase x, fun y => by rw [Finset.mem_erase, hR, hP], ?_⟩
  have := Finset.card_pos.mpr ⟨x, hmem⟩
  rw [Finset.card_erase_of_mem hmem]
  omega

theorem single (hP : ∀ y, P y ↔ y = x) : Counts P 1 := ⟨{x}, fun y => by simp [hP y], rfl⟩

theorem pos (h : Counts P n) (hx : P x) : 0 < n := by
  obtain ⟨R, hR, rfl⟩ := h
  have := Finset.card_pos.mpr ⟨x, (hR x).mpr hx⟩
  omega

theorem nonneg (h : Counts P n) : 0 ≤ n := by
  obtain ⟨R, -, rfl⟩ := h
  exact Int.natCast_nonneg _

theorem eq_one (h : Counts P n) (hP : ∀ y, P y ↔ y = x) : n = 1 := by
  obtain ⟨R, hR, rfl⟩ := h
  have : R = {x} := Finset.ext fun y => by rw [hR, hP, Finset.mem_singleton]
  rw [this]
  rfl

theorem one_lt (h : Counts P n) (hx : P x) (hy : P y) (hxy : x ≠ y) : 1 < n := by
  obtain ⟨R, hR, rfl⟩ := h
  have := Finset.one_lt_card.mpr ⟨x, (hR x).mpr hx, y, (hR y).mpr hy, hxy⟩
  omega

end Counts

/-- A node, with its references if it is a directory. -/
structure LinkNode (I S : Type) where
  live : Prop
  dir : Prop
  nlink : Int
  up : I
  child : S → Option I

/-- The slot `n` of a directory is set. -/
def LinkNode.set {I S : Type} [DecidableEq S] (v : LinkNode I S) (n : S) (o : Option I) : LinkNode I S :=
  { v with child := Function.update v.child n o }

abbrev LinkGraph (I S : Type) : Type := I → LinkNode I S

namespace LinkGraph

variable {I S : Type}

/-- A directory that is still in the tree. -/
def Linked (g : LinkGraph I S) (d : I) : Prop := (g d).dir ∧ 0 < (g d).nlink

/-- The place `x` refers to `i`; `none` is for the parent. -/
def Refers (g : LinkGraph I S) (i : I) (x : I × Option S) : Prop :=
  g.Linked x.1 ∧ match x.2 with
    | none => (g x.1).up = i
    | some n => (g x.1).child n = some i

structure Tree (root : I) (g : LinkGraph I S) : Prop where
  live : ∀ {d}, (g d).dir → (g d).live
  top : g.Linked root ∧ (g root).up = root
  alloc : ∀ {d n i}, g.Linked d → (g d).child n = some i → (g i).live
  rootless : ∀ {d n}, g.Linked d → (g d).child n ≠ some root
  home : ∀ {d n i}, g.Linked d → (g d).child n = some i → (g i).dir → (g i).up = d
  sole : ∀ {d n m i}, g.Linked d → (g d).child n = some i → (g d).child m = some i → (g i).dir → n = m
  above : ∀ {d}, g.Linked d → d ≠ root → g.Linked (g d).up ∧ ∃ n, (g (g d).up).child n = some d
  empty : ∀ {d}, (g d).dir → (g d).nlink ≤ 0 → ∀ n, (g d).child n = none
  exact : ∀ {i}, (g i).live → Counts (g.Refers i) (g i).nlink

variable {g g' : LinkGraph I S} {root d i : I} {n : S}

section
variable (h : Tree root g)
include h

/-- What a slot refers to has links. -/
theorem Tree.nlink_pos (hd : g.Linked d) (hn : (g d).child n = some i) :
    0 < (g i).nlink := (h.exact (h.alloc hd hn)).pos (x := (d, some n)) ⟨hd, hn⟩

/-- So has the parent of a directory with links. -/
theorem Tree.linked_up (hd : g.Linked d) : g.Linked (g d).up := by
  by_cases hroot : d = root
  · subst hroot
    rw [h.top.2]
    exact h.top.1
  · exact (h.above hd hroot).1

/-- Nothing refers to a node that is not there. -/
theorem Tree.not_refers (hi : ¬ (g i).live) (x : I × Option S) : ¬ g.Refers i x := by
  obtain ⟨d, n⟩ := x
  rintro ⟨hd, hx⟩
  cases n with
  | none =>
    have hup : (g d).up = i := hx
    exact hi (hup ▸ h.live (h.linked_up hd).1)
  | some n => exact hi (h.alloc hd hx)

/-- Nodes without links are forgotten. -/
theorem Tree.forget (hg : ∀ i, g' i = g i ∨ ¬ (g' i).live ∧ ¬ (g' i).dir ∧ (g i).nlink = 0) : Tree root g' := by
  have hkeep : ∀ {i}, (g i).nlink ≠ 0 → g' i = g i := fun {i} hi =>
    (hg i).resolve_right fun hfree => hi hfree.2.2
  have hlive : ∀ {i}, (g' i).live ∨ (g' i).dir → g' i = g i := fun {i} hi =>
    (hg i).resolve_right fun hfree => hi.elim hfree.1 hfree.2.1
  have hlinked : ∀ {d}, g'.Linked d ↔ g.Linked d := by
    intro d
    unfold Linked
    constructor
    · rintro ⟨hdir, hpos⟩
      have hd := hlive (.inr hdir)
      rw [hd] at hdir hpos
      exact ⟨hdir, hpos⟩
    · rintro ⟨hdir, hpos⟩
      rw [hkeep hpos.ne']
      exact ⟨hdir, hpos⟩
  have hsame : ∀ {d}, g.Linked d → g' d = g d := fun hd => hkeep hd.2.ne'
  have hchild : ∀ {d n i}, g.Linked d → (g d).child n = some i → g' i = g i := fun hd hn =>
    hkeep (h.nlink_pos hd hn).ne'
  refine ⟨fun {d} hdir => ?_, ⟨hlinked.mpr h.top.1, ?_⟩, fun {d n i} hd hn => ?_, fun {d n} hd hn => ?_,
    fun {d n i} hd hn hdir => ?_, fun {d n m i} hd hn hm hdir => ?_, fun {d} hd hroot => ?_,
    fun {d} hdir hle n => ?_, fun {i} hi => ?_⟩
  · have hd := hlive (.inr hdir)
    rw [hd] at hdir ⊢
    exact h.live hdir
  · rw [hsame h.top.1, h.top.2]
  · rw [hlinked] at hd
    rw [hsame hd] at hn
    rw [hchild hd hn]
    exact h.alloc hd hn
  · rw [hlinked] at hd
    rw [hsame hd] at hn
    exact h.rootless hd hn
  · rw [hlinked] at hd
    rw [hsame hd] at hn
    rw [hchild hd hn] at hdir ⊢
    exact h.home hd hn hdir
  · rw [hlinked] at hd
    rw [hsame hd] at hn hm
    rw [hchild hd hn] at hdir
    exact h.sole hd hn hm hdir
  · rw [hlinked] at hd
    obtain ⟨hup, m, hm⟩ := h.above hd hroot
    rw [hsame hd]
    refine ⟨hlinked.mpr hup, m, ?_⟩
    rw [hsame hup, hm]
  · have hd := hlive (.inr hdir)
    rw [hd] at hdir hle ⊢
    exact h.empty hdir hle n
  · have hi' := hlive (.inl hi)
    rw [hi'] at hi ⊢
    refine (h.exact hi).congr fun x => ?_
    unfold Refers
    rw [hlinked]
    refine and_congr_right fun hx => ?_
    rw [hsame hx]

/-! ## Files -/

/-- Nothing changes for directories. -/
theorem Tree.of_same_dirs (hdir : ∀ {x}, (g' x).dir ↔ (g x).dir)
    (hlinked : ∀ {x}, g'.Linked x ↔ g.Linked x) (hup : ∀ {x}, (g x).dir → (g' x).up = (g x).up)
    (hlive : ∀ {x}, (g x).dir → (g' x).live)
    (hchild : ∀ {x m j}, g.Linked x → (g j).dir → ((g' x).child m = some j ↔ (g x).child m = some j))
    (halloc : ∀ {x m j}, g.Linked x → (g' x).child m = some j → (g' j).live)
    (hempty : ∀ {x}, (g x).dir → (g' x).nlink ≤ 0 → ∀ m, (g' x).child m = none)
    (hexact : ∀ {j}, (g' j).live → Counts (g'.Refers j) (g' j).nlink) : Tree root g' where
  live hx := hlive (hdir.mp hx)
  top := ⟨hlinked.mpr h.top.1, by rw [hup h.top.1.1, h.top.2]⟩
  alloc hx hm := halloc (hlinked.mp hx) hm
  rootless hx hm := h.rootless (hlinked.mp hx) ((hchild (hlinked.mp hx) h.top.1.1).mp hm)
  home hx hm hj := by
    rw [hdir] at hj
    rw [hup hj]
    exact h.home (hlinked.mp hx) ((hchild (hlinked.mp hx) hj).mp hm) hj
  sole hx hm hm' hj := by
    rw [hdir] at hj
    have hx := hlinked.mp hx
    exact h.sole hx ((hchild hx hj).mp hm) ((hchild hx hj).mp hm') hj
  above hx hroot := by
    have hx := hlinked.mp hx
    obtain ⟨hlup, m, hm⟩ := h.above hx hroot
    rw [hup hx.1]
    exact ⟨hlinked.mpr hlup, m, (hchild hlup hx.1).mpr hm⟩
  empty hx hle := hempty (hdir.mp hx) hle
  exact := hexact

end

variable [DecidableEq I] [DecidableEq S]

/-- One slot of a directory is set, and one node that is no directory may change. -/
structure Sets (g g' : LinkGraph I S) (d : I) (n : S) (o : Option I) (i : I) : Prop where
  here : g' d = (g d).set n o
  rest : ∀ {x}, x ≠ d → x ≠ i → g' x = g x
  linked : g.Linked d
  file : ¬ (g i).dir
  file' : ¬ (g' i).dir

section Files
variable {o : Option I}

omit [DecidableEq I] in
theorem Sets.dir_ne (h : Sets g g' d n o i) {x : I} (hx : (g x).dir) : x ≠ i := by
  rintro rfl
  exact h.file hx

section
variable (h : Sets g g' d n o i)
include h

theorem Sets.same {x : I} (hx : x ≠ i) : (g' x).live = (g x).live ∧
    (g' x).dir = (g x).dir ∧ (g' x).nlink = (g x).nlink ∧ (g' x).up = (g x).up := by
  by_cases hxd : x = d
  · rw [hxd, h.here]
    exact ⟨rfl, rfl, rfl, rfl⟩
  · rw [h.rest hxd hx]
    exact ⟨rfl, rfl, rfl, rfl⟩

theorem Sets.dir_iff {x : I} : (g' x).dir ↔ (g x).dir := by
  by_cases hx : x = i
  · rw [hx]
    exact iff_of_false h.file' h.file
  · rw [(h.same hx).2.1]

theorem Sets.linked_iff {x : I} : g'.Linked x ↔ g.Linked x := by
  unfold Linked
  rw [h.dir_iff]
  exact and_congr_right fun hx => by rw [(h.same (h.dir_ne hx)).2.2.1]

theorem Sets.child_eq {x : I} (hx : (g x).dir) (m : S) :
    (g' x).child m = if x = d ∧ m = n then o else (g x).child m := by
  by_cases hxd : x = d
  · subst hxd
    rw [h.here]
    simp [LinkNode.set, Function.update_apply]
  · rw [h.rest hxd (h.dir_ne hx)]
    simp [hxd]

/-- The places that refer to `j` are the same, but for that slot. -/
theorem Sets.refers_iff (j : I) (x : I × Option S) :
    g'.Refers j x ↔ if x = (d, some n) then o = some j else g.Refers j x := by
  obtain ⟨x, m⟩ := x
  unfold Refers
  rw [h.linked_iff]
  by_cases hx : g.Linked x
  · cases m with
    | none =>
      simp only [(h.same (h.dir_ne hx.1)).2.2.2]
      simp
    | some m =>
      simp only [h.child_eq hx.1, hx, true_and, Prod.mk.injEq, Option.some.injEq]
      split <;> rfl
  · have hxd : x ≠ d := fun hxd => hx (hxd ▸ h.linked)
    simp [hx, hxd]

/-- Counts and slots are right again. -/
theorem Sets.tree (ht : Tree root g) (hslot : ∀ j, (g j).dir → (g d).child n ≠ some j ∧ o ≠ some j)
    (halloc : ∀ j, o = some j → (g' j).live)
    (hkept : ∀ {x m}, g.Linked x → (x, m) ≠ (d, n) → (g x).child m = some i → (g' i).live)
    (hexact : (g' i).live → Counts (g'.Refers i) (g' i).nlink)
    (hothers : ∀ j, j ≠ i → (g d).child n ≠ some j ∧ o ≠ some j) : Tree root g' := by
  refine ht.of_same_dirs h.dir_iff h.linked_iff (fun hx => (h.same (h.dir_ne hx)).2.2.2)
    (fun hx => by rw [(h.same (h.dir_ne hx)).1]; exact ht.live hx) (fun {x m j} hx hj => ?_)
    (fun {x m j} hx hm => ?_) (fun {x} hx hle m => ?_) fun {j} hj => ?_
  · rw [h.child_eq hx.1]
    split
    · next hxm =>
      rw [hxm.1, hxm.2]
      exact iff_of_false (hslot j hj).2 (hslot j hj).1
    · rfl
  · rw [h.child_eq hx.1] at hm
    split at hm
    · exact halloc j hm
    · next hxm =>
      by_cases hji : j = i
      · subst hji
        exact hkept hx (fun heq => hxm ⟨congrArg Prod.fst heq, congrArg Prod.snd heq⟩) hm
      · rw [(h.same hji).1]
        exact ht.alloc hx hm
  · rw [(h.same (h.dir_ne hx)).2.2.1] at hle
    have hxd : x ≠ d := by
      rintro rfl
      have := h.linked.2
      omega
    rw [h.child_eq hx, if_neg fun hxm => hxd hxm.1]
    exact ht.empty hx hle m
  · by_cases hji : j = i
    · subst hji
      exact hexact hj
    · rw [(h.same hji).1] at hj
      rw [(h.same hji).2.2.1]
      refine (ht.exact hj).congr fun x => ?_
      rw [h.refers_iff]
      split
      · next hx =>
        rw [hx]
        exact iff_of_false (hothers j hji).2 fun hr => (hothers j hji).1 hr.2
      · rfl

end

/-- A slot that was not used refers to `i`. Before it had one link less. -/
theorem Tree.addFile (ht : Tree root g) (h : Sets g g' d n (some i) i) (hn : (g d).child n = none)
    (hlive : (g' i).live) (hcount : Counts (g.Refers i) ((g' i).nlink - 1)) : Tree root g' := by
  refine h.tree ht (fun j hj => ?_) (fun j hj => ?_) (fun _ _ _ => hlive) (fun _ => ?_) fun j hj => ?_
  · rw [hn]
    exact ⟨nofun, fun hij => h.dir_ne hj (Option.some.inj hij).symm⟩
  · rw [← Option.some.inj hj]
    exact hlive
  · have hnot : ¬ g.Refers i (d, some n) := fun hr => by
      have hsome : (g d).child n = some i := hr.2
      rw [hn] at hsome
      cases hsome
    have hins : Counts (g'.Refers i) _ := hcount.insert hnot fun x => by
      rw [h.refers_iff]
      split <;> simp [*]
    rwa [Int.sub_add_cancel] at hins
  · rw [hn]
    exact ⟨nofun, fun hij => hj (Option.some.inj hij).symm⟩

/-- A link to `i` is removed. -/
theorem Tree.removeFile (ht : Tree root g) (h : Sets g g' d n none i)
    (hn : (g d).child n = some i) (hlive : (g' i).live) (hcount : (g' i).nlink = (g i).nlink - 1) :
    Tree root g' := by
  refine h.tree ht (fun j hj => ?_) (fun j hj => nomatch hj) (fun _ _ _ => hlive) (fun _ => ?_)
    fun j hj => ?_
  · rw [hn]
    exact ⟨fun hij => h.dir_ne hj (Option.some.inj hij).symm, nofun⟩
  · rw [hcount]
    refine (ht.exact (ht.alloc h.linked hn)).erase (x := (d, some n)) ⟨h.linked, hn⟩ fun x => ?_
    rw [h.refers_iff]
    split <;> simp [*]
  · rw [hn]
    exact ⟨fun hij => hj (Option.some.inj hij).symm, nofun⟩

end Files

/-! ## Directories -/

/-- A new directory `i`, without children. -/
theorem Tree.addDir (ht : Tree root g) (hd : g.Linked d) (hn : (g d).child n = none)
    (hi : ¬ (g i).live) (hgd : g' d = { (g d).set n (some i) with nlink := (g d).nlink + 1 })
    (hlive : (g' i).live) (hdir : (g' i).dir) (hone : (g' i).nlink = 1) (hup : (g' i).up = d)
    (hnone : ∀ m, (g' i).child m = none) (hrest : ∀ {x}, x ≠ d → x ≠ i → g' x = g x) : Tree root g' := by
  have hold : ∀ {x}, (g x).live → x ≠ i := fun hx hxi => hi (hxi ▸ hx)
  have holdDir : ∀ {x}, (g x).dir → x ≠ i := fun hx => hold (ht.live hx)
  have hsame : ∀ {x}, x ≠ i → (g' x).live = (g x).live ∧ (g' x).dir = (g x).dir ∧
      (g' x).nlink = (g x).nlink + (if x = d then 1 else 0) ∧ (g' x).up = (g x).up := by
    intro x hx
    by_cases hxd : x = d
    · rw [hxd, hgd, if_pos rfl]
      exact ⟨rfl, rfl, rfl, rfl⟩
    · rw [hrest hxd hx, if_neg hxd, Int.add_zero]
      exact ⟨rfl, rfl, rfl, rfl⟩
  have hlinked : ∀ {x}, g'.Linked x ↔ g.Linked x ∨ x = i := by
    intro x
    by_cases hx : x = i
    · subst hx
      exact iff_of_true ⟨hdir, by rw [hone]; decide⟩ (.inr rfl)
    · unfold Linked
      rw [(hsame hx).2.1, (hsame hx).2.2.1, or_iff_left hx]
      split
      · next hxd =>
        have := hd.2
        rw [hxd]
        exact and_congr_right fun _ => by omega
      · rw [Int.add_zero]
  have hchild : ∀ {x m}, g.Linked x → (g' x).child m = if x = d ∧ m = n then some i else (g x).child m := by
    intro x m hx
    by_cases hxd : x = d
    · subst hxd
      rw [hgd]
      simp [LinkNode.set, Function.update_apply]
    · rw [hrest hxd (holdDir hx.1)]
      simp [hxd]
  -- what a slot refers to is an old node, or it is the new slot
  have hslot : ∀ {x m j}, g'.Linked x → (g' x).child m = some j →
      g.Linked x ∧ ((g x).child m = some j ∨ x = d ∧ m = n ∧ j = i) := by
    intro x m j hx hm
    obtain hx | rfl := hlinked.mp hx
    · refine ⟨hx, ?_⟩
      rw [hchild hx] at hm
      split at hm
      · next hxm => exact .inr ⟨hxm.1, hxm.2, (Option.some.inj hm).symm⟩
      · exact .inl hm
    · rw [hnone] at hm
      cases hm
  have hslotOld : ∀ {x m j}, g.Linked x → (g x).child m = some j → (g' x).child m = some j := by
    intro x m j hx hm
    rw [hchild hx, if_neg, hm]
    rintro ⟨rfl, rfl⟩
    rw [hn] at hm
    cases hm
  have hrefers : ∀ j x, g'.Refers j x ↔ g.Refers j x ∨ x = (d, some n) ∧ j = i ∨ x = (i, none) ∧ j = d := by
    rintro j ⟨x, m⟩
    unfold Refers
    dsimp only
    constructor
    · rintro ⟨hx, hm⟩
      cases m with
      | none =>
        obtain hx | rfl := hlinked.mp hx
        · refine .inl ⟨hx, ?_⟩
          rwa [(hsame (holdDir hx.1)).2.2.2] at hm
        · rw [hup] at hm
          exact .inr (.inr ⟨rfl, hm.symm⟩)
      | some m =>
        obtain ⟨hx, hm | ⟨rfl, rfl, rfl⟩⟩ := hslot hx hm
        · exact .inl ⟨hx, hm⟩
        · exact .inr (.inl ⟨rfl, rfl⟩)
    · rintro (⟨hx, hm⟩ | ⟨heq, rfl⟩ | ⟨heq, rfl⟩)
      · refine ⟨hlinked.mpr (.inl hx), ?_⟩
        cases m with
        | none =>
          dsimp only
          rw [(hsame (holdDir hx.1)).2.2.2]
          exact hm
        | some m => exact hslotOld hx hm
      · cases heq
        refine ⟨hlinked.mpr (.inl hd), ?_⟩
        dsimp only
        rw [hchild hd, if_pos ⟨rfl, rfl⟩]
      · cases heq
        exact ⟨hlinked.mpr (.inr rfl), hup⟩
  refine ⟨fun {x} hx => ?_, ⟨hlinked.mpr (.inl ht.top.1), ?_⟩, fun {x m j} hx hm => ?_,
    fun {x m} hx hm => ?_, fun {x m j} hx hm hj => ?_, fun {x m m' j} hx hm hm' hj => ?_,
    fun {x} hx hroot => ?_, fun {x} hx hle m => ?_, fun {j} hj => ?_⟩
  · by_cases hxi : x = i
    · rw [hxi]
      exact hlive
    · rw [(hsame hxi).2.1] at hx
      rw [(hsame hxi).1]
      exact ht.live hx
  · rw [(hsame (holdDir ht.top.1.1)).2.2.2, ht.top.2]
  · obtain ⟨hx, hm | ⟨-, -, rfl⟩⟩ := hslot hx hm
    · have hj := ht.alloc hx hm
      rwa [(hsame (hold hj)).1]
    · exact hlive
  · obtain ⟨hx, hm | ⟨-, -, rfl⟩⟩ := hslot hx hm
    · exact ht.rootless hx hm
    · exact holdDir ht.top.1.1 rfl
  · obtain ⟨hx, hm | ⟨rfl, -, rfl⟩⟩ := hslot hx hm
    · have hji := hold (ht.alloc hx hm)
      rw [(hsame hji).2.1] at hj
      rw [(hsame hji).2.2.2]
      exact ht.home hx hm hj
    · exact hup
  · obtain ⟨hx', hm | ⟨rfl, rfl, rfl⟩⟩ := hslot hx hm
    · have hji := hold (ht.alloc hx' hm)
      obtain ⟨-, hm' | ⟨-, -, h⟩⟩ := hslot hx hm'
      · rw [(hsame hji).2.1] at hj
        exact ht.sole hx' hm hm' hj
      · exact absurd h hji
    · obtain ⟨-, hm' | ⟨-, h, -⟩⟩ := hslot hx hm'
      · exact absurd rfl (hold (ht.alloc hx' hm'))
      · exact h.symm
  · obtain hx | rfl := hlinked.mp hx
    · obtain ⟨hlup, m, hm⟩ := ht.above hx hroot
      rw [(hsame (holdDir hx.1)).2.2.2]
      exact ⟨hlinked.mpr (.inl hlup), m, hslotOld hlup hm⟩
    · rw [hup]
      exact ⟨hlinked.mpr (.inl hd), n, by rw [hchild hd, if_pos ⟨rfl, rfl⟩]⟩
  · have hxi : x ≠ i := by
      rintro rfl
      rw [hone] at hle
      exact absurd hle (by decide)
    have hxd : x ≠ d := by
      rintro rfl
      have := hd.2
      rw [(hsame hxi).2.2.1, if_pos rfl] at hle
      omega
    rw [hrest hxd hxi] at hx hle ⊢
    exact ht.empty hx hle m
  · by_cases hji : j = i
    · subst hji
      rw [hone]
      refine (Counts.zero (ht.not_refers hi)).insert (x := (d, some n)) (ht.not_refers hi _) fun x => ?_
      rw [hrefers]
      have hjd : j ≠ d := (holdDir hd.1).symm
      simp [hjd, ht.not_refers hi x]
    · rw [(hsame hji).1] at hj
      rw [(hsame hji).2.2.1]
      by_cases hjd : j = d
      · subst hjd
        rw [if_pos rfl]
        refine (ht.exact hj).insert (x := (i, none)) (fun hr => holdDir hr.1.1 rfl) fun x => ?_
        rw [hrefers]
        simp [hji, or_comm]
      · rw [if_neg hjd, Int.add_zero]
        exact (ht.exact hj).congr fun x => by rw [hrefers]; simp [hji, hjd]

section
variable (ht : Tree root g) (hd : g.Linked d) (hn : (g d).child n = some i) (hi : (g i).dir)
  (hnone : ∀ m, (g i).child m = none)
include ht hd hn hi hnone

omit [DecidableEq S] in
/-- The only place that refers to an empty directory is its slot. -/
theorem Tree.refers_of_empty (x : I × Option S) : g.Refers i x ↔ x = (d, some n) := by
  refine ⟨?_, fun hx => hx ▸ ⟨hd, hn⟩⟩
  obtain ⟨x, m⟩ := x
  rintro ⟨hx, hm⟩
  cases m with
  | none =>
    -- a directory that has `i` as its parent is in `i`
    have hxup : (g x).up = i := hm
    by_cases hroot : x = root
    · subst hroot
      rw [ht.top.2] at hxup
      exact absurd (hxup ▸ hn) (ht.rootless hd)
    · obtain ⟨-, m, hm⟩ := ht.above hx hroot
      rw [hxup, hnone] at hm
      cases hm
  | some m =>
    obtain rfl : d = x := (ht.home hd hn hi).symm.trans (ht.home hx hm hi)
    rw [ht.sole hx hm hn hi]

/-- An empty directory `i` is removed. -/
theorem Tree.removeDir (hgd : g' d = { (g d).set n none with nlink := (g d).nlink - 1 })
    (hgi : g' i = { g i with nlink := (g i).nlink - 1 }) (hrest : ∀ {x}, x ≠ d → x ≠ i → g' x = g x) :
    Tree root g' := by
  have hroot : i ≠ root := by
    rintro rfl
    exact ht.rootless hd hn
  have hne : d ≠ i := by
    rintro rfl
    rw [hnone] at hn
    cases hn
  have hone : (g i).nlink = 1 := (ht.exact (ht.live hi)).eq_one (ht.refers_of_empty hd hn hi hnone)
  have hup : (g i).up = d := ht.home hd hn hi
  have hlinkedi : g.Linked i := ⟨hi, by omega⟩
  -- the parent keeps its own place, or that of the root in itself
  have htwo : 1 < (g d).nlink := by
    have hfrom : g.Refers d (i, none) := ⟨hlinkedi, hup⟩
    by_cases hdroot : d = root
    · subst hdroot
      exact (ht.exact (ht.live hd.1)).one_lt hfrom (y := (d, none)) ht.top fun h => hne (congrArg Prod.fst h).symm
    · obtain ⟨hlup, m, hm⟩ := ht.above hd hdroot
      exact (ht.exact (ht.live hd.1)).one_lt hfrom (y := ((g d).up, some m)) ⟨hlup, hm⟩ nofun
  have hsame : ∀ x, (g' x).live = (g x).live ∧ (g' x).dir = (g x).dir ∧ (g' x).up = (g x).up ∧
      (g' x).nlink = (g x).nlink - (if x = d ∨ x = i then 1 else 0) := by
    intro x
    by_cases hxd : x = d
    · rw [hxd, hgd, if_pos (.inl rfl)]
      exact ⟨rfl, rfl, rfl, rfl⟩
    · by_cases hxi : x = i
      · rw [hxi, hgi, if_pos (.inr rfl)]
        exact ⟨rfl, rfl, rfl, rfl⟩
      · rw [hrest hxd hxi, if_neg (by simp [hxd, hxi]), Int.sub_zero]
        exact ⟨rfl, rfl, rfl, rfl⟩
  have hlinked : ∀ {x}, g'.Linked x ↔ g.Linked x ∧ x ≠ i := by
    intro x
    unfold Linked
    obtain ⟨-, hdir, -, hnl⟩ := hsame x
    rw [hdir, hnl, and_assoc]
    refine and_congr_right fun _ => ?_
    by_cases hxi : x = i
    · subst hxi
      rw [if_pos (.inr rfl)]
      simp [hone]
    · by_cases hxd : x = d
      · subst hxd
        rw [if_pos (.inl rfl)]
        simp only [ne_eq, hxi, not_false_eq_true, and_true]
        omega
      · simp [hxi, hxd]
  have hchild : ∀ {x m}, x ≠ i → (g' x).child m = if x = d ∧ m = n then none else (g x).child m := by
    intro x m hxi
    by_cases hxd : x = d
    · subst hxd
      rw [hgd]
      simp [LinkNode.set, Function.update_apply]
    · rw [hrest hxd hxi]
      simp [hxd]
  have hslot : ∀ {x m j}, g'.Linked x → ((g' x).child m = some j ↔
      (x, m) ≠ (d, n) ∧ (g x).child m = some j) := by
    intro x m j hx
    rw [hchild (hlinked.mp hx).2]
    by_cases hxm : x = d ∧ m = n
    · simp [hxm]
    · rw [if_neg hxm]
      simp only [ne_eq, Prod.mk.injEq, hxm, not_false_eq_true, true_and]
  have hrefers : ∀ j x, g'.Refers j x ↔ g.Refers j x ∧ x ≠ (d, some n) ∧ x ≠ (i, none) := by
    rintro j ⟨x, m⟩
    unfold Refers
    dsimp only
    by_cases hx : g'.Linked x
    · obtain ⟨hx', hxi⟩ := hlinked.mp hx
      cases m with
      | none =>
        simp only [(hsame x).2.2.1]
        simp [hx, hx', hxi]
      | some m =>
        simp only [hslot hx]
        simp [hx, hx', and_comm]
    · refine iff_of_false (fun h => hx h.1) fun h => ?_
      have hxi : x = i := by
        by_contra hxi
        exact hx (hlinked.mpr ⟨h.1.1, hxi⟩)
      subst hxi
      cases m with
      | none => exact h.2.2 rfl
      | some m =>
        have hsome : (g x).child m = some j := h.1.2
        rw [hnone] at hsome
        cases hsome
  refine ⟨fun {x} hx => ?_, ⟨hlinked.mpr ⟨ht.top.1, hroot.symm⟩, ?_⟩, fun {x m j} hx hm => ?_,
    fun {x m} hx hm => ?_, fun {x m j} hx hm hj => ?_, fun {x m m' j} hx hm hm' hj => ?_,
    fun {x} hx hxroot => ?_, fun {x} hx hle m => ?_, fun {j} hj => ?_⟩
  · rw [(hsame x).2.1] at hx
    rw [(hsame x).1]
    exact ht.live hx
  · rw [(hsame root).2.2.1, ht.top.2]
  · rw [(hsame j).1]
    exact ht.alloc (hlinked.mp hx).1 ((hslot hx).mp hm).2
  · exact ht.rootless (hlinked.mp hx).1 ((hslot hx).mp hm).2
  · rw [(hsame j).2.1] at hj
    rw [(hsame j).2.2.1]
    exact ht.home (hlinked.mp hx).1 ((hslot hx).mp hm).2 hj
  · rw [(hsame j).2.1] at hj
    exact ht.sole (hlinked.mp hx).1 ((hslot hx).mp hm).2 ((hslot hx).mp hm').2 hj
  · obtain ⟨hx, hxi⟩ := hlinked.mp hx
    obtain ⟨hlup, m, hm⟩ := ht.above hx hxroot
    rw [(hsame x).2.2.1]
    -- the parent of `x` is not `i`, which is empty, and the slot is not the one that is cleared
    have hupi : (g x).up ≠ i := by
      intro hupi
      rw [hupi, hnone] at hm
      cases hm
    have hlup' : g'.Linked (g x).up := hlinked.mpr ⟨hlup, hupi⟩
    refine ⟨hlup', m, (hslot hlup').mpr ⟨fun heq => hxi ?_, hm⟩⟩
    have h1 : (g x).up = d := congrArg Prod.fst heq
    have h2 : m = n := congrArg Prod.snd heq
    rw [h1, h2, hn] at hm
    exact (Option.some.inj hm).symm
  · rw [(hsame x).2.1] at hx
    have hxd : x ≠ d := by
      rintro rfl
      rw [(hsame x).2.2.2, if_pos (.inl rfl)] at hle
      omega
    by_cases hxi : x = i
    · rw [hxi, hgi]
      exact hnone m
    · rw [hrest hxd hxi] at hle ⊢
      exact ht.empty hx hle m
  · obtain ⟨hl, -, -, hnl⟩ := hsame j
    rw [hl] at hj
    rw [hnl]
    by_cases hji : j = i
    · subst hji
      rw [if_pos (.inr rfl), hone]
      refine Counts.zero fun x => ?_
      rw [hrefers, ht.refers_of_empty hd hn hi hnone]
      exact fun h => h.2.1 h.1
    · by_cases hjd : j = d
      · subst hjd
        rw [if_pos (.inl rfl)]
        refine (ht.exact hj).erase (x := (i, none)) ⟨hlinkedi, hup⟩ fun x => ?_
        rw [hrefers]
        refine ⟨fun h => ⟨h.2.2, h.1⟩, fun h => ⟨h.2, ?_, h.1⟩⟩
        rintro rfl
        have hsome : (g j).child n = some j := h.2.2
        rw [hn] at hsome
        exact hji (Option.some.inj hsome).symm
      · rw [if_neg (by simp [hji, hjd]), Int.sub_zero]
        refine (ht.exact hj).congr fun x => ?_
        rw [hrefers]
        refine and_iff_left_of_imp fun hr => ⟨?_, ?_⟩
        · rintro rfl
          have hsome : (g d).child n = some j := hr.2
          rw [hn] at hsome
          exact hji (Option.some.inj hsome).symm
        · rintro rfl
          have hij : (g i).up = j := hr.2
          exact hjd (hij.symm.trans hup)

end

end LinkGraph

import Mathlib.Logic.Function.Basic

/-!
# Arrays in blocks

An array of elements of `β` is kept in blocks of `B` elements, some of which are there and some not. Reads and
writes go block by block. `get?_write` and `read_eq` say that the boundaries between blocks do not matter.
-/

namespace BlockArray

open Option (map_some getD_some)

variable {β : Type}

/-- The blocks that are there. -/
abbrev Sparse (β : Type) := Nat → Option (Nat → β)

variable (B : Nat) (zero : β)

/-- The element at `x`. -/
def get? (v : Sparse β) (x : Nat) : Option β := (v (x / B)).map fun blk => blk (x % B)

/-- The block with the elements `src` from `x` on. -/
def put (blk : Nat → β) (x : Nat) (src : List β) : Nat → β := fun y =>
  if x ≤ y ∧ y < x + src.length then src.getD (y - x) zero else blk y

/-- One turn of the loop: `m` elements of `src` go into the block around `off`, which is made if it is
not there. -/
def writeBlock (v : Sparse β) (off m : Nat) (src : List β) : Sparse β :=
  Function.update v (off / B)
    (some (put zero ((v (off / B)).getD fun _ => zero) (off % B) (src.take m)))

/-- Write `src` from `off` on. -/
def write : (fuel off : Nat) → (src : List β) → Sparse β → Sparse β
  | 0, _, _, v => v
  | fuel + 1, off, src, v =>
    if src.length = 0 then v
    else
      let m := min src.length (B - off % B)
      write fuel (off + m) (src.drop m) (writeBlock B zero v off m src)

/-- Read `n` elements from `off` on. -/
def read : (fuel off n : Nat) → Sparse β → List β
  | 0, _, _, _ => []
  | fuel + 1, off, n, v =>
    if n = 0 then []
    else
      let m := min n (B - off % B)
      (List.range m).map (fun x => (v (off / B)).elim zero fun blk => blk (off % B + x)) ++
        read fuel (off + m) (n - m) v

/-- The first `n` elements. -/
def toList (v : Sparse β) (n : Nat) : List β := (List.range n).map fun x => (get? B v x).getD zero

/-- The list with the elements `src` from `off` on. -/
def splice (old : List β) (off : Nat) (src : List β) : List β :=
  old.take off ++ src ++ old.drop (off + src.length)

variable {B zero} {v : Sparse β} {off x m : Nat} {src : List β}

theorem isSome_of_get? {a : β} (h : get? B v x = some a) : (v (x / B)).isSome := by
  unfold get? at h
  cases hb : v (x / B) with
  | none =>
    rw [hb] at h
    cases h
  | some blk => rfl

/-- The elements of one turn are all in one block. -/
theorem div_eq_of_turn (hB : 0 < B) (hm : m ≤ B - off % B) (hx : off ≤ x) (hxm : x < off + m) :
    x / B = off / B ∧ x % B = off % B + (x - off) := by
  obtain ⟨y, rfl⟩ := Nat.exists_eq_add_of_le hx
  have hlt := Nat.mod_lt off hB
  have hsum : off + y = off % B + y + B * (off / B) := by
    have := Nat.div_add_mod off B
    omega
  have hmod : off % B + y < B := by omega
  rw [Nat.add_sub_cancel_left]
  constructor
  · rw [hsum, Nat.add_mul_div_left _ _ hB, Nat.div_eq_of_lt hmod, Nat.zero_add]
  · rw [hsum, Nat.add_mul_mod_self_left, Nat.mod_eq_of_lt hmod]

theorem get?_writeBlock_inside (hB : 0 < B) (hm : m ≤ B - off % B) (hlen : m ≤ src.length)
    (hx : off ≤ x) (hxm : x < off + m) :
    get? B (writeBlock B zero v off m src) x = some (src.getD (x - off) zero) := by
  obtain ⟨hdiv, hmod⟩ := div_eq_of_turn hB hm hx hxm
  have htake : (src.take m).length = m := by rw [List.length_take, Nat.min_eq_left hlen]
  unfold get? writeBlock
  rw [hdiv, Function.update_self, map_some, put, if_pos (by omega), hmod,
    Nat.add_sub_cancel_left, List.getD_eq_getElem?_getD, List.getElem?_take_of_lt (by omega),
    List.getD_eq_getElem?_getD]

theorem get?_writeBlock_outside (hx : x < off ∨ off + m ≤ x) (hv : (v (x / B)).isSome) :
    get? B (writeBlock B zero v off m src) x = get? B v x := by
  unfold get? writeBlock
  by_cases hdiv : x / B = off / B
  · -- another element of the block that is written
    rw [hdiv] at hv ⊢
    obtain ⟨blk, hblk⟩ := Option.isSome_iff_exists.mp hv
    have h1 := Nat.div_add_mod x B
    have h2 := Nat.div_add_mod off B
    rw [hdiv] at h1
    have htake : (src.take m).length ≤ m := List.length_take_le m src
    rw [Function.update_self, hblk, map_some, map_some, getD_some, put,
      if_neg (by omega)]
  · rw [Function.update_of_ne hdiv]

theorem isSome_writeBlock (h : (v x).isSome) : (writeBlock B zero v off m src x).isSome := by
  unfold writeBlock
  by_cases hx : x = off / B
  · rw [hx, Function.update_self]
    rfl
  · rwa [Function.update_of_ne hx]

variable {fuel n : Nat} {old : List β}

theorem isSome_write (h : (v x).isSome) : (write B zero fuel off src v x).isSome := by
  induction fuel generalizing off src v with
  | zero => exact h
  | succ fuel ih =>
    unfold write
    split
    · exact h
    · exact ih (isSome_writeBlock h)

/-- How much of the request one turn takes: at least one element, and not more than the block has. -/
theorem turn_bounds (off : Nat) (hB : 0 < B) (hn : n ≠ 0) :
    0 < min n (B - off % B) ∧ min n (B - off % B) ≤ n ∧ min n (B - off % B) ≤ B - off % B := by
  have := Nat.mod_lt off hB
  omega

/-- Outside of the request nothing changes. -/
theorem get?_write_outside (hx : x < off ∨ off + src.length ≤ x) (hv : (v (x / B)).isSome) :
    get? B (write B zero fuel off src v) x = get? B v x := by
  induction fuel generalizing off src v with
  | zero => rfl
  | succ fuel ih =>
    unfold write
    split
    · rfl
    · have hm := Nat.min_le_left src.length (B - off % B)
      dsimp only
      rw [ih (by rw [List.length_drop]; omega) (isSome_writeBlock hv)]
      exact get?_writeBlock_outside (by omega) hv

/-- Inside of the request the new elements are there. -/
theorem get?_write_inside (hB : 0 < B) (hfuel : src.length ≤ fuel) (hx : off ≤ x)
    (hxn : x < off + src.length) :
    get? B (write B zero fuel off src v) x = some (src.getD (x - off) zero) := by
  induction fuel generalizing off src v with
  | zero => omega
  | succ fuel ih =>
    unfold write
    rw [if_neg (by omega)]
    obtain ⟨hpos, hlen, hblock⟩ := turn_bounds off hB (n := src.length) (by omega)
    dsimp only
    generalize min src.length (B - off % B) = m at *
    by_cases hturn : x < off + m
    · -- written in this turn, and left alone by the others
      have hget : get? B (writeBlock B zero v off m src) x = some (src.getD (x - off) zero) :=
        get?_writeBlock_inside hB hblock hlen hx hturn
      rw [get?_write_outside (.inl hturn) (isSome_of_get? hget), hget]
    · rw [ih (by rw [List.length_drop]; omega) (by omega) (by rw [List.length_drop]; omega),
        List.getD_eq_getElem?_getD, List.getElem?_drop, List.getD_eq_getElem?_getD]
      congr 3
      omega

/-- A read of elements that are there. -/
theorem read_eq (hB : 0 < B) (hfuel : n ≤ fuel) :
    read B zero fuel off n v = (List.range n).map fun x => (get? B v (off + x)).getD zero := by
  induction fuel generalizing off n with
  | zero =>
    obtain rfl : n = 0 := Nat.le_zero.mp hfuel
    rfl
  | succ fuel ih =>
    unfold read
    split
    · next hn => rw [hn]; rfl
    · next hn =>
      obtain ⟨hpos, hlen, hblock⟩ := turn_bounds off hB hn
      dsimp only
      generalize min n (B - off % B) = m at *
      rw [ih (by omega)]
      have hsplit : List.range n = List.range m ++ (List.range (n - m)).map (m + ·) := by
        rw [← List.range_add, Nat.add_sub_cancel' hlen]
      rw [hsplit, List.map_append, List.map_map]
      congr 1
      · refine List.map_congr_left fun x hx => ?_
        obtain ⟨hdiv, hmod⟩ := div_eq_of_turn hB hblock (Nat.le_add_right off x)
          (Nat.add_lt_add_left (List.mem_range.mp hx) off)
        unfold get?
        rw [hdiv, hmod, Nat.add_sub_cancel_left]
        cases v (off / B) <;> rfl
      · refine List.map_congr_left fun x _ => ?_
        rw [Function.comp_apply, Nat.add_assoc]

/-! ## As a list -/

theorem length_toList (v : Sparse β) (n : Nat) : (toList B zero v n).length = n := by
  rw [toList, List.length_map, List.length_range]

theorem getElem?_toList (h : x < n) : (toList B zero v n)[x]? = some ((get? B v x).getD zero) := by
  rw [toList, List.getElem?_map, List.getElem?_range h, map_some]

theorem length_splice (hoff : off ≤ old.length) :
    (splice old off src).length = max old.length (off + src.length) := by
  unfold splice
  rw [List.length_append, List.length_append, List.length_take, List.length_drop]
  omega

theorem getElem?_splice (hoff : off ≤ old.length) (x : Nat) :
    (splice old off src)[x]? = if off ≤ x ∧ x < off + src.length then src[x - off]? else old[x]? := by
  have htake : (old.take off).length = off := by
    rw [List.length_take]
    omega
  unfold splice
  by_cases h1 : x < off
  · rw [if_neg (by omega), List.append_assoc, List.getElem?_append_left (by omega),
      List.getElem?_take_of_lt h1]
  · by_cases h2 : x < off + src.length
    · rw [if_pos (by omega), List.append_assoc, List.getElem?_append_right (by omega), htake,
        List.getElem?_append_left (by omega)]
    · have hlen : (old.take off ++ src).length = off + src.length := by rw [List.length_append, htake]
      rw [if_neg (by omega), List.getElem?_append_right (by omega), hlen, List.getElem?_drop,
        Nat.add_sub_cancel' (by omega)]

/-- Two splices, the second where the first ended. -/
theorem splice_splice {src' : List β} (hoff : off ≤ old.length) :
    splice (splice old off src) (off + src.length) src' = splice old off (src ++ src') := by
  have hmid : off + src.length ≤ (splice old off src).length := by
    rw [length_splice hoff]
    omega
  refine List.ext_getElem? fun x => ?_
  rw [getElem?_splice hmid, getElem?_splice hoff, getElem?_splice hoff, List.length_append]
  by_cases h1 : x < off
  · rw [if_neg (by omega), if_neg (by omega), if_neg (by omega)]
  · by_cases h2 : x < off + src.length
    · rw [if_neg (by omega), if_pos (by omega), if_pos (by omega), List.getElem?_append_left (by omega)]
    · by_cases h3 : x < off + src.length + src'.length
      · rw [if_pos (by omega), if_pos (by omega), List.getElem?_append_right (by omega)]
        congr 1
        omega
      · rw [if_neg (by omega), if_neg (by omega), if_neg (by omega)]

/-- A write is a splice. -/
theorem toList_write (hB : 0 < B) (hfuel : src.length ≤ fuel) (hoff : off ≤ n)
    (hv : ∀ x < n, (v (x / B)).isSome) :
    toList B zero (write B zero fuel off src v) (max n (off + src.length)) =
      splice (toList B zero v n) off src := by
  have hlen : off ≤ (toList B zero v n).length := by rwa [length_toList]
  refine List.ext_getElem? fun x => ?_
  rw [getElem?_splice hlen]
  by_cases hin : off ≤ x ∧ x < off + src.length
  · rw [if_pos hin, getElem?_toList (by omega), get?_write_inside hB hfuel hin.1 hin.2,
      getD_some, List.getD_eq_getElem?_getD, List.getElem?_eq_getElem (by omega), getD_some]
  · rw [if_neg hin]
    by_cases hxn : x < n
    · rw [getElem?_toList (by omega), getElem?_toList hxn, get?_write_outside (by omega) (hv x hxn)]
    · rw [List.getElem?_eq_none (by rw [length_toList]; omega),
        List.getElem?_eq_none (by rw [length_toList]; omega)]

/-- A read is a part of the list. -/
theorem read_toList (hB : 0 < B) {size : Nat} (hfuel : n ≤ fuel) (hn : off + n ≤ size) :
    read B zero fuel off n v = ((toList B zero v size).drop off).take n := by
  rw [read_eq hB hfuel]
  refine List.ext_getElem? fun x => ?_
  by_cases hx : x < n
  · rw [List.getElem?_map, List.getElem?_range hx, List.getElem?_take_of_lt hx, List.getElem?_drop,
      getElem?_toList (by omega), map_some]
  · rw [List.getElem?_eq_none (by simpa using hx), List.getElem?_eq_none]
    rw [List.length_take]
    omega

end BlockArray

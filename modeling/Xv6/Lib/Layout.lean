import Mathlib.Data.BitVec

/-!
# Records as bytes

A record in memory or on a disk is a row of fields, each of them a number in a fixed number of bytes, the
lowest byte first. `encode` writes the fields one after the other and `decode` takes them apart again;
`decode_encode` is the round trip.
-/

namespace Layout

/-- A field: its width in bytes, and the number in it. -/
abbrev Field := Nat × Nat

/-- The number fits into the field. -/
def Field.Fits (f : Field) : Prop := f.2 < 256 ^ f.1

/-- The `w` low bytes of `v`. -/
def toBytes : (w v : Nat) → List (BitVec 8)
  | 0, _ => []
  | w + 1, v => BitVec.ofNat 8 v :: toBytes w (v / 256)

def ofBytes : List (BitVec 8) → Nat
  | [] => 0
  | b :: l => b.toNat + 256 * ofBytes l

def encode : List Field → List (BitVec 8)
  | [] => []
  | (w, v) :: fields => toBytes w v ++ encode fields

/-- The numbers in fields of these widths. -/
def decode : (widths : List Nat) → List (BitVec 8) → List Nat
  | [], _ => []
  | w :: widths, l => ofBytes (l.take w) :: decode widths (l.drop w)

@[simp] theorem length_toBytes (w v : Nat) : (toBytes w v).length = w := by
  induction w generalizing v with
  | zero => rfl
  | succ w ih => simp [toBytes, ih]

theorem ofBytes_toBytes {w v : Nat} (h : v < 256 ^ w) : ofBytes (toBytes w v) = v := by
  induction w generalizing v with
  | zero =>
    rw [Nat.pow_zero, Nat.lt_one_iff] at h
    exact h.symm
  | succ w ih =>
    rw [Nat.pow_succ'] at h
    rw [toBytes, ofBytes, ih (Nat.div_lt_of_lt_mul h), BitVec.toNat_ofNat]
    omega

theorem length_encode (fields : List Field) : (encode fields).length = (fields.map Prod.fst).sum := by
  induction fields with
  | nil => rfl
  | cons f fields ih => simp [encode, ih]

/-- What is written is read back. -/
theorem decode_encode {fields : List Field} (h : ∀ f ∈ fields, f.Fits) :
    decode (fields.map Prod.fst) (encode fields) = fields.map Prod.snd := by
  induction fields with
  | nil => rfl
  | cons f fields ih =>
    obtain ⟨hf, hfields⟩ := List.forall_mem_cons.mp h
    obtain ⟨w, v⟩ := f
    rw [List.map_cons, List.map_cons, encode, decode, List.take_left' (length_toBytes w v),
      List.drop_left' (length_toBytes w v), ofBytes_toBytes hf, ih hfields]

/-- The numbers `vs` in fields of the widths `ws`. -/
theorem decode_encode_zip {ws vs : List Nat} (hlen : ws.length = vs.length)
    (h : ∀ f ∈ ws.zip vs, Field.Fits f) : decode ws (encode (ws.zip vs)) = vs := by
  have hround := decode_encode h
  rwa [List.map_fst_zip hlen.le, List.map_snd_zip hlen.ge] at hround

end Layout

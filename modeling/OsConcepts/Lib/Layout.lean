import OsConcepts.Lib.Bytes

/-!
# Structures as they lie in memory

A `Layout` is a pair of maps between the values of a type and the bytes they
occupy, with the proofs that neither direction loses anything: a value whose
integers fit comes back, and so does every byte the structure covers. A structure
is saved and loaded by moving some of its bytes (`merge`); what has been moved
comes from the one value, the rest stays that of the other.
-/

namespace OsConcepts

/-- Loading the bytes of a stored `int`. -/
theorem intByte_memInt (m : Mem) (off : Nat) {i : Nat} (hi : i < 4) :
    intByte (memInt m off) i = m (off + i) := by
  have h0 := (m off).toNat_lt
  have h1 := (m (off + 1)).toNat_lt
  have h2 := (m (off + 2)).toNat_lt
  have h3 := (m (off + 3)).toNat_lt
  have hmod : (memInt m off % 4294967296).toNat = (m off).toNat + 256 * (m (off + 1)).toNat
      + 65536 * (m (off + 2)).toNat + 16777216 * (m (off + 3)).toNat := by
    unfold memInt
    rw [wrap32, Int.bmod_def]
    split <;> omega
  have hbyte : ∀ b : Byte, ∀ x : Nat, x % 256 = b.toNat → UInt8.ofNat x = b := by
    intro b x hx
    rw [← UInt8.toNat_inj, UInt8.toNat_ofNat', hx]
  rw [intByte, hmod]
  obtain rfl | rfl | rfl | rfl : i = 0 ∨ i = 1 ∨ i = 2 ∨ i = 3 := by omega
  · exact hbyte (m off) _ (by omega)
  · exact hbyte _ _ (by omega)
  · exact hbyte _ _ (by omega)
  · exact hbyte _ _ (by omega)

/-- How the values of a type lie in memory, `Fits` being those that lose nothing. -/
structure Layout (α : Type*) where
  image : α → Mem
  ofImage : Mem → α
  length : Nat
  Fits : α → Prop
  ofImage_image : ∀ a, Fits a → ofImage (image a) = a
  image_ofImage : ∀ m k, k < length → image (ofImage m) k = m k
  ofImage_congr : ∀ m m', (∀ k, k < length → m k = m' k) → ofImage m = ofImage m'

namespace Layout

variable {α : Type*} (L : Layout α) {a b : α} {m : Mem} {n : Nat}

/-- The bytes of a value are the value. -/
theorem ofImage_of_bytes (ha : L.Fits a) (h : ∀ k, k < L.length → m k = L.image a k) :
    L.ofImage m = a := by
  rw [L.ofImage_congr m (L.image a) h, L.ofImage_image a ha]

/-- The first `n` bytes of one value over those of another. -/
def merge (n : Nat) (a b : α) : α :=
  L.ofImage fun k => if k < n then L.image a k else L.image b k

theorem image_merge {k : Nat} (hk : k < L.length) :
    L.image (L.merge n a b) k = if k < n then L.image a k else L.image b k :=
  L.image_ofImage _ k hk

end Layout

end OsConcepts

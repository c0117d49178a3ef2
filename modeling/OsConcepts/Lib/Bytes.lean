import Mathlib.Algebra.Group.Nat.Defs
import Mathlib.Data.Nat.Notation
import Mathlib.Logic.Function.Basic

/-!
# Bytes, memory and 32-bit integers

What the C sources share about the machine: a `char` is a byte, a pointer into
an object sees the byte at every offset from it, and an `int` has 32 bits, is
stored little end first and wraps around when a sum or a product leaves its
range. Integers are `Int` throughout; `wrap32` stands wherever the source adds
or multiplies two of them.
-/

namespace OsConcepts

abbrev Byte := UInt8

/-- Memory as seen through a pointer: the byte at every offset. -/
abbrev Mem := Nat → Byte

/-! ## 32-bit integers -/

/-- The value a 32-bit signed integer ends up with. -/
def wrap32 (x : Int) : Int := x.bmod 4294967296

/-- The values an `int` can have. -/
def Int32Range (x : Int) : Prop := -2147483648 ≤ x ∧ x < 2147483648

theorem wrap32_of_range {x : Int} (h : Int32Range x) : wrap32 x = x := by
  obtain ⟨h₁, h₂⟩ := h
  simp only [wrap32, Int.bmod]
  omega

theorem wrap32_range (x : Int) : Int32Range (wrap32 x) := by
  simp only [wrap32, Int32Range, Int.bmod]
  omega

/-- Byte `i` of an `int` in memory, the lowest first. -/
def intByte (x : Int) (i : Nat) : Byte :=
  UInt8.ofNat ((x % 4294967296).toNat / 256 ^ i)

/-- The `int` stored at an offset. -/
def memInt (m : Mem) (off : Nat) : Int :=
  wrap32 ((m off).toNat + 256 * (m (off + 1)).toNat
    + 65536 * (m (off + 2)).toNat + 16777216 * (m (off + 3)).toNat)

theorem memInt_congr {m m' : Mem} {off : Nat}
    (h : ∀ i < 4, m (off + i) = m' (off + i)) : memInt m off = memInt m' off := by
  have h0 := h 0 (by omega)
  have h1 := h 1 (by omega)
  have h2 := h 2 (by omega)
  have h3 := h 3 (by omega)
  simp only [memInt, Nat.add_zero] at *
  rw [h0, h1, h2, h3]

/-- Storing an `int` and loading it back. -/
theorem memInt_of_bytes {m : Mem} {off : Nat} {x : Int} (hx : Int32Range x)
    (h : ∀ i < 4, m (off + i) = intByte x i) : memInt m off = x := by
  have h0 := h 0 (by omega)
  have h1 := h 1 (by omega)
  have h2 := h 2 (by omega)
  have h3 := h 3 (by omega)
  obtain ⟨hlo, hhi⟩ := hx
  simp only [Nat.add_zero] at h0
  simp only [memInt, h0, h1, h2, h3, intByte, wrap32, Int.bmod, UInt8.toNat_ofNat']
  omega

/-! ## Copying memory -/

/-- `memcpy(dst + off, src, n)`. -/
def memcpy (dst : Mem) (off : Nat) (src : Mem) (n : Nat) : Mem :=
  fun k => if off ≤ k ∧ k < off + n then src (k - off) else dst k

theorem memcpy_in {dst src : Mem} {off n k : Nat} (h : off ≤ k) (h' : k < off + n) :
    memcpy dst off src n k = src (k - off) := if_pos ⟨h, h'⟩

theorem memcpy_out {dst src : Mem} {off n k : Nat} (h : k < off ∨ off + n ≤ k) :
    memcpy dst off src n k = dst k := if_neg (by omega)

/-- The `n` bytes from an offset on. -/
def Mem.slice (m : Mem) (off n : Nat) : List Byte :=
  (List.range n).map fun i => m (off + i)

@[simp] theorem Mem.length_slice (m : Mem) (off n : Nat) :
    (m.slice off n).length = n := by simp [Mem.slice]

@[simp] theorem Mem.getElem_slice (m : Mem) (off n i : Nat)
    (h : i < (m.slice off n).length) : (m.slice off n)[i] = m (off + i) := by
  simp [Mem.slice]

theorem Mem.getElem?_slice (m : Mem) {off n i : Nat} (h : i < n) :
    (m.slice off n)[i]? = some (m (off + i)) := by
  rw [List.getElem?_eq_getElem (by simpa using h), Mem.getElem_slice]

theorem Mem.slice_add (m : Mem) (off n k : Nat) :
    m.slice off (n + k) = m.slice off n ++ m.slice (off + n) k := by
  simp only [Mem.slice, List.range_add, List.map_append, List.map_map]
  exact congrArg _ (List.map_congr_left fun i _ => congrArg m (Nat.add_assoc off n i).symm)

theorem Mem.slice_congr {m m' : Mem} {off off' n : Nat}
    (h : ∀ i < n, m (off + i) = m' (off' + i)) : m.slice off n = m'.slice off' n := by
  refine List.map_congr_left fun i hi => h i (List.mem_range.mp hi)

/-- A slice of a slice. -/
theorem Mem.slice_window (m : Mem) {off n len : Nat} (h : off + n ≤ len) :
    ((m.slice 0 len).drop off).take n = m.slice off n := by
  obtain ⟨rest, rfl⟩ := Nat.exists_eq_add_of_le h
  rw [Nat.add_assoc, Mem.slice_add, Nat.zero_add, Mem.slice_add,
    List.drop_left' (Mem.length_slice m 0 off), List.take_left' (Mem.length_slice m off n)]

/-- A list of bytes seen as memory; nothing is promised past its end. -/
def Mem.ofList (l : List Byte) : Mem := fun i => l.getD i 0

theorem Mem.ofList_apply {l : List Byte} {i : Nat} (h : i < l.length) :
    Mem.ofList l i = l[i] := by
  simp [Mem.ofList, h]

/-! ## Strings -/

/-- `strnlen(m + i, n)`, counted from the start of `m`: the offset of the first
NUL, or `i + n` if the first `n` bytes hold none. -/
def strnlen (m : Mem) : (n i : Nat) → Nat
  | 0, i => i
  | n + 1, i => if m i = 0 then i else strnlen m n (i + 1)

theorem strnlen_le_of_nul {m : Mem} : ∀ {n i j : Nat}, i ≤ j → j < i + n → m j = 0 →
    strnlen m n i ≤ j := by
  intro n
  induction n with
  | zero => intro i j _ h _; omega
  | succ n ih =>
      intro i j hij hj hz
      rw [strnlen]
      split
      · exact hij
      · next hne =>
          have : i ≠ j := by rintro rfl; exact hne hz
          exact ih (by omega) (by omega) hz

/-- `strlen` as an `int`. A string without a NUL ends with the addresses. -/
@[irreducible] def intStrlen (m : Mem) : Int := wrap32 (strnlen m 18446744073709551616 0)

/-- A NUL-terminated string: its bytes up to the terminator. -/
structure CString where
  bytes : List Byte
  no_nul : ∀ b ∈ bytes, b ≠ 0

/-- `strlen`. -/
def CString.length (s : CString) : Nat := s.bytes.length

/-- The bytes of a string in memory, the terminator after them. -/
def CString.image (s : CString) : Mem := Mem.ofList s.bytes

theorem CString.image_of_lt {s : CString} {i : Nat} (h : i < s.length) :
    s.image i ≠ 0 := by
  have h' : i < s.bytes.length := h
  rw [CString.image, Mem.ofList_apply h']
  exact s.no_nul _ (List.getElem_mem h')

theorem CString.image_of_ge {s : CString} {i : Nat} (h : s.length ≤ i) : s.image i = 0 := by
  have h' : s.bytes.length ≤ i := h
  simp [CString.image, Mem.ofList, h']

theorem CString.strnlen_image (s : CString) : ∀ {n i : Nat}, i ≤ s.length →
    strnlen s.image n i = min s.length (i + n) := by
  intro n
  induction n with
  | zero => intro i hi; rw [strnlen]; omega
  | succ n ih =>
      intro i hi
      rw [strnlen]
      by_cases hlt : i < s.length
      · rw [if_neg (CString.image_of_lt hlt), ih (by omega)]
        omega
      · rw [if_pos (CString.image_of_ge (by omega))]
        omega

theorem CString.intStrlen_image {s : CString} (h : s.length < 18446744073709551616) :
    intStrlen s.image = wrap32 s.length := by
  have hwhole : ∀ n, s.length < n → strnlen s.image n 0 = s.length := by
    intro n hn
    rw [s.strnlen_image (Nat.zero_le _)]
    omega
  unfold intStrlen
  rw [hwhole _ h]

/-- What `strncpy(dst, src, n)` leaves in the first `n` bytes of `dst`: the
string, padded with NULs. -/
def strncpy (src : Mem) (n : Nat) : Mem :=
  fun i => if i < strnlen src n 0 then src i else 0

/-- A string that fits is copied whole and padded with NULs. -/
theorem strncpy_image (s : CString) {n i : Nat} (hi : i < n) : strncpy s.image n i = s.image i := by
  unfold strncpy
  rw [s.strnlen_image (Nat.zero_le _)]
  by_cases hlt : i < s.length
  · rw [if_pos (by omega)]
  · rw [if_neg (by omega), CString.image_of_ge (by omega)]

/-- `strcmp(m + off, s) == 0`: the bytes from `off` on are those of `s`, with a
NUL where `s` ends. -/
def strcmpEq (m : Mem) : (off : Nat) → List Byte → Bool
  | off, [] => m off == 0
  | off, c :: cs => m off == c && strcmpEq m (off + 1) cs

theorem strcmpEq_iff {m : Mem} : ∀ {l : List Byte} {off : Nat},
    strcmpEq m off l = true ↔
      (∀ i (h : i < l.length), m (off + i) = l[i]) ∧ m (off + l.length) = 0 := by
  intro l
  induction l with
  | nil => intro off; simp [strcmpEq]
  | cons c cs ih =>
      intro off
      simp only [strcmpEq, Bool.and_eq_true, beq_iff_eq, ih, List.length_cons]
      constructor
      · rintro ⟨hc, hcs, hz⟩
        refine ⟨fun i hi => ?_, by rw [← hz]; congr 1; omega⟩
        cases i with
        | zero => simpa using hc
        | succ i =>
            have := hcs i (by omega)
            rw [List.getElem_cons_succ, ← this]
            congr 1
            omega
      · rintro ⟨hall, hz⟩
        refine ⟨by simpa using hall 0 (by omega), fun i hi => ?_, ?_⟩
        · have := hall (i + 1) (by omega)
          rw [List.getElem_cons_succ] at this
          rw [← this]
          congr 1
          omega
        · rw [← hz]; congr 1; omega

end OsConcepts

import Mathlib.Algebra.Order.BigOperators.Group.List
import OsConcepts.Proofs.NewFile
import OsConcepts.Proofs.SfsLoad

/-!
# Reading in pieces

One read from a position inside a file delivers the contents from there on
(`sfsFread_eq`) and leaves the descriptor where the next one starts, so any
number of reads one after the other deliver what a single read of all their
counts does (`freads_eq_sfsFread`). The end of the file may fall into any of
them; the ones after it deliver nothing.
-/

namespace OsConcepts.Sfs

open OsConcepts

variable {s s' : Sfs} {f : Fin 300} {junk : Mem} {count : Int}

/-- Reads from one descriptor, one after the other, each with the memory it is
handed and its count: what every one of them returns and delivers. -/
def freads (fd : Int) : List (Mem × Int) → Sfs → Except Fault (List (Int × List Byte) × Sfs)
  | [], s => .ok ([], s)
  | (junk, count) :: reads, s => do
      let (ret, bytes, s) ← sfsFread junk fd count s
      let (results, s) ← freads fd reads s
      return ((ret, bytes) :: results, s)

/-- What is asked for in all. -/
def totalCount (reads : List (Mem × Int)) : Int := (reads.map Prod.snd).sum

/-- The bytes delivered, put together. -/
def delivered (results : List (Int × List Byte)) : List Byte := (results.map Prod.snd).flatten

theorem length_window {p : Int} (hp : 0 ≤ p) (hsize : p ≤ (s.iNodes f).size) (hcount : 0 ≤ count) :
    ((s.window f p count).length : Int) = min count ((s.iNodes f).size - p) := by
  rw [window, List.length_take, List.length_drop, length_contents]
  omega

/-- A window is the window of its first bytes and the one after those. -/
theorem window_add {p m n : Int} (hp : 0 ≤ p) (hsize : p ≤ (s.iNodes f).size) (hm : 0 ≤ m)
    (hn : 0 ≤ n) :
    s.window f p (m + n) =
      s.window f p m ++ s.window f (min (p + m) (s.iNodes f).size) n := by
  rw [window, window, window, Int.toNat_add hm hn, List.take_add, List.drop_drop]
  congr 1
  by_cases hend : p + m ≤ (s.iNodes f).size
  · rw [min_eq_left hend, Int.toNat_add hp hm]
  · -- The first window ends with the file, and so does the second.
    rw [min_eq_right (by omega), List.drop_eq_nil_of_le (by rw [length_contents]; omega),
      List.drop_eq_nil_of_le (by rw [length_contents])]

theorem totalCount_nonneg {reads : List (Mem × Int)} (h : ∀ r ∈ reads, 0 ≤ r.2) :
    0 ≤ totalCount reads := by
  refine List.sum_nonneg ?_
  intro n hn
  obtain ⟨r, hr, rfl⟩ := List.mem_map.mp hn
  exact h r hr

/-- Where every read returns the number of its bytes, their sum is that of all
bytes. -/
theorem sum_returned : ∀ {results : List (Int × List Byte)}, (∀ r ∈ results, r.1 = r.2.length) →
    (results.map Prod.fst).sum = (delivered results).length
  | [], _ => rfl
  | r :: results, h => by
      have ih := sum_returned fun r hr => h r (List.mem_cons_of_mem _ hr)
      rw [delivered, List.map_cons, List.sum_cons, ih, h r List.mem_cons_self, List.map_cons,
        List.flatten_cons, List.length_append, ← delivered, Int.natCast_add]

/-- Consecutive reads deliver one window of the file. -/
theorem freads_eq : ∀ {reads : List (Mem × Int)} {s : Sfs}, InRange s f → Backed s f →
    0 ≤ s.openFDTCache f → s.openFDTCache f ≤ (s.iNodes f).size →
    (∀ r ∈ reads, 0 ≤ r.2) → s.openFDTCache f + totalCount reads < 2147483648 →
    ∃ results p, freads (f : Nat) reads s =
        .ok (results, (s.seek p).setReadWritePointer f
          (min (s.openFDTCache f + totalCount reads) (s.iNodes f).size)) ∧
      delivered results = s.window f (s.openFDTCache f) (totalCount reads) ∧
      results.length = reads.length ∧ ∀ r ∈ results, r.1 = r.2.length := by
  intro reads
  induction reads with
  | nil =>
      intro s hs hf hopen hin _ _
      refine ⟨[], s.disk.pos, ?_, by simp [delivered, window, totalCount], rfl, by simp⟩
      rw [freads, totalCount, List.map_nil, List.sum_nil, Int.add_zero, min_eq_left hin, seek_self,
        setReadWritePointer_eq_self]
  | cons r reads ih =>
      obtain ⟨junk, count⟩ := r
      intro s hs hf hopen hin hcounts hint
      have hcount : 0 ≤ count := hcounts (junk, count) (by simp)
      have hrest : ∀ r ∈ reads, 0 ≤ r.2 := fun r hr => hcounts r (by simp [hr])
      have htotal : totalCount ((junk, count) :: reads) = count + totalCount reads := by
        rw [totalCount, List.map_cons, List.sum_cons, totalCount]
      have hpos : 0 ≤ totalCount reads := totalCount_nonneg hrest
      rw [htotal] at hint
      obtain ⟨p, hread⟩ := sfsFread_eq junk hs hf hcount hopen hin (by omega)
      have hre : Rereads f s ((s.seek p).setReadWritePointer f
        (min (s.openFDTCache f + count) (s.iNodes f).size)) := ⟨p, _, rfl⟩
      generalize ht : (s.seek p).setReadWritePointer f
        (min (s.openFDTCache f + count) (s.iNodes f).size) = t at hread hre
      have hfdt : t.openFDTCache f = min (s.openFDTCache f + count) (s.iNodes f).size := by
        rw [← ht]; simp
      have hnode : t.iNodes f = s.iNodes f := hre.iNodes f
      obtain ⟨results, q, hreads, hbytes, hlen, hret⟩ := ih (hs.congr (hre.sameBlocks.pointer f))
        (hre.backed hf) (by omega) (by rw [hnode]; omega) hrest (by omega)
      have hwindow : t.window f = s.window f := by
        funext a b
        rw [window, window, hre.contents]
      refine ⟨(min count ((s.iNodes f).size - s.openFDTCache f),
        s.window f (s.openFDTCache f) count) :: results, q, ?_, ?_, ?_, fun r hr => ?_⟩
      · have hend : min (t.openFDTCache f + totalCount reads) (s.iNodes f).size =
            min (s.openFDTCache f + (count + totalCount reads)) (s.iNodes f).size := by omega
        have hmoved : ∀ x, (t.seek q).setReadWritePointer f x =
            (s.seek q).setReadWritePointer f x := by
          intro x
          rw [← ht]
          simp [setReadWritePointer, seek]
        rw [freads, hread]
        simp only [bind, Except.bind, hreads]
        rw [htotal, hnode, hend, hmoved]
        rfl
      · rw [delivered, List.map_cons, List.flatten_cons, ← delivered, hbytes, hwindow, hfdt, htotal]
        exact (window_add hopen hin hcount hpos).symm
      · rw [List.length_cons, List.length_cons, hlen]
      · rcases List.mem_cons.mp hr with rfl | hr
        · exact (length_window hopen hin hcount).symm
        · exact hret r hr

variable (junk) in
/-- Chunking does not matter: consecutive reads deliver what one read of all
their counts delivers, every one of them returns the number of its bytes, and
together they move the descriptor by as many and the stream, and nothing else. -/
theorem freads_eq_sfsFread (hs : InRange s f) (hf : Backed s f) (hopen : 0 ≤ s.openFDTCache f)
    (hin : s.openFDTCache f ≤ (s.iNodes f).size) (reads : List (Mem × Int))
    (hcounts : ∀ r ∈ reads, 0 ≤ r.2)
    (hint : s.openFDTCache f + totalCount reads < 2147483648) :
    ∃ results p bytes p',
      freads (f : Nat) reads s = .ok (results, (s.seek p).setReadWritePointer f
        (s.openFDTCache f + (results.map Prod.fst).sum)) ∧
      sfsFread junk (f : Nat) (totalCount reads) s =
        .ok (bytes.length, bytes, (s.seek p').setReadWritePointer f
          (s.openFDTCache f + bytes.length)) ∧
      results.length = reads.length ∧ (∀ r ∈ results, r.1 = r.2.length) ∧
      delivered results = bytes ∧
      bytes = s.window f (s.openFDTCache f) (totalCount reads) := by
  obtain ⟨results, p, hreads, hbytes, hlen, hret⟩ := freads_eq hs hf hopen hin hcounts hint
  have hpos := totalCount_nonneg hcounts
  obtain ⟨p', hread⟩ := sfsFread_eq junk hs hf hpos hopen hin hint
  have hwindow := length_window hopen hin hpos
  have hsum : (results.map Prod.fst).sum = (delivered results).length := sum_returned hret
  rw [hbytes, hwindow] at hsum
  have hend : s.openFDTCache f + min (totalCount reads) ((s.iNodes f).size - s.openFDTCache f) =
      min (s.openFDTCache f + totalCount reads) (s.iNodes f).size := by omega
  refine ⟨results, p, s.window f (s.openFDTCache f) (totalCount reads), p', ?_, ?_, hlen, hret,
    hbytes, rfl⟩
  · rw [hreads, hsum, hend]
  · rw [hread, hwindow, hend]

/-- A file of 1030 bytes in the blocks 20 and 21. -/
def twoBlockNode : INode where
  linkCount := -1
  size := 1030
  directPointers i := if i.val < 2 then 20 + (i.val : Int) else -1
  indirectPointer := -1

/-- The file in slot 0, its descriptor close to the end. -/
def twoBlocks : Sfs :=
  ((zeroed (Disk.initFreshDisk 1024 2000)).setINode 0 twoBlockNode).setReadWritePointer 0 1000

theorem iNodes_twoBlocks : twoBlocks.iNodes 0 = twoBlockNode := by simp [twoBlocks]

theorem openFDTCache_twoBlocks : twoBlocks.openFDTCache 0 = 1000 := by simp [twoBlocks]

theorem twoBlocks_direct (i : Fin 12) :
    twoBlocks.pointer 0 (.direct i) = if i.val < 2 then 20 + (i.val : Int) else -1 := by
  rw [pointer, iNodes_twoBlocks]
  rfl

theorem twoBlocks_inRange : InRange twoBlocks 0 := by
  have hind : twoBlockNode.indirectPointer = -1 := rfl
  intro r
  cases r with
  | direct i =>
      rw [twoBlocks_direct]
      split <;> omega
  | indirect => exact Or.inl (by rw [pointer, iNodes_twoBlocks, hind])
  | entry j => exact Or.inl (by rw [pointer, iNodes_twoBlocks, if_pos hind])

theorem twoBlocks_backed : Backed twoBlocks 0 := by
  have hblocks : numBlocksForFile twoBlockNode.size = 2 := by decide
  rw [Backed, iNodes_twoBlocks, hblocks]
  refine ⟨by decide, by decide, ?_⟩
  intro k hk
  rw [blockPointer, dif_pos (by omega), twoBlocks_direct, if_pos (by dsimp only; omega)]
  omega

/-- The last one crosses the end of the first block and reaches that of the
file. -/
def threeReads : List (Mem × Int) := [(fun _ => 0, 10), (fun _ => 0, 0), (fun _ => 0, 100)]

theorem freads_eq_sfsFread_two_blocks :
    ∃ results p bytes p',
      freads (0 : Fin 300) threeReads twoBlocks =
        .ok (results, (twoBlocks.seek p).setReadWritePointer 0
          (twoBlocks.openFDTCache 0 + (results.map Prod.fst).sum)) ∧
      sfsFread (fun _ => 0) (0 : Fin 300) (totalCount threeReads) twoBlocks =
        .ok (bytes.length, bytes, (twoBlocks.seek p').setReadWritePointer 0
          (twoBlocks.openFDTCache 0 + bytes.length)) ∧
      results.length = threeReads.length ∧ (∀ r ∈ results, r.1 = r.2.length) ∧
      delivered results = bytes ∧
      bytes = twoBlocks.window 0 (twoBlocks.openFDTCache 0) (totalCount threeReads) := by
  exact freads_eq_sfsFread (fun _ => 0) twoBlocks_inRange twoBlocks_backed
    (by rw [openFDTCache_twoBlocks]; decide)
    (by rw [openFDTCache_twoBlocks, iNodes_twoBlocks]; decide) threeReads (by simp [threeReads])
    (by rw [openFDTCache_twoBlocks]; decide)

end OsConcepts.Sfs

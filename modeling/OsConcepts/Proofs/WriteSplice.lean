import OsConcepts.Lib.Splice
import OsConcepts.Proofs.NewFile

/-!
# A write is a splice

`sfs_fwrite` reads the whole file into a buffer, copies the caller's bytes over
it and hands the buffer out to the blocks of the file, old and new. When it
returns `count`, block `j` of the file holds piece `j` of the buffer
(`Progress.content`), and what a later read delivers is therefore the buffer
cut at the new size: the old bytes with the new ones spliced in.
-/

namespace OsConcepts.Sfs

open OsConcepts

variable {s s' : Sfs} {f : Fin 300} {junk buf : Mem} {fd count ret : Int}

/-! ## The file afterwards -/

/-- What the file is read as once its pieces are written. -/
theorem Progress.byteAt {n : Nat} {data : Mem} (h : Progress f 0 n data s s') {k : Nat}
    (hk : k / 1024 < n) : s'.byteAt f k = data k := by
  unfold Sfs.byteAt
  rw [h.content (k / 1024) (Nat.zero_le _) (by omega)]
  exact congrArg data (Nat.div_add_mod' k 1024)

theorem finishWrite_byteAt (hs : Owned s) {fileSize : Int} {g : Fin 300} {k : Nat}
    (h : s.blockPointer g (k / 1024) ≠ -1) :
    (s.finishWrite f fileSize).byteAt g k = s.byteAt g k := by
  obtain ⟨hlt, -⟩ := hs.blockPointer_lt h
  unfold Sfs.byteAt
  rw [(finishWrite_sameBlocks hs fileSize).blockPointer,
    block_finishWrite (by omega) (hs.blockPointer_not_reserved h)]

theorem finishWrite_backed {n : Nat} {data : Mem} {s₀ : Sfs} {fileSize : Int}
    (h : Progress f 0 n data s₀ s) (hsize : 0 ≤ fileSize)
    (hn : (numBlocksForFile fileSize).toNat = n) : Backed (s.finishWrite f fileSize) f := by
  have hblocks := numBlocksForFile_eq hsize
  have hnew : ((s.finishWrite f fileSize).iNodes f).size = fileSize := by
    rw [iNodes_finishWrite, if_pos rfl]
  unfold Backed
  rw [hnew]
  refine ⟨hsize, ?_, fun k hk => ?_⟩
  · by_cases hn0 : 0 < n
    · have := h.within hn0
      omega
    · omega
  · rw [(finishWrite_sameBlocks h.owned fileSize).blockPointer]
    exact h.there k (Nat.zero_le k) (by omega)

/-- `sfs_fseek` to the start of a file and `sfs_fread` of all of it. -/
def readAll (junk : Mem) (f : Fin 300) (s : Sfs) : Except Fault (List Byte) := do
  let (_, s) ← sfsFseek (f : Nat) 0 s
  let (_, bytes, _) ← sfsFread junk (f : Nat) (s.iNodes f).size s
  return bytes

theorem readAll_eq (hs : InRange s f) (hf : Backed s f) (hopen : 0 ≤ s.openFDTCache f) :
    readAll junk f s = .ok (s.contents f) := by
  obtain ⟨s₁, s₂, hseek, hs₁, hread, -⟩ := read_from_start junk hs hf hopen
  have hnode : s₁.iNodes f = s.iNodes f := by rw [hs₁]; simp
  unfold readAll
  simp only [hseek, hnode, hread, bind, Except.bind]
  rfl

/-- A file that holds the buffer of a write has the caller's bytes spliced in. -/
theorem contents_of_buffer {s₀ : Sfs} {data : Mem} {capacity fileSize : Int} (hs : NoSharing s)
    (hb : Backed s f) (hopen : 0 ≤ s.openFDTCache f)
    (hle : s.openFDTCache f ≤ (s.iNodes f).size) (hcount : 0 ≤ count)
    (hnew : fileSize = max (s.iNodes f).size (s.openFDTCache f + count))
    (hcap : fileSize ≤ capacity)
    (hload : loadFileData junk f buf count capacity s = .ok (data, s₀))
    (hsize : (s'.iNodes f).size = fileSize)
    (hbyte : ∀ i : Nat, (i : Int) < fileSize → s'.byteAt f i = data i) :
    s'.contents f = splice (s.contents f) (s.openFDTCache f).toNat (buf.slice 0 count.toNat) := by
  have hsize₀ := hb.1
  obtain ⟨data', s₀', hload', -, hdata⟩ := loadFileData_eq junk buf count capacity
    hs hb hopen (by omega) (by omega)
  rw [hload'] at hload
  obtain ⟨rfl, rfl⟩ := Prod.mk.inj (Except.ok.inj hload)
  refine eq_splice (by rw [length_contents]; omega) ?_ (fun i hi hi' => ?_) fun i hi hi' => ?_
  · rw [length_contents, length_contents, hsize, Mem.length_slice]
    omega
  · rw [Mem.length_slice] at hi'
    rw [getElem?_contents (by rw [hsize]; omega), hbyte i (by omega), hdata,
      if_pos (by omega), Mem.getElem?_slice _ (by omega), Nat.zero_add]
  · rw [Mem.length_slice] at hi
    rw [length_contents] at hi'
    rw [getElem?_contents (by rw [hsize]; omega), hbyte i (by omega), hdata,
      if_neg (by omega), if_pos (by omega), getElem?_contents (by omega)]

/-- A successful write splices the caller's bytes into the file. -/
theorem sfsFwrite_splices (hw : WellFormed s) (hlive : s.Live f)
    (hopen : 0 ≤ s.openFDTCache f) (hle : s.openFDTCache f ≤ (s.iNodes f).size)
    (hcount : 0 ≤ count) (hint : s.openFDTCache f + count < 2147483648)
    (h : sfsFwrite junk (f : Nat) buf count s = .ok (count, s')) (junk₁ junk₂ : Mem) :
    (s'.iNodes f).size = max (s.iNodes f).size (s.openFDTCache f + count) ∧
    (∃ old, readAll junk₁ f s = .ok old ∧
      readAll junk₂ f s' =
        .ok (splice old (s.openFDTCache f).toNat (buf.slice 0 count.toNat))) ∧
    ∀ k : Nat, (k : Int) < numBlocksForFile (s'.iNodes f).size → s'.blockPointer f k ≠ -1 := by
  have hb := hw.backed f hlive
  have hsize₀ := hb.1
  rcases sfsFwrite_cases hw.toOwned h with ⟨hret, -, -⟩ | ⟨g, data, s₀, ha, hload, hout⟩
  · omega
  have hg : g = f := by
    have := ha.slot
    rw [slot?_natCast] at this
    exact (Option.some.inj this).symm
  subst hg
  have hnew := newFileSize_eq hcount hopen hint
  have hblocks := numBlocksForFile_eq (show 0 ≤ s.newFileSize g count by omega)
  cases hout with
  | stopped => omega
  | @done s₁ hP =>
      have hn268 : s.blocksToWrite g count ≤ 268 := by
        by_cases hn0 : 0 < s.blocksToWrite g count
        · have := hP.within hn0
          omega
        · omega
      unfold blocksToWrite at hn268 hP
      have hcap : wrap32 (numBlocksForFile (s.newFileSize g count) * 1024) =
          numBlocksForFile (s.newFileSize g count) * 1024 := wrap32_of_range ⟨by omega, by omega⟩
      rw [hcap] at hload
      have hback := finishWrite_backed hP (show 0 ≤ s.newFileSize g count by omega) rfl
      have howned :=
        (finishWrite_sameBlocks (f := g) hP.owned (s.newFileSize g count)).owned hP.owned
      have hsize : ((s₁.finishWrite g (s.newFileSize g count)).iNodes g).size =
          s.newFileSize g count := by rw [iNodes_finishWrite, if_pos rfl]
      refine ⟨hsize.trans hnew, ⟨s.contents g, readAll_eq (hw.range g) hb hopen, ?_⟩, hback.2.2⟩
      rw [readAll_eq (howned.range g) hback (by simp [finishWrite]; omega)]
      refine congrArg Except.ok (contents_of_buffer hw.toNoSharing hb hopen hle hcount hnew
        (by omega) hload hsize fun i hi => ?_)
      rw [finishWrite_byteAt hP.owned (hP.there _ (Nat.zero_le _) (by omega)),
        hP.byteAt (by omega)]

/-- Fifty letters over the zeros of `A`, from its byte 100 on. -/
theorem sfsFwrite_splices_fullDisk :
    ∃ s', sfsFwrite (fun _ => 0) (0 : Fin 300) fiftyLetters.image 50
        (fullDisk.setReadWritePointer 0 100) = .ok (50, s') ∧
      (s'.iNodes 0).size = 12288 ∧
      readAll (fun _ => 0) 0 s' =
        .ok (splice (List.replicate 12288 0) 100 (List.replicate 50 65)) := by
  have hmove := Rereads.move 0 fullDisk 100
  have hw := hmove.wellFormed fullDisk_wellFormed
  have hl : (fullDisk.setReadWritePointer 0 100).Live 0 := by show (65 : Byte) ≠ 0; decide
  have hfdt : (fullDisk.setReadWritePointer 0 100).openFDTCache 0 = 100 := by simp
  have hsize : ((fullDisk.setReadWritePointer 0 100).iNodes 0).size = 12288 := by
    rw [hmove.iNodes]
    rfl
  have hzeros : (fullDisk.setReadWritePointer 0 100).contents 0 = List.replicate 12288 0 := by
    rw [hmove.contents]
    refine List.eq_replicate_iff.mpr ⟨length_contents, fun b hb => ?_⟩
    obtain ⟨k, -, rfl⟩ := List.mem_map.mp hb
    rfl
  have hletters : fiftyLetters.image.slice 0 (50 : Int).toNat = List.replicate 50 65 := rfl
  obtain ⟨s', hwrite⟩ : ∃ s', sfsFwrite (fun _ => 0) ((0 : Fin 300) : Nat) fiftyLetters.image 50
      (fullDisk.setReadWritePointer 0 100) = .ok (50, s') :=
    fullDisk_write _ _ (by omega) (by omega) (by omega) (by rw [strnlen_fiftyLetters]; omega)
  obtain ⟨hnew, ⟨old, hold, hread⟩, -⟩ := sfsFwrite_splices hw hl (by omega) (by omega) (by omega)
    (by omega) hwrite (fun _ => 0) (fun _ => 0)
  rw [readAll_eq (hw.range 0) (hw.backed 0 hl) (by omega), hzeros] at hold
  rw [hfdt, hsize] at hnew
  rw [hfdt, hletters, ← Except.ok.inj hold] at hread
  exact ⟨s', hwrite, hnew, hread⟩

end OsConcepts.Sfs

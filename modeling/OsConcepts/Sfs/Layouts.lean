import OsConcepts.Lib.Layout
import OsConcepts.Sfs.Image

/-!
# The layouts of the structures

The images of `Image.lean` with their round trips: 60 bytes for an i-node, 18016
for the table, 10504 for the directory, 88 for the super block and a block for
an indirect block.
-/

namespace OsConcepts.Sfs

open OsConcepts

variable {m m' : Mem}

/-! ## Blocks -/

/-- A block of block pointers. -/
def indirectBlockLayout : Layout IndirectBlock where
  image := IndirectBlock.image
  ofImage := IndirectBlock.ofImage
  length := 1024
  Fits p := ∀ j, Int32Range (p j)
  ofImage_image p hp := by
    funext j
    refine memInt_of_bytes (hp j) fun i hi => ?_
    have hj := j.isLt
    have hdiv : (4 * j.val + i) / 4 = j := by omega
    have hmod : (4 * j.val + i) % 4 = i := by omega
    unfold IndirectBlock.image
    rw [dif_pos (by omega), hmod]
    exact congrArg (fun j => intByte (p j) i) (Fin.ext hdiv)
  image_ofImage m k hk := by
    have hsplit : 4 * (k / 4) + k % 4 = k := Nat.div_add_mod k 4
    unfold IndirectBlock.image
    rw [dif_pos (by omega), IndirectBlock.ofImage, intByte_memInt m _ (by omega), hsplit]
  ofImage_congr m m' h := funext fun j => memInt_congr fun i hi => h _ (by omega)

theorem indirectBlockLayout_ofImage (m : Mem) :
    indirectBlockLayout.ofImage m = IndirectBlock.ofImage m := by rw [indirectBlockLayout]

/-! ## The i-node table -/

theorem INode.field_zero (n : INode) : n.field 0 = n.linkCount := rfl

theorem INode.field_one (n : INode) : n.field 1 = n.size := rfl

theorem INode.field_direct (n : INode) (i : Fin 12) : n.field (i + 2) = n.directPointers i :=
  dif_pos i.isLt

theorem INode.field_last (n : INode) : n.field 14 = n.indirectPointer := rfl

/-- The fields tell i-nodes apart. -/
theorem INode.eq_of_field {n n' : INode} (h : ∀ j, j < 15 → n.field j = n'.field j) : n = n' := by
  have hdirect : n.directPointers = n'.directPointers := funext fun i => by
    rw [← n.field_direct, ← n'.field_direct]
    exact h _ (by omega)
  have h0 := h 0 (by omega)
  have h1 := h 1 (by omega)
  have h14 := h 14 (by omega)
  rw [field_zero, field_zero] at h0
  rw [field_one, field_one] at h1
  rw [field_last, field_last] at h14
  cases n
  cases n'
  rw [mk.injEq]
  exact ⟨h0, h1, hdirect, h14⟩

theorem INode.field_ofImage (m : Mem) {j : Nat} (hj : j < 15) :
    (INode.ofImage m).field j = memInt m (4 * j) := by
  match j with
  | 0 => rw [field_zero, ofImage]
  | 1 => rw [field_one, ofImage]
  | i + 2 =>
      have hoff : 4 * (i + 2) = 8 + 4 * i := by omega
      by_cases hi : i < 12
      · rw [show i + 2 = (⟨i, hi⟩ : Fin 12).val + 2 from rfl, field_direct, ofImage, hoff]
      · obtain rfl : i = 12 := by omega
        rw [field_last, ofImage]

def iNodeLayout : Layout INode where
  image := INode.image
  ofImage := INode.ofImage
  length := 60
  Fits n := ∀ j, j < 15 → Int32Range (n.field j)
  ofImage_image n hn := by
    refine INode.eq_of_field fun j hj => ?_
    rw [INode.field_ofImage _ hj]
    refine memInt_of_bytes (hn j hj) fun i hi => ?_
    have hdiv : (4 * j + i) / 4 = j := by omega
    have hmod : (4 * j + i) % 4 = i := by omega
    rw [INode.image, hdiv, hmod]
  image_ofImage m k hk := by
    rw [INode.image, INode.field_ofImage m (by omega), intByte_memInt m _ (by omega),
      Nat.div_add_mod]
  ofImage_congr m m' h := by
    refine INode.eq_of_field fun j hj => ?_
    rw [INode.field_ofImage m hj, INode.field_ofImage m' hj]
    exact memInt_congr fun i hi => h _ (by omega)

def iNodesTableLayout : Layout INodesTable where
  image := INodesTable.image
  ofImage := INodesTable.ofImage
  length := 18016
  Fits τ := ∀ f, iNodeLayout.Fits (τ.iNodes f)
  ofImage_image τ hτ := by
    have hname : (fun i : Fin 16 => τ.image i) = τ.name := funext fun i => dif_pos i.isLt
    have hnode : ∀ f : Fin 300, INode.ofImage (fun k => τ.image (16 + 60 * f + k)) = τ.iNodes f :=
      fun f =>
      iNodeLayout.ofImage_of_bytes (hτ f) fun k hk => τ.image_iNode f hk
    obtain ⟨name, iNodes⟩ := τ
    rw [INodesTable.ofImage, hname, funext hnode]
  image_ofImage m k hk := by
    unfold INodesTable.image
    split
    · rfl
    · have hsplit : 16 + 60 * ((k - 16) / 60) + (k - 16) % 60 = k := by omega
      rw [dif_pos (by omega)]
      refine (iNodeLayout.image_ofImage _ _ (Nat.mod_lt _ (by decide))).trans ?_
      exact congrArg m hsplit
  ofImage_congr m m' h := by
    have hname : (fun i : Fin 16 => m i) = fun i : Fin 16 => m' i :=
      funext fun i => h i (by omega)
    have hnode : ∀ f : Fin 300, INode.ofImage (fun k => m (16 + 60 * f + k)) =
        INode.ofImage fun k => m' (16 + 60 * f + k) := fun f =>
      iNodeLayout.ofImage_congr _ _ fun k hk => h _ (by
        have hk60 : k < 60 := hk
        omega)
    rw [INodesTable.ofImage, INodesTable.ofImage, hname, funext hnode]

/-! ## The root directory -/

def rootDirectoryLayout : Layout RootDirectory where
  image := RootDirectory.image
  ofImage := RootDirectory.ofImage
  length := 10504
  Fits d := Int32Range d.location
  ofImage_image d hd := by
    have hentry : (fun f : Fin 300 => fun i : Fin 35 => d.image (35 * f + i)) =
        d.directoryEntries := funext fun f => funext fun i => d.image_entry f i
    have hlocation : memInt d.image 10500 = d.location := by
      refine memInt_of_bytes hd fun i hi => ?_
      unfold RootDirectory.image
      rw [dif_neg (by omega), if_pos (by omega), Nat.add_sub_cancel_left]
    obtain ⟨directoryEntries, location⟩ := d
    rw [RootDirectory.ofImage, hentry, hlocation]
  image_ofImage m k hk := by
    rw [RootDirectory.image, RootDirectory.ofImage]
    dsimp only
    split
    · exact congrArg m (Nat.div_add_mod k 35)
    · have hsplit : 10500 + (k - 10500) = k := by omega
      rw [intByte_memInt m 10500 (by omega), hsplit]
  ofImage_congr m m' h := by
    have hentry : (fun f : Fin 300 => fun i : Fin 35 => m (35 * f + i)) =
        fun f : Fin 300 => fun i : Fin 35 => m' (35 * f + i) :=
      funext fun f => funext fun i => h _ (by omega)
    have hlocation : memInt m 10500 = memInt m' 10500 :=
      memInt_congr fun i hi => h (10500 + i) (by omega)
    rw [RootDirectory.ofImage, RootDirectory.ofImage, hentry, hlocation]

/-! ## The super block -/

def superBlockLayout : Layout SuperBlock where
  image := SuperBlock.image
  ofImage := SuperBlock.ofImage
  length := 88
  Fits b := Int32Range b.magic ∧ Int32Range b.blockSize ∧ Int32Range b.fileSystemSize ∧
    Int32Range b.iNodeTableLength ∧ iNodeLayout.Fits b.rootDirectory
  ofImage_image b hb := by
    obtain ⟨hmagic, hblock, hsystem, htable, hroot⟩ := hb
    have hname : (fun i : Fin 12 => b.image i) = b.name := funext fun i => dif_pos i.isLt
    have h₁ : memInt b.image 12 = b.magic := memInt_of_bytes hmagic fun i hi => by
      unfold SuperBlock.image
      rw [dif_neg (by omega), if_pos (by omega), Nat.add_sub_cancel_left]
    have h₂ : memInt b.image 16 = b.blockSize := memInt_of_bytes hblock fun i hi => by
      unfold SuperBlock.image
      rw [dif_neg (by omega), if_neg (by omega), if_pos (by omega), Nat.add_sub_cancel_left]
    have h₃ : memInt b.image 20 = b.fileSystemSize := memInt_of_bytes hsystem fun i hi => by
      unfold SuperBlock.image
      rw [dif_neg (by omega), if_neg (by omega), if_neg (by omega), if_pos (by omega),
        Nat.add_sub_cancel_left]
    have h₄ : memInt b.image 24 = b.iNodeTableLength := memInt_of_bytes htable fun i hi => by
      unfold SuperBlock.image
      rw [dif_neg (by omega), if_neg (by omega), if_neg (by omega), if_neg (by omega),
        if_pos (by omega), Nat.add_sub_cancel_left]
    have h₅ : INode.ofImage (fun k => b.image (28 + k)) = b.rootDirectory :=
      iNodeLayout.ofImage_of_bytes hroot fun k hk => by
        have hk60 : k < 60 := hk
        show SuperBlock.image b (28 + k) = b.rootDirectory.image k
        unfold SuperBlock.image
        rw [dif_neg (by omega), if_neg (by omega), if_neg (by omega), if_neg (by omega),
          if_neg (by omega), if_pos (by omega), Nat.add_sub_cancel_left]
    obtain ⟨name, magic, blockSize, fileSystemSize, iNodeTableLength, rootDirectory⟩ := b
    rw [SuperBlock.ofImage, hname, h₁, h₂, h₃, h₄, h₅]
  image_ofImage m k hk := by
    have hint : ∀ off, off ≤ k → k < off + 4 → intByte (memInt m off) (k - off) = m k := by
      intro off hlow hhigh
      have hsplit : off + (k - off) = k := by omega
      rw [intByte_memInt m off (by omega), hsplit]
    rw [SuperBlock.image, SuperBlock.ofImage]
    dsimp only
    split
    · rfl
    · split
      · exact hint 12 (by omega) (by omega)
      · split
        · exact hint 16 (by omega) (by omega)
        · split
          · exact hint 20 (by omega) (by omega)
          · split
            · exact hint 24 (by omega) (by omega)
            · have hsplit : 28 + (k - 28) = k := by omega
              have hlast : k - 28 < iNodeLayout.length := by
                show k - 28 < 60
                omega
              exact (iNodeLayout.image_ofImage _ _ hlast).trans (congrArg m hsplit)
  ofImage_congr m m' h := by
    have hint : ∀ off, off + 4 ≤ 88 → memInt m off = memInt m' off :=
      fun off hoff => memInt_congr fun i hi => h _ (by omega)
    have hname : (fun i : Fin 12 => m i) = fun i : Fin 12 => m' i :=
      funext fun i => h i (by omega)
    have hroot : INode.ofImage (fun k => m (28 + k)) = INode.ofImage fun k => m' (28 + k) :=
      iNodeLayout.ofImage_congr _ _ fun k hk => h _ (by
        have hk60 : k < 60 := hk
        omega)
    rw [SuperBlock.ofImage, SuperBlock.ofImage, hname, hint 12 (by omega), hint 16 (by omega),
      hint 20 (by omega), hint 24 (by omega), hroot]

end OsConcepts.Sfs

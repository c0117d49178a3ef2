import OsConcepts.Proofs.NewFile
import OsConcepts.Proofs.StrayWrite

/-!
# No block is shared

Every call but `sfs_fwrite` leaves the references as they are or drops those of
one file (`exec_cases`), as long as the directory is not saved over an indirect
block. A write only takes blocks that nobody has, and where it goes wrong it
loses references but makes none up. So the references stay distinct and
accounted for from any state in which the metadata is out of their reach.
-/

namespace OsConcepts.Sfs

open OsConcepts

variable {s s' : Sfs} {f g : Fin 300} {c : Call} {ret : Int}

/-- The call writes the root directory to its blocks. -/
def SavesDirectory (s : Sfs) : Call → Prop
  | .fopen fname =>
      badLength (wrap32 fname.length) = false ∧ findName fname s = none ∧ (findEmpty s).isSome
  | .getnextfilename fname => badLength (intStrlen fname) = false
  | .remove _ fname => badLength (wrap32 fname.length) = false ∧ (findName fname s).isSome
  | _ => False

/-- What a call does to the references: nothing, the removal of one file, or a
write. -/
theorem exec_cases (hs : Owned s) (hd : SavesDirectory s c → IndirectApart s)
    (h : c.exec s = .ok (ret, s')) :
    SameBlocks s s' ∨
    (∃ junk fname f fl p, c = .remove junk fname ∧
      badLength (wrap32 fname.length) = false ∧ findName fname s = some f ∧ IndirectApart s ∧
      s' = s.eraseFile f fl p ∧ Released (s.ReleasedBy f) s.freeBlockListCache fl) ∨
    ∃ junk fd buf count, c = .fwrite junk fd buf count ∧
      sfsFwrite junk fd buf count s = .ok (ret, s') := by
  cases c with
  | fopen fname =>
      refine Or.inl ?_
      simp only [Call.exec] at h
      rcases sfsFopen_cases (Except.ok.inj h) with
        ⟨-, rfl⟩ | ⟨f, -, -, -, rfl⟩ | ⟨f, hlen, hname, hempty, -, rfl⟩
      · exact .refl _
      · exact (Rereads.move f s _).sameBlocks
      · exact createFile_sameBlocks _ hs (hd ⟨hlen, hname, by rw [hempty]; rfl⟩)
  | fclose fd =>
      refine Or.inl ?_
      simp only [Call.exec] at h
      rcases sfsFclose_cases (Except.ok.inj h) with ⟨-, rfl⟩ | ⟨f, -, -, -, rfl⟩
      · exact .refl _
      · exact (Rereads.move f s _).sameBlocks
  | fseek fd loc =>
      refine Or.inl ?_
      simp only [Call.exec] at h
      rcases sfsFseek_rereads h with rfl | ⟨f, -, rfl⟩
      · exact .refl _
      · exact (Rereads.move f s _).sameBlocks
  | fread junk fd count =>
      refine Or.inl ?_
      simp only [Call.exec] at h
      obtain ⟨⟨r, bytes, s₁⟩, hread, h⟩ := ok_bind h
      cases h
      rcases sfsFread_rereads hread with rfl | ⟨f, -, hre⟩
      · exact .refl _
      · exact hre.sameBlocks
  | fwrite junk fd buf count =>
      simp only [Call.exec] at h
      exact Or.inr (Or.inr ⟨junk, fd, buf, count, rfl, h⟩)
  | getnextfilename fname =>
      refine Or.inl ?_
      rcases hr : sfsGetnextfilename fname s with ⟨r, m, s₁⟩
      simp only [Call.exec, hr] at h
      obtain ⟨-, rfl⟩ := Prod.mk.inj (Except.ok.inj h)
      rcases sfsGetnextfilename_cases hr with rfl | ⟨hlen, l, n, hn, rfl⟩
      · exact .refl _
      · exact saveLocation_sameBlocks hs (hd hlen) hn
  | getfilesize path =>
      refine Or.inl ?_
      simp only [Call.exec] at h
      obtain ⟨-, rfl⟩ := Prod.mk.inj (Except.ok.inj h)
      exact .refl _
  | remove junk fname =>
      simp only [Call.exec] at h
      rcases sfsRemove_cases hs.toNoSharing h with
        ⟨-, rfl, -⟩ | ⟨f, fl, p, hlen, hname, -, rfl, hfl⟩
      · exact Or.inl (.refl _)
      · exact Or.inr (Or.inl ⟨junk, fname, f, fl, p, rfl, hlen, hname,
          hd ⟨hlen, by rw [hname]; rfl⟩, rfl, hfl⟩)

theorem sfsFwrite_owned {junk buf : Mem} {fd count : Int} (hs : Owned s)
    (h : sfsFwrite junk fd buf count s = .ok (ret, s')) : Owned s' := by
  rcases sfsFwrite_confined_or_stray hs h with
    ⟨rfl, -⟩ | ⟨f, -, ⟨hconf, -⟩ | ⟨-, s₁, b, hconf, -, -, -, hpos, rfl⟩⟩
  · exact hs
  · exact hconf.owned
  · exact strayWrite_owned hconf.owned hpos

/-- The invariant of the allocator survives every call that does not save the
directory over an indirect block. -/
theorem exec_owned (hs : Owned s) (hd : SavesDirectory s c → IndirectApart s)
    (h : c.exec s = .ok (ret, s')) : Owned s' := by
  rcases exec_cases hs hd h with
    hsame | ⟨_, _, f, fl, p, -, -, -, hd, rfl, hfl⟩ | ⟨junk, fd, buf, count, -, hwrite⟩
  · exact hsame.owned hs
  · exact eraseFile_owned hs hd hfl
  · exact sfsFwrite_owned hs hwrite

/-- `mksfs(1)` shares no block, and no call starts to, as long as no reference
names a block of the metadata. It speaks of calls that come back: from such a state
a removal does (`sfsRemove_ok`), and so does a write to a file of up to 268 blocks
that stays within the range of an `int` (`sfsFwrite_ok`); opening, closing and
listing always do. -/
theorem noSharing_mksfs_and_calls :
    (∀ junk s₀, NoSharing (mksfs 1 junk s₀)) ∧
    ∀ (s : Sfs) (c : Call) (ret : Int) (s' : Sfs),
      Isolated s → c.exec s = .ok (ret, s') → NoSharing s' :=
  ⟨fun junk s₀ => (mksfs_fresh junk s₀).owned.toNoSharing,
    fun _ _ _ _ hs h => (exec_owned hs.toOwned (fun _ => hs.indirectApart) h).toNoSharing⟩

/-- On the full disk `B` is removed, and a write behind `A` runs out of blocks. -/
theorem noSharing_fullDisk :
    (∃ s', (Call.remove (fun _ => 0) (letter 66 (by decide))).exec fullDisk = .ok (0, s') ∧
      NoSharing s') ∧
    ∃ s', (Call.fwrite (fun _ => 0) (0 : Fin 300) (fun _ => 0) 1).exec fullDisk = .ok (-1, s') ∧
      NoSharing s' := by
  have hs := fullDisk_wellFormed.toIsolated
  constructor
  · obtain ⟨s', h, -⟩ := fullDisk_remove fun _ => 0
    rw [← exec_remove] at h
    exact ⟨s', h, noSharing_mksfs_and_calls.2 _ _ _ _ hs h⟩
  · obtain ⟨s', h⟩ := fullDisk_write_fails fun _ => 0
    rw [← exec_fwrite] at h
    exact ⟨s', h, noSharing_mksfs_and_calls.2 _ _ _ _ hs h⟩

end OsConcepts.Sfs

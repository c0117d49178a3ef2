import OsConcepts.Proofs.Descriptors
import OsConcepts.Proofs.SizeRange
import OsConcepts.Proofs.StoreView
import OsConcepts.Proofs.WriteOne

/-!
# The calls as calls of a file store

One lemma a call: from a stocked state, a call that keeps the disk up to date
and is `Careful` answers as the store would and leaves a stocked state that
represents what the store has become. The calls that only move a descriptor
share one argument (`Rereads.represents`), and so do those that change one slot
(`Spares.view`).
-/

namespace OsConcepts.Sfs

open OsConcepts FileStore

variable {s s' : Sfs} {f g : Fin 300} {n : CString} {t : Store CString Byte} {d ret : Int}
  {junk buf m m' : Mem} {count location : Int} {bytes : List Byte}

/-! ## Care -/

/-- The name is short, or refused for its length. -/
def Short (n : CString) : Prop := n.length ≤ 34 ∨ badLength (wrap32 n.length) = true

/-- What is asked of a call beyond that: no names of 35 bytes or of a length
that wraps around, counts that are an `int`, and bytes to write that have a NUL
within 2048001 of them. -/
def Careful : Call → Prop
  | .fopen n | .getfilesize n | .remove _ n => Short n
  | .fread _ _ count => Int32Range count
  | .fwrite _ _ buf count => Int32Range count ∧ strnlen buf 2048001 0 ≤ 2048000
  | _ => True

theorem not_limits_of_badLength (h : badLength (wrap32 n.length) = true) : ¬ limits.name n := by
  intro hn
  rw [(validName_of_limits hn).badLength] at h
  cases h

theorem Short.limits (h : Short n) (hgood : badLength (wrap32 n.length) = false) :
    limits.name n := by
  rcases h with hlen | hbad
  · refine ⟨?_, hlen⟩
    rw [wrap32_of_range ⟨by omega, by omega⟩] at hgood
    simp only [badLength, Bool.or_eq_false_iff, decide_eq_false_iff_not] at hgood
    omega
  · rw [hbad] at hgood
    cases hgood

/-! ## Views that stay -/

theorem contents_congr (hb : Backed s g) (hnode : s'.iNodes g = s.iNodes g)
    (hp : s'.pointer g = s.pointer g)
    (hblock : ∀ k, s.blockPointer g k ≠ -1 →
      s'.disk.block (s.blockPointer g k).toNat = s.disk.block (s.blockPointer g k).toNat) :
    s'.contents g = s.contents g := by
  have hblocks := numBlocksForFile_eq hb.1
  unfold contents
  rw [hnode]
  refine List.map_congr_left fun k hk => byteAt_congr hp (hblock _ (hb.2.2 _ ?_))
  rw [List.mem_range] at hk
  omega

theorem backed_congr (hb : Backed s g) (hnode : s'.iNodes g = s.iNodes g)
    (hp : s'.pointer g = s.pointer g) : Backed s' g := by
  unfold Backed at *
  rw [hnode]
  refine ⟨hb.1, hb.2.1, fun k hk => ?_⟩
  rw [blockPointer_congr hp]
  exact hb.2.2 k hk

theorem WellFormed.of_stocked (hs : Stocked s) : WellFormed s where
  toIsolated := hs.toLow.isolated
  backed := hs.backed

/-- A spared slot shows the same file. -/
theorem Spares.view (h : Spares g s s') (hs : Stocked s) : s'.view g = s.view g := by
  have hw := WellFormed.of_stocked hs
  refine view_congr h.filename (fun hl => ?_) fun _ => h.descriptor
  refine contents_congr (hs.backed g hl) h.iNodes (h.pointer hw.separate)
    fun k hk => ?_
  obtain ⟨hlt, hne⟩ := hw.toOwned.blockPointer_lt hk
  have hk268 : k < 268 := by
    by_contra hge
    exact hk (blockPointer_past (by omega))
  rw [blockPointer_eq hk268] at hk ⊢
  obtain ⟨b, hb, -⟩ := hw.toNoSharing.nat_of_pointer hk
  have hblt := b.isLt
  rw [hb, Int.toNat_natCast]
  exact h.block b (by omega) (hw.apart g _ b hb) (hw.directory g _ b hb)

theorem Confined.view (h : Confined f s s') (hs : Stocked s) (hg : g ≠ f) :
    s'.view g = s.view g := by
  refine view_congr (by rw [filename, h.directory]; rfl) (fun hl => ?_)
    fun _ => h.descriptor g hg
  exact contents_congr (hs.backed g hl) (h.inode g hg) (h.other g hg) (h.block g hg)

/-! ## Moving a descriptor -/

/-- Where a descriptor stands, for the store. -/
def positionOf (p : Int) : Option Nat := if p < 0 then none else some p.toNat

theorem positionOf_natCast (p : Nat) : positionOf p = some p := by
  rw [positionOf, if_neg (by omega), Int.toNat_natCast]

theorem positionOf_neg {p : Int} (h : p < 0) : positionOf p = none := if_pos h

theorem Rereads.represents (hre : Rereads f s s') (hs : Stocked s) (h : Represents s t)
    {p : Option Nat} (hp : positionOf (s'.openFDTCache f) = p) :
    Represents s' (t.move (f : Nat) p) := by
  refine h.modify (fun g hg => (hre.spares hg).view hs) ?_
  have hname := hre.filename f
  by_cases hl : s.Live f
  · rw [Sfs.view, Sfs.view, if_pos hl, if_pos ((live_congr hname).mpr hl), nameIn_congr hname,
      hre.contents, Option.map_some, ← hp]
    rfl
  · rw [Sfs.view, Sfs.view, if_neg hl, if_neg fun hl' => hl ((live_congr hname).mp hl'),
      Option.map_none]

theorem Rereads.stocked (hre : Rereads f s s') (hs : Stocked s)
    (hp : 0 ≤ s'.openFDTCache f → s.Live f ∧ s'.openFDTCache f ≤ (s.iNodes f).size) :
    Stocked s' := by
  refine hs.of_names (hre.saved hs.toSaved) (fun g _ => hre.filename g)
    (fun g _ hb => hre.backed hb) fun g hopen => ?_
  rw [live_congr (hre.filename g), hre.iNodes]
  by_cases hg : g = f
  · rw [hg] at hopen ⊢
    exact hp hopen
  · rw [hre.touches.descriptors g hg] at hopen ⊢
    exact hs.position g hopen

/-- An open descriptor of the store is one of the table. -/
theorem Represents.position (h : Represents s t) {x : File CString Byte} {p : Nat}
    (hx : t.file d = some x) (hp : x.position = some p) :
    ∃ f : Fin 300, d = (f : Nat) ∧ s.Live f ∧ s.openFDTCache f = p ∧ x.bytes = s.contents f := by
  obtain ⟨f, hd, hl, hview⟩ := h.exists_live hx
  rw [view, if_pos hl, Option.some.injEq] at hview
  refine ⟨f, hd, hl, ?_, by rw [← hview]⟩
  rw [← hview] at hp
  dsimp only at hp
  split at hp
  · cases hp
  · cases hp
    omega

/-- The file of an open descriptor. -/
theorem Represents.openFile (h : Represents s t) (hs : Stocked s) (hopen : 0 ≤ s.openFDTCache f) :
    ∃ x p, t.file (f : Nat) = some x ∧ x.position = some p ∧ s.openFDTCache f = (p : Nat) ∧
      x.bytes = s.contents f := by
  obtain ⟨hl, -⟩ := hs.position f hopen
  obtain ⟨n, hn, hholds⟩ := hs.named f hl
  refine ⟨_, (s.openFDTCache f).toNat, h.live hl hholds (validName_of_limits hn).2, ?_, by omega,
    rfl⟩
  exact if_neg (by omega)

theorem length_contents_cast (hs : Stocked s) (hl : s.Live f) :
    ((s.contents f).length : Int) = (s.iNodes f).size := by
  have := (hs.backed f hl).1
  rw [length_contents]
  omega

/-! ## Opening -/

theorem createFile_stocked (hs : Stocked s) (hsaved : Saved (s.createFile f n))
    (hn : limits.name n) (hnone : findName n s = none) : Stocked (s.createFile f n) := by
  have hw := WellFormed.of_stocked hs
  have hsame := createFile_sameBlocks n (f := f) hs.toOwned hw.indirectApart
  have hnew := holds_createFile s f n
  have hold : ∀ g, g ≠ f → (s.createFile f n).filename g = s.filename g := fun g hg =>
    (createFile_spares s n hg).filename
  have hlive : ∀ g, g ≠ f → (s.createFile f n).Live g → s.Live g := by
    intro g hg hl
    rwa [Live, hold g hg] at hl
  have hfree : ∀ g, s.filename g ≠ (s.createFile f n).filename f := by
    intro g heq
    have hholds : Holds s g n := by
      rw [Holds, heq]
      exact hnew
    have hfound := (hs.findName_eq_some hn).mpr hholds
    rw [hnone] at hfound
    cases hfound
  exact
    { toSaved := hsaved
      named := by
        intro g hl
        by_cases hg : g = f
        · rw [hg]
          exact ⟨n, hn, hnew⟩
        · obtain ⟨n', hn', hholds⟩ := hs.named g (hlive g hg hl)
          exact ⟨n', hn', hholds.congr (hold g hg)⟩
      distinct := by
        intro g g' hl heq
        by_cases hg : g = f <;> by_cases hg' : g' = f
        · rw [hg, hg']
        · rw [hg, hold g' hg'] at heq
          exact absurd heq.symm (hfree g')
        · rw [hg', hold g hg] at heq
          exact absurd heq (hfree g)
        · rw [hold g hg, hold g' hg'] at heq
          exact hs.distinct g g' (hlive g hg hl) heq
      backed := by
        intro g hl
        by_cases hg : g = f
        · rw [hg]
          exact backed_of_size_zero (createFile_size s f n)
        · exact backed_congr (hs.backed g (hlive g hg hl)) (createFile_spares s n hg).iNodes
            (hsame.pointer g)
      position := by
        intro g hopen
        by_cases hg : g = f
        · rw [hg, createFile_position, createFile_size]
          exact ⟨hnew.live (validName_of_limits hn), Int.le_refl 0⟩
        · have hspares := createFile_spares s n hg
          rw [hspares.descriptor] at hopen ⊢
          obtain ⟨hl, hle⟩ := hs.position g hopen
          rw [Live, hold g hg, hspares.iNodes]
          exact ⟨hl, hle⟩ }

theorem sfsFopen_simulates (hs : Stocked s) (h : Represents s t) (hsaved : Saved s')
    (hn : Short n) (hopen : sfsFopen n s = (ret, s')) :
    Stocked s' ∧ ∃ t', Step limits t (.openFile n) ret [] t' ∧ Represents s' t' := by
  cases hbad : badLength (wrap32 n.length) with
  | true =>
      rw [sfsFopen, if_pos hbad] at hopen
      cases hopen
      exact ⟨hs, t, .openRefused (Or.inl (not_limits_of_badLength hbad)), h⟩
  | false =>
      have hlimits := hn.limits hbad
      have hv := validName_of_limits hlimits
      cases hfind : findName n s with
      | some f =>
          rw [sfsFopen, hbad, hfind] at hopen
          cases hopen
          have hholds := (hs.findName_eq_some hlimits).mp hfind
          have hl := hholds.live hv
          have hre := Rereads.move f s (s.iNodes f).size
          have hsize := (hs.backed f hl).1
          refine ⟨hre.stocked hs fun _ => ⟨hl, by simp⟩, _,
            .opened hlimits (h.live hl hholds hv.2) rfl, hre.represents hs h ?_⟩
          rw [openFDTCache_setReadWritePointer, if_pos rfl, positionOf, if_neg (by omega),
            length_contents]
      | none =>
          have habsent := (h.absent hs hlimits).mpr hfind
          cases hempty : findEmpty s with
          | some f =>
              rw [sfsFopen_creates hbad hfind hempty] at hopen
              cases hopen
              have hfree := not_live_of_findEmpty hempty
              have hslot : limits.descriptor (f : Nat) := by
                show (slot? (f : Nat)).isSome = true
                rw [slot?_natCast]
                rfl
              refine ⟨createFile_stocked hs hsaved hlimits hfind, _,
                .created habsent hlimits hslot (by rw [h.slot, view, if_neg hfree]), ?_⟩
              refine h.create (fun g hg => (createFile_spares s n hg).view hs) ?_
              have hnil : (s.createFile f n).contents f = [] :=
                List.eq_nil_of_length_eq_zero (by rw [length_contents, createFile_size]; rfl)
              have hholds := holds_createFile s f n
              rw [view_live (hholds.live hv) hholds hv.2, hnil, createFile_position]
              rfl
          | none =>
              rw [sfsFopen, hbad, hfind, hempty] at hopen
              cases hopen
              refine ⟨hs, t, .openRefused (Or.inr ⟨habsent, ?_⟩), h⟩
              -- Every slot is in use.
              intro d hd hnone
              obtain ⟨f, hslot⟩ := Option.isSome_iff_exists.mp hd
              obtain rfl := slot?_eq_some.mp hslot
              have hl : s.Live f := by
                simpa [Live] using Fin.find?_eq_none_iff.mp hempty f
              rw [h.slot, view, if_pos hl] at hnone
              cases hnone

/-! ## Moving the descriptor -/

theorem sfsFclose_simulates (hs : Stocked s) (h : Represents s t)
    (hclose : sfsFclose d s = (ret, s')) :
    Stocked s' ∧ ∃ t', Step limits t (.close d) ret [] t' ∧ Represents s' t' := by
  have hrefused : (∀ f, slot? d = some f → s.openFDTCache f < 0) → ¬ t.IsOpen d := by
    intro hno hopen
    obtain ⟨f, hslot, hopen⟩ := (h.isOpen hs).mp hopen
    have := hno f hslot
    omega
  unfold sfsFclose at hclose
  split at hclose
  · next hslot =>
      cases hclose
      exact ⟨hs, t, .closeRefused (hrefused fun f hf => by rw [hf] at hslot; cases hslot), h⟩
  · next f hslot =>
      split at hclose
      · next hclosed =>
          cases hclose
          refine ⟨hs, t, .closeRefused (hrefused fun g hg => ?_), h⟩
          rwa [Option.some.inj (hg.symm.trans hslot)]
      · next hopen =>
          cases hclose
          have hre := Rereads.move f s (-1)
          have hfdt : (s.setReadWritePointer f (-1)).openFDTCache f = -1 := by simp
          obtain rfl := slot?_eq_some.mp hslot
          refine ⟨hre.stocked hs fun hpos => by omega, _,
            .closed ((h.isOpen hs).mpr ⟨f, slot?_natCast f, by omega⟩), hre.represents hs h ?_⟩
          rw [hfdt]
          exact positionOf_neg (by omega)

theorem sfsFseek_simulates (hs : Stocked s) (h : Represents s t)
    (hseek : sfsFseek d location s = .ok (ret, s')) :
    Stocked s' ∧ ∃ t', Step limits t (.seek d location) ret [] t' ∧ Represents s' t' := by
  unfold sfsFseek at hseek
  split at hseek
  · next hneg =>
      cases hseek
      exact ⟨hs, t, .seekRefused fun x q _ _ => Or.inl hneg, h⟩
  · next hloc =>
      split at hseek
      · cases hseek
      · next f hslot =>
          obtain rfl := slot?_eq_some.mp hslot
          split at hseek
          · next hpast =>
              cases hseek
              refine ⟨hs, t, .seekRefused fun x q hx hq => Or.inr ?_, h⟩
              obtain ⟨g, hg, hl, -, hbytes⟩ := h.position hx hq
              obtain rfl : f = g := Fin.ext (by omega)
              rw [hbytes, length_contents_cast hs hl]
              omega
          · next hinside =>
              split at hseek
              · next hclosed =>
                  cases hseek
                  refine ⟨hs, t, .seekRefused fun x q hx hq => ?_, h⟩
                  obtain ⟨g, hg, -, hfdt, -⟩ := h.position hx hq
                  obtain rfl : f = g := Fin.ext (by omega)
                  omega
              · next hopen =>
                  cases hseek
                  obtain ⟨p, rfl⟩ := Int.eq_ofNat_of_zero_le (show 0 ≤ location by omega)
                  obtain ⟨hl, -⟩ := hs.position f (by omega)
                  obtain ⟨x, q, hx, hq, -, hbytes⟩ := h.openFile hs (show 0 ≤ s.openFDTCache f by omega)
                  have hre := Rereads.move f s p
                  have hlen := length_contents_cast hs hl
                  refine ⟨hre.stocked hs fun _ => ⟨hl, by simp; omega⟩, _,
                    .sought hx hq (by rw [hbytes]; omega), hre.represents hs h ?_⟩
                  rw [openFDTCache_setReadWritePointer, if_pos rfl, positionOf_natCast]

theorem sfsFread_simulates (hs : Stocked s) (h : Represents s t)
    (hcare : Int32Range count)
    (hread : sfsFread junk d count s = .ok (ret, bytes, s')) :
    Stocked s' ∧ ∃ t', Step limits t (.read d count) ret bytes t' ∧ Represents s' t' := by
  by_cases hgo : 0 ≤ count ∧ ∃ f, slot? d = some f ∧ 0 ≤ s.openFDTCache f
  · obtain ⟨hcount, f, hslot, hopen⟩ := hgo
    obtain rfl := slot?_eq_some.mp hslot
    obtain ⟨hl, hin⟩ := hs.position f hopen
    have hint : s.openFDTCache f + count < 2147483648 := by
      by_contra hfar
      rw [sfsFread_overruns junk (hs.range f) (hs.backed f hl) hopen hin hcare.2 (by omega)] at hread
      cases hread
    have hlen := length_contents_cast hs hl
    obtain ⟨p', heq⟩ := sfsFread_eq junk (hs.range f) (hs.backed f hl) hcount hopen hin hint
    rw [heq] at hread
    cases hread
    obtain ⟨x, p, hx, hp, hfdt, hbytes⟩ := h.openFile hs hopen
    obtain ⟨k, rfl⟩ := Int.eq_ofNat_of_zero_le hcount
    have hwindow : s.window f (s.openFDTCache f) k = (x.bytes.drop p).take k := by
      rw [window, hfdt, hbytes, Int.toNat_natCast, Int.toNat_natCast]
    have hcut : ((x.bytes.drop p).take k).length =
        min (k : Int) ((s.iNodes f).size - s.openFDTCache f) := by
      rw [List.length_take, List.length_drop, hbytes]
      omega
    have hre : Rereads f s ((s.seek p').setReadWritePointer f
        (min (s.openFDTCache f + k) (s.iNodes f).size)) := ⟨p', _, rfl⟩
    have hnew : ((s.seek p').setReadWritePointer f
        (min (s.openFDTCache f + k) (s.iNodes f).size)).openFDTCache f =
        ((p + ((x.bytes.drop p).take k).length : Nat) : Int) := by
      rw [openFDTCache_setReadWritePointer, if_pos rfl]
      omega
    refine ⟨hre.stocked hs fun _ => ⟨hl, ?_⟩, _, ?_, hre.represents hs h
      (by rw [hnew, positionOf_natCast])⟩
    · rw [openFDTCache_setReadWritePointer, if_pos rfl]
      omega
    · rw [hwindow, ← hcut]
      exact .read hx hp
  · have hrefused : sfsFread junk d count s = .ok (-1, [], s) := by
      by_cases hcount : count < 0
      · rw [sfsFread, if_pos hcount]
      · exact sfsFread_not_open fun hopen => hgo ⟨by omega, hopen⟩
    rw [hrefused] at hread
    cases hread
    refine ⟨hs, t, .readRefused ?_, h⟩
    rw [h.isOpen hs]
    by_cases hcount : count < 0
    · exact Or.inl hcount
    · exact Or.inr fun hopen => hgo ⟨by omega, hopen⟩

end OsConcepts.Sfs

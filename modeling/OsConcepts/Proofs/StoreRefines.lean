import OsConcepts.Lib.Refinement
import OsConcepts.Proofs.StoreMount

/-!
# A session is a run of a file store

The file system keeps what a file system is for: whatever a program calls, and
whenever it mounts or formats its disk in between, what it sees is a run of a
store of named files. This holds of programs that leave the disk up to date
(`KeepsSaved`) and are `Careful`; each of their calls is one of the store's, and
`Stocked` is the invariant that carries it.
-/

namespace OsConcepts.Sfs

open OsConcepts FileStore

variable {s s' : Sfs} {f : Fin 300} {n : CString} {t : Store CString Byte} {c : Call} {ret : Int}
  {junk : Mem} {bytes : List Byte} {a : Action} {tr : List Action}

/-- What is asked of a program. -/
def Considerate (s : Sfs) : Action → Prop
  | .call c _ _ => KeepsSaved s c ∧ Careful c
  | .mksfs _ => True

def considerate : System Sfs Action := programs.guard Considerate

/-! ## The steps -/

/-- The calls that deliver no bytes. -/
def Call.Quiet : Call → Prop
  | .fread .. => False
  | _ => True

theorem deliver_eq (hc : c.Quiet) (s : Sfs) :
    c.deliver s = (c.exec s).bind fun r => .ok (r.1, [], r.2) := by
  cases c with
  | fread junk fd count => exact absurd hc id
  | fopen | fclose | fseek | fwrite | getnextfilename | getfilesize | remove =>
      rw [Call.deliver]
      · rfl
      · exact fun _ _ _ hread => by cases hread

theorem deliver_of_exec (hc : c.Quiet) (h : c.exec s = .ok (ret, s')) :
    c.deliver s = .ok (ret, [], s') := by
  rw [deliver_eq hc, h]
  rfl

theorem bytes_of_deliver (h : c.deliver s = .ok (ret, bytes, s')) (hc : c.Quiet) : bytes = [] := by
  rw [deliver_eq hc] at h
  obtain ⟨r, -, h⟩ := ok_bind h
  cases h
  rfl

theorem exec_of_deliver (h : c.deliver s = .ok (ret, bytes, s')) : c.exec s = .ok (ret, s') := by
  by_cases hc : c.Quiet
  · rw [deliver_eq hc] at h
    obtain ⟨r, hexec, h⟩ := ok_bind h
    cases h
    exact hexec
  · cases c with
    | fread junk fd count =>
        have hread : sfsFread junk fd count s = .ok (ret, bytes, s') := h
        rw [Call.exec, hread]
        rfl
    | fopen | fclose | fseek | fwrite | getnextfilename | getfilesize | remove =>
        exact absurd trivial hc

/-- Each call is one of the store. -/
theorem deliver_simulates (hs : Stocked s) (h : Represents s t) (hk : KeepsSaved s c)
    (hcare : Careful c) (hcall : c.deliver s = .ok (ret, bytes, s')) :
    Stocked s' ∧ ∃ t', Step limits t c.request ret bytes t' ∧ Represents s' t' := by
  have hexec := exec_of_deliver hcall
  have hsaved := exec_saved hs.toSaved hk hexec
  cases c with
  | fopen fname =>
      obtain rfl := bytes_of_deliver hcall trivial
      exact sfsFopen_simulates hs h hsaved hcare (Except.ok.inj hexec)
  | fclose fd =>
      obtain rfl := bytes_of_deliver hcall trivial
      exact sfsFclose_simulates hs h (Except.ok.inj hexec)
  | fseek fd location =>
      obtain rfl := bytes_of_deliver hcall trivial
      exact sfsFseek_simulates hs h hexec
  | fread junk fd count => exact sfsFread_simulates hs h hcare hcall
  | fwrite junk fd buf count =>
      obtain rfl := bytes_of_deliver hcall trivial
      exact sfsFwrite_simulates hs h hk hcare hexec
  | getnextfilename fname =>
      obtain rfl := bytes_of_deliver hcall trivial
      rcases hnext : sfsGetnextfilename fname s with ⟨r, m, u⟩
      simp only [Call.exec, hnext] at hexec
      obtain ⟨rfl, rfl⟩ := Prod.mk.inj (Except.ok.inj hexec)
      exact sfsGetnextfilename_simulates hs h hnext
  | getfilesize path =>
      obtain rfl := bytes_of_deliver hcall trivial
      have hpair : (sfsGetfilesize path s, s) = (ret, s') := Except.ok.inj hexec
      obtain ⟨rfl, rfl⟩ := Prod.mk.inj hpair
      exact ⟨hs, t, sfsGetfilesize_simulates hs h hcare, h⟩
  | remove junk fname =>
      obtain rfl := bytes_of_deliver hcall trivial
      rw [exec_remove] at hexec
      exact sfsRemove_simulates hs h hcare hexec hsaved

theorem considerate_simulates :
    considerate.Simulates (FileStore.system limits) Action.observe
      fun s t => Stocked s ∧ Represents s t where
  init := by
    rintro s ⟨junk, s₀, rfl⟩
    have hfresh := mksfs_fresh junk s₀
    exact ⟨.empty, rfl, hfresh.stocked, hfresh.represents⟩
  step := by
    rintro s t a s' ⟨hs, h⟩ ⟨hcons, hstep⟩
    cases a with
    | call c ret bytes =>
        obtain ⟨hs', t', ht, h'⟩ := deliver_simulates hs h hcons.1 hcons.2 hstep
        exact ⟨t', ht, hs', h'⟩
    | mksfs fresh =>
        obtain ⟨junk, rfl⟩ := hstep
        by_cases hfresh : fresh = 0
        · subst hfresh
          have hre := mksfs_zero_reloads hs.toSaved junk
          exact ⟨t.closeAll, rfl, hre.stocked hs, hre.represents h⟩
        · have hnew := mksfs_fresh junk s
          have heq : mksfs fresh junk s = mksfs 1 junk s := by
            rw [mksfs, mksfs, if_pos hfresh, if_pos (by decide)]
          rw [heq]
          refine ⟨.empty, ?_, hnew.stocked, hnew.represents⟩
          rw [Action.observe, if_pos hfresh]
          rfl

theorem stocked_of_session (h : considerate.Reachable s) : Stocked s := by
  obtain ⟨t, -, hs, -⟩ := considerate_simulates.reachable h
  exact hs

/-- A new file of one block, from the start: the two calls that make it. -/
theorem new_file_calls : ∃ t u,
    considerate.step formatted (.call (.fopen (letter 65 (by decide))) ((0 : Fin 300) : Nat) []) t ∧
    considerate.step t
      (.call (.fwrite (fun _ => 0) ((0 : Fin 300) : Nat) (fun _ => 0) (1 * 1024 : Nat))
        (1 * 1024 : Nat) []) u ∧
    t = formatted.createFile 0 (letter 65 (by decide)) ∧
    Holds u 0 (letter 65 (by decide)) ∧ (u.iNodes 0).size = 1024 ∧ u.openFDTCache 0 = 1024 := by
  have h := formatted_fresh
  have hroom : 1 + 1 ≤ formatted.freeBelow 301 := by
    rw [show 301 = 18 + 283 from rfl, h.freeBelow (by omega)]
    omega
  obtain ⟨t, data, s₀, s₁, hopen, hwrite, hfits, -, hP, hnames⟩ := new_file_steps (n := 1) (b := 65)
    h.owned h.low.isolated.indirectApart (by decide) (fun g => by rw [h.names]; decide)
    h.findEmpty h.pointer (by omega) (by rw [h.freeBelow_all]; omega)
  have hcreate : t = formatted.createFile 0 (letter 65 (by decide)) :=
    congrArg Prod.snd ((Except.ok.inj hopen).symm.trans (h.sfsFopen_letter (b := 65) (by decide)))
  have hslot : KeepsSaved formatted (.fopen (letter 65 (by decide))) := by
    intro f _ _ hf
    have hf0 : f = 0 := Option.some.inj (hf.symm.trans h.findEmpty)
    rw [hf0]
    exact Or.inl (by decide)
  have hwhole : ∀ f, Accepts t ((0 : Fin 300) : Nat) (fun _ => 0) (1 * 1024 : Nat) f →
      268 < t.blocksToWrite f (1 * 1024 : Nat) →
      (∀ i, t.pointer f (.direct i) ≠ -1) ∧ t.pointer f .indirect ≠ -1 := by
    intro f ha hlong
    rw [ha.eq_of_natCast, hcreate, blocksToWrite_new (createFile_size formatted 0 _)
      (createFile_position _ _ _) (by omega)] at hlong
    omega
  refine ⟨t, _, ⟨⟨hslot, Or.inl (by decide)⟩, deliver_of_exec trivial hopen⟩,
    ⟨⟨⟨hfits 301 hroom, hwhole⟩, ⟨by decide, by decide⟩, ?_⟩, deliver_of_exec trivial hwrite⟩,
    hcreate, ?_, ?_, ?_⟩
  · rw [strnlen_zeros]
    omega
  · rw [exec_fwrite] at hwrite
    rcases sfsFwrite_touches hwrite with ⟨hret, -, -⟩ | ⟨g, -, htouch⟩
    · omega
    · rw [Holds, filename, htouch.directory, hcreate]
      exact holds_createFile formatted 0 _
  · rw [iNodes_finishWrite, if_pos rfl]
    rfl
  · rw [finishWrite, openFDTCache_writeINodeTable, openFDTCache_setINode,
      openFDTCache_setReadWritePointer, if_pos rfl]
    rfl

theorem run_new_file : ∃ s, considerate.Run
    [.call (.fwrite (fun _ => 0) ((0 : Fin 300) : Nat) (fun _ => 0) (1 * 1024 : Nat))
        (1 * 1024 : Nat) [],
      .call (.fopen (letter 65 (by decide))) ((0 : Fin 300) : Nat) []] s ∧
    Holds s 0 (letter 65 (by decide)) ∧ (s.iNodes 0).size = 1024 := by
  obtain ⟨t, u, hopen, hwrite, -, hholds, hsize, -⟩ := new_file_calls
  exact ⟨u, .step (.step (.start ⟨_, _, rfl⟩) hopen) hwrite, hholds, hsize⟩

/-- A name that is there is opened. -/
theorem sfsFopen_there (hs : Labelled s) (hn : limits.name n) (hholds : Holds s f n) :
    sfsFopen n s = (((f : Nat) : Int), s.setReadWritePointer f (s.iNodes f).size) := by
  rw [sfsFopen, (validName_of_limits hn).badLength, (hs.findName_eq_some hn).mpr hholds,
    if_neg (by decide)]

/-- What a program sees of its session is a run of a file store, and the files
are at every moment those of the store. -/
theorem session_refines_store (h : considerate.Run tr s) :
    ∃ t, (FileStore.system limits).Run (tr.map Action.observe) t ∧ t.file = s.files := by
  obtain ⟨t, hrun, -, hrep⟩ := considerate_simulates.run h
  exact ⟨t, hrun, hrep⟩

/-- The new file is there after the disk has been mounted again. -/
theorem session_refines_store_new_file :
    ∃ (s : Sfs) (t : Store CString Byte), (FileStore.system limits).Run
      ([.call (.fopen (letter 65 (by decide))) ((0 : Fin 300) : Nat) [], .mksfs 0,
        .call (.fwrite (fun _ => 0) ((0 : Fin 300) : Nat) (fun _ => 0) (1 * 1024 : Nat))
          (1 * 1024 : Nat) [],
        .call (.fopen (letter 65 (by decide))) ((0 : Fin 300) : Nat) []].map Action.observe) t ∧
      t.file = s.files := by
  obtain ⟨s, hr, hholds, -⟩ := run_new_file
  have hs := stocked_of_session ⟨_, hr⟩
  have hname : limits.name (letter 65 (by decide)) := ⟨by decide, by decide⟩
  have hre := mksfs_zero_reloads hs.toSaved fun _ => 0
  have hs' := hre.stocked hs
  have hholds' := hholds.congr (hre.filename 0)
  have hmount : considerate.step s (.mksfs 0) (mksfs 0 (fun _ => 0) s) := ⟨trivial, _, rfl⟩
  have hkeeps : KeepsSaved (mksfs 0 (fun _ => 0) s) (.fopen (letter 65 (by decide))) := by
    intro f _ hnone
    rw [(hs'.findName_eq_some hname).mpr hholds'] at hnone
    cases hnone
  have hopen : (Call.fopen (letter 65 (by decide))).exec (mksfs 0 (fun _ => 0) s) = _ :=
    congrArg Except.ok (sfsFopen_there hs'.toLabelled hname hholds')
  have hagain : considerate.step (mksfs 0 (fun _ => 0) s)
      (.call (.fopen (letter 65 (by decide))) ((0 : Fin 300) : Nat) []) _ :=
    ⟨⟨hkeeps, Or.inl (by decide)⟩, deliver_of_exec trivial hopen⟩
  obtain ⟨t, ht⟩ := session_refines_store ((hr.step hmount).step hagain)
  exact ⟨_, t, ht⟩

/-! ## The next process -/

theorem Restores.labelled {u : Sfs} (hr : Restores s u) (hs : Labelled s) : Labelled u where
  named f hl := by
    have hl' := (hr.live f).mp hl
    obtain ⟨n, hn, hholds⟩ := hs.named f hl'
    exact ⟨n, hn, hholds.congr (hr.filename f hl')⟩
  distinct f g hl heq := by
    have hl' := (hr.live f).mp hl
    have hg : s.Live g := (hr.live g).mp (by rwa [Live, ← heq])
    rw [hr.filename f hl', hr.filename g hg] at heq
    exact hs.distinct f g hl' heq

/-- A file that is found by its name and has its blocks. -/
structure Readable (u : Sfs) (f : Fin 300) (x : File CString Byte) : Prop where
  labelled : Labelled u
  name : limits.name x.name
  holds : Holds u f x.name
  backed : Backed u f
  range : InRange u f
  contents : u.contents f = x.bytes

theorem Stocked.readable (hs : Stocked s) {x : File CString Byte} (hx : s.view f = some x) :
    s.Live f ∧ Readable s f x := by
  have hl : s.Live f := by
    by_contra hl
    rw [view, if_neg hl] at hx
    cases hx
  obtain ⟨n, hn, hholds⟩ := hs.named f hl
  rw [view_live hl hholds (validName_of_limits hn).2, Option.some.injEq] at hx
  rw [← hx]
  exact ⟨hl, hs.toLabelled, hn, hholds, hs.backed f hl, hs.range f, rfl⟩

/-- What a mount in another process reads of a file. -/
structure Reread (s u : Sfs) (f : Fin 300) : Prop where
  pointer : u.pointer f = s.pointer f
  contents : u.contents f = s.contents f

theorem Stocked.reread (hs : Stocked s) (junk : Mem) (hl : s.Live f) :
    Reread s (mksfs 0 junk (zeroed s.disk)) f := by
  have hr := hs.toSaved.restores junk
  have hblock : ∀ c, (mksfs 0 junk (zeroed s.disk)).disk.block c = s.disk.block c := by
    obtain ⟨p, b, heq⟩ := mksfs_zero_merge (t := zeroed s.disk) hs.synced rfl junk
    intro c
    rw [heq]
    rfl
  have hpointer : (mksfs 0 junk (zeroed s.disk)).pointer f = s.pointer f :=
    pointer_congr (hr.file f hl).directPointers (hr.file f hl).indirectPointer fun _ => hblock _
  refine ⟨hpointer, ?_⟩
  rw [Sfs.contents, Sfs.contents, (hr.file f hl).size]
  exact List.map_congr_left fun k _ => byteAt_congr hpointer (hblock _)

theorem Stocked.remounted (hs : Stocked s) (junk : Mem) {x : File CString Byte}
    (hx : s.view f = some x) : Readable (mksfs 0 junk (zeroed s.disk)) f x := by
  obtain ⟨hl, hread⟩ := hs.readable hx
  have hr := hs.toSaved.restores junk
  have hsame := hs.reread junk hl
  obtain ⟨hlow, hmax, hthere⟩ := hread.backed
  have hsize := (hr.file f hl).size
  refine ⟨hr.labelled hs.toLabelled, hread.name, hread.holds.congr (hr.filename f hl),
    ⟨by rw [hsize]; exact hlow, by rw [hsize]; exact hmax, fun k hk => ?_⟩,
    InRange.congr hread.range hsame.pointer, hsame.contents.trans hread.contents⟩
  rw [hsize] at hk
  rw [blockPointer_congr hsame.pointer]
  exact hthere k hk

/-- A process that mounts the disk of another has its files, closed; opened by
name, each is read as it was left. -/
theorem next_process_reads (h : considerate.Reachable s) (junk : Mem) :
    (∀ d, (mksfs 0 junk (zeroed s.disk)).files d =
      (s.files d).map fun x => { x with position := none }) ∧
    ∀ (f : Fin 300) x, s.files (f : Nat) = some x → ∀ junk', ∃ u,
      sfsFopen x.name (mksfs 0 junk (zeroed s.disk)) = (((f : Nat) : Int), u) ∧
        readAll junk' f u = .ok x.bytes := by
  have hs := stocked_of_session h
  have hr := hs.toSaved.restores junk
  constructor
  · intro d
    unfold files
    cases slot? d with
    | none => rfl
    | some f =>
        exact view_closed (hr.live f) (hr.filename f) (fun hl => (hs.reread junk hl).contents)
          (hr.descriptors f)
  · intro f x hx junk'
    rw [files_natCast] at hx
    have hread := hs.remounted junk hx
    generalize mksfs 0 junk (zeroed s.disk) = u at hread ⊢
    have hmove := Rereads.move f u (u.iNodes f).size
    have hlow := hread.backed.1
    refine ⟨_, sfsFopen_there hread.labelled hread.name hread.holds, ?_⟩
    rw [readAll_eq (hread.range.congr (hmove.sameBlocks.pointer f)) (hmove.backed hread.backed)
      (by simp; omega), hmove.contents, hread.contents]

/-- The file of one block is read by the next process. -/
theorem next_process_reads_new_file :
    ∃ (s : Sfs) (x : File CString Byte) (u : Sfs),
      sfsFopen x.name (mksfs 0 (fun _ => 0) (zeroed s.disk)) =
          ((((0 : Fin 300) : Nat) : Int), u) ∧
        readAll (fun _ => 0) 0 u = .ok x.bytes ∧ x.bytes.length = 1024 := by
  obtain ⟨s, hr, hholds, hsize⟩ := run_new_file
  have hl : s.Live 0 := hholds.live (validName_letter (by decide))
  obtain ⟨u, hopen, hread⟩ := (next_process_reads ⟨_, hr⟩ fun _ => 0).2 0 _
    ((files_natCast s 0).trans (view_live hl hholds (by decide))) fun _ => 0
  exact ⟨s, _, u, hopen, hread, length_contents.trans (by rw [hsize]; rfl)⟩

/-! ## Calls that come back -/

/-- No table is indexed from outside, and no copy leaves its buffer. -/
def InBounds (s : Sfs) : Call → Prop
  | .fseek fd location => 0 ≤ location → (slot? fd).isSome
  | .fread _ fd count => ∀ f, slot? fd = some f → 0 ≤ s.openFDTCache f →
      s.openFDTCache f + count < 2147483648
  | .fwrite _ fd buf count => ∀ f, Accepts s fd buf count f →
      s.openFDTCache f + count ≤ 2147483648 - 1024
  | _ => True

/-- The count of a call is an `int`. -/
def Call.IntCount : Call → Prop
  | .fread _ _ count | .fwrite _ _ _ count => Int32Range count
  | _ => True

theorem sfsFseek_comes_back_iff {fd location : Int} :
    (∃ r, sfsFseek fd location s = .ok r) ↔ (0 ≤ location → (slot? fd).isSome) := by
  unfold sfsFseek
  split
  · next hneg => exact iff_of_true ⟨_, rfl⟩ fun hpos => absurd hpos (by omega)
  · next hpos =>
      cases slot? fd with
      | none =>
          refine iff_of_false (fun ⟨r, hr⟩ => by cases hr) fun hsome => ?_
          cases hsome (by omega)
      | some f =>
          refine iff_of_true ?_ fun _ => rfl
          dsimp only
          split
          · exact ⟨_, rfl⟩
          · split <;> exact ⟨_, rfl⟩

theorem sfsFread_comes_back_iff (hs : Stocked s) {fd count : Int} (hcount : Int32Range count) :
    (∃ r, sfsFread junk fd count s = .ok r) ↔
      ∀ f, slot? fd = some f → 0 ≤ s.openFDTCache f → s.openFDTCache f + count < 2147483648 := by
  constructor
  · rintro ⟨r, hr⟩ f hslot hopen
    obtain ⟨hl, hin⟩ := hs.position f hopen
    by_contra hfar
    rw [slot?_eq_some.mp hslot, sfsFread_overruns junk (hs.range f) (hs.backed f hl) hopen hin
      hcount.2 (by omega)] at hr
    cases hr
  · intro hnear
    by_cases hgo : 0 ≤ count ∧ ∃ f, slot? fd = some f ∧ 0 ≤ s.openFDTCache f
    · obtain ⟨hpos, f, hslot, hopen⟩ := hgo
      obtain ⟨hl, hin⟩ := hs.position f hopen
      obtain ⟨p, heq⟩ := sfsFread_eq junk (hs.range f) (hs.backed f hl) hpos hopen hin
        (hnear f hslot hopen)
      rw [slot?_eq_some.mp hslot, heq]
      exact ⟨_, rfl⟩
    · by_cases hneg : count < 0
      · rw [sfsFread, if_pos hneg]
        exact ⟨_, rfl⟩
      · rw [sfsFread_not_open fun hopen => hgo ⟨by omega, hopen⟩]
        exact ⟨_, rfl⟩

theorem sfsFwrite_comes_back_iff (hs : Stocked s) {buf : Mem} {fd count : Int}
    (hcount : Int32Range count) :
    (∃ r, sfsFwrite junk fd buf count s = .ok r) ↔
      ∀ f, Accepts s fd buf count f → s.openFDTCache f + count ≤ 2147483648 - 1024 := by
  constructor
  · rintro ⟨⟨ret, s'⟩, hr⟩ f ha
    obtain ⟨hl, hin⟩ := hs.position f ha.isOpen
    have hopen := ha.isOpen
    have hmax := (hs.backed f hl).2.1
    rcases comesBack_of_ok hs.toOwned (hs.backed f hl) ha ⟨by omega, by omega⟩ hcount hr with
      hnear | ⟨rfl, hempty, -⟩
    · exact hnear
    · omega
  · intro hnear
    by_cases hgo : ∃ f, Accepts s fd buf count f
    · obtain ⟨f, ha⟩ := hgo
      obtain ⟨hl, hin⟩ := hs.position f ha.isOpen
      have hb := hs.backed f hl
      have hint := hnear f ha
      obtain ⟨ret, s', h⟩ := sfsFwrite_ok junk buf count hb.1 hb.2.1 ha.isOpen ha.count_nonneg
        (by omega)
      rw [slot?_eq_some.mp ha.slot]
      exact ⟨_, h⟩
    · unfold sfsFwrite
      split
      · exact ⟨_, rfl⟩
      · next hpos =>
          split
          · exact ⟨_, rfl⟩
          · next f hslot =>
              split
              · exact ⟨_, rfl⟩
              · next hopen =>
                  split
                  · exact ⟨_, rfl⟩
                  · next hshort =>
                      exact absurd ⟨f, by omega, hslot, by omega, by omega⟩ hgo

theorem deliver_comes_back_iff (hc : c.Quiet) :
    (∃ r, c.deliver s = .ok r) ↔ ∃ r, c.exec s = .ok r := by
  constructor
  · rintro ⟨⟨ret, bytes, s'⟩, h⟩
    exact ⟨_, exec_of_deliver h⟩
  · rintro ⟨⟨ret, s'⟩, h⟩
    exact ⟨_, deliver_of_exec hc h⟩

/-- In a session a call comes back unless it seeks in a table that does not go
that far, or reads or writes past the range of an `int`. -/
theorem call_comes_back_iff (h : considerate.Reachable s) (hcount : c.IntCount) :
    (∃ r, c.deliver s = .ok r) ↔ InBounds s c := by
  have hs := stocked_of_session h
  cases c with
  | fread junk fd count => exact sfsFread_comes_back_iff hs hcount
  | fseek fd location =>
      rw [deliver_comes_back_iff (c := .fseek fd location) trivial]
      exact sfsFseek_comes_back_iff
  | fwrite junk fd buf count =>
      rw [deliver_comes_back_iff (c := .fwrite junk fd buf count) trivial]
      exact sfsFwrite_comes_back_iff hs hcount
  | remove junk fname =>
      rw [deliver_comes_back_iff (c := .remove junk fname) trivial, exec_remove]
      exact iff_of_true (sfsRemove_ok junk fname hs.toNoSharing) trivial
  | fopen | fclose | getnextfilename | getfilesize =>
      refine iff_of_true ((deliver_comes_back_iff ?_).mpr ⟨_, rfl⟩) trivial
      exact trivial

/-- With the file of one block at its end: a seek with the first number past the
table, a read and a write past the range of an `int`, and a read that comes back. -/
theorem call_comes_back_new_file : ∃ s, considerate.Reachable s ∧
    (¬ ∃ r, (Call.fseek 300 0).deliver s = .ok r) ∧
    (¬ ∃ r, (Call.fread (fun _ => 0) ((0 : Fin 300) : Nat) 2147483647).deliver s = .ok r) ∧
    (¬ ∃ r, (Call.fwrite (fun _ => 0) ((0 : Fin 300) : Nat) (fun _ => 0) 2147483647).deliver s =
      .ok r) ∧
    ∃ r, (Call.fread (fun _ => 0) ((0 : Fin 300) : Nat) 1024).deliver s = .ok r := by
  obtain ⟨t, s, hopen, hwrite, -, -, -, hend⟩ := new_file_calls
  have hreach : considerate.Reachable s := ⟨_, .step (.step (.start ⟨_, _, rfl⟩) hopen) hwrite⟩
  have hslot := slot?_natCast (0 : Fin 300)
  refine ⟨s, hreach, fun hback => ?_, fun hback => ?_, fun hback => ?_, ?_⟩
  · have hin := (call_comes_back_iff (c := .fseek 300 0) hreach trivial).mp hback
    have hsome : (slot? 300).isSome = true := hin (Int.le_refl 0)
    rw [slot?_eq_none.mpr (by omega)] at hsome
    cases hsome
  · have hin := (call_comes_back_iff (c := .fread _ _ _) hreach ⟨by omega, by omega⟩).mp hback
    have := hin 0 hslot (by omega)
    omega
  · have hin := (call_comes_back_iff (c := .fwrite _ _ _ _) hreach ⟨by omega, by omega⟩).mp hback
    have := hin 0 ⟨by omega, hslot, by omega, by rw [strnlen_zeros]; omega⟩
    omega
  · refine (call_comes_back_iff (c := .fread _ _ _) hreach ⟨by omega, by omega⟩).mpr ?_
    intro f hf _
    obtain rfl : (0 : Fin 300) = f := Option.some.inj (hslot.symm.trans hf)
    omega

end OsConcepts.Sfs

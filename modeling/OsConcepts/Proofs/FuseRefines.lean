import OsConcepts.Proofs.FuseSteps
import OsConcepts.Proofs.Listing
import OsConcepts.Proofs.StoreRefines

/-!
# A mounted disk is a volume

The two refinements are put on top of each other: a callback is a client of the
calls, the calls are those of a file store, and a client of the one is a client
of the other, which is a call of the volume. What a listing shows needs no store,
since `sfs_getnextfilename` never gets past the first file.
-/

namespace OsConcepts.Sfs

open OsConcepts FileStore Volume

variable {s s' u : Sfs} {f : Fin 300} {n : CString} {t : Store CString Byte}
  {v : Volume CString Byte} {M : Nat} {errno : Int} {junk buf m : Mem} {tr : List FuseAction}
  {a : FuseAction} {path : CString} {reply : FuseReply} {size : Nat} {offset : Int}

/-- Every call a callback makes leaves the disk up to date and is careful. -/
def Attentive (M : Nat) (s : Sfs) : FuseAction → Prop
  | .call c errno _ => (c.client M errno).Heeds serve (fun s c => KeepsSaved s c ∧ Careful c) s
  | .readdir .. => True

def attentive (M : Nat) : System Sfs FuseAction := (mounted M).guard (Attentive M)

/-! ## The callbacks over the file system -/

theorem serve_eq_ok {c : Call} {r : Int × List Byte} :
    serve c s = .ok (r, s') ↔ c.deliver s = .ok (r.1, r.2, s') := by
  unfold serve
  cases c.deliver s with
  | error e => exact iff_of_false (fun h => by cases h) fun h => by cases h
  | ok x =>
      refine ⟨fun h => ?_, fun h => ?_⟩
      · cases h
        rfl
      · cases h
        rfl

theorem serve_of_exec {c : Call} {ret : Int} (hc : c.Quiet) (h : c.exec s = .ok (ret, s')) :
    serve c s = .ok ((ret, []), s') := serve_eq_ok.mpr (deliver_of_exec hc h)

theorem serve_fread {fd count ret : Int} {bytes : List Byte}
    (h : sfsFread junk fd count s = .ok (ret, bytes, s')) :
    serve (.fread junk fd count) s = .ok ((ret, bytes), s') := serve_eq_ok.mpr h

/-- A callback is a call of the volume the store is. -/
theorem callback_simulates {c : FuseCall} (hs : Stocked s) (h : Represents s t)
    (hm : Mirrors t v)
    (ha : (c.client M errno).Heeds serve (fun s c => KeepsSaved s c ∧ Careful c) s)
    (hr : (c.client M errno).exec serve s = .ok (reply, s')) :
    ∃ t' v', Stocked s' ∧ Represents s' t' ∧ Mirrors t' v' ∧
      Volume.Step volumeLimits (c.failure errno) v c.request reply.observe v' := by
  have hruns := (Client.exec_eq_ok_iff.mp hr).heeds ha
  have hcall : ∀ s t c r s', Stocked s ∧ Represents s t →
      (KeepsSaved s c ∧ Careful c) ∧ serve c s = .ok (r, s') →
      ∃ t', storeStep t c r t' ∧ Stocked s' ∧ Represents s' t' := by
    rintro s t c r s' ⟨hs, h⟩ ⟨⟨hk, hcare⟩, hserve⟩
    obtain ⟨hs', t', ht, h'⟩ := deliver_simulates hs h hk hcare (serve_eq_ok.mp hserve)
    exact ⟨t', ht, hs', h'⟩
  obtain ⟨t', hstore, hs', h'⟩ := hruns.simulate hcall ⟨hs, h⟩
  obtain ⟨v', hv, hm'⟩ := callback_step hm hstore
  exact ⟨t', v', hs', h', hm', hv⟩

/-! ## Listings -/

/-- A call that has not returned zero does not return it the next time. -/
theorem sfsGetnextfilename_again (h : (sfsGetnextfilename m s).1 ≠ 0) :
    (sfsGetnextfilename (sfsGetnextfilename m s).2.1 (sfsGetnextfilename m s).2.2).1 ≠ 0 := by
  by_cases hv : ValidBuffer m
  · obtain ⟨g, hg⟩ : ∃ g, s.Live g := by
      by_contra hnone
      exact h (sfsGetnextfilename_empty (fun g hg => hnone ⟨g, hg⟩) hv).1
    obtain ⟨f, hf⟩ := exists_firstLive hg
    obtain ⟨hret, hnext⟩ := sfsGetnextfilename_first hf m
    have hfirst : (sfsGetnextfilename m s).1 = (f : Nat) := hret.resolve_left fun hbad => hbad.2 hv
    rw [hfirst] at h
    rcases (sfsGetnextfilename_first hnext (sfsGetnextfilename m s).2.1).1 with ⟨hret, -⟩ | hret
    · rw [hret]
      decide
    · rwa [hret]
  · have hbad : badLength (intStrlen m) = true := by simpa [ValidBuffer] using hv
    have hsame : sfsGetnextfilename m s = (-1, m, s) := by rw [sfsGetnextfilename, if_pos hbad]
    rw [hsame] at h ⊢
    rwa [hsame]

/-- A listing that ends has ended at once. -/
theorem readdirLoop_cases : ∀ {k : Nat} {m : Mem} {s s' : Sfs} {entries : List (List Byte)},
    readdirLoop M k m s = some (.ok (entries, s')) →
      entries = [] ∧ (sfsGetnextfilename m s).1 = 0 ∧ s' = (sfsGetnextfilename m s).2.2 := by
  intro k
  induction k with
  | zero => intro m s s' entries h; cases h
  | succ k ih =>
      intro m s s' entries h
      have hagain := sfsGetnextfilename_again (m := m) (s := s)
      rcases hnext : sfsGetnextfilename m s with ⟨ret, m₁, s₁⟩
      rw [hnext] at hagain
      rw [readdirLoop, hnext] at h
      split at h
      · cases h
      · dsimp only at h hagain
        split at h
        · next hret =>
            cases h
            exact ⟨rfl, hret, rfl⟩
        · next hret =>
            obtain ⟨r, hloop, h⟩ := Option.map_eq_some_iff.mp h
            obtain ⟨⟨entries', s''⟩, rfl, -⟩ := ok_bind h
            exact absurd (ih hloop).2.1 (hagain hret)

theorem next_same {t' : Store CString Byte} {ready : Bool} {ret : Int} {bytes : List Byte}
    (h : FileStore.Step limits t (.next ready) ret bytes t') : t' = t := by
  cases h <;> rfl

theorem readdir_simulates {k : Nat} {ret : Int} {entries : List (List Byte)} (hs : Stocked s)
    (h : Represents s t) (hread : fuseReaddir M k path m s = some (.ok (ret, entries, s'))) :
    Stocked s' ∧ Represents s' t ∧ Volume.Step volumeLimits (-ENOENT) v
      (if path = rootPath then .list else .noList path)
      (FuseReply.observe { ret, entries }) v := by
  unfold fuseReaddir at hread
  split at hread
  · next hroot =>
      cases hread
      rw [if_neg hroot]
      exact ⟨hs, h, .noList⟩
  · next hroot =>
      rw [if_pos (not_not.mp hroot)]
      obtain ⟨r, hloop, hread⟩ := Option.map_eq_some_iff.mp hread
      obtain ⟨⟨entries', s''⟩, rfl, hread⟩ := ok_bind hread
      cases hread
      obtain ⟨rfl, -, rfl⟩ := readdirLoop_cases hloop
      rcases hnext : sfsGetnextfilename m s with ⟨ret, m', s'⟩
      obtain ⟨hs', t', ht, h'⟩ := sfsGetnextfilename_simulates hs h hnext
      rw [next_same ht] at h'
      exact ⟨hs', h', .list⟩

theorem attentive_simulates : (attentive M).Simulates (Volume.system volumeLimits)
    FuseAction.observe fun s v => ∃ t, Stocked s ∧ Represents s t ∧ Mirrors t v where
  init := by
    rintro s ⟨junk, s₀, rfl⟩
    have hfresh := mksfs_fresh junk s₀
    refine ⟨.empty, rfl, .empty, hfresh.stocked, hfresh.represents, shows_empty, ?_⟩
    intro d f hf
    cases hf
  step := by
    rintro s v a s' ⟨t, hs, h, hm⟩ ⟨hatt, hstep⟩
    cases a with
    | call c errno reply =>
        obtain ⟨t', v', hs', h', hm', hv⟩ := callback_simulates hs h hm hatt hstep
        exact ⟨v', hv, t', hs', h', hm'⟩
    | readdir path fileName reply =>
        obtain ⟨k, ret, entries, hread, rfl⟩ := hstep
        obtain ⟨hs', h', hv⟩ := readdir_simulates hs h hread
        exact ⟨v, hv, t, hs', h', hm⟩

/-- A callback whose calls all meet the condition. -/
theorem attentive_step {c : FuseCall}
    (h : Client.Runs (fun s c r s' => (KeepsSaved s c ∧ Careful c) ∧ serve c s = .ok (r, s'))
      (c.client M errno) s reply s') : (attentive M).step s (.call c errno reply) s' := h.exec_heeds

/-- A file of one block is written to a new disk. -/
theorem writes_new_file : ∃ u, (attentive 35).step formatted
    (.call (.write (fun _ => 0) (letter 65 (by decide)) (fun _ => 0) 1024 0) 0 { ret := 1024 }) u := by
  obtain ⟨t, u, ⟨hkept, hopen⟩, ⟨hkept', hwrite⟩, hcreate, -, -, hpos⟩ := new_file_calls
  have hfdt : t.openFDTCache 0 = 0 := by
    rw [hcreate]
    exact createFile_position formatted 0 _
  have hsize : (t.iNodes 0).size = 0 := by
    rw [hcreate]
    exact createFile_size formatted 0 _
  have hseek : sfsFseek ((0 : Fin 300) : Nat) 0 t = .ok (0, t) := by
    have hself := setReadWritePointer_eq_self t 0
    rw [hfdt] at hself
    rw [sfsFseek_eq (Int.le_refl 0) (by omega) (by omega), hself]
  have hclose : sfsFclose ((0 : Fin 300) : Nat) u = (0, u.setReadWritePointer 0 (-1)) := by
    rw [sfsFclose, slot?_natCast]
    dsimp only
    rw [if_neg (by omega)]
  refine ⟨u.setReadWritePointer 0 (-1), attentive_step ?_⟩
  simp only [FuseCall.client, fuseWrite, Client.bind_eq, Client.runs_bind, runs_strcpyPath,
    runs_ask_ret, Client.runs_pure]
  refine ⟨1024, _, ⟨_, _, ⟨by decide, rfl, rfl⟩, 0, t, ⟨[], hkept, serve_eq_ok.mpr hopen⟩, ?_⟩,
    rfl, rfl⟩
  rw [if_neg (by decide)]
  simp only [Client.runs_bind, runs_ask_ret]
  refine ⟨0, t, ⟨[], ⟨trivial, trivial⟩, serve_of_exec trivial hseek⟩, ?_⟩
  rw [if_neg (by decide)]
  simp only [Client.runs_bind, runs_ask_ret]
  refine ⟨1024, u, ⟨[], hkept', serve_eq_ok.mpr hwrite⟩, ?_⟩
  rw [if_neg (by decide)]
  simp only [Client.runs_bind, runs_ask_ret, Client.runs_pure]
  exact ⟨0, _, ⟨[], ⟨trivial, trivial⟩, serve_of_exec trivial (congrArg Except.ok hclose)⟩,
    trivial, rfl⟩

/-- What is seen of a mounted disk is a run of a volume, and the volume is at
every moment what the tables and the blocks hold. -/
theorem fuse_refines_volume (h : (attentive M).Run tr s) :
    ∃ v, (Volume.system volumeLimits).Run (tr.map FuseAction.observe) v ∧
      ∀ n x, v n = some x ↔
        ∃ d f, s.files d = some f ∧ f.name = n ∧ x = ⟨f.bytes, f.position.isSome⟩ := by
  obtain ⟨v, hrun, t, -, hrep, hm⟩ := attentive_simulates.run h
  refine ⟨v, hrun, ?_⟩
  rw [← hrep]
  exact hm.shows

/-- A new disk with one file. -/
theorem fuse_refines_volume_new_file : ∃ (s : Sfs) (v : Volume CString Byte),
    (Volume.system volumeLimits).Run
      ([.call (.write (fun _ => 0) (letter 65 (by decide)) (fun _ => 0) 1024 0) 0
        { ret := 1024 }].map FuseAction.observe) v ∧
      ∀ n x, v n = some x ↔
        ∃ d f, s.files d = some f ∧ f.name = n ∧ x = ⟨f.bytes, f.position.isSome⟩ := by
  obtain ⟨s, hwrite⟩ := writes_new_file
  obtain ⟨v, hv⟩ := fuse_refines_volume (M := 35) (.step (.start ⟨_, _, rfl⟩) hwrite)
  exact ⟨s, v, hv⟩

/-! ## Reading back -/

variable (errno junk) in
/-- A file that is found is read from any offset in it. -/
theorem Readable.fuseRead {x : File CString Byte} (hr : Readable u f x)
    (hM : x.name.length < M) {p k : Nat} (hp : wrap32 offset = p) (hk : wrap32 size = k)
    (hle : p ≤ x.bytes.length) (hfar : p + k < 2147483648) :
    ∃ u', (fuseRead M errno junk x.name size offset).exec serve u =
      .ok ((((x.bytes.drop p).take k).length, (x.bytes.drop p).take k), u') := by
  obtain ⟨hsize, hmax, -⟩ := hr.backed
  have hlen : (x.bytes.length : Int) = (u.iNodes f).size := by
    rw [← hr.contents, length_contents]
    omega
  have hopen := sfsFopen_there hr.labelled hr.name hr.holds
  have hre := (Rereads.move f u (u.iNodes f).size).trans (.move f _ (p : Int))
  generalize hu₁ : u.setReadWritePointer f (u.iNodes f).size = u₁ at hopen hre
  have hseek : sfsFseek (f : Nat) p u₁ = .ok (0, u₁.setReadWritePointer f p) := by
    rw [← hu₁]
    exact sfsFseek_eq (Int.natCast_nonneg p) (by simp; omega) (by simp; omega)
  generalize hu₂ : u₁.setReadWritePointer f p = u₂ at hseek hre
  have hpos : u₂.openFDTCache f = p := by rw [← hu₂]; simp
  obtain ⟨q, hread⟩ := sfsFread_eq junk (hr.range.congr (hre.sameBlocks.pointer f))
    (hre.backed hr.backed) (Int.natCast_nonneg k) (by omega) (by rw [hre.iNodes]; omega) (by omega)
  rw [hre.iNodes, hpos, ← hlen, window, hre.contents, hr.contents, Int.toNat_natCast,
    Int.toNat_natCast] at hread
  have hcount : min (k : Int) (x.bytes.length - p) = ((x.bytes.drop p).take k).length := by
    rw [List.length_take, List.length_drop]
    omega
  rw [hcount] at hread
  generalize hu₃ : (u₂.seek q).setReadWritePointer f _ = u₃ at hread
  have hclose : sfsFclose (f : Nat) u₃ = (0, u₃.setReadWritePointer f (-1)) := by
    rw [sfsFclose, slot?_natCast]
    dsimp only
    rw [if_neg]
    rw [← hu₃]
    simp
    omega
  refine ⟨u₃.setReadWritePointer f (-1), Client.exec_eq_ok_iff.mpr ?_⟩
  simp only [Sfs.fuseRead, Client.bind_eq, Client.runs_bind, runs_strcpyPath, runs_ask_ret]
  refine ⟨_, _, ⟨hM, rfl, rfl⟩, (f : Nat), u₁, ⟨[], serve_of_exec trivial
    (congrArg Except.ok hopen)⟩, ?_⟩
  rw [if_neg (by omega), hp, hk]
  simp only [Client.runs_bind, runs_ask_ret]
  refine ⟨0, u₂, ⟨[], serve_of_exec trivial hseek⟩, ?_⟩
  rw [if_neg (by decide)]
  simp only [Client.runs_bind, Client.runs_ask]
  refine ⟨_, u₃, serve_fread hread, ?_⟩
  rw [if_neg (by omega)]
  simp only [Client.runs_bind, runs_ask_ret, Client.runs_pure]
  exact ⟨0, _, ⟨[], serve_of_exec trivial (congrArg Except.ok hclose)⟩, trivial, rfl⟩

/-- A path that is written fits into the buffer of the callback. -/
theorem length_of_fuseWrite {ret : Int}
    (h : (fuseWrite M errno junk path buf size offset).exec serve s = .ok (ret, s')) :
    path.length < M := by
  have hruns := Client.exec_eq_ok_iff.mp h
  simp only [fuseWrite, Client.bind_eq, Client.runs_bind, runs_strcpyPath] at hruns
  obtain ⟨_, _, ⟨hlen, -, -⟩, -⟩ := hruns
  exact hlen

/-- The relation that makes a mounted disk a volume. -/
def Serves (s : Sfs) (v : Volume CString Byte) : Prop :=
  ∃ t, Stocked s ∧ Represents s t ∧ Mirrors t v

/-- A file keeps its bytes along every stretch that does not alter it. -/
theorem has_kept {b : List Byte} {acts : List FuseAction} (hserves : Serves s v)
    (hb : v.Has path b)
    (hkeep : ((attentive M).guard fun _ a => ¬ a.observe.request.Alters path).Stretch
      (fun _ a => [a]) s acts s') : ∃ v', Serves s' v' ∧ v'.Has path b := by
  induction hkeep with
  | refl => exact ⟨v, hserves, hb⟩
  | step _ hs ih =>
      obtain ⟨v₁, hserves₁, hb₁⟩ := ih
      obtain ⟨v₂, hv, hserves₂⟩ := attentive_simulates.step _ _ _ _ hserves₁ hs.2
      exact ⟨v₂, hserves₂, Step.has_kept hv hs.1 hb₁⟩

/-- What a volume has is behind a slot. -/
theorem Serves.view {b : List Byte} (h : Serves s v) (hb : v.Has path b) :
    Stocked s ∧ ∃ f x, s.view f = some x ∧ x.name = path ∧ x.bytes = b := by
  obtain ⟨t, hs, hrep, hm⟩ := h
  obtain ⟨held, hb⟩ := hb
  obtain ⟨d, x, hx, hname, hleaf⟩ := (hm.shows _ _).mp hb
  obtain ⟨f, rfl, -, hview⟩ := hrep.exists_live hx
  exact ⟨hs, f, x, hview, hname, (congrArg Leaf.bytes hleaf).symm⟩

/-- What a write has put into a file is read back, whatever is done to the other
files and whoever else reads this one, and also by whoever mounts the disk next. -/
theorem written_is_read {s₁ s₂ : Sfs} {acts : List FuseAction} (h : (attentive M).Reachable s)
    (hwrite : (attentive M).step s (.call (.write junk path buf size offset) errno reply) s₁)
    (herrno : 0 ≤ errno) (hret : 0 < reply.ret)
    (hkeep : ((attentive M).guard fun _ a => ¬ a.observe.request.Alters path).Stretch
      (fun _ a => [a]) s₁ acts s₂) (junk' : Mem) (errno' : Int) :
    (∃ u, (fuseRead M errno' junk' path size offset).exec serve s₂ =
      .ok ((reply.ret, buf.slice 0 reply.ret.toNat), u)) ∧
    ∀ junk₀, ∃ u, (fuseRead M errno' junk' path size offset).exec serve
      (mksfs 0 junk₀ (zeroed s₂.disk)) = .ok ((reply.ret, buf.slice 0 reply.ret.toNat), u) := by
  obtain ⟨v, -, hserves⟩ := attentive_simulates.reachable h
  obtain ⟨v₁, hv, hserves₁⟩ := attentive_simulates.step _ _ _ _ hserves hwrite
  obtain ⟨b, p, hp, hle, hcount, hfits, -, hb⟩ := Step.written hv (by
    show -errno ≤ 0
    omega) hret
  have hM : path.length < M := by
    obtain ⟨-, hexec⟩ := hwrite
    obtain ⟨_, _, hruns, -⟩ := Client.runs_bind.mp (Client.exec_eq_ok_iff.mp hexec)
    exact length_of_fuseWrite (Client.exec_eq_ok_iff.mpr hruns)
  obtain ⟨v₂, hserves₂, hb⟩ := has_kept hserves₁ hb hkeep
  obtain ⟨hs, f, x, hview, rfl, hbytes⟩ := hserves₂.view hb
  have hcount : reply.ret = (buf.slice 0 (wrap32 size).toNat).length := hcount
  rw [Mem.length_slice] at hcount hfits
  have hpos : 0 < (wrap32 size).toNat := by
    rw [hcount] at hret
    exact Int.natCast_pos.mp hret
  obtain ⟨k, hk⟩ := Int.eq_ofNat_of_zero_le (Int.lt_toNat.mp hpos).le
  rw [hk, Int.toNat_natCast] at hcount hfits hbytes
  have hfar : p + k < 2147483648 := Nat.lt_of_le_of_lt hfits (by decide)
  have hthere : p ≤ x.bytes.length := by
    rw [hbytes, length_splice hle]
    omega
  have hwindow : (x.bytes.drop p).take k = buf.slice 0 k := by
    have hnew : ((splice b p (buf.slice 0 k)).drop p).take (buf.slice 0 k).length =
        buf.slice 0 k := take_drop_splice hle
    rwa [Mem.length_slice, ← hbytes] at hnew
  have hread : ∀ u, Readable u f x → ∃ u', (fuseRead M errno' junk' x.name size offset).exec serve u
      = .ok ((reply.ret, buf.slice 0 reply.ret.toNat), u') := by
    intro u hu
    obtain ⟨u', hu'⟩ := hu.fuseRead errno' junk' hM hp hk hthere hfar
    rw [hwindow, Mem.length_slice] at hu'
    rw [hcount, Int.toNat_natCast]
    exact ⟨u', hu'⟩
  exact ⟨hread s₂ (hs.readable hview).2, fun junk₀ =>
    hread (mksfs 0 junk₀ (zeroed s₂.disk)) (hs.remounted junk₀ hview)⟩

/-- The block that was written is read after another callback, and from the disk. -/
theorem written_is_read_new_file : ∃ s : Sfs,
    (∃ u, (fuseRead 35 0 (fun _ => 0) (letter 65 (by decide)) 1024 0).exec serve s =
      .ok ((1024, Mem.slice (fun _ => 0) 0 1024), u)) ∧
    ∀ junk₀, ∃ u, (fuseRead 35 0 (fun _ => 0) (letter 65 (by decide)) 1024 0).exec serve
      (mksfs 0 junk₀ (zeroed s.disk)) = .ok ((1024, Mem.slice (fun _ => 0) 0 1024), u) := by
  obtain ⟨s, hwrite⟩ := writes_new_file
  have hstep : (attentive 35).step s (.call .access 0 { ret := 0 }) s := ⟨trivial, rfl⟩
  have hkeep : ((attentive 35).guard fun _ a =>
      ¬ a.observe.request.Alters (letter 65 (by decide))).Stretch (fun _ a => [a]) s
      [.call .access 0 { ret := 0 }] s := .step .refl ⟨id, hstep⟩
  exact ⟨s, written_is_read (.start ⟨_, _, rfl⟩) hwrite (Int.le_refl 0) (by decide) hkeep
    (fun _ => 0) 0⟩

end OsConcepts.Sfs

import OsConcepts.Sfs.Fuse

/-!
# The callbacks as calls of a volume

A callback opens its file, does one thing to it and closes it. Over a file store
each of its calls has few outcomes once it is known what is behind the
descriptor (`fseek_cases`, `fread_cases`, `fwrite_cases`), and what they make of
the store is what the callback makes of the volume (`Mirrors`).
-/

namespace OsConcepts.Sfs

open OsConcepts FileStore Volume

variable {t t' : Store CString Byte} {v : Volume CString Byte} {n : CString} {d errno : Int}
  {b : List Byte} {M : Nat} {σ : Type*} {step : σ → Call → Int × List Byte → σ → Prop} {s s' : σ}
  {ret : Int} {bytes : List Byte}

/-! ## Parts of a callback -/

@[simp] theorem runs_ask_ret {c : Call} {x : Int} :
    Client.Runs step (ask c) s x s' ↔ ∃ bytes, step s c (x, bytes) s' := by
  simp only [ask, Client.bind_eq, Client.runs_bind, Client.runs_ask, Client.runs_pure]
  constructor
  · rintro ⟨⟨ret, bytes⟩, t, hs, rfl, rfl⟩
    exact ⟨bytes, hs⟩
  · rintro ⟨bytes, hs⟩
    exact ⟨(x, bytes), s', hs, rfl, rfl⟩

@[simp] theorem runs_strcpyPath {path x : CString} :
    Client.Runs step (strcpyPath M path) s x s' ↔ path.length < M ∧ x = path ∧ s' = s := by
  unfold strcpyPath
  split
  · next h => simp [h]
  · next h => simp [h]

/-- The calls as those of a file store. -/
def storeStep (t : Store CString Byte) (c : Call) (r : Int × List Byte) (t' : Store CString Byte) :
    Prop :=
  FileStore.Step limits t c.request r.1 r.2 t'

/-! ## Stores and volumes -/

@[simp] theorem put_put {v : Volume CString Byte} {n : CString} {b b' : List Byte} {x x' : Bool} :
    (v.put n b x).put n b' x' = v.put n b' x' := Function.update_idem ..

/-- The volume is what the store holds, behind descriptors there are. -/
structure Mirrors (t : Store CString Byte) (v : Volume CString Byte) : Prop where
  shows : Shows t v
  within : ∀ d f, t.file d = some f → limits.descriptor d

theorem Mirrors.hasRoom_iff (h : Mirrors t v) :
    v.HasRoom volumeLimits ↔ ∃ d, limits.descriptor d ∧ t.file d = none := by
  have hcard : (Set.range fun f : Fin 300 => ((f : Nat) : Int)).encard = 300 := by
    have hinj : Function.Injective fun f : Fin 300 => ((f : Nat) : Int) :=
      Nat.cast_injective.comp Fin.val_injective
    rw [← Set.image_univ, hinj.encard_image, Set.encard_univ]
    simp
  have hrange : ∀ d, d ∈ (Set.range fun f : Fin 300 => ((f : Nat) : Int)) ↔
      limits.descriptor d := by
    intro d
    show _ ↔ (slot? d).isSome = true
    rw [Option.isSome_iff_exists]
    exact exists_congr fun f => eq_comm.trans slot?_eq_some.symm
  rw [h.shows.hasRoom_iff hcard fun d f hf => (hrange d).mpr (h.within d f hf)]
  exact exists_congr fun d => and_congr_left fun _ => hrange d

theorem Mirrors.refused_iff (h : Mirrors t v) : v.Refused volumeLimits n ↔
    ¬ limits.name n ∨ t.Absent n ∧ ∀ d, limits.descriptor d → t.file d ≠ none := by
  rw [Refused, h.hasRoom_iff, h.shows.absent_iff]
  push Not
  rfl

theorem Mirrors.modify (h : Mirrors t v) {f : File CString Byte} (hf : t.file d = some f)
    {g : File CString Byte → File CString Byte} {hg : ∀ f, (g f).name = f.name} :
    Mirrors (t.modify d g hg) (v.put f.name (g f).bytes (g f).position.isSome) where
  shows := h.shows.modify hf
  within e f' hf' := by
    simp only [Store.modify] at hf'
    split at hf'
    · next he =>
        rw [he]
        exact h.within d f hf
    · exact h.within e f' hf'

theorem Mirrors.create (h : Mirrors t v) {habsent : t.Absent n} (hd : t.file d = none)
    (hin : limits.descriptor d) : Mirrors (t.create d n habsent) (v.put n [] true) where
  shows := h.shows.create hd
  within e f' hf' := by
    simp only [Store.create] at hf'
    split at hf'
    · next he => rwa [he]
    · exact h.within e f' hf'

theorem Mirrors.remove (h : Mirrors t v) {f : File CString Byte} (hf : t.file d = some f) :
    Mirrors (t.remove d) (Function.update v f.name none) where
  shows := h.shows.remove hf
  within e f' hf' := by
    simp only [Store.remove] at hf'
    split at hf'
    · cases hf'
    · exact h.within e f' hf'

theorem modify_file {f : File CString Byte} (hf : t.file d = some f)
    {g : File CString Byte → File CString Byte} {hg : ∀ f, (g f).name = f.name} :
    (t.modify d g hg).file d = some (g f) := by
  simp only [Store.modify, if_pos, hf, Option.map_some]

/-! ## The calls of a callback -/

/-- An open descriptor of a file, in a store that is otherwise the volume. -/
structure Works (t : Store CString Byte) (v : Volume CString Byte) (d : Int) (n : CString)
    (b : List Byte) (p : Nat) : Prop where
  file : t.file d = some ⟨n, b, some p⟩
  mirrors : Mirrors t (v.put n b true)

theorem Works.modify {p p' : Nat} {b' : List Byte} (h : Works t v d n b p)
    {g : File CString Byte → File CString Byte} {hg : ∀ f, (g f).name = f.name}
    (heq : g ⟨n, b, some p⟩ = ⟨n, b', some p'⟩) : Works (t.modify d g hg) v d n b' p' where
  file := (modify_file h.file).trans (congrArg some heq)
  mirrors := by
    have hm : Mirrors (t.modify d g hg) _ := h.mirrors.modify h.file
    rwa [heq, put_put] at hm

theorem fopen_cases (h : Mirrors t v) (hs : storeStep t (.fopen n) (ret, bytes) t') :
    (ret = -1 ∧ t' = t ∧ v.Refused volumeLimits n) ∨
      (ret ≠ -1 ∧ ∃ b, v.Opened volumeLimits n b ∧ Works t' v ret n b b.length) := by
  have hslot : ∀ d, limits.descriptor d → d ≠ -1 := by
    rintro d hd rfl
    cases hd
  have hs : Step limits t (.openFile n) ret bytes t' := hs
  cases hs with
  | opened hn hf hname =>
      subst hname
      refine Or.inr ⟨hslot ret (h.within ret _ hf), _, .there hn (h.shows.file hf), ?_⟩
      exact ⟨modify_file hf, h.modify hf⟩
  | created habsent hn hd hnone =>
      refine Or.inr ⟨hslot ret hd, [], .made hn (h.shows.absent_iff.mp habsent) ?_, ?_⟩
      · exact h.hasRoom_iff.mpr ⟨ret, hd, hnone⟩
      · exact ⟨if_pos rfl, h.create hnone hd⟩
  | openRefused hno => exact Or.inl ⟨rfl, rfl, h.refused_iff.mpr hno⟩

theorem Works.isOpen {p : Nat} (h : Works t v d n b p) : t.IsOpen d := ⟨_, p, h.file, rfl⟩

theorem fclose_cases {p : Nat} (h : Works t v d n b p)
    (hs : storeStep t (.fclose d) (ret, bytes) t') : Mirrors t' (v.put n b false) := by
  have hs : Step limits t (.close d) ret bytes t' := hs
  cases hs with
  | closed hopen =>
      have hm : Mirrors (t.move d none) ((v.put n b true).put n b false) :=
        h.mirrors.modify h.file
      rwa [put_put] at hm
  | closeRefused hclosed => exact absurd h.isOpen hclosed

theorem fseek_cases {p : Nat} {location : Int} (h : Works t v d n b p)
    (hs : storeStep t (.fseek d location) (ret, bytes) t') :
    (ret = -1 ∧ t' = t ∧ (location < 0 ∨ (b.length : Int) < location)) ∨
      (ret ≠ -1 ∧ ∃ q : Nat, location = q ∧ q ≤ b.length ∧ Works t' v d n b q) := by
  have hs : Step limits t (.seek d location) ret bytes t' := hs
  cases hs with
  | sought hf hp hle =>
      rw [h.file, Option.some.injEq] at hf
      subst hf
      exact Or.inr ⟨by decide, _, rfl, hle, h.modify rfl⟩
  | seekRefused hno => exact Or.inl ⟨rfl, rfl, hno _ p h.file rfl⟩

theorem fread_cases {p : Nat} {junk : Mem} {count : Int} (h : Works t v d n b p)
    (hs : storeStep t (.fread junk d count) (ret, bytes) t') :
    (ret = -1 ∧ bytes = [] ∧ t' = t ∧ count < 0) ∨
      (ret ≠ -1 ∧ ∃ k : Nat, count = k ∧ ret = ((b.drop p).take k).length ∧
        bytes = (b.drop p).take k ∧ ∃ q, Works t' v d n b q) := by
  have hs : Step limits t (.read d count) ret bytes t' := hs
  cases hs with
  | read hf hp =>
      rw [h.file, Option.some.injEq] at hf
      subst hf
      obtain rfl := Option.some.inj hp
      exact Or.inr ⟨by omega, _, rfl, rfl, rfl, _, h.modify rfl⟩
  | readRefused hno =>
      exact Or.inl ⟨rfl, rfl, rfl, hno.resolve_right fun hclosed => hclosed h.isOpen⟩

theorem fwrite_cases {p : Nat} {junk buf : Mem} {count : Int} (h : Works t v d n b p)
    (hs : storeStep t (.fwrite junk d buf count) (ret, bytes) t') :
    (ret = -1 ∧ count < 0 ∧ t' = t) ∨
      ∃ w : List Byte, w = buf.slice 0 count.toNat ∧ count = w.length ∧
        ((ret = -1 ∧ limits.size < max b.length (p + w.length) ∧
            ∃ q, Works t' v d n ((splice b p w).take b.length) q) ∨
          (ret = w.length ∧ max b.length (p + w.length) ≤ limits.size ∧
            ∃ q, Works t' v d n (splice b p w) q)) := by
  have hs : Step limits t (.write d count (buf.slice 0 count.toNat)) ret bytes t' := hs
  obtain ⟨w, hw⟩ : ∃ w, w = buf.slice 0 count.toNat := ⟨_, rfl⟩
  rw [← hw] at hs
  cases hs with
  | written hf hp hle =>
      rw [h.file, Option.some.injEq] at hf
      subst hf
      obtain rfl := Option.some.inj hp
      exact Or.inr ⟨w, hw, rfl, Or.inr ⟨rfl, hle, _, h.modify rfl⟩⟩
  | tooLarge hf hp hlt =>
      rw [h.file, Option.some.injEq] at hf
      subst hf
      obtain rfl := Option.some.inj hp
      exact Or.inr ⟨w, hw, rfl, Or.inl ⟨rfl, hlt, _, h.modify rfl⟩⟩
  | writeRefused hno =>
      exact Or.inl ⟨rfl, hno.resolve_right fun hclosed => hclosed h.isOpen, rfl⟩

theorem remove_cases {junk : Mem} (h : Mirrors t v)
    (hs : storeStep t (.remove junk n) (ret, bytes) t') :
    (ret = -1 ∧ t' = t ∧ (¬ limits.name n ∨ v n = none)) ∨
      (ret ≠ -1 ∧ limits.name n ∧ v n ≠ none ∧ Mirrors t' (Function.update v n none) ∧
        ∃ d, limits.descriptor d ∧ t'.file d = none) := by
  have hs : Step limits t (.remove n) ret bytes t' := hs
  cases hs with
  | removed hn hf hname =>
      subst hname
      refine Or.inr ⟨by decide, hn, ?_, h.remove hf, _, h.within _ _ hf, if_pos rfl⟩
      rw [h.shows.file hf]
      exact Option.some_ne_none _
  | removeRefused hno => exact Or.inl ⟨rfl, rfl, hno.imp_right h.shows.absent_iff.mp⟩

/-! ## The callbacks -/

variable {junk buf : Mem} {size : Nat} {offset : Int} {path : CString}

theorem stat_cases (h : Mirrors t v) (hs : storeStep t (.getfilesize n) (ret, bytes) t') :
    t' = t ∧ ((ret = -1 ∧ (¬ limits.name n ∨ v n = none)) ∨
      (ret ≠ -1 ∧ limits.name n ∧ ∃ x, v n = some x ∧ ret = x.bytes.length)) := by
  have hs : Step limits t (.size n) ret bytes t' := hs
  cases hs with
  | sized hn hf hname =>
      subst hname
      exact ⟨rfl, Or.inr ⟨by omega, hn, _, h.shows.file hf, rfl⟩⟩
  | sizeRefused hno => exact ⟨rfl, Or.inl ⟨rfl, hno.imp_right h.shows.absent_iff.mp⟩⟩

theorem fuseGetattr_step {r : Int × Stat} (h : Mirrors t v)
    (hr : Client.Runs storeStep (fuseGetattr n) t r t') :
    Mirrors t' v ∧ Volume.Step volumeLimits (-ENOENT) v
      (if n = rootPath then .root else .stat n)
      (FuseReply.observe { ret := r.1, stat := r.2 }) v := by
  unfold fuseGetattr at hr
  split at hr
  · next hroot =>
      rw [if_pos hroot]
      obtain ⟨rfl, rfl⟩ := Client.runs_pure.mp hr
      exact ⟨h, .root⟩
  · next hroot =>
      rw [if_neg hroot]
      simp only [Client.bind_eq, Client.runs_bind, runs_ask_ret] at hr
      obtain ⟨size, t₁, ⟨_, hsize⟩, hr⟩ := hr
      obtain ⟨rfl, ⟨rfl, hno⟩ | ⟨hne, hn, x, hx, rfl⟩⟩ := stat_cases h hsize
      · rw [if_neg (by decide), Client.runs_pure] at hr
        obtain ⟨rfl, rfl⟩ := hr
        exact ⟨h, .statRefused hno⟩
      · rw [if_pos hne, Client.runs_pure] at hr
        obtain ⟨rfl, rfl⟩ := hr
        exact ⟨h, .stat hn hx⟩

theorem fuseUnlink_step (h : Mirrors t v)
    (hr : Client.Runs storeStep (fuseUnlink M errno junk n) t ret t') :
    ∃ v', Volume.Step volumeLimits (-errno) v (.unlink n) { ret := ret } v' ∧ Mirrors t' v' := by
  simp only [fuseUnlink, Client.bind_eq, Client.runs_bind, runs_strcpyPath, runs_ask_ret] at hr
  obtain ⟨_, _, ⟨-, rfl, rfl⟩, res, t₁, ⟨_, hremove⟩, hr⟩ := hr
  rcases remove_cases h hremove with ⟨rfl, rfl, hno⟩ | ⟨hres, hn, hthere, hm, -⟩
  · rw [if_pos rfl, Client.runs_pure] at hr
    obtain ⟨rfl, rfl⟩ := hr
    exact ⟨v, .unlinkRefused hno, h⟩
  · rw [if_neg hres, Client.runs_pure] at hr
    obtain ⟨rfl, rfl⟩ := hr
    exact ⟨_, .unlink hn hthere, hm⟩

theorem fuseOpen_step (h : Mirrors t v) (hr : Client.Runs storeStep (fuseOpen M errno n) t ret t') :
    ∃ v', Volume.Step volumeLimits (-errno) v (.openFile n) { ret := ret } v' ∧ Mirrors t' v' := by
  simp only [fuseOpen, Client.bind_eq, Client.runs_bind, runs_strcpyPath, runs_ask_ret] at hr
  obtain ⟨_, _, ⟨-, rfl, rfl⟩, fd, t₁, ⟨_, hopen⟩, hr⟩ := hr
  rcases fopen_cases h hopen with ⟨rfl, rfl, hno⟩ | ⟨hfd, b, hb, hw⟩
  · rw [if_pos rfl, Client.runs_pure] at hr
    obtain ⟨rfl, rfl⟩ := hr
    exact ⟨v, .openRefused hno, h⟩
  · rw [if_neg hfd] at hr
    simp only [Client.runs_bind, runs_ask_ret, Client.runs_pure] at hr
    obtain ⟨_, _, ⟨_, hclose⟩, rfl, rfl⟩ := hr
    exact ⟨_, .openFile hb, fclose_cases hw hclose⟩

theorem fuseRead_step {r : Int × List Byte} (h : Mirrors t v)
    (hr : Client.Runs storeStep (fuseRead M errno junk n size offset) t r t') :
    ∃ v', Volume.Step volumeLimits (-errno) v (.read n (wrap32 offset) (wrap32 size))
      { ret := r.1, bytes := r.2 } v' ∧ Mirrors t' v' := by
  simp only [fuseRead, Client.bind_eq, Client.runs_bind, runs_strcpyPath, runs_ask_ret] at hr
  obtain ⟨_, _, ⟨-, rfl, rfl⟩, fd, t₁, ⟨_, hopen⟩, hr⟩ := hr
  rcases fopen_cases h hopen with ⟨rfl, rfl, hno⟩ | ⟨hfd, b, hb, hw⟩
  · rw [if_pos rfl, Client.runs_pure] at hr
    obtain ⟨rfl, rfl⟩ := hr
    exact ⟨v, .readRefused hno, h⟩
  rw [if_neg hfd] at hr
  simp only [Client.runs_bind, runs_ask_ret] at hr
  obtain ⟨sought, t₂, ⟨_, hseek⟩, hr⟩ := hr
  rcases fseek_cases hw hseek with ⟨rfl, rfl, hno⟩ | ⟨hsought, q, hq, hle, hw⟩
  · rw [if_pos rfl, Client.runs_pure] at hr
    obtain ⟨rfl, rfl⟩ := hr
    exact ⟨_, .readStopped hb (by omega), hw.mirrors⟩
  rw [if_neg hsought] at hr
  simp only [Client.runs_bind, Client.runs_ask] at hr
  obtain ⟨⟨res, bytes⟩, t₃, hread, hr⟩ := hr
  rcases fread_cases hw hread with ⟨rfl, rfl, rfl, hno⟩ | ⟨hres, k, hk, rfl, rfl, q', hw⟩
  · rw [if_pos rfl, Client.runs_pure] at hr
    obtain ⟨rfl, rfl⟩ := hr
    exact ⟨_, .readStopped hb (Or.inr (Or.inr hno)), hw.mirrors⟩
  · rw [if_neg hres] at hr
    simp only [Client.runs_bind, runs_ask_ret, Client.runs_pure] at hr
    obtain ⟨_, _, ⟨_, hclose⟩, rfl, rfl⟩ := hr
    rw [hq, hk]
    exact ⟨_, .read hb hle, fclose_cases hw hclose⟩

theorem fuseWrite_step (h : Mirrors t v)
    (hr : Client.Runs storeStep (fuseWrite M errno junk n buf size offset) t ret t') :
    ∃ v', Volume.Step volumeLimits (-errno) v
      (.write n (wrap32 offset) (wrap32 size) (buf.slice 0 (wrap32 size).toNat))
      { ret := ret } v' ∧ Mirrors t' v' := by
  simp only [fuseWrite, Client.bind_eq, Client.runs_bind, runs_strcpyPath, runs_ask_ret] at hr
  obtain ⟨_, _, ⟨-, rfl, rfl⟩, fd, t₁, ⟨_, hopen⟩, hr⟩ := hr
  rcases fopen_cases h hopen with ⟨rfl, rfl, hno⟩ | ⟨hfd, b, hb, hw⟩
  · rw [if_pos rfl, Client.runs_pure] at hr
    obtain ⟨rfl, rfl⟩ := hr
    exact ⟨v, .writeRefused hno, h⟩
  rw [if_neg hfd] at hr
  simp only [Client.runs_bind, runs_ask_ret] at hr
  obtain ⟨sought, t₂, ⟨_, hseek⟩, hr⟩ := hr
  rcases fseek_cases hw hseek with ⟨rfl, rfl, hno⟩ | ⟨hsought, q, hq, hle, hw⟩
  · rw [if_pos rfl, Client.runs_pure] at hr
    obtain ⟨rfl, rfl⟩ := hr
    exact ⟨_, .writeStopped hb (by omega), hw.mirrors⟩
  rw [if_neg hsought] at hr
  simp only [Client.runs_bind, runs_ask_ret] at hr
  obtain ⟨res, t₃, ⟨_, hwrite⟩, hr⟩ := hr
  rcases fwrite_cases hw hwrite with ⟨rfl, hno, rfl⟩ | ⟨w, hbytes, hcount, hrest⟩
  · rw [if_pos rfl, Client.runs_pure] at hr
    obtain ⟨rfl, rfl⟩ := hr
    exact ⟨_, .writeStopped hb (Or.inr (Or.inr hno)), hw.mirrors⟩
  rw [← hbytes, hcount, hq]
  rcases hrest with ⟨rfl, hlarge, q', hw⟩ | ⟨rfl, hfits, q', hw⟩
  · rw [if_pos rfl, Client.runs_pure] at hr
    obtain ⟨rfl, rfl⟩ := hr
    exact ⟨_, .tooLarge hb hle hlarge, hw.mirrors⟩
  · rw [if_neg (by omega)] at hr
    simp only [Client.runs_bind, runs_ask_ret, Client.runs_pure] at hr
    obtain ⟨_, _, ⟨_, hclose⟩, rfl, rfl⟩ := hr
    exact ⟨_, .write hb hle hfits, fclose_cases hw hclose⟩

/-- A file that has just been removed leaves room for one. -/
theorem fuseTruncate_step (h : Mirrors t v)
    (hr : Client.Runs storeStep (fuseTruncate M errno junk n) t ret t') :
    ∃ v', Volume.Step volumeLimits (-errno) v (.truncate n) { ret := ret } v' ∧ Mirrors t' v' := by
  simp only [fuseTruncate, Client.bind_eq, Client.runs_bind, runs_strcpyPath, runs_ask_ret] at hr
  obtain ⟨_, _, ⟨-, rfl, rfl⟩, res, t₁, ⟨_, hremove⟩, hr⟩ := hr
  rcases remove_cases h hremove with ⟨rfl, rfl, hno⟩ | ⟨hres, hn, hthere, hm, hroom⟩
  · rw [if_pos rfl, Client.runs_pure] at hr
    obtain ⟨rfl, rfl⟩ := hr
    exact ⟨v, .truncateRefused hno, h⟩
  rw [if_neg hres] at hr
  simp only [Client.runs_bind, runs_ask_ret, Client.runs_pure] at hr
  obtain ⟨fd, t₂, ⟨_, hopen⟩, _, _, ⟨_, hclose⟩, rfl, rfl⟩ := hr
  rcases fopen_cases hm hopen with ⟨-, -, hno⟩ | ⟨hfd, b, hb, hw⟩
  · rcases hno with hno | ⟨-, hno⟩
    · exact absurd hn hno
    · exact absurd (hm.hasRoom_iff.mpr hroom) hno
  · obtain rfl : b = [] := by
      cases hb with
      | there _ hx =>
          rw [Function.update_self] at hx
          cases hx
      | made => rfl
    have hm := fclose_cases hw hclose
    rw [put, Function.update_idem] at hm
    exact ⟨_, .truncate hn hthere, hm⟩

theorem fuseCreate_step (h : Mirrors t v) (hr : Client.Runs storeStep (fuseCreate M n) t ret t') :
    ∃ v', Volume.Step volumeLimits (-errno) v (.create n) { ret := ret } v' ∧ Mirrors t' v' := by
  simp only [fuseCreate, Client.bind_eq, Client.runs_bind, runs_strcpyPath, runs_ask_ret,
    Client.runs_pure] at hr
  obtain ⟨_, _, ⟨-, rfl, rfl⟩, fd, t₁, ⟨_, hopen⟩, _, _, ⟨_, hclose⟩, rfl, rfl⟩ := hr
  rcases fopen_cases h hopen with ⟨rfl, rfl, hno⟩ | ⟨hfd, b, hb, hw⟩
  · have hclose : Step limits _ (.close (-1)) _ _ _ := hclose
    cases hclose with
    | closed hisopen =>
        obtain ⟨f, p, hf, -⟩ := hisopen
        cases h.within _ _ hf
    | closeRefused _ => exact ⟨v, .createRefused hno, h⟩
  · exact ⟨_, .create hb, fclose_cases hw hclose⟩

/-- Each callback is a call of the volume. -/
theorem callback_step {c : FuseCall} {reply : FuseReply} (h : Mirrors t v)
    (hr : Client.Runs storeStep (c.client M errno) t reply t') :
    ∃ v', Volume.Step volumeLimits (c.failure errno) v c.request reply.observe v' ∧
      Mirrors t' v' := by
  cases c with
  | getattr path =>
      simp only [FuseCall.client, Client.bind_eq, Client.runs_bind, Client.runs_pure] at hr
      obtain ⟨r, _, hr, rfl, rfl⟩ := hr
      exact ⟨v, (fuseGetattr_step h hr).symm⟩
  | unlink junk path =>
      simp only [FuseCall.client, Client.bind_eq, Client.runs_bind, Client.runs_pure] at hr
      obtain ⟨_, _, hr, rfl, rfl⟩ := hr
      exact fuseUnlink_step h hr
  | openFile path =>
      simp only [FuseCall.client, Client.bind_eq, Client.runs_bind, Client.runs_pure] at hr
      obtain ⟨_, _, hr, rfl, rfl⟩ := hr
      exact fuseOpen_step h hr
  | read junk path size offset =>
      simp only [FuseCall.client, Client.bind_eq, Client.runs_bind, Client.runs_pure] at hr
      obtain ⟨_, _, hr, rfl, rfl⟩ := hr
      exact fuseRead_step h hr
  | write junk path buf size offset =>
      simp only [FuseCall.client, Client.bind_eq, Client.runs_bind, Client.runs_pure] at hr
      obtain ⟨_, _, hr, rfl, rfl⟩ := hr
      exact fuseWrite_step h hr
  | truncate junk path =>
      simp only [FuseCall.client, Client.bind_eq, Client.runs_bind, Client.runs_pure] at hr
      obtain ⟨_, _, hr, rfl, rfl⟩ := hr
      exact fuseTruncate_step h hr
  | access =>
      simp only [FuseCall.client, fuseAccess, Client.bind_eq, Client.runs_bind, Client.runs_pure]
        at hr
      obtain ⟨_, _, ⟨rfl, rfl⟩, rfl, rfl⟩ := hr
      exact ⟨v, .permit, h⟩
  | mknod =>
      simp only [FuseCall.client, fuseMknod, Client.bind_eq, Client.runs_bind, Client.runs_pure]
        at hr
      obtain ⟨_, _, ⟨rfl, rfl⟩, rfl, rfl⟩ := hr
      exact ⟨v, .permit, h⟩
  | create path =>
      simp only [FuseCall.client, Client.bind_eq, Client.runs_bind, Client.runs_pure] at hr
      obtain ⟨_, _, hr, rfl, rfl⟩ := hr
      exact fuseCreate_step h hr

end OsConcepts.Sfs

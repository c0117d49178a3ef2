import Mathlib.Data.Set.Card
import OsConcepts.Lib.FileStore

/-!
# A volume of named files

A file store as it is seen by someone who holds no descriptors: a map from names
to bytes, and calls that name their file. Each call opens the file, does its work
and closes the file again, so opening one for whatever purpose makes it if it is
not there. Of the descriptors only one thing is left to say: a call that fails
half way does not close the file, which is then `held`.

`Shows` says that a volume is what a store holds.
-/

namespace OsConcepts

/-- What there is under a name. -/
structure Leaf (α : Type*) where
  bytes : List α
  held : Bool

/-- Files by their names. -/
abbrev Volume (ν α : Type*) := ν → Option (Leaf α)

namespace Volume

variable {ν α : Type*}

def empty : Volume ν α := fun _ => none

/-- What a volume has room for: which names, how many files, how many bytes in
one. -/
structure Limits (ν : Type*) where
  name : ν → Prop
  files : Nat
  size : Nat

/-- The names in use. -/
def names (v : Volume ν α) : Set ν := { n | v n ≠ none }

def HasRoom (L : Limits ν) (v : Volume ν α) : Prop := v.names.encard < L.files

/-- What is told of a name. -/
inductive Info where
  | directory
  | file (size : Nat)
  deriving DecidableEq

/-- The calls. -/
inductive Request (ν α : Type*) where
  | root
  | stat (n : ν)
  | list
  | noList (n : ν)
  | unlink (n : ν)
  | openFile (n : ν)
  | read (n : ν) (offset count : Int)
  | write (n : ν) (offset count : Int) (bytes : List α)
  | truncate (n : ν)
  | create (n : ν)
  | permit

/-- What a call gives back. -/
structure Reply (α : Type*) where
  ret : Int
  info : Option Info := none
  bytes : List α := []
  names : List (List α) := []

/-- The bytes a file has once it has been opened: none, if it was made. -/
inductive Opened (L : Limits ν) (v : Volume ν α) (n : ν) : List α → Prop
  | there {x : Leaf α} : L.name n → v n = some x → Opened L v n x.bytes
  | made : L.name n → v n = none → v.HasRoom L → Opened L v n []

/-- A name that cannot be opened. -/
def Refused (L : Limits ν) (v : Volume ν α) (n : ν) : Prop :=
  ¬ L.name n ∨ v n = none ∧ ¬ v.HasRoom L

section

variable [DecidableEq ν]

/-- The file has these bytes. -/
def put (v : Volume ν α) (n : ν) (bytes : List α) (held : Bool) : Volume ν α :=
  Function.update v n (some ⟨bytes, held⟩)

/-- What a call answers and makes of the volume; `e` is what it returns if it
fails. -/
inductive Step (L : Limits ν) (e : Int) (v : Volume ν α) :
    Request ν α → Reply α → Volume ν α → Prop
  | root : Step L e v .root { ret := 0, info := some .directory } v
  | stat {n : ν} {x : Leaf α} : L.name n → v n = some x →
      Step L e v (.stat n) { ret := 0, info := some (.file x.bytes.length) } v
  | statRefused {n : ν} : ¬ L.name n ∨ v n = none → Step L e v (.stat n) { ret := e } v
  /-- A listing shows no file. -/
  | list : Step L e v .list { ret := 0 } v
  | noList {n : ν} : Step L e v (.noList n) { ret := e } v
  | unlink {n : ν} : L.name n → v n ≠ none →
      Step L e v (.unlink n) { ret := 0 } (Function.update v n none)
  | unlinkRefused {n : ν} : ¬ L.name n ∨ v n = none → Step L e v (.unlink n) { ret := e } v
  | openFile {n : ν} {b : List α} : v.Opened L n b →
      Step L e v (.openFile n) { ret := 0 } (v.put n b false)
  | openRefused {n : ν} : v.Refused L n → Step L e v (.openFile n) { ret := e } v
  /-- A read delivers what there is from the offset on, at most `count`. -/
  | read {n : ν} {b : List α} {offset count : Nat} : v.Opened L n b → offset ≤ b.length →
      Step L e v (.read n offset count)
        { ret := ((b.drop offset).take count).length, bytes := (b.drop offset).take count }
        (v.put n b false)
  /-- One that fails after the file has been opened does not close it. -/
  | readStopped {n : ν} {b : List α} {offset count : Int} : v.Opened L n b →
      offset < 0 ∨ (b.length : Int) < offset ∨ count < 0 →
      Step L e v (.read n offset count) { ret := e } (v.put n b true)
  | readRefused {n : ν} {offset count : Int} : v.Refused L n →
      Step L e v (.read n offset count) { ret := e } v
  /-- A write splices its bytes in. -/
  | write {n : ν} {b bytes : List α} {offset : Nat} : v.Opened L n b → offset ≤ b.length →
      max b.length (offset + bytes.length) ≤ L.size →
      Step L e v (.write n offset bytes.length bytes) { ret := bytes.length }
        (v.put n (splice b offset bytes) false)
  /-- One that is too large puts its bytes over those there are all the same. -/
  | tooLarge {n : ν} {b bytes : List α} {offset : Nat} : v.Opened L n b → offset ≤ b.length →
      L.size < max b.length (offset + bytes.length) →
      Step L e v (.write n offset bytes.length bytes) { ret := e }
        (v.put n ((splice b offset bytes).take b.length) true)
  | writeStopped {n : ν} {b bytes : List α} {offset count : Int} : v.Opened L n b →
      offset < 0 ∨ (b.length : Int) < offset ∨ count < 0 →
      Step L e v (.write n offset count bytes) { ret := e } (v.put n b true)
  | writeRefused {n : ν} {bytes : List α} {offset count : Int} : v.Refused L n →
      Step L e v (.write n offset count bytes) { ret := e } v
  /-- A file is always cut to nothing, and one that is not there is not made. -/
  | truncate {n : ν} : L.name n → v n ≠ none →
      Step L e v (.truncate n) { ret := 0 } (v.put n [] false)
  | truncateRefused {n : ν} : ¬ L.name n ∨ v n = none → Step L e v (.truncate n) { ret := e } v
  | create {n : ν} {b : List α} : v.Opened L n b →
      Step L e v (.create n) { ret := 0 } (v.put n b false)
  /-- That nothing could be made is not told. -/
  | createRefused {n : ν} : v.Refused L n → Step L e v (.create n) { ret := 0 } v
  | permit : Step L e v .permit { ret := 0 } v

/-- A call as it is seen. -/
structure Event (ν α : Type*) where
  request : Request ν α
  failure : Int
  reply : Reply α

/-- The volume under any calls. -/
def system (L : Limits ν) : System (Volume ν α) (Event ν α) where
  init v := v = .empty
  step v a v' := Step L a.failure v a.request a.reply v'

end

/-! ## What a call leaves alone -/

/-- The calls that change the bytes of a file that is there. -/
def Request.Alters : Request ν α → ν → Prop
  | .unlink m, n => m = n
  | .write m _ _ _, n => m = n
  | .truncate m, n => m = n
  | _, _ => False

/-- The file is there and has these bytes. -/
def Has (v : Volume ν α) (n : ν) (b : List α) : Prop := ∃ held, v n = some ⟨b, held⟩

theorem Opened.eq_of_has {L : Limits ν} {v : Volume ν α} {n : ν} {b b' : List α}
    (h : v.Opened L n b) (hb : v.Has n b') : b = b' := by
  obtain ⟨held, hb⟩ := hb
  cases h with
  | there _ hx =>
      rw [hb, Option.some.injEq] at hx
      rw [← hx]
  | made _ hnone _ =>
      rw [hb] at hnone
      cases hnone

section

variable [DecidableEq ν] {L : Limits ν} {e : Int} {v v' : Volume ν α} {r : Request ν α}
  {reply : Reply α} {m n : ν} {b b' bytes : List α} {held : Bool}

theorem put_has : (v.put n b held).Has n b := ⟨held, Function.update_self ..⟩

theorem Has.update (h : v.Has n b) (hne : m ≠ n) (x : Option (Leaf α)) :
    Has (Function.update v m x) n b := by
  obtain ⟨held, h⟩ := h
  exact ⟨held, (Function.update_of_ne hne.symm ..).trans h⟩

/-- To open a file does not change its bytes. -/
theorem Has.opened (h : v.Has n b) (ho : v.Opened L m b') : (v.put m b' held).Has n b := by
  by_cases hm : m = n
  · subst hm
    rw [ho.eq_of_has h]
    exact put_has
  · exact h.update hm _

/-- A file keeps its bytes through every call that does not alter it. -/
theorem Step.has_kept (h : Step L e v r reply v') (hr : ¬ r.Alters n) (hb : v.Has n b) :
    v'.Has n b := by
  cases h with
  | root | stat | statRefused | list | noList | unlinkRefused | openRefused | readRefused
  | writeRefused | truncateRefused | createRefused | permit => exact hb
  | unlink => exact hb.update hr _
  | openFile ho => exact hb.opened ho
  | read ho => exact hb.opened ho
  | readStopped ho => exact hb.opened ho
  | write => exact hb.update hr _
  | tooLarge => exact hb.update hr _
  | writeStopped => exact hb.update hr _
  | truncate => exact hb.update hr _
  | create ho => exact hb.opened ho

/-- A write that returns a count has put so many bytes at the offset. -/
theorem Step.written {offset count : Int}
    (h : Step L e v (.write n offset count bytes) reply v') (he : e ≤ 0) (hret : 0 < reply.ret) :
    ∃ (b : List α) (p : Nat), offset = p ∧ p ≤ b.length ∧ reply.ret = bytes.length ∧
      p + bytes.length ≤ L.size ∧ L.name n ∧ v'.Has n (splice b p bytes) := by
  cases h with
  | write ho hle hfits =>
      refine ⟨_, _, rfl, hle, rfl, (Nat.le_max_right ..).trans hfits, ?_, put_has⟩
      cases ho with
      | there hn _ => exact hn
      | made hn _ _ => exact hn
  | tooLarge => exact absurd hret (by dsimp only; omega)
  | writeStopped => exact absurd hret (by dsimp only; omega)
  | writeRefused => exact absurd hret (by dsimp only; omega)

end

/-! ## The volume a store holds -/

open FileStore

variable {t t' : Store ν α} {v : Volume ν α} {d : Int} {f : File ν α} {n : ν}

/-- The volume is what the store holds. -/
def Shows (t : Store ν α) (v : Volume ν α) : Prop :=
  ∀ n x, v n = some x ↔ ∃ d f, t.file d = some f ∧ f.name = n ∧ x = ⟨f.bytes, f.position.isSome⟩

theorem shows_empty : Shows (.empty : Store ν α) .empty := by
  intro n x
  refine iff_of_false (fun h => by cases h) ?_
  rintro ⟨d, f, hf, -⟩
  cases hf

theorem Shows.file (h : Shows t v) (hf : t.file d = some f) :
    v f.name = some ⟨f.bytes, f.position.isSome⟩ := (h _ _).mpr ⟨d, f, hf, rfl, rfl⟩

theorem Shows.absent_iff (h : Shows t v) : t.Absent n ↔ v n = none := by
  constructor
  · intro habsent
    by_contra hne
    obtain ⟨x, hx⟩ := Option.ne_none_iff_exists'.mp hne
    obtain ⟨d, f, hf, hname, -⟩ := (h n x).mp hx
    exact habsent d f hf hname
  · rintro hnone d f hf rfl
    rw [h.file hf] at hnone
    cases hnone

/-- As many names as descriptors in use. -/
theorem Shows.encard_names (h : Shows t v) :
    v.names.encard = { d | t.file d ≠ none }.encard := by
  have hinj : Set.InjOn (fun d => (t.file d).map File.name) { d | t.file d ≠ none } := by
    intro d hd e he heq
    obtain ⟨f, hf⟩ := Option.ne_none_iff_exists'.mp hd
    obtain ⟨g, hg⟩ := Option.ne_none_iff_exists'.mp he
    simp only [hf, hg, Option.map_some, Option.some.injEq] at heq
    exact t.unique d e f g hf hg heq
  rw [← hinj.encard_image, ← (Option.some_injective ν).encard_image]
  congr 1
  ext m
  constructor
  · rintro ⟨n, hn, rfl⟩
    obtain ⟨x, hx⟩ := Option.ne_none_iff_exists'.mp hn
    obtain ⟨d, f, hf, rfl, -⟩ := (h n x).mp hx
    exact ⟨d, by simp [hf], by simp [hf]⟩
  · rintro ⟨d, hd, rfl⟩
    obtain ⟨f, hf⟩ := Option.ne_none_iff_exists'.mp hd
    exact ⟨f.name, by simp [names, h.file hf], by simp [hf]⟩

/-- There is room if there is a descriptor left of those there are. -/
theorem Shows.hasRoom_iff (h : Shows t v) {L : Limits ν} {D : Set Int} (hD : D.encard = L.files)
    (hin : ∀ d f, t.file d = some f → d ∈ D) :
    v.HasRoom L ↔ ∃ d ∈ D, t.file d = none := by
  have hfin : D.Finite := Set.finite_of_encard_eq_coe hD
  have hsub : { d | t.file d ≠ none } ⊆ D := by
    intro d hd
    obtain ⟨f, hf⟩ := Option.ne_none_iff_exists'.mp hd
    exact hin d f hf
  rw [HasRoom, h.encard_names, ← hD]
  constructor
  · intro hlt
    by_contra hall
    push Not at hall
    exact absurd (Set.encard_le_encard (show D ⊆ _ from hall)) (not_le.mpr hlt)
  · rintro ⟨d, hd, hnone⟩
    refine (hfin.subset hsub).encard_lt_encard (Set.ssubset_iff_subset_ne.mpr ⟨hsub, ?_⟩)
    rintro heq
    rw [← heq] at hd
    exact hd hnone

section

variable [DecidableEq ν]

/-- It is enough to know what is under one name if the other files are the same. -/
theorem Shows.update {x : Option (Leaf α)} (h : Shows t v)
    (hself : ∀ y, x = some y ↔
      ∃ e f, t'.file e = some f ∧ f.name = n ∧ y = ⟨f.bytes, f.position.isSome⟩)
    (hother : ∀ e f, f.name ≠ n → (t'.file e = some f ↔ t.file e = some f)) :
    Shows t' (Function.update v n x) := by
  intro m y
  by_cases hm : m = n
  · subst hm
    rw [Function.update_self]
    exact hself y
  · rw [Function.update_of_ne hm, h m y]
    refine exists_congr fun e => exists_congr fun f => and_congr_left ?_
    rintro ⟨rfl, -⟩
    exact (hother e f hm).symm

theorem Shows.put (h : Shows t v) (hf : t'.file d = some f)
    (hother : ∀ e g, g.name ≠ f.name → (t'.file e = some g ↔ t.file e = some g)) :
    Shows t' (v.put f.name f.bytes f.position.isSome) := by
  refine h.update (fun y => ?_) hother
  rw [Option.some.injEq]
  constructor
  · rintro rfl
    exact ⟨d, f, hf, rfl, rfl⟩
  · rintro ⟨e, g, hg, hname, rfl⟩
    obtain rfl := t'.unique e d g f hg hf hname
    rw [hf, Option.some.injEq] at hg
    rw [hg]

/-- What is done to a file is done to what is under its name. -/
theorem Shows.modify (h : Shows t v) (hf : t.file d = some f) {g : File ν α → File ν α}
    {hg : ∀ f, (g f).name = f.name} :
    Shows (t.modify d g hg) (v.put f.name (g f).bytes (g f).position.isSome) := by
  have hself : (t.modify d g hg).file d = some (g f) := by
    simp only [Store.modify, if_pos, hf, Option.map_some]
  rw [← hg f]
  refine h.put hself fun e f' hname => ?_
  simp only [Store.modify]
  split
  · next he =>
      subst he
      rw [hf, Option.map_some]
      refine iff_of_false (fun heq => ?_) fun heq => ?_
      · exact hname (congrArg File.name (Option.some.inj heq)).symm
      · exact hname ((congrArg File.name (Option.some.inj heq)).symm.trans (hg f).symm)
  · rfl

theorem Shows.create (h : Shows t v) {habsent : t.Absent n} (hd : t.file d = none) :
    Shows (t.create d n habsent) (v.put n [] true) := by
  refine h.put (d := d) (f := ⟨n, [], some 0⟩) (if_pos rfl) fun e f' hname => ?_
  simp only [Store.create]
  split
  · next he =>
      subst he
      rw [hd]
      refine iff_of_false (fun heq => ?_) fun heq => by cases heq
      exact hname (congrArg File.name (Option.some.inj heq)).symm
  · rfl

theorem Shows.remove (h : Shows t v) (hf : t.file d = some f) :
    Shows (t.remove d) (Function.update v f.name none) := by
  refine h.update (fun y => ?_) fun e f' hname => ?_
  · refine iff_of_false (fun heq => by cases heq) ?_
    rintro ⟨e, g, hg, hname, -⟩
    simp only [Store.remove] at hg
    split at hg
    · cases hg
    · next he => exact he (t.unique e d g f hg hf hname)
  · simp only [Store.remove]
    split
    · next he =>
        subst he
        rw [hf]
        refine iff_of_false (fun heq => by cases heq) fun heq => ?_
        exact hname (congrArg File.name (Option.some.inj heq)).symm
    · rfl

end

end Volume

end OsConcepts

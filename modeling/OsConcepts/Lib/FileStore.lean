import Mathlib.Data.List.Basic
import OsConcepts.Lib.Splice
import OsConcepts.Lib.System

/-!
# A store of named files

What a file system is for, with nothing said of blocks, tables and caches: files
with a name and some bytes, each with at most one descriptor that stands
somewhere in it. A `Store` gives the file behind a descriptor, and no two files
have the same name; it cannot be built otherwise.

`Step` says what a call may answer and what it makes of the store. It leaves
open which unused descriptor a new file gets. The `Limits` are what an
implementation may refuse: names, descriptors and sizes it has no room for.
-/

namespace OsConcepts

/-- A file: `position` is where its descriptor stands, if it is open. -/
structure File (ν α : Type*) where
  name : ν
  bytes : List α
  position : Option Nat

/-- Files by their descriptors, no two with one name. -/
structure Store (ν α : Type*) where
  file : Int → Option (File ν α)
  unique : ∀ d e f g, file d = some f → file e = some g → f.name = g.name → d = e

namespace Store

variable {ν α : Type*}

/-- No files. -/
def empty : Store ν α := ⟨fun _ => none, fun _ _ _ _ h => by cases h⟩

variable (t : Store ν α)

/-- No file has the name. -/
def Absent (n : ν) : Prop := ∀ d f, t.file d = some f → f.name ≠ n

/-- The descriptor stands somewhere. -/
def IsOpen (d : Int) : Prop := ∃ f p, t.file d = some f ∧ f.position = some p

/-- A file is changed, but for its name. -/
def modify (d : Int) (g : File ν α → File ν α) (hg : ∀ f, (g f).name = f.name) : Store ν α where
  file e := if e = d then (t.file e).map g else t.file e
  unique := by
    have hname : ∀ e f, (if e = d then (t.file e).map g else t.file e) = some f →
        ∃ f', t.file e = some f' ∧ f'.name = f.name := by
      intro e f h
      split at h
      · obtain ⟨f', hf', rfl⟩ := Option.map_eq_some_iff.mp h
        exact ⟨f', hf', (hg f').symm⟩
      · exact ⟨f, h, rfl⟩
    intro e e' f f' hf hf' hnames
    obtain ⟨f₀, hf₀, heq⟩ := hname e f hf
    obtain ⟨f₁, hf₁, heq'⟩ := hname e' f' hf'
    exact t.unique e e' f₀ f₁ hf₀ hf₁ (heq.trans (hnames.trans heq'.symm))

/-- The descriptor stands elsewhere, or is closed. -/
def move (d : Int) (p : Option Nat) : Store ν α :=
  t.modify d (fun f => { f with position := p }) fun _ => rfl

/-- The file has other bytes, and the descriptor stands at their end. -/
def rewrite (d : Int) (bytes : List α) : Store ν α :=
  t.modify d (fun f => { f with bytes := bytes, position := some bytes.length }) fun _ => rfl

/-- An empty file is put behind a descriptor. -/
def create (d : Int) (n : ν) (h : t.Absent n) : Store ν α where
  file e := if e = d then some ⟨n, [], some 0⟩ else t.file e
  unique := by
    intro e e' f f' hf hf' hnames
    by_cases he : e = d <;> by_cases he' : e' = d
    · rw [he, he']
    · rw [if_pos he, Option.some.injEq] at hf
      rw [if_neg he'] at hf'
      exact absurd (hnames.symm.trans (by rw [← hf])) (h e' f' hf')
    · rw [if_neg he] at hf
      rw [if_pos he', Option.some.injEq] at hf'
      exact absurd (hnames.trans (by rw [← hf'])) (h e f hf)
    · rw [if_neg he] at hf
      rw [if_neg he'] at hf'
      exact t.unique e e' f f' hf hf' hnames

/-- The file behind a descriptor is gone. -/
def remove (d : Int) : Store ν α where
  file e := if e = d then none else t.file e
  unique := by
    intro e e' f f' hf hf' hnames
    split at hf
    · cases hf
    · split at hf'
      · cases hf'
      · exact t.unique e e' f f' hf hf' hnames

/-- Every descriptor is closed. -/
def closeAll : Store ν α where
  file e := (t.file e).map fun f => { f with position := none }
  unique := by
    intro e e' f f' hf hf' hnames
    obtain ⟨g, hg, rfl⟩ := Option.map_eq_some_iff.mp hf
    obtain ⟨g', hg', rfl⟩ := Option.map_eq_some_iff.mp hf'
    exact t.unique e e' g g' hg hg' hnames

end Store

namespace FileStore

variable {ν α : Type*}

/-- What an implementation has room for. -/
structure Limits (ν : Type*) where
  name : ν → Prop
  descriptor : Int → Prop
  size : Nat

/-- The calls. The bytes of a `write` are as many as its count says; `next` asks
for the first file there is, and is refused if the caller is not ready for it. -/
inductive Request (ν α : Type*) where
  | openFile (n : ν)
  | close (d : Int)
  | seek (d p : Int)
  | read (d count : Int)
  | write (d count : Int) (bytes : List α)
  | next (ready : Bool)
  | size (n : ν)
  | remove (n : ν)

/-- What a call answers, a number and some bytes, and the store it leaves. -/
inductive Step (L : Limits ν) (t : Store ν α) : Request ν α → Int → List α → Store ν α → Prop
  /-- A file that is there is opened at its end. -/
  | opened {n : ν} {d : Int} {f : File ν α} : L.name n → t.file d = some f → f.name = n →
      Step L t (.openFile n) d [] (t.move d (some f.bytes.length))
  | created {n : ν} {d : Int} (h : t.Absent n) : L.name n → L.descriptor d → t.file d = none →
      Step L t (.openFile n) d [] (t.create d n h)
  | openRefused {n : ν} :
      ¬ L.name n ∨ t.Absent n ∧ (∀ d, L.descriptor d → t.file d ≠ none) →
      Step L t (.openFile n) (-1) [] t
  | closed {d : Int} : t.IsOpen d → Step L t (.close d) 0 [] (t.move d none)
  | closeRefused {d : Int} : ¬ t.IsOpen d → Step L t (.close d) (-1) [] t
  | sought {d : Int} {p q : Nat} {f : File ν α} : t.file d = some f → f.position = some q →
      p ≤ f.bytes.length → Step L t (.seek d p) 0 [] (t.move d (some p))
  | seekRefused {d p : Int} :
      (∀ f q, t.file d = some f → f.position = some q → p < 0 ∨ (f.bytes.length : Int) < p) →
      Step L t (.seek d p) (-1) [] t
  /-- A read delivers what there is from the position on, at most `count`. -/
  | read {d : Int} {count p : Nat} {f : File ν α} : t.file d = some f → f.position = some p →
      Step L t (.read d count) ((f.bytes.drop p).take count).length ((f.bytes.drop p).take count)
        (t.move d (some (p + ((f.bytes.drop p).take count).length)))
  | readRefused {d count : Int} : count < 0 ∨ ¬ t.IsOpen d →
      Step L t (.read d count) (-1) [] t
  /-- A write splices its bytes in and leaves the position at the end of the
  file. -/
  | written {d : Int} {bytes : List α} {p : Nat} {f : File ν α} : t.file d = some f →
      f.position = some p → max f.bytes.length (p + bytes.length) ≤ L.size →
      Step L t (.write d bytes.length bytes) bytes.length [] (t.rewrite d (splice f.bytes p bytes))
  /-- One that would make the file too large puts its bytes over those there are
  all the same. -/
  | tooLarge {d : Int} {bytes : List α} {p : Nat} {f : File ν α} : t.file d = some f →
      f.position = some p → L.size < max f.bytes.length (p + bytes.length) →
      Step L t (.write d bytes.length bytes) (-1) []
        (t.rewrite d ((splice f.bytes p bytes).take f.bytes.length))
  | writeRefused {d count : Int} {bytes : List α} : count < 0 ∨ ¬ t.IsOpen d →
      Step L t (.write d count bytes) (-1) [] t
  /-- The first file is the one with the lowest descriptor. -/
  | listed {d : Int} {f : File ν α} : t.file d = some f → (∀ e, e < d → t.file e = none) →
      Step L t (.next true) d [] t
  | noneListed : (∀ d, t.file d = none) → Step L t (.next true) 0 [] t
  | nextRefused : Step L t (.next false) (-1) [] t
  | sized {n : ν} {d : Int} {f : File ν α} : L.name n → t.file d = some f → f.name = n →
      Step L t (.size n) f.bytes.length [] t
  | sizeRefused {n : ν} : ¬ L.name n ∨ t.Absent n → Step L t (.size n) (-1) [] t
  | removed {n : ν} {d : Int} {f : File ν α} : L.name n → t.file d = some f → f.name = n →
      Step L t (.remove n) 0 [] (t.remove d)
  | removeRefused {n : ν} : ¬ L.name n ∨ t.Absent n → Step L t (.remove n) (-1) [] t

/-- What happens to a store: a call with its answer, a new start without files,
or one that keeps the files. -/
inductive Event (ν α : Type*) where
  | call (r : Request ν α) (ret : Int) (bytes : List α)
  | format
  | mount

/-- The store under any calls. -/
def system (L : Limits ν) : System (Store ν α) (Event ν α) where
  init t := t = .empty
  step t e t' :=
    match e with
    | .call r ret bytes => Step L t r ret bytes t'
    | .format => t' = .empty
    | .mount => t' = t.closeAll

end FileStore

end OsConcepts

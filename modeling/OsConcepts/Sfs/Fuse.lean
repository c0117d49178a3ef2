import OsConcepts.Lib.Client
import OsConcepts.Lib.Volume
import OsConcepts.Sfs.Session

/-!
# The FUSE wrappers

`fuse_wrap_new.c`, and `fuse_wrap_old.c`, which differs from it in mounting the
disk where the other formats it. A callback is a program over the calls of the
file system (`FuseM`). It copies the path into a buffer of `MAXFILENAME` bytes,
a constant no header defines; here it is the parameter `M`. What a callback that
fails returns is `-errno`, and since no call of the file system sets `errno`, its
value is a parameter too.

`fuse_readdir` works on its own buffer in a loop that need not end, so its loop
is given a number of turns.
-/

namespace OsConcepts

instance : DecidableEq CString := fun a b =>
  decidable_of_iff (a.bytes = b.bytes) (by cases a; cases b; simp)

namespace Sfs

open OsConcepts FileStore

/-- A program over the calls of the file system: a call is answered with its
return value and the bytes it delivers. -/
abbrev FuseM := Client Call (Int × List Byte) Fault

/-- A call of which only the return value matters. -/
def ask (c : Call) : FuseM Int := do
  let r ← Client.ask c
  return r.1

/-- The calls as they are answered by the file system. -/
def serve (c : Call) (s : Sfs) : Except Fault ((Int × List Byte) × Sfs) := do
  let (ret, bytes, s) ← c.deliver s
  return ((ret, bytes), s)

/-- The fields of `struct stat` that are set. -/
structure Stat where
  mode : Nat
  nlink : Nat
  size : Int
  deriving DecidableEq

/-- `S_IFDIR | 0755`. -/
def directoryMode : Nat := 0x4000 ||| 0o755

/-- `S_IFREG | 0666`. -/
def fileMode : Nat := 0x8000 ||| 0o666

def ENOENT : Int := 2

/-- `"/"`. -/
def rootPath : CString := ⟨[47], by simp⟩

/-- `strcpy(filename, path)` with `char filename[MAXFILENAME]`. -/
def strcpyPath (M : Nat) (path : CString) : FuseM CString :=
  if path.length < M then return path else .fail .bufferOverrun

/-! ## The callbacks -/

variable (M : Nat) (errno : Int)

/-- `fuse_getattr`: the return value and `*stbuf`. -/
def fuseGetattr (path : CString) : FuseM (Int × Stat) :=
  if path = rootPath then
    return (0, ⟨directoryMode, 2, 0⟩)
  else do
    let size ← ask (.getfilesize path)
    if size ≠ -1 then
      return (0, ⟨fileMode, 1, size⟩)
    else
      return (-ENOENT, ⟨0, 0, 0⟩)

/-- `fuse_unlink`. -/
def fuseUnlink (junk : Mem) (path : CString) : FuseM Int := do
  let filename ← strcpyPath M path
  let res ← ask (.remove junk filename)
  if res = -1 then
    return -errno
  else
    return 0

/-- `fuse_open`. -/
def fuseOpen (path : CString) : FuseM Int := do
  let filename ← strcpyPath M path
  let res ← ask (.fopen filename)
  if res = -1 then
    return -errno
  else
    let _ ← ask (.fclose res)
    return 0

/-- `fuse_read`: the return value and what is put into `buf`. The offset and the
size become an `int`. -/
def fuseRead (junk : Mem) (path : CString) (size : Nat) (offset : Int) :
    FuseM (Int × List Byte) := do
  let filename ← strcpyPath M path
  let fd ← ask (.fopen filename)
  if fd = -1 then
    return (-errno, [])
  else
    let sought ← ask (.fseek fd (wrap32 offset))
    if sought = -1 then
      return (-errno, [])
    else
      let (res, bytes) ← Client.ask (.fread junk fd (wrap32 size))
      if res = -1 then
        return (-errno, bytes)
      else
        let _ ← ask (.fclose fd)
        return (res, bytes)

/-- `fuse_write`. -/
def fuseWrite (junk : Mem) (path : CString) (buf : Mem) (size : Nat) (offset : Int) :
    FuseM Int := do
  let filename ← strcpyPath M path
  let fd ← ask (.fopen filename)
  if fd = -1 then
    return -errno
  else
    let sought ← ask (.fseek fd (wrap32 offset))
    if sought = -1 then
      return -errno
    else
      let res ← ask (.fwrite junk fd buf (wrap32 size))
      if res = -1 then
        return -errno
      else
        let _ ← ask (.fclose fd)
        return res

/-- `fuse_truncate`. Its size argument is not used. -/
def fuseTruncate (junk : Mem) (path : CString) : FuseM Int := do
  let filename ← strcpyPath M path
  let res ← ask (.remove junk filename)
  if res = -1 then
    return -errno
  else
    let fd ← ask (.fopen filename)
    let _ ← ask (.fclose fd)
    return 0

/-- `fuse_create`. -/
def fuseCreate (path : CString) : FuseM Int := do
  let filename ← strcpyPath M path
  let fd ← ask (.fopen filename)
  let _ ← ask (.fclose fd)
  return 0

/-- `fuse_access` and `fuse_mknod` look at nothing. -/
def fuseAccess : FuseM Int := return 0

def fuseMknod : FuseM Int := return 0

/-- `sfs_getnextfilename` copies a name of 35 bytes into its buffer. -/
def copiesName (fileName : Mem) (s : Sfs) : Bool :=
  !badLength (intStrlen fileName) && (List.finRange 300).any fun f => s.filename f 0 != 0

/-- The loop of `fuse_readdir`, `n` turns of it at most: what it hands to
`filler`. -/
def readdirLoop : (n : Nat) → Mem → Sfs → Option (Except Fault (List (List Byte) × Sfs))
  | 0, _, _ => none
  | n + 1, fileName, s =>
      if M < 35 ∧ copiesName fileName s then some (.error .bufferOverrun)
      else
        let result := sfsGetnextfilename fileName s
        let fileName := result.2.1
        if result.1 = 0 then some (.ok ([], result.2.2))
        else
          (readdirLoop n fileName result.2.2).map fun r => do
            let (entries, s) ← r
            return (fileName.slice 1 (strnlen fileName M 1 - 1) :: entries, s)

/-- `fuse_readdir`. -/
def fuseReaddir (n : Nat) (path : CString) (fileName : Mem) (s : Sfs) :
    Option (Except Fault (Int × List (List Byte) × Sfs)) :=
  if path ≠ rootPath then some (.ok (-ENOENT, [], s))
  else
    (readdirLoop M n fileName s).map fun r => do
      let (entries, s) ← r
      return (0, [46] :: [46, 46] :: entries, s)

/-! ## A mounted disk -/

/-- What a callback gives back. -/
structure FuseReply where
  ret : Int
  stat : Stat := ⟨0, 0, 0⟩
  bytes : List Byte := []
  entries : List (List Byte) := []

/-- A callback with its arguments, but for `fuse_readdir`. -/
inductive FuseCall where
  | getattr (path : CString)
  | unlink (junk : Mem) (path : CString)
  | openFile (path : CString)
  | read (junk : Mem) (path : CString) (size : Nat) (offset : Int)
  | write (junk : Mem) (path : CString) (buf : Mem) (size : Nat) (offset : Int)
  | truncate (junk : Mem) (path : CString)
  | access
  | mknod
  | create (path : CString)

def FuseCall.client : FuseCall → FuseM FuseReply
  | .getattr path => do
      let (ret, stat) ← fuseGetattr path
      return { ret, stat }
  | .unlink junk path => do return { ret := ← fuseUnlink M errno junk path }
  | .openFile path => do return { ret := ← fuseOpen M errno path }
  | .read junk path size offset => do
      let (ret, bytes) ← fuseRead M errno junk path size offset
      return { ret, bytes }
  | .write junk path buf size offset => do
      return { ret := ← fuseWrite M errno junk path buf size offset }
  | .truncate junk path => do return { ret := ← fuseTruncate M errno junk path }
  | .access => do return { ret := ← fuseAccess }
  | .mknod => do return { ret := ← fuseMknod }
  | .create path => do return { ret := ← fuseCreate M path }

/-- What happens while the disk is mounted. -/
inductive FuseAction where
  | call (c : FuseCall) (errno : Int) (reply : FuseReply)
  | readdir (path : CString) (fileName : Mem) (reply : FuseReply)

/-- The file system of `fuse_wrap_new.c`: it is formatted, and then the callbacks
come in any order. -/
def mounted : System Sfs FuseAction where
  init s := ∃ junk s₀, s = mksfs 1 junk s₀
  step s a s' :=
    match a with
    | .call c errno reply => (c.client M errno).exec serve s = .ok (reply, s')
    | .readdir path fileName reply => ∃ n ret entries,
        fuseReaddir M n path fileName s = some (.ok (ret, entries, s')) ∧
          reply = { ret, entries }

/-! ## What is seen of it -/

def Stat.info (b : Stat) : Option Volume.Info :=
  if b.mode = directoryMode then some .directory
  else if b.mode = fileMode then some (.file b.size.toNat)
  else none

/-- The callback as a call of a volume. -/
def FuseCall.request : FuseCall → Volume.Request CString Byte
  | .getattr path => if path = rootPath then .root else .stat path
  | .unlink _ path => .unlink path
  | .openFile path => .openFile path
  | .read _ path size offset => .read path (wrap32 offset) (wrap32 size)
  | .write _ path buf size offset =>
      .write path (wrap32 offset) (wrap32 size) (buf.slice 0 (wrap32 size).toNat)
  | .truncate _ path => .truncate path
  | .access => .permit
  | .mknod => .permit
  | .create path => .create path

/-- What it returns if it fails. -/
def FuseCall.failure (errno : Int) : FuseCall → Int
  | .getattr _ => -ENOENT
  | _ => -errno

/-- The entries besides `.` and `..` are names of files. -/
def FuseReply.observe (r : FuseReply) : Volume.Reply Byte :=
  { ret := r.ret, info := r.stat.info, bytes := r.bytes, names := r.entries.drop 2 }

def FuseAction.observe : FuseAction → Volume.Event CString Byte
  | .call c errno reply => ⟨c.request, c.failure errno, reply.observe⟩
  | .readdir path _ reply =>
      ⟨if path = rootPath then .list else .noList path, -ENOENT, reply.observe⟩

/-- Room for the names of the file system, in as many files as it has slots. -/
def volumeLimits : Volume.Limits CString where
  name := limits.name
  files := 300
  size := limits.size

end Sfs

end OsConcepts

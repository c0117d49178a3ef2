import OsConcepts.Lib.FileStore
import OsConcepts.Sfs.Runs

/-!
# Sessions, and what a program sees of them

A program calls `mksfs(1)` and then what it likes, `mksfs(0)` and `mksfs(1)`
again among it. What it sees of a call is the return value and the bytes a read
delivers. `request` says which call of a file store it has made, and `limits`
what this file system has room for; names of 35 bytes, which the calls accept,
are not among them, since their terminator is in the slot behind.
-/

namespace OsConcepts.Sfs

open OsConcepts FileStore

/-- A call's return value, the bytes it delivers and the state it leaves. -/
def Call.deliver : Call → Sfs → Except Fault (Int × List Byte × Sfs)
  | .fread junk fd count, s => sfsFread junk fd count s
  | c, s => do
      let (ret, s) ← c.exec s
      return (ret, [], s)

/-- What happens in a session. -/
inductive Action where
  | call (c : Call) (ret : Int) (bytes : List Byte)
  | mksfs (fresh : Int)

/-- A program from its first `mksfs(1)` on. -/
def programs : System Sfs Action where
  init s := ∃ junk s₀, s = mksfs 1 junk s₀
  step s a s' :=
    match a with
    | .call c ret bytes => c.deliver s = .ok (ret, bytes, s')
    | .mksfs fresh => ∃ junk, s' = mksfs fresh junk s

/-- The call as one of a file store. -/
def Call.request : Call → Request CString Byte
  | .fopen fname => .openFile fname
  | .fclose fd => .close fd
  | .fseek fd location => .seek fd location
  | .fread _ fd count => .read fd count
  | .fwrite _ fd buf count => .write fd count (buf.slice 0 count.toNat)
  | .getnextfilename fname => .next (!badLength (intStrlen fname))
  | .getfilesize path => .size path
  | .remove _ fname => .remove fname

def Action.observe : Action → FileStore.Event CString Byte
  | .call c ret bytes => .call c.request ret bytes
  | .mksfs fresh => if fresh ≠ 0 then .format else .mount

/-- Names that leave room for their terminator, the 300 slots, and files of up
to 268 blocks. -/
def limits : Limits CString where
  name n := 1 ≤ n.length ∧ n.length ≤ 34
  descriptor d := (slot? d).isSome
  size := 268 * 1024

end OsConcepts.Sfs

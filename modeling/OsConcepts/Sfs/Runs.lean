import OsConcepts.Lib.System
import OsConcepts.Sfs.Api

/-!
# Runs of the file system

The program as a system: it starts with `mksfs(1)` on whatever the caches held,
and a step is a call that comes back, labelled with its arguments and its
return value.
-/

namespace OsConcepts.Sfs

open OsConcepts

/-- The file system under any sequence of calls. -/
def system : System Sfs (Call × Int) where
  init s := ∃ junk s₀, s = mksfs 1 junk s₀
  step s x s' := x.1.exec s = .ok (x.2, s')

theorem exec_fopen (fname : CString) (s : Sfs) :
    (Call.fopen fname).exec s = .ok (sfsFopen fname s) := rfl

theorem exec_fwrite (junk : Mem) (fd : Int) (buf : Mem) (count : Int) (s : Sfs) :
    (Call.fwrite junk fd buf count).exec s = sfsFwrite junk fd buf count s := rfl

theorem exec_remove (junk : Mem) (fname : CString) (s : Sfs) :
    (Call.remove junk fname).exec s = sfsRemove junk fname s := rfl

/-- The state after `mksfs(1)` in a new process. -/
def formatted : Sfs := mksfs 1 (fun _ => 0) (zeroed (Disk.initFreshDisk 1024 2000))

theorem formatted_reachable : system.Reachable formatted := .start ⟨_, _, rfl⟩

end OsConcepts.Sfs

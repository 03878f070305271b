import VmplApps.AppRegion
import VmplApps.HostPrograms

/-! The memory manager of the sandboxed process. Two counters share one window:
the heap grows up from its base, automatically placed mappings grow down from
its end. Every operation is written as a program over the counters that calls
the host kernel and the guest page-table routines; the replies are arbitrary. -/
namespace VmplApps
namespace Umm

open AppRegion

/-- The two file-scope counters. -/
structure Counters where
  brkLen : Word := 0
  mmapLen : Word := 0
  deriving DecidableEq, Repr

structure Perm where
  u : Bool := true
  r : Bool := false
  w : Bool := false
  x : Bool := false
  big : Bool := false
  deriving DecidableEq, Repr

inductive HostCall
  | mmap (addr len : Word) (prot flags fd : CInt) (offset : Word)
  | munmap (addr len : Word)
  | mprotect (addr len : Word) (prot : CInt)
  | shmctl (shmid : CInt)
  | shmat (shmid : CInt) (addr : Word) (shmflg : CInt) (segsz : Word)
  | shmdt (addr : Word)
  | mremap (oldAddress oldSize newSize : Word) (flags : CInt) (newAddress : Word)
  | vmMapPhys (addr len : Word) (perm : Perm)
  | vmUnmap (addr len : Word)
  | vmMprotect (addr len : Word) (perm : Perm)
  deriving DecidableEq, Repr

/-- The returned value, `errno` after the call, and the segment size that
`shmctl` stores. Values of type `int` are sign-extended. -/
structure Reply where
  ret : Word := 0
  errno : Word := 0
  segsz : Word := 0
  deriving DecidableEq, Repr

abbrev Code := Prog Counters Word HostCall Reply

def PROT_READ : CInt := 1
def PROT_WRITE : CInt := 2
def PROT_EXEC : CInt := 4
def MAP_PRIVATE : CInt := 0x02
def MAP_FIXED : CInt := 0x10
def MAP_ANONYMOUS : CInt := 0x20
def MAP_HUGETLB : CInt := 0x40000
def MAP_FAILED : Word := -1
def SHM_RDONLY : CInt := 0x1000
def SHM_RND : CInt := 0x2000
def MREMAP_MAYMOVE : CInt := 1
def MREMAP_FIXED : CInt := 2

def pgSize : Word := 4096

def pgAddr (x : Word) : Word := Words.alignDown 12 x

def pgOff (x : Word) : Word := Words.lowBits 12 x

/-- `PGADDR(len + PGSIZE - 1)`. -/
def pgRoundUp (len : Word) : Word := Words.alignUp 12 len

def bigPgRoundUp (len : Word) : Word := Words.alignUp 21 len

def ummSpaceLeft (s : Counters) (len : Word) : Bool := s.brkLen + s.mmapLen + len < appMmapLen

def ummGetMapPos (mmapBase : Word) (s : Counters) : Word :=
  mmapBase + appMmapBaseOff - s.mmapLen

def protToPerm (prot : CInt) : Perm where
  r := prot &&& PROT_READ != 0
  w := prot &&& PROT_WRITE != 0
  x := prot &&& PROT_EXEC != 0

/-- Register a fresh host mapping with the guest, or take it back. -/
def mapGuest (addr len : Word) (perm : Perm) : Code Word := do
  let r ← Prog.call (.vmMapPhys addr len perm)
  if r.ret ≠ 0 then
    let _ ← Prog.call (.munmap addr len)
    pure r.ret
  else pure 0

def ummMmapAnom (addr len : Word) (prot : CInt) (big : Bool) : Code Word := do
  let flags := MAP_FIXED ||| MAP_PRIVATE ||| MAP_ANONYMOUS
  let mem ← Prog.call
    (.mmap addr len prot (if big then flags ||| MAP_HUGETLB else flags) (-1) 0)
  if mem.ret ≠ addr then pure (-mem.errno)
  else mapGuest addr len {protToPerm prot with big := big}

def ummMmapFile (addr len : Word) (prot flags fd : CInt) (offset : Word) : Code Word := do
  let mem ← Prog.call (.mmap addr len prot (MAP_FIXED ||| flags) fd offset)
  if mem.ret ≠ addr then pure (-mem.errno)
  else mapGuest addr len (protToPerm prot)

/-- `umm_brk` with `USE_BIG_MEM` off. -/
def ummBrk (mmapBase brk : Word) : Code Word :=
  if brk = 0 then pure mmapBase
  else if brk < mmapBase then .fail (-EINVAL)
  else do
    let len := pgRoundUp (brk - mmapBase)
    let s ← Prog.state
    if !ummSpaceLeft s len then .fail (-ENOMEM)
    else if len = s.brkLen then pure brk
    else if len < s.brkLen then
      let r ← Prog.call (.munmap (mmapBase + len) (s.brkLen - len))
      if r.ret ≠ 0 then .fail (-r.errno)
      else
        let _ ← Prog.call (.vmUnmap (mmapBase + len) (s.brkLen - len))
        Prog.modify fun s => {s with brkLen := len}
        pure brk
    else
      let ret ← ummMmapAnom (mmapBase + s.brkLen) (len - s.brkLen) (PROT_READ ||| PROT_WRITE) false
      if ret ≠ 0 then .fail ret
      else
        Prog.modify fun s => {s with brkLen := len}
        pure brk

/-- Address of an automatically placed range: just below the placed ranges. -/
def placeBelow (mmapBase len : Word) : Code Word := do
  let s ← Prog.state
  if !ummSpaceLeft s len then .fail (-ENOMEM)
  else pure (ummGetMapPos mmapBase s - pgRoundUp len)

/-- `if (adjust_mmap_len) mmap_len += PGADDR(len + PGSIZE - 1)`. -/
def adjustMmapLen (adjust : Bool) (len : Word) : Code Unit :=
  Prog.modify fun s => if adjust then {s with mmapLen := s.mmapLen + pgRoundUp len} else s

/-- The address a request gets: its own after the range test, or a placed one. -/
def chooseAddr (mmapBase addr len : Word) : Code Word :=
  if addr = 0 then placeBelow mmapBase len
  else if !memRefIsSafe mmapBase addr len then .fail (-EINVAL)
  else pure addr

/-- Anonymous memory, or a file when a descriptor above zero is given. -/
def mapKind (target len : Word) (prot flags fd : CInt) (offset : Word) : Code Word :=
  if flags &&& MAP_ANONYMOUS ≠ 0 then ummMmapAnom target len prot false
  else if 0 < fd.toInt then ummMmapFile target len prot flags fd offset
  else .fail (-EINVAL)

def ummMmap (mmapBase addr len : Word) (prot flags fd : CInt) (offset : Word) : Code Word := do
  let target ← chooseAddr mmapBase addr len
  let ret ← mapKind target len prot flags fd offset
  if ret ≠ 0 then .fail ret
  else
    adjustMmapLen (addr == 0) len
    pure target

/-- `umm_munmap`: a refused request is retried with its length rounded to 2 MiB. -/
def ummMunmap (mmapBase addr len : Word) : Code Word :=
  if !memRefIsSafe mmapBase addr len then .fail (-EACCES)
  else do
    let r ← Prog.call (.munmap addr len)
    if r.ret ≠ 0 then
      let r ← Prog.call (.munmap addr (bigPgRoundUp len))
      if r.ret ≠ 0 then .fail (-r.errno)
      else
        let _ ← Prog.call (.vmUnmap addr (bigPgRoundUp len))
        pure 0
    else
      let _ ← Prog.call (.vmUnmap addr len)
      pure 0

/-- `umm_mprotect`; the assertion on the guest's answer stops the process. -/
def ummMprotect (mmapBase addr len prot : Word) : Code Word :=
  if !memRefIsSafe mmapBase addr len then .fail (-EACCES)
  else do
    let r ← Prog.call (.mprotect addr len (prot.setWidth 32))
    if r.ret ≠ 0 then .fail (-r.errno)
    else
      let r ← Prog.call (.vmMprotect addr len (protToPerm (prot.setWidth 32)))
      if r.ret ≠ 0 then .halt else pure 0

def ummShmat (mmapBase : Word) (shmid : CInt) (addr : Word) (shmflg : CInt) : Code Word := do
  let prot := if shmflg &&& SHM_RDONLY = 0 then PROT_READ ||| PROT_WRITE else PROT_READ
  let shm ← Prog.call (.shmctl shmid)
  if shm.ret = -1 then .fail (-1)
  else
    let target ← chooseAddr mmapBase addr shm.segsz
    let mem ← Prog.call (.shmat shmid target shmflg shm.segsz)
    if mem.ret ≠ target then .fail (-mem.errno)
    else
      let r ← Prog.call (.vmMapPhys target shm.segsz (protToPerm prot))
      if r.ret ≠ 0 then
        let _ ← Prog.call (.shmdt target)
        .fail r.ret
      else
        adjustMmapLen (addr == 0) shm.segsz
        pure target

def mremapAddr (mmapBase newSize : Word) (flags : CInt) (newAddress : Word) : Code Word :=
  if flags &&& MREMAP_FIXED ≠ 0 then
    if !memRefIsSafe mmapBase newAddress newSize then .fail (-EACCES) else pure newAddress
  else placeBelow mmapBase newSize

/-- `umm_mremap`. The counter moves before the guest is told; a guest failure
ends the process. -/
def ummMremap (mmapBase oldAddress oldSize newSize : Word) (flags : CInt) (newAddress : Word) :
    Code Word :=
  if !memRefIsSafe mmapBase oldAddress oldSize then .fail (-EACCES)
  else do
    let target ← mremapAddr mmapBase newSize flags newAddress
    if flags &&& MREMAP_MAYMOVE = 0 then .fail (-EINVAL)
    else
      let r ← Prog.call
        (.mremap oldAddress oldSize newSize (flags ||| MREMAP_FIXED ||| MREMAP_MAYMOVE) target)
      if r.ret ≠ target then .fail (-r.errno)
      else
        adjustMmapLen (flags &&& MREMAP_FIXED == 0) newSize
        let _ ← Prog.call (.vmUnmap oldAddress oldSize)
        let r ← Prog.call (.vmMapPhys target newSize (protToPerm (PROT_READ ||| PROT_WRITE)))
        if r.ret ≠ 0 then .halt else pure target

/-- `umm_alloc_stack`; the value is what it stores through `stack_top`. Sealed, so
that its large constant is never evaluated by accident. -/
@[irreducible] def ummAllocStack (mmapBase : Word) : Code Word := do
  let s ← Prog.state
  let base := ummGetMapPos mmapBase s
  if !ummSpaceLeft s appStackSize then .fail (-ENOMEM)
  else
    let ret ← ummMmapAnom (pgAddr base - appStackSize + pgSize) (appStackSize - pgSize)
      (PROT_READ ||| PROT_WRITE) false
    if ret ≠ 0 then .fail ret
    else
      Prog.modify fun s => {s with mmapLen := s.mmapLen + (appStackSize + pgOff base)}
      pure (pgAddr base)

inductive Op
  | allocStack
  | brk (brk : Word)
  | mmap (addr len : Word) (prot flags fd : CInt) (offset : Word)
  | munmap (addr len : Word)
  | mprotect (addr len prot : Word)
  | shmat (shmid : CInt) (addr : Word) (shmflg : CInt)
  | mremap (oldAddress oldSize newSize : Word) (flags : CInt) (newAddress : Word)
  deriving DecidableEq, Repr

def Op.code (mmapBase : Word) : Op → Code Word
  | .allocStack => ummAllocStack mmapBase
  | .brk newBrk => ummBrk mmapBase newBrk
  | .mmap addr len prot flags fd offset => ummMmap mmapBase addr len prot flags fd offset
  | .munmap addr len => ummMunmap mmapBase addr len
  | .mprotect addr len prot => ummMprotect mmapBase addr len prot
  | .shmat shmid addr shmflg => ummShmat mmapBase shmid addr shmflg
  | .mremap oldAddress oldSize newSize flags newAddress =>
    ummMremap mmapBase oldAddress oldSize newSize flags newAddress

end Umm
end VmplApps

import VmplApps.ByteMemory
import VmplApps.LeafTable
import VmplApps.Spans
import VmplApps.TrapFrame

/-! Protected threads: their records, policies and tags, and the kernel routines
that build, check and recycle a thread's page table. A routine that exits or
aborts the process returns the reason. Replies of the host and of the runtime
library are arguments. -/
namespace VmplApps
namespace Sthreads

open ByteMemory

def STACK_SIZE : Word := 40960
def TAG_SIZE : Word := 40960
def PROT_READ : CInt := 1
def PROT_WRITE : CInt := 2
def PROT_EXEC : CInt := 4
def MAP_FAILED : Word := -1
def PTE_P : Word := 0x1
def PTE_W : Word := 0x2
def PTE_U : Word := 0x4
def PTE_D : Word := 0x40
def CR3_NOFLUSH : Word := 0x8000000000000000

def pteAddr (pte : Word) : Word := pte &&& 0x000ffffffffff000

inductive Status
  | running | zombie | dead
  deriving DecidableEq, Repr

inductive Fault
  | mmap | kmalloc | idOverflow | noTag | memFull | memAssert | fdFull | fdAssert | sysRange
  | canDoSys | pathFault | walkAssert | nullCurrent | scheduleAbort | checkpointOverrun | notEnabled
  deriving DecidableEq, Repr

structure Segment where
  sStart : Word
  sEnd : Word
  sLen : Word
  sFlags : CInt
  deriving DecidableEq, Repr

def Segment.writable (seg : Segment) : Bool := seg.sFlags &&& PROT_WRITE != 0

structure Tag where
  tId : CInt
  tBuf : Word
  tP : Word
  tLen : CInt
  deriving DecidableEq, Repr

/-- `sc_t`: granted tags, descriptors and system calls. -/
structure Sc where
  scMem : Vector Word 8
  scFd : Vector Word 8
  scSys : Vector Byte 16
  deriving DecidableEq, Repr

/-- `struct sthread`. `stPgroot` is the address of the page table, `table` its
contents. -/
structure Sthread where
  stId : CInt
  stState : Status
  stRet : Word
  stStack : Word
  stPgroot : Word
  table : LeafTable Word
  stTf : TrapFrame
  stSc : Sc
  stWritable : Word
  stWalk : Word

/-- What the runtime library and the linker provide: the address of the master's page
table, the bounds of a full walk, the maps between addresses and frames, and where
code and data are. -/
structure Runtime where
  pgrootAddr : Word
  vaStart : Word
  vaEnd : Word
  vaToPa : Word → Word
  /-- Compiled with `CONFIG_DUNE_BOOT`. -/
  duneBoot : Bool
  mmapBase : Word
  /-- The address of `sthread_trampoline`. -/
  trampoline : Word
  /-- What the kernel reads from writable segments: `_kstate`, `_segments` and the list
  behind it, `_checkpointed_mem`, `pgroot` and the runtime library's own variables. -/
  kernelVars : List Span

/-- What initialisation fixes: the recorded segments, the checkpoint and the tag of
the kernel's own allocations. -/
structure Boot extends Runtime where
  segments : List Segment
  checkpointedMem : Word
  checkpointedSize : CInt
  kernelTag : CInt

/-- Global state; `sthreads` is the list `ks_sthreads` with the newest first, and
a thread is named by its `st_id`. `entry` is the frame that the last jump to user mode
loaded. -/
structure Kernel where
  sthreads : List Sthread
  ksCurrent : Option CInt
  sthreadId : CInt
  tags : List Tag
  tagId : CInt
  cr3 : Word
  entry : TrapFrame
  pgroot : LeafTable Word
  mem : Mem

namespace Kernel

def find (k : Kernel) (id : CInt) : Option Sthread := k.sthreads.find? fun s => s.stId == id

def update (k : Kernel) (s : Sthread) : Kernel :=
  {k with sthreads := k.sthreads.map fun t => if t.stId = s.stId then s else t}

end Kernel

/-- Anonymous memory from the host is zero-filled. -/
def mmapAnon (m : Mem) (addr : Word) (len : ℕ) : Except Fault Mem :=
  if addr = MAP_FAILED then .error .mmap else .ok (fill m addr.toNat len 0)

def tagNew (k : Kernel) (addr : Word) : Except Fault (CInt × Kernel) := do
  let m ← mmapAnon k.mem addr TAG_SIZE.toNat
  let t : Tag := {tId := k.tagId,tBuf := addr,tP := addr,tLen := TAG_SIZE.setWidth 32}
  .ok (t.tId,{k with tags := t::k.tags,tagId := k.tagId + 1,mem := m})

def findTag (tags : List Tag) (tid : CInt) : Option Tag := tags.find? fun t => t.tId == tid

/-- The bytes used so far plus the request, as the wrapping sum the code forms. -/
def Tag.exhausted (t : Tag) (sz : Word) : Bool := t.tP - t.tBuf + sz > t.tLen.signExtend 64

/-- Move the allocation pointer of the first tag with that id. -/
def bumpTag (tid : CInt) (sz : Word) : List Tag → List Tag
  | [] => []
  | t::rest => if t.tId = tid then {t with tP := t.tP + sz}::rest else t::bumpTag tid sz rest

/-- `smalloc`; zero is `NULL`. -/
def smalloc (k : Kernel) (tid : CInt) (sz : Word) : Word × Kernel :=
  match findTag k.tags tid with
  | none => (0,k)
  | some t =>
    if t.exhausted sz then (0,k)
    else (t.tP,{k with tags := bumpTag tid sz k.tags})

def kmalloc (boot : Boot) (k : Kernel) (sz : CInt) : Except Fault Kernel :=
  let (x,k) := smalloc k boot.kernelTag (sz.signExtend 64)
  if x = 0 then .error .kmalloc else .ok k

def scInit : Sc := ⟨Vector.replicate 8 0,Vector.replicate 8 0,Vector.replicate 16 0⟩

/-- Store into the first word that is zero. A scan that finds none runs into the
next field and ends the process. -/
def setFirstZero {n : ℕ} (v : Vector Word n) (w : Word) (full : Fault) :
    Except Fault (Vector Word n) :=
  match v.toList.findIdx? (· == 0) with
  | none => .error full
  | some i => .ok (v.setIfInBounds i w)

def scMemAdd (tags : List Tag) (sc : Sc) (tid prot : CInt) : Except Fault Sc :=
  match findTag tags tid with
  | none => .error .noTag
  | some t => do
    let addr := t.tBuf &&& 0xfffffffffffffff0
    let mem ← setFirstZero sc.scMem (addr ||| prot.signExtend 64) .memFull
    if addr = t.tBuf ∧ prot &&& 0xf = prot then .ok {sc with scMem := mem} else .error .memAssert

def scFdAdd (sc : Sc) (fd prot : CInt) : Except Fault Sc := do
  let f : Word := ((fd <<< 8) ||| prot).signExtend 64
  let fds ← setFirstZero sc.scFd f .fdFull
  if f >>> 8 = fd.signExtend 64 ∧ f &&& 0xf = prot.signExtend 64 then .ok {sc with scFd := fds}
  else .error .fdAssert

/-- `1 << (sysno % 8)`. The count is negative for the numbers from −7 to −1, which leaves
the shift undefined; compiled, it is one by the three low bits. -/
def sysBit (sysno : CInt) : CInt := 1 <<< (sysno.toNat % 8)

/-- `sc_sys_add`; the byte one past the end is no part of the policy. -/
def scSysAdd (sc : Sc) (sysno : CInt) : Except Fault Sc :=
  let pos := sysno.toInt.tdiv 8
  if pos < 0 ∨ pos > 16 then .error .sysRange
  else
    let old := sc.scSys.toList.getD pos.toNat 0
    .ok {sc with scSys := sc.scSys.setIfInBounds pos.toNat (old ||| (sysBit sysno).setWidth 8)}

/-- Entry tests of the guest page-table walk: the leaf is present and its page is
between the pages of the two addresses, both included. -/
def inWalk (start stop : Word) (p : ℕ) (pte : Word) : Bool :=
  start.toNat / 4096 ≤ p && p ≤ stop.toNat / 4096 && pte &&& PTE_P != 0

def pageWalk {σ : Type} (t : LeafTable Word) (start stop : Word)
    (cb : σ → ℕ → Word → ℤ × Word × σ) (s : σ) : ℤ × LeafTable Word × σ :=
  t.walk (inWalk start stop) cb s

def pageVa (p : ℕ) : Word := BitVec.ofNat 64 (p*4096)

/-- The state of `walk_recycle` is the offset reached and the memory. -/
def walkRecycle (boot : Boot) (s : Sthread) : Word × Mem → ℕ → Word → ℤ × Word × (Word × Mem)
  | (w,m), _, pte =>
    if pte &&& PTE_D = 0 then (0,pte,w + 4096,m)
    else (0,pte &&& ~~~PTE_D,w + 4096,
      copy m (s.stWritable + w).toNat (boot.checkpointedMem + w).toNat 4096)

def walkRecycleStack (s : Sthread) : Word × Mem → ℕ → Word → ℤ × Word × (Word × Mem)
  | (w,m), _, pte =>
    if pte &&& PTE_D = 0 then (0,pte,w + 4096,m)
    else (0,pte,w + 4096,fill m (s.stStack + w).toNat 4096 0)

def walkWritable {σ : Type} (boot : Boot) (cb : σ → ℕ → Word → ℤ × Word × σ) (t : LeafTable Word)
    (s : σ) : LeafTable Word × σ :=
  (boot.segments.filter Segment.writable).foldl
    (fun x seg => (pageWalk x.1 seg.sStart (seg.sEnd - 4096) cb x.2).2) (t,s)

def recycle (boot : Boot) (s : Sthread) (m : Mem) : Sthread × Mem :=
  let (t,_,m) := walkWritable boot (walkRecycle boot s) s.table (0,m)
  let (_,t,w,m) := pageWalk t s.stStack (s.stStack + STACK_SIZE - 4096) (walkRecycleStack s) (0,m)
  ({s with table := t,stWalk := w},m)

def fdPermLoop (fd perm : CInt) : List Word → Bool
  | [] => false
  | w::ws =>
    let f : CInt := w.setWidth 32
    if f = 0 then false
    else if f.sshiftRight 8 = fd then (f &&& 0xf) &&& perm != 0
    else fdPermLoop fd perm ws

def hasFdPerm (s : Sthread) (fd perm : CInt) : Bool := fdPermLoop fd perm s.stSc.scFd.toList

def SYS_read : CInt := 0
def SYS_write : CInt := 1
def SYS_open : CInt := 2
def SYS_close : CInt := 3

/-- `can_do_sys`. Position 16 is let through by the test and reads the byte after
the policy, the lowest one of `st_writable`. -/
def canDoSys (s : Sthread) (sysno : CInt) : Except Fault Bool :=
  if sysno = 666 ∨ sysno = SYS_read ∨ sysno = SYS_write then .ok true
  else
    let pos := sysno.toInt.tdiv 8
    if pos < 0 ∨ pos > 16 then .error .canDoSys
    else
      let b := s.stSc.scSys.toList.getD pos.toNat (s.stWritable.setWidth 8)
      .ok (b.setWidth 32 &&& sysBit sysno != 0)

def hostAddr (boot : Boot) (addr : Word) : Word :=
  if boot.duneBoot ∧ addr ≥ 0x400000000 then addr + boot.mmapBase - 0x400000000 else addr

def hostOf (boot : Boot) (pte : Word) : Word := hostAddr boot (pteAddr pte)

/-- `walk_check_perm`; the state is `st_walk`. -/
def walkCheckPerm (boot : Boot) (w : Word) (_ : ℕ) (pte : Word) : ℤ × Word × Word :=
  if pte &&& PTE_U = 0 then (1,pte,w)
  else if pte &&& PTE_P = 0 then (1,pte,w)
  else if pte &&& PTE_W = 0 then (1,pte,w)
  else if w = 0 then (0,pte,hostAddr boot (pteAddr pte))
  else (0,pte,w)

def hasMemPerm (boot : Boot) (s : Sthread) (ptr len : Word) : Bool × Sthread :=
  let (rc,t,w) := pageWalk s.table ptr (ptr + len) (walkCheckPerm boot) 0
  (rc == 0,{s with table := t,stWalk := w})

/-- `walk_remap`; the state is `st_walk`. -/
def walkRemap (boot : Boot) (s : Sthread) (w : Word) (_ : ℕ) (_ : Word) : ℤ × Word × Word :=
  (0,boot.vaToPa (s.stWritable + w) ||| PTE_P ||| PTE_W ||| PTE_U,w + 4096)

/-- The tag loop of `walk_protect`, which stops at the first zero and at the first
tag that contains the address. -/
def protectTags (addr pte : Word) : List Word → Word
  | [] => pte
  | tag::rest =>
    let a := tag &&& 0xfffffffffffffff0
    if tag = 0 then pte
    else if addr ≥ a ∧ addr < a + TAG_SIZE then
      if tag &&& PROT_WRITE.setWidth 64 = 0 then (pte ||| PTE_U) &&& ~~~PTE_W else pte ||| PTE_U
    else protectTags addr pte rest

/-- The new entry computed by `walk_protect`. -/
def protectEntry (boot : Boot) (s : Sthread) (p : ℕ) (pte : Word) : Word :=
  let addr := pageVa p
  let pte := pte &&& ~~~PTE_U
  match boot.segments.find? fun seg => addr ≥ seg.sStart && addr < seg.sEnd with
  | some seg => if seg.writable then pte else pte ||| PTE_U
  | none =>
    let pte := if addr ≥ s.stStack ∧ addr < s.stStack + STACK_SIZE then pte ||| PTE_U else pte
    protectTags addr pte s.stSc.scMem.toList

def walkProtect (boot : Boot) (s : Sthread) (_ : Unit) (p : ℕ) (pte : Word) : ℤ × Word × Unit :=
  (0,protectEntry boot s p pte,())

/-- Where the host put a new thread's stack and writable copy, and where the
runtime library put the clone of the page table. -/
structure CreateReply where
  stack : Word
  writable : Word
  pgroot : Word
  deriving DecidableEq, Repr

def sizeofSthread : CInt := 368
def sizeofKstate : CInt := 376

/-- The record of a fresh thread, its page table built by denying everything that
the policy does not list and mapping the writable copy. -/
def newSthread (boot : Boot) (k : Kernel) (sc : Sc) (r : CreateReply) (id : CInt) : Sthread :=
  let s : Sthread := {
    stId := id,stState := .running,stRet := 0,stStack := r.stack,stPgroot := r.pgroot
    table := k.pgroot,stTf := {},stSc := sc,stWritable := r.writable,stWalk := 0}
  let (_,t,_) := pageWalk s.table boot.vaStart boot.vaEnd (walkProtect boot s) ()
  let (t,w) := walkWritable boot (walkRemap boot s) t 0
  {s with table := t,stWalk := w}

def createNewSthread (boot : Boot) (k : Kernel) (sc : Sc) (r : CreateReply) :
    Except Fault (Sthread × Kernel) := do
  let k ← kmalloc boot k sizeofSthread
  let id := k.sthreadId + 1
  if id.toInt < 0 then .error .idOverflow
  else
    let size := (boot.checkpointedSize.signExtend 64).toNat
    let m ← mmapAnon k.mem r.stack STACK_SIZE.toNat
    let m ← mmapAnon m r.writable size
    let m := copy m r.writable.toNat boot.checkpointedMem.toNat size
    let s := newSthread boot k sc r id
    .ok (s,{k with sthreads := s::k.sthreads,sthreadId := id,mem := m})

def Sthread.cr3 (s : Sthread) : Word := s.stPgroot ||| CR3_NOFLUSH ||| s.stId.signExtend 64

def Boot.masterCr3 (boot : Boot) : Word := boot.pgrootAddr ||| CR3_NOFLUSH

/-- `launch_sthread` up to the jump, which loads the frame `tf`. -/
def launchSthread (boot : Boot) (k : Kernel) (s : Sthread) (cb arg : Word) : Kernel :=
  let tf : TrapFrame := {
    rip := boot.trampoline,rsp := s.stStack + STACK_SIZE - 8,rflags := 2,rdi := cb,rsi := arg}
  let k := k.update {s with stState := .running}
  {k with ksCurrent := some s.stId,cr3 := s.cr3,entry := tf}

/-- The first dead thread with the same tags. -/
def recyclable (k : Kernel) (sc : Sc) : Option Sthread :=
  k.sthreads.find? fun s => s.stState == .dead && s.stSc.scMem == sc.scMem

/-- `sthread_create` up to the jump; the search for a thread to recycle comes first. -/
def sthreadCreate (boot : Boot) (k : Kernel) (sc : Sc) (cb arg : Word) (r : CreateReply) :
    Except Fault (CInt × Kernel) :=
  match recyclable k sc with
  | some s => .ok (s.stId,launchSthread boot k {s with stSc := sc} cb arg)
  | none => do
    let (s,k) ← createNewSthread boot k sc r
    .ok (s.stId,launchSthread boot k s cb arg)

end Sthreads
end VmplApps

import VmplApps.HostPrograms
import VmplApps.Sthread

/-! The control flow of the protected-thread kernel as a machine. Jumps to user
mode nest: each one is a frame that remembers who waits for its return. User
code may store wherever its page table allows, except into the kernel's data; every
reply of the host is part of a step's label.

The kernel's own data are a record here and not bytes in memory. In the program they lie
where stores can reach them: each thread has a copy of the writable segments that user
code may write, the handler runs on the thread's table and so reads `_kstate`, the
segments and the checkpoint's address from that copy, and a policy may list the kernel's
tag, which holds all records. A step of the machine stands for one of the program as long
as no store falls on such a byte; `sparesKernel` says which steps those are. -/
namespace VmplApps
namespace Sthreads

open ByteMemory

/-- Who waits for a jump to user mode to return: `sthread_create`, `sthread_join`,
or the system-call handler of a thread that was switched away from. -/
inductive Caller
  | create
  | join (st : CInt)
  | trap (s : CInt)
  deriving DecidableEq, Repr

structure Frame where
  target : CInt
  caller : Caller
  deriving DecidableEq, Repr

inductive Mode
  | master
  | joining (st : CInt)
  | user (s : CInt)
  deriving DecidableEq, Repr

structure Machine where
  kernel : Kernel
  mode : Mode
  frames : List Frame
  /-- The master's `sc_t` variables. -/
  policies : ℕ → Sc

/-- The value a host call returns and the bytes it stores into the process. -/
structure HostReply where
  ret : Word := 0
  stores : List (ℕ × Byte) := []
  deriving DecidableEq, Repr

def Caller.resume : Caller → Mode
  | .create => .master
  | .join st => .joining st
  | .trap s => .user s

/-- `dune_ret_from_user` and what follows the innermost jump: the master's page
table is loaded and nobody is current. -/
def unwind (boot : Boot) (m : Machine) : Except Fault Machine :=
  match m.frames with
  | [] => .error .notEnabled
  | f::fs => .ok {m with
      kernel := {m.kernel with ksCurrent := none,cr3 := boot.masterCr3}
      mode := f.caller.resume
      frames := fs}

/-- `dune_passthrough_syscall`. -/
def passthrough (tf : TrapFrame) (m : Mem) (r : HostReply) : TrapFrame × Mem :=
  ({tf with rax := r.ret},storeBytes m r.stores)

/-- The first runnable thread that is not the current one. -/
def nextRunnable (k : Kernel) : Option Sthread :=
  k.sthreads.find? fun s => some s.stId != k.ksCurrent && s.stState == .running

/-- `schedule`; the handler of a trap passes a frame, `sthread_join` does not. -/
def schedule (boot : Boot) (m : Machine) (caller : Caller) (r : HostReply) :
    Except Fault Machine :=
  match nextRunnable m.kernel with
  | some s =>
    let (tf,mem) := passthrough s.stTf m.kernel.mem r
    let k := m.kernel.update {s with stTf := tf}
    .ok {m with
      kernel := {k with ksCurrent := some s.stId,cr3 := s.cr3,entry := tf,mem := mem}
      mode := .user s.stId
      frames := ⟨s.stId,caller⟩::m.frames}
  | none =>
    match caller with
    | .trap _ => unwind boot m
    | _ => .error .scheduleAbort

/-- Descriptor and permission that a call needs, when it needs one. -/
def fdArg (num : CInt) (tf : TrapFrame) : Option (CInt × CInt) :=
  if num = SYS_read then some (tf.arg0.setWidth 32,PROT_READ)
  else if num = SYS_write ∨ num = SYS_close then some (tf.arg0.setWidth 32,PROT_WRITE)
  else none

/-- Where the byte at an address lies for the kernel, which may read every page of the
table that is present. -/
def translate (boot : Boot) (t : LeafTable Word) (va : ℕ) : Option ℕ :=
  match t.get? (va / 4096) with
  | none => none
  | some pte =>
    if pte &&& PTE_P = 0 then none else some ((hostAddr boot (pteAddr pte)).toNat + va % 4096)

/-- The table that CR3 names while `s` is current. -/
def loadedTable (k : Kernel) (s : Sthread) : LeafTable Word :=
  if k.cr3 = s.cr3 then s.table else k.pgroot

/-- `strlen` with `n` bytes counted so far; it faults on a page that is not present. -/
def strlenLoop (boot : Boot) (t : LeafTable Word) (m : Mem) : ℕ → Word → Word → Option Word
  | 0, _, _ => none
  | fuel+1, ptr, n =>
    match translate boot t ptr.toNat with
    | none => none
    | some a => if m a = 0 then some n else strlenLoop boot t m fuel (ptr + 1) (n + 1)

def pathLength (boot : Boot) (k : Kernel) (s : Sthread) (ptr : Word) : Option Word :=
  strlenLoop boot (loadedTable k s) k.mem (2^64) ptr 0

/-- Pointer and length that the memory check looks at; no length means that `strlen` of
the raw pointer faults. -/
def memArg (boot : Boot) (k : Kernel) (s : Sthread) (num : CInt) (tf : TrapFrame) :
    Option (Word × Option Word) :=
  if num = SYS_open then some (tf.rdi,pathLength boot k s tf.rdi)
  else if num = SYS_write ∨ num = SYS_read then some (tf.rsi,some tf.arg2)
  else none

def setMemArg (num : CInt) (tf : TrapFrame) (v : Word) : TrapFrame :=
  if num = SYS_open then {tf with rdi := v} else {tf with rsi := v}

/-- The memory check with the rewriting of the pointer. -/
def checkMem (boot : Boot) (k : Kernel) (s : Sthread) (num : CInt) (tf : TrapFrame) :
    Except Fault (Sthread × Option TrapFrame) :=
  match memArg boot k s num tf with
  | none => .ok (s,some tf)
  | some (_,none) => .error .pathFault
  | some (ptr,some len) =>
    if s.stWalk = 0 then .error .walkAssert
    else
      let r := hasMemPerm boot s ptr len
      if r.1 then .ok (r.2,some (setMemArg num tf (r.2.stWalk + (ptr &&& 0xfff))))
      else .ok (r.2,none)

/-- The checks of `syscall_handler`; no frame means the call is blocked. -/
def syscallCheck (boot : Boot) (k : Kernel) (s : Sthread) (tf : TrapFrame) :
    Except Fault (Sthread × Option TrapFrame) := do
  let num : CInt := tf.rax.setWidth 32
  let ok ← canDoSys s num
  if !ok then .ok (s,none)
  else
    match fdArg num tf with
    | some (fd,perm) => if hasFdPerm s fd perm then checkMem boot k s num tf else .ok (s,none)
    | none => checkMem boot k s num tf

/-- The rest of `syscall_handler`, once a call has passed its checks. -/
def syscallServe (boot : Boot) (m : Machine) (u : CInt) (s : Sthread) (tf : TrapFrame)
    (r : HostReply) : Except Fault Machine :=
  let num : CInt := tf.rax.setWidth 32
  if num = 666 then
    let (s,mem) := recycle boot {s with stRet := tf.arg0} m.kernel.mem
    let k := m.kernel.update {s with stState := .zombie}
    unwind boot {m with kernel := {k with mem := mem}}
  else if num = SYS_read then
    schedule boot {m with kernel := m.kernel.update {s with stTf := tf}} (.trap u) r
  else if num = SYS_open then
    let rc : CInt := r.ret.setWidth 32
    if rc.toInt ≥ 0 then do
      let sc ← scFdAdd s.stSc rc (PROT_READ ||| PROT_WRITE)
      .ok {m with kernel := m.kernel.update {s with stSc := sc}}
    else .ok {m with kernel := m.kernel.update s}
  else
    let k := m.kernel.update s
    .ok {m with kernel := {k with mem := (passthrough tf k.mem r).2}}

/-- What ends the process when nobody is current. `can_do_sys` tests the range of a
number before it reads the record; every other path reads or writes the record. -/
def nullFault (num : CInt) : Fault :=
  let pos := num.toInt.tdiv 8
  if num = 666 ∨ num = SYS_read ∨ num = SYS_write then .nullCurrent
  else if pos < 0 ∨ pos > 16 then .canDoSys
  else .nullCurrent

/-- `syscall_handler` for a trap out of thread `u`. -/
def syscallHandler (boot : Boot) (m : Machine) (u : CInt) (tf : TrapFrame) (r : HostReply) :
    Except Fault Machine :=
  match m.kernel.ksCurrent.bind m.kernel.find with
  | none => .error (nullFault (tf.rax.setWidth 32))
  | some s => do
    let (s,passed) ← syscallCheck boot m.kernel s tf
    match passed with
    | none => .ok {m with kernel := m.kernel.update s}
    | some tf => syscallServe boot m u s tf r

/-- A store by user code through a page table, which marks the page dirty. -/
def storeVia (boot : Boot) (t : LeafTable Word) (va : Word) (b : Byte) (m : Mem) :
    Option (LeafTable Word × Mem) :=
  match t.get? (va.toNat / 4096) with
  | none => none
  | some pte =>
    if pte &&& PTE_P ≠ 0 ∧ pte &&& PTE_U ≠ 0 ∧ pte &&& PTE_W ≠ 0 then
      some (t.modify (va.toNat / 4096) (· ||| PTE_D),
        Function.update m ((hostAddr boot (pteAddr pte)).toNat + va.toNat % 4096) b)
    else none

/-- A store by thread `u` through whatever table CR3 names. -/
def userStore (boot : Boot) (k : Kernel) (u : CInt) (va : Word) (b : Byte) :
    Except Fault Kernel :=
  match k.find u with
  | none => .error .notEnabled
  | some s =>
    if k.cr3 = s.cr3 then
      match storeVia boot s.table va b k.mem with
      | none => .error .notEnabled
      | some (t,mem) => .ok {k.update {s with table := t} with mem := mem}
    else
      match storeVia boot k.pgroot va b k.mem with
      | none => .error .notEnabled
      | some (t,mem) => .ok {k with pgroot := t,mem := mem}

inductive Label
  | tagNew (addr : Word)
  | smalloc (tid : CInt) (sz : Word)
  | scInit (i : ℕ)
  | scMemAdd (i : ℕ) (tid prot : CInt)
  | scFdAdd (i : ℕ) (fd prot : CInt)
  | scSysAdd (i : ℕ) (sysno : CInt)
  | create (i : ℕ) (cb arg : Word) (r : CreateReply)
  | join (st : CInt)
  | poll (r : HostReply)
  | user
  | store (va : Word) (b : Byte)
  | syscall (tf : TrapFrame) (r : HostReply)
  | remap (pgroot : LeafTable Word)

/-- One round of the loop in `sthread_join`. -/
def joinRound (boot : Boot) (m : Machine) (st : CInt) (r : HostReply) : Except Fault Machine :=
  match m.kernel.find st with
  | none => .error .notEnabled
  | some s =>
    if s.stState = .zombie then
      .ok {m with kernel := m.kernel.update {s with stState := .dead},mode := .master}
    else schedule boot m (.join st) r

def setPolicy (m : Machine) (i : ℕ) (sc : Sc) : Machine :=
  {m with policies := Function.update m.policies i sc}

def masterStep (boot : Boot) (m : Machine) : Label → Except Fault Machine
  | .tagNew addr => do
    let r ← tagNew m.kernel addr
    .ok {m with kernel := r.2}
  | .smalloc tid sz => .ok {m with kernel := (smalloc m.kernel tid sz).2}
  | .scInit i => .ok (setPolicy m i scInit)
  | .scMemAdd i tid prot => do
    let sc ← scMemAdd m.kernel.tags (m.policies i) tid prot
    .ok (setPolicy m i sc)
  | .scFdAdd i fd prot => do
    let sc ← scFdAdd (m.policies i) fd prot
    .ok (setPolicy m i sc)
  | .scSysAdd i sysno => do
    let sc ← scSysAdd (m.policies i) sysno
    .ok (setPolicy m i sc)
  | .create i cb arg r => do
    let x ← sthreadCreate boot m.kernel (m.policies i) cb arg r
    .ok {m with kernel := x.2,mode := .user x.1,frames := ⟨x.1,.create⟩::m.frames}
  | .join st =>
    match m.kernel.find st with
    | none => .ok m
    | some _ => .ok {m with mode := .joining st}
  | _ => .error .notEnabled

def userStep (boot : Boot) (m : Machine) (u : CInt) : Label → Except Fault Machine
  | .user => .ok m
  | .store va b => do
    let k ← userStore boot m.kernel u va b
    .ok {m with kernel := k}
  | .syscall tf r => syscallHandler boot m u tf r
  | _ => .error .notEnabled

/-- One step. The master calls the library, a thread computes, stores or traps, and
the runtime library changes the master's page table. -/
def step (boot : Boot) (m : Machine) : Label → Except Fault Machine
  | .remap pgroot => .ok {m with kernel := {m.kernel with pgroot := pgroot}}
  | l =>
    match m.mode with
    | .master => masterStep boot m l
    | .joining st =>
      match l with
      | .poll r => joinRound boot m st r
      | _ => .error .notEnabled
    | .user u => userStep boot m u l

/-- The byte is where a table maps one of the kernel's variables. -/
def kernelVar (boot : Boot) (t : LeafTable Word) (a : ℕ) : Bool :=
  boot.kernelVars.any fun x => (List.range x.len).any fun i =>
    translate boot t (x.start + i) == some a

/-- The byte is one of the kernel's variables for the master or for a thread, lies in the
kernel's tag, or belongs to the checkpoint. -/
def kernelByte (boot : Boot) (k : Kernel) (a : ℕ) : Bool :=
  kernelVar boot k.pgroot a || (k.sthreads.any fun s => kernelVar boot s.table a) ||
  (findTag k.tags boot.kernelTag).any (fun t => t.tBuf.toNat ≤ a && a < t.tBuf.toNat + TAG_SIZE.toNat) ||
  (boot.checkpointedMem.toNat ≤ a &&
    a < boot.checkpointedMem.toNat + (boot.checkpointedSize.signExtend 64).toNat)

/-- Neither a store of user code nor a byte that the host stores for a system call falls
on the kernel's data. -/
def sparesKernel (boot : Boot) (m : Machine) : Label → Bool
  | .store va _ =>
    match m.mode with
    | .user u => (m.kernel.find u).all fun s =>
        (translate boot (loadedTable m.kernel s) va.toNat).all fun a => !kernelByte boot m.kernel a
    | _ => true
  | .poll r | .syscall _ r => r.stores.all fun x => !kernelByte boot m.kernel x.1
  | _ => true

structure InitReply where
  checkpoint : Word
  kernelTag : Word
  deriving DecidableEq, Repr

/-- The sum of the writable lengths as the `int` that `checkpoint_prepare` keeps. -/
def checkpointSize (segments : List Segment) : CInt :=
  (segments.filter Segment.writable).foldl (fun n seg => n + seg.sLen.setWidth 32) 0

/-- The exact number of bytes that `checkpoint_do` copies. -/
def checkpointTotal (segments : List Segment) : ℕ :=
  ((segments.filter Segment.writable).map fun seg => seg.sLen.toNat).sum

def checkpointDo (segments : List Segment) (c : ℕ) (m : Mem) : Mem :=
  ((segments.filter Segment.writable).foldl (fun (x : ℕ × Mem) seg =>
    (x.1 + seg.sLen.toNat,copy x.2 x.1 seg.sStart.toNat seg.sLen.toNat)) (c,m)).2

/-- `sthread_init` after the memory map has been read. Copying more than was mapped
ends the process. -/
def sthreadInit (rt : Runtime) (segments : List Segment) (pgroot : LeafTable Word) (mem : Mem)
    (r : InitReply) : Except Fault (Boot × Machine) := do
  let size := checkpointSize segments
  let mem ← mmapAnon mem r.checkpoint (size.signExtend 64).toNat
  let boot : Boot := {
    rt with segments := segments,checkpointedMem := r.checkpoint,checkpointedSize := size
            kernelTag := 0}
  let k : Kernel := {
    sthreads := [],ksCurrent := none,sthreadId := 0,tags := [],tagId := 0,cr3 := rt.pgrootAddr
    entry := {},pgroot := pgroot,mem := mem}
  let (_,k) ← tagNew k r.kernelTag
  let k ← kmalloc boot k sizeofKstate
  if checkpointTotal segments > (size.signExtend 64).toNat then .error .checkpointOverrun
  else
    let mem := checkpointDo segments r.checkpoint.toNat k.mem
    .ok (boot,{kernel := {k with mem := mem},mode := .master,frames := [],policies := fun _ => scInit})

end Sthreads
end VmplApps

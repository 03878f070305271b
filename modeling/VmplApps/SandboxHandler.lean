import VmplApps.ExecFlow
import VmplApps.ProgramEmbedding
import VmplApps.UmmSerial

/-! The system-call handler of the sandbox with all it calls: the parameter check, the
monitor, and the switch that emulates a call, refuses it or passes it on. Memory calls
are the programs of the memory manager, run inside the handler. Threads of the
application may change its memory at any time, so a trap carries what the handler finds
there at each of the moments it looks. -/
namespace VmplApps
namespace Sandbox

open ByteMemory SyscallParams Shared
open ExecArguments (Text)
open SandboxAccesses (getlen argvLimit)

/-- The host and the runtime library as the handler uses them. Creating a thread is one
call here; its handshake is the subject of `CloneHandshake`. -/
inductive HostCall
  | memory (c : Umm.HostCall)
  | exec (c : ExecFlow.HostCall)
  | getUserFs
  | setUserFs (fs : Word)
  | store (addr value : Word)
  | pthreadCreate (tf : TrapFrame)
  | clone (flags stack ptid ctid tls : Word)
  | enter
  | retFromUser (ret : Word)
  | passthrough (tf : TrapFrame)
  deriving DecidableEq, Repr

structure Reply extends Umm.Reply where
  page : ℕ → Byte := fun _ => 0

abbrev Code := Prog Umm.Counters Empty HostCall Reply

/-- A trapped system call: the frame, and the application's memory when the parameters
are checked, when the monitor looks and when the call is carried out. `junk` is what
freshly allocated memory holds. -/
structure Trap where
  frame : TrapFrame
  checked : Mem := fun _ => 0
  watched : Mem := fun _ => 0
  used : Mem := fun _ => 0
  junk : ℕ → Option Text := fun _ => none

abbrev Monitor := Mem → TrapFrame → ℤ × TrapFrame

/-- `syscall_monitor` of `nullsandbox.c`, without its message about opened files. -/
def nullMonitor : Monitor := fun _ tf => (1,tf)

def syscallAllow (monitor : Option Monitor) (m : Mem) (tf : TrapFrame) : ℤ × TrapFrame :=
  match monitor with
  | none => (0,{tf with rax := -EPERM})
  | some cb => cb m tf

def ARCH_SET_FS : Word := 0x1002

/-- The value a function of the memory manager returns, an error included. -/
def returned : Except Word Word → Word
  | .ok v => v
  | .error e => e

/-- What the application gets in `rax` from a function of the memory manager. -/
def umm (tf : TrapFrame) (code : Umm.Code Word) : Code TrapFrame :=
  code.framed .memory Reply.toReply fun r => {tf with rax := returned r}

def duneClone (tf : TrapFrame) : Code Word :=
  if tf.arg1 ≠ 0 then do
    let r ← Prog.call (.pthreadCreate tf)
    pure r.ret
  else do
    let fs ← Prog.call .getUserFs
    let r ← Prog.call (.clone tf.arg0 tf.arg1 tf.arg2 tf.arg3 tf.arg4)
    let rc : CInt := r.ret.setWidth 32
    if rc.toInt < 0 then pure (-r.errno)
    else if rc = 0 then
      let _ ← Prog.call .enter
      let _ ← Prog.call (.setUserFs fs.ret)
      pure 0
    else pure (rc.signExtend 64)

def appText (m : Mem) (a : Word) : Text := ExecFlow.textFrom m a.toNat ExecFlow.maxArgStrlen

def appArgv (m : Mem) (argv : Word) : List Text :=
  (List.range (getlen m argv argvLimit)).map fun i => appText m (load64 m (argv + size (8*i)))

def execReply (r : Reply) : ExecFlow.Reply where
  ret := r.ret.setWidth 32
  errno := r.errno.setWidth 32
  page := r.page

def execve (trap : Trap) (tf : TrapFrame) : Code TrapFrame :=
  (ExecFlow.execExecev (appText trap.used tf.arg0) (appArgv trap.used tf.arg1) tf.arg2
    trap.junk).framed .exec execReply fun r =>
      match r with
      | .ok v => {tf with rax := v.signExtend 64}
      | .error e => e.elim

def archPrctl (tf : TrapFrame) : Code TrapFrame :=
  if tf.arg0 = ARCH_GET_FS then do
    let fs ← Prog.call .getUserFs
    let _ ← Prog.call (.store tf.arg1 fs.ret)
    pure {tf with rax := 0}
  else if tf.arg0 = ARCH_SET_FS then do
    let _ ← Prog.call (.setUserFs tf.arg1)
    pure {tf with rax := 0}
  else pure {tf with rax := -EINVAL}

/-- The arguments of a memory call, cast as the switch casts them. -/
def memoryOp (tf : TrapFrame) : Option Umm.Op :=
  match Syscall.ofRax tf.rax with
  | .brk => some (.brk tf.arg0)
  | .mmap => some (.mmap tf.arg0 tf.arg1 (tf.arg2.setWidth 32) (tf.arg3.setWidth 32)
      (tf.arg4.setWidth 32) tf.arg5)
  | .mprotect => some (.mprotect tf.arg0 tf.arg1 tf.arg2)
  | .munmap => some (.munmap tf.arg0 tf.arg1)
  | .mremap => some (.mremap tf.arg0 tf.arg1 tf.arg2 (tf.arg3.setWidth 32) tf.arg4)
  | .shmat => some (.shmat (tf.arg0.setWidth 32) tf.arg1 (tf.arg2.setWidth 32))
  | _ => none

/-- The switch of `syscall_do_foreal`. -/
def syscallDoForeal (mmapBase : Word) (trap : Trap) (tf : TrapFrame) : Code TrapFrame :=
  match memoryOp tf with
  | some op => umm tf (op.code mmapBase)
  | none =>
    match Syscall.ofRax tf.rax with
    | .archPrctl => archPrctl tf
    | .clone => do
      let ret ← duneClone tf
      pure {tf with rax := ret}
    | .execve => execve trap tf
    | .rtSigaction | .rtSigprocmask => pure {tf with rax := 0}
    | .sigaltstack | .signalfd | .signalfd4 | .rtSigpending | .rtSigreturn | .rtSigsuspend
    | .rtSigqueueinfo | .rtSigtimedwait => pure {tf with rax := -ENOSYS}
    | .exitGroup | .exit => do
      let _ ← Prog.call (.retFromUser tf.arg0)
      .halt
    | _ => do
      let r ← Prog.call (.passthrough tf)
      pure {tf with rax := r.ret}

/-- `syscall_handler`: the frame it leaves for the application. -/
def syscallHandler (monitor : Option Monitor) (mmapBase : Word) (trap : Trap) : Code TrapFrame :=
  match syscallCheckParams mmapBase trap.checked trap.frame with
  | none => .halt
  | some (ret,tf) =>
    if ret = -1 then pure tf
    else
      let status := syscallAllow monitor trap.watched tf
      if status.1 = 0 then pure status.2 else syscallDoForeal mmapBase trap status.2

/-- The frame that comes as far as `syscall_do`. -/
def admitted (monitor : Option Monitor) (mmapBase : Word) (trap : Trap) : Option TrapFrame :=
  match syscallCheckParams mmapBase trap.checked trap.frame with
  | none => none
  | some (ret,tf) =>
    if ret = -1 ∨ (syscallAllow monitor trap.watched tf).1 = 0 then none
    else some (syscallAllow monitor trap.watched tf).2

def memoryCall (monitor : Option Monitor) (mmapBase : Word) (trap : Trap) : Option Umm.Op :=
  (admitted monitor mmapBase trap).bind memoryOp

/-- `need_lock` of `syscall_do`. -/
def needLock (monitor : Option Monitor) (mmapBase : Word) (trap : Trap) : Bool :=
  (memoryCall monitor mmapBase trap).any Umm.Op.needLock

/-- The memory calls get the answers that the memory manager expects of the host. -/
def HostOk : HostCall → Reply → Prop
  | .memory c, r => Umm.HostOk c r.toReply
  | .exec c, r => ExecFlow.HostOk c (execReply r)
  | _, _ => True

def workload (monitor : Option Monitor) (mmapBase : Word) :
    Workload Trap Umm.Counters Empty HostCall Reply TrapFrame where
  code := syscallHandler monitor mmapBase
  locked := needLock monitor mmapBase
  env := HostOk
  store := Umm.writeBack

abbrev Traps (T : Type) := System T Trap Umm.Counters Empty HostCall Reply TrapFrame

abbrev TrapAction (T : Type) := Action T Trap Empty HostCall Reply TrapFrame

abbrev Handled := Trap × List (HostCall × Reply) × Except Empty TrapFrame

end Sandbox
end VmplApps

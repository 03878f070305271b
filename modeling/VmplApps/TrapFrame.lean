import VmplApps.Words

/-! The register frame of a trapped system call and the system-call numbers the
handlers dispatch on. -/
namespace VmplApps

/-- Registers saved on entry to a trap handler. -/
structure TrapFrame where
  rdi : Word := 0
  rsi : Word := 0
  rdx : Word := 0
  rcx : Word := 0
  r8 : Word := 0
  r9 : Word := 0
  r10 : Word := 0
  r11 : Word := 0
  rbx : Word := 0
  rbp : Word := 0
  r12 : Word := 0
  r13 : Word := 0
  r14 : Word := 0
  r15 : Word := 0
  rax : Word := 0
  err : Word := 0
  rip : Word := 0
  cs : Word := 0
  rflags : Word := 0
  rsp : Word := 0
  ss : Word := 0
  deriving DecidableEq, Repr

namespace TrapFrame

def arg0 (tf : TrapFrame) : Word := tf.rdi
def arg1 (tf : TrapFrame) : Word := tf.rsi
def arg2 (tf : TrapFrame) : Word := tf.rdx
def arg3 (tf : TrapFrame) : Word := tf.r10
def arg4 (tf : TrapFrame) : Word := tf.r8
def arg5 (tf : TrapFrame) : Word := tf.r9

end TrapFrame

def EPERM : Word := 1
def ENOMEM : Word := 12
def EACCES : Word := 13
def EFAULT : Word := 14
def EINVAL : Word := 22
def ENOSYS : Word := 38

/-- System calls that some handler of the sandbox treats by name. -/
inductive Syscall
  | read | write | open | close | stat | fstat | lstat | lseek | mmap | mprotect | munmap | brk
  | rtSigaction | rtSigprocmask | rtSigreturn | ioctl | readv | writev | access | mremap | shmat
  | dup2 | getpid | sendfile | socket | connect | accept | shutdown | bind | listen | setsockopt
  | clone | execve | exit | uname | fcntl | getdents | getcwd | unlink | getrlimit | getuid | getgid
  | setuid | setgid | setgroups | rtSigpending | rtSigtimedwait | rtSigqueueinfo | rtSigsuspend
  | sigaltstack | statfs | archPrctl | time | epollCreate | exitGroup | epollWait | epollCtl
  | openat | signalfd | signalfd4 | other
  deriving DecidableEq, Repr

/-- The x86-64 numbering of `<sys/syscall.h>`, applied to the whole 64-bit register. -/
def Syscall.ofRax (rax : Word) : Syscall :=
  match rax.toNat with
  | 0 => .read
  | 1 => .write
  | 2 => .open
  | 3 => .close
  | 4 => .stat
  | 5 => .fstat
  | 6 => .lstat
  | 8 => .lseek
  | 9 => .mmap
  | 10 => .mprotect
  | 11 => .munmap
  | 12 => .brk
  | 13 => .rtSigaction
  | 14 => .rtSigprocmask
  | 15 => .rtSigreturn
  | 16 => .ioctl
  | 19 => .readv
  | 20 => .writev
  | 21 => .access
  | 25 => .mremap
  | 30 => .shmat
  | 33 => .dup2
  | 39 => .getpid
  | 40 => .sendfile
  | 41 => .socket
  | 42 => .connect
  | 43 => .accept
  | 48 => .shutdown
  | 49 => .bind
  | 50 => .listen
  | 54 => .setsockopt
  | 56 => .clone
  | 59 => .execve
  | 60 => .exit
  | 63 => .uname
  | 72 => .fcntl
  | 78 => .getdents
  | 79 => .getcwd
  | 87 => .unlink
  | 97 => .getrlimit
  | 102 => .getuid
  | 104 => .getgid
  | 105 => .setuid
  | 106 => .setgid
  | 116 => .setgroups
  | 127 => .rtSigpending
  | 128 => .rtSigtimedwait
  | 129 => .rtSigqueueinfo
  | 130 => .rtSigsuspend
  | 131 => .sigaltstack
  | 137 => .statfs
  | 158 => .archPrctl
  | 201 => .time
  | 213 => .epollCreate
  | 231 => .exitGroup
  | 232 => .epollWait
  | 233 => .epollCtl
  | 257 => .openat
  | 282 => .signalfd
  | 289 => .signalfd4
  | _ => .other

end VmplApps

import VmplApps.AppRegion

/-! The parameter check that every trapped system call passes first. The switch
fills in a pointer, a length and a string; one range test after it decides.
`callBuffers` lists, independently of the switch, the memory a call hands to the
kernel in exact integers, and the main theorem compares the two. -/
namespace VmplApps
namespace SyscallParams

open AppRegion ByteMemory

def sizeofUtsname : ℕ := 390
def sizeofUnsignedLong : ℕ := 8
def sizeofIovec : ℕ := 16
def sizeofStat : ℕ := 144
def sizeofStatfs : ℕ := 120
def sizeofTimeT : ℕ := 8
def sizeofEpollEvent : ℕ := 12
def sizeofSocklen : ℕ := 4
def sizeofFlock : ℕ := 32
def sizeofGidT : ℕ := 4
def sizeofSigaction : ℕ := 152
def sizeofSigset : ℕ := 128
def sizeofSiginfo : ℕ := 128
def sizeofTimespec : ℕ := 16
def sizeofRlimit : ℕ := 16
def sizeofOffT : ℕ := 8

/-- The constant of a `sizeof` expression as the word it is converted to. -/
def size (n : ℕ) : Word := BitVec.ofNat 64 n

def ARCH_GET_FS : Word := 0x1003

/-- What `fcntl` does with its third argument, by command. -/
inductive FcntlArg
  | plain | flock | unknown
  deriving DecidableEq, Repr

/-- `F_DUPFD`, `F_GETFD`, `F_SETFD`, `F_GETFL`, `F_SETFL`, `F_SETOWN`, `F_GETOWN`
and `F_DUPFD_CLOEXEC` carry no pointer; `F_GETLK`, `F_SETLK`, `F_SETLKW` do. -/
def fcntlArg (cmd : Word) : FcntlArg :=
  match cmd.toNat with
  | 0 | 1 | 2 | 3 | 4 | 8 | 9 | 1030 => .plain
  | 5 | 6 | 7 => .flock
  | _ => .unknown

def iocDir (cmd : Word) : Word := (cmd >>> 30) &&& 3
def iocSize (cmd : Word) : Word := (cmd >>> 16) &&& 0x3fff

def iovBase (m : Mem) (iov : Word) (i : ℕ) : Word := load64 m (iov + size (sizeofIovec*i))
def iovLen (m : Mem) (iov : Word) (i : ℕ) : Word := load64 m (iov + size (sizeofIovec*i) + 8)

/-- The `while (num--)` loop of `check_iovec`, `n` rounds before its end. -/
def iovecLoop (mmapBase : Word) (m : Mem) : Word → ℕ → Word
  | _, 0 => 0
  | iov, n+1 =>
    if checkExtent mmapBase (iovBase m iov 0) (iovLen m iov 0) ≠ 0 then -EFAULT
    else iovecLoop mmapBase m (iov + size sizeofIovec) n

/-- `check_iovec`. The product is taken in `size_t`, so `num` is sign-extended
first; a negative `num` would make the loop count through every `int`. -/
def checkIovec (mmapBase : Word) (m : Mem) (iov : Word) (num : CInt) : Word :=
  if checkExtent mmapBase iov (size sizeofIovec * num.signExtend 64) ≠ 0 then -EFAULT
  else iovecLoop mmapBase m iov num.toNat

/-- Local variables of `syscall_check_params` when the switch is left. -/
structure Locals where
  ptr : Word := 0
  len : Word := 0
  str : Word := 0
  err : Word := 0

/-- How the switch is left: by `break`, by an early `return -1` that has stored
a value in `rax`, or by a failed assertion. -/
inductive Branch
  | fallThrough (v : Locals)
  | early (rax : Word)
  | assertFailed

def extent (ptr len : Word) : Branch := .fallThrough {ptr := ptr,len := len}

def guardExtent (mmapBase ptr : Word) (n : ℕ) (next : Branch) : Branch :=
  if checkExtent mmapBase ptr (size n) ≠ 0 then .early (-EFAULT) else next

/-- The switch statement of `syscall_check_params`. -/
def dispatch (mmapBase : Word) (m : Mem) (tf : TrapFrame) : Branch :=
  match Syscall.ofRax tf.rax with
  | .uname => extent tf.arg0 (size sizeofUtsname)
  | .archPrctl =>
    if tf.arg0 = ARCH_GET_FS then extent tf.arg1 (size sizeofUnsignedLong)
    else .fallThrough {}
  | .access | .open | .unlink => .fallThrough {str := tf.arg0}
  | .openat => .fallThrough {str := tf.arg1}
  | .getdents | .read | .write | .connect | .bind => extent tf.arg1 tf.arg2
  | .writev | .readv =>
    .fallThrough {err := checkIovec mmapBase m tf.arg1 (tf.arg2.setWidth 32)}
  | .stat | .lstat => .fallThrough {str := tf.arg0,ptr := tf.arg1,len := size sizeofStat}
  | .fstat => extent tf.arg1 (size sizeofStat)
  | .statfs => .fallThrough {str := tf.arg0,ptr := tf.arg1,len := size sizeofStatfs}
  | .time => extent tf.arg0 (size sizeofTimeT)
  | .epollCtl => extent tf.arg3 (size sizeofEpollEvent)
  | .epollWait => extent tf.arg1 (tf.arg2 * size sizeofEpollEvent)
  | .setsockopt => extent tf.arg3 tf.arg4
  | .accept =>
    if tf.arg2 ≠ 0 then
      if checkExtent mmapBase tf.arg2 (size sizeofSocklen) ≠ 0 then .fallThrough {err := -EFAULT}
      else if tf.arg1 = 0 then .assertFailed
      else extent tf.arg1 ((load32 m tf.arg2).setWidth 64)
    else .fallThrough {}
  | .fcntl =>
    match fcntlArg tf.arg1 with
    | .plain => .fallThrough {}
    | .flock => extent tf.arg2 (size sizeofFlock)
    | .unknown => .fallThrough {err := -EFAULT}
  | .ioctl => if iocDir tf.arg1 ≠ 0 then extent tf.arg2 (iocSize tf.arg1) else .fallThrough {}
  | .setgroups => extent tf.arg1 (size sizeofGidT * tf.arg0)
  | .rtSigaction =>
    let next := extent tf.arg1 (size sizeofSigaction)
    if tf.arg2 ≠ 0 then guardExtent mmapBase tf.arg2 sizeofSigaction next else next
  | .sigaltstack | .signalfd | .signalfd4 => extent tf.arg1 (size sizeofSigset)
  | .rtSigpending => extent tf.arg0 (size sizeofSigset)
  | .rtSigprocmask =>
    let next := if tf.arg1 ≠ 0 then extent tf.arg1 (size sizeofSigset) else .fallThrough {}
    if tf.arg2 ≠ 0 then guardExtent mmapBase tf.arg2 sizeofSigset next else next
  | .rtSigsuspend => extent tf.arg0 (size sizeofSigset)
  | .rtSigqueueinfo => extent tf.arg1 (size sizeofSiginfo)
  | .rtSigtimedwait =>
    guardExtent mmapBase tf.arg0 sizeofSiginfo (guardExtent mmapBase tf.arg1 sizeofSiginfo
      (if tf.arg2 ≠ 0 then guardExtent mmapBase tf.arg2 sizeofTimespec (.fallThrough {})
        else .fallThrough {}))
  | .getcwd => extent tf.arg0 tf.arg1
  | .getrlimit => extent tf.arg1 (size sizeofRlimit)
  | .sendfile => extent tf.arg2 (size sizeofOffT)
  | .close => if tf.arg0 < 3 then .early 0 else .fallThrough {}
  | .execve =>
    if checkString mmapBase m tf.arg0 ≠ 0 then .fallThrough {err := -EFAULT} else .fallThrough {}
  | _ => .fallThrough {}

/-- The two tests after the switch: the error that ends up in `err`. -/
def finalErr (mmapBase : Word) (m : Mem) (v : Locals) : Word :=
  let err := if v.ptr ≠ 0 ∧ v.len ≠ 0 ∧ checkExtent mmapBase v.ptr v.len ≠ 0 then -EFAULT else v.err
  if v.str ≠ 0 ∧ checkString mmapBase m v.str ≠ 0 then -EFAULT else err

/-- `syscall_check_params`: its return value and the frame it leaves, or nothing
when the assertion in the `accept` case stops the process. -/
def syscallCheckParams (mmapBase : Word) (m : Mem) (tf : TrapFrame) : Option (ℤ × TrapFrame) :=
  match dispatch mmapBase m tf with
  | .assertFailed => none
  | .early rax => some (-1,{tf with rax := rax})
  | .fallThrough v =>
    let err := finalErr mmapBase m v
    if err ≠ 0 then some (-1,{tf with rax := err}) else some (0,tf)

def buffer (ptr : Word) (count elem : ℕ) : Span := ⟨ptr.toNat,count*elem⟩

/-- The memory a call passes to the kernel, in exact integers. -/
def callBuffers (m : Mem) (tf : TrapFrame) : List Span :=
  match Syscall.ofRax tf.rax with
  | .uname => [buffer tf.arg0 1 sizeofUtsname]
  | .archPrctl => if tf.arg0 = ARCH_GET_FS then [buffer tf.arg1 1 sizeofUnsignedLong] else []
  | .getdents | .read | .write | .connect | .bind => [buffer tf.arg1 tf.arg2.toNat 1]
  | .writev | .readv =>
    buffer tf.arg1 tf.arg2.toNat sizeofIovec ::
      (List.range tf.arg2.toNat).map fun i =>
        buffer (iovBase m tf.arg1 i) (iovLen m tf.arg1 i).toNat 1
  | .stat | .lstat | .fstat => [buffer tf.arg1 1 sizeofStat]
  | .statfs => [buffer tf.arg1 1 sizeofStatfs]
  | .time => [buffer tf.arg0 1 sizeofTimeT]
  | .epollCtl => [buffer tf.arg3 1 sizeofEpollEvent]
  | .epollWait => [buffer tf.arg1 tf.arg2.toNat sizeofEpollEvent]
  | .setsockopt => [buffer tf.arg3 tf.arg4.toNat 1]
  | .accept =>
    if tf.arg2 ≠ 0 then
      [buffer tf.arg2 1 sizeofSocklen,buffer tf.arg1 (load32 m tf.arg2).toNat 1]
    else []
  | .fcntl => if fcntlArg tf.arg1 = .flock then [buffer tf.arg2 1 sizeofFlock] else []
  | .ioctl => if iocDir tf.arg1 ≠ 0 then [buffer tf.arg2 (iocSize tf.arg1).toNat 1] else []
  | .setgroups => [buffer tf.arg1 tf.arg0.toNat sizeofGidT]
  | .rtSigaction =>
    buffer tf.arg1 1 sizeofSigaction ::
      if tf.arg2 ≠ 0 then [buffer tf.arg2 1 sizeofSigaction] else []
  | .sigaltstack | .signalfd | .signalfd4 => [buffer tf.arg1 1 sizeofSigset]
  | .rtSigpending | .rtSigsuspend => [buffer tf.arg0 1 sizeofSigset]
  | .rtSigprocmask =>
    (if tf.arg1 ≠ 0 then [buffer tf.arg1 1 sizeofSigset] else []) ++
      if tf.arg2 ≠ 0 then [buffer tf.arg2 1 sizeofSigset] else []
  | .rtSigqueueinfo => [buffer tf.arg1 1 sizeofSiginfo]
  | .rtSigtimedwait =>
    buffer tf.arg0 1 sizeofSiginfo :: buffer tf.arg1 1 sizeofSiginfo ::
      if tf.arg2 ≠ 0 then [buffer tf.arg2 1 sizeofTimespec] else []
  | .getcwd => [buffer tf.arg0 tf.arg1.toNat 1]
  | .getrlimit => [buffer tf.arg1 1 sizeofRlimit]
  | .sendfile => [buffer tf.arg2 1 sizeofOffT]
  | _ => []

/-- One pointer and length after the shortcut for a null pointer or no bytes. -/
def Tested (mmapBase ptr len : Word) : Prop :=
  ptr = 0 ∨ len = 0 ∨ memRefIsSafe mmapBase ptr len = true

/-- The switch was left with locals on which both final tests succeed. -/
def Admits (mmapBase : Word) (m : Mem) : Branch → Prop
  | .fallThrough v => finalErr mmapBase m v = 0
  | _ => False

section Admits
variable {mmapBase : Word} {m : Mem}

theorem neg_EFAULT_ne_zero : (-EFAULT : Word) ≠ 0 := by decide

theorem admits_of_return {tf tf' : TrapFrame}
    (h : syscallCheckParams mmapBase m tf = some (0,tf')) :
    Admits mmapBase m (dispatch mmapBase m tf) := by
  unfold syscallCheckParams at h
  cases hd : dispatch mmapBase m tf with
  | assertFailed => simp [hd] at h
  | early rax => simp [hd] at h
  | fallThrough v =>
    by_contra hne
    have hv : finalErr mmapBase m v ≠ 0 := hne
    simp only [hd,if_pos hv] at h
    simp at h

theorem admits_fallThrough {v : Locals} (h : Admits mmapBase m (.fallThrough v)) :
    v.err = 0 ∧ Tested mmapBase v.ptr v.len := by
  have h' : finalErr mmapBase m v = 0 := h
  simp only [finalErr] at h'
  split_ifs at h' with hs hp
  · exact absurd h' neg_EFAULT_ne_zero
  · exact absurd h' neg_EFAULT_ne_zero
  · refine ⟨h',?_⟩
    by_contra ht
    simp only [Tested,not_or] at ht
    exact hp ⟨ht.1,ht.2.1,fun he => ht.2.2 (checkExtent_eq_zero.mp he)⟩

theorem admits_extent {ptr len : Word} (h : Admits mmapBase m (extent ptr len)) :
    Tested mmapBase ptr len := (admits_fallThrough h).2

theorem admits_guardExtent {ptr : Word} {n : ℕ} {next : Branch}
    (h : Admits mmapBase m (guardExtent mmapBase ptr n next)) :
    Tested mmapBase ptr (size n) ∧ Admits mmapBase m next := by
  unfold guardExtent at h
  split_ifs at h with hc
  · exact h.elim
  · exact ⟨.inr (.inr (checkExtent_eq_zero.mp (not_not.mp hc))),h⟩

end Admits

/-- The reduction modulo `2^64` of an exact buffer went through the range test. -/
def Passed (mmapBase : Word) (b : Span) : Prop :=
  ∃ ptr len : Word, b.start = ptr.toNat ∧ b.len % 2^64 = len.toNat ∧ Tested mmapBase ptr len

section Passed
variable {mmapBase ptr len : Word} {m : Mem}

theorem passed_object {n : ℕ} (h : Tested mmapBase ptr (size n)) :
    Passed mmapBase (buffer ptr 1 n) :=
  ⟨ptr,size n,rfl,by simp [buffer,size],h⟩

theorem passed_bytes (h : Tested mmapBase ptr len) : Passed mmapBase (buffer ptr len.toNat 1) :=
  ⟨ptr,len,rfl,by simp [buffer,Nat.mod_eq_of_lt len.isLt],h⟩

theorem passed_array {count : Word} {n : ℕ} (h : Tested mmapBase ptr (count * size n)) :
    Passed mmapBase (buffer ptr count.toNat n) :=
  ⟨ptr,count * size n,rfl,by simp [buffer,size,BitVec.toNat_mul],h⟩

theorem Passed.of_mem {b b' : Span} (h : Passed mmapBase b') (hb : b ∈ [b']) :
    Passed mmapBase b := by
  rw [List.mem_singleton] at hb
  rwa [hb]

end Passed

/-- The element count of a vectored call survives its conversion to `int`. -/
def VectorFits (tf : TrapFrame) : Prop :=
  Syscall.ofRax tf.rax = .readv ∨ Syscall.ofRax tf.rax = .writev → tf.arg2.toNat < 2^31

instance (tf : TrapFrame) : Decidable (VectorFits tf) := inferInstanceAs (Decidable (_ → _))

section Vectors
variable {mmapBase : Word} {m : Mem}

theorem add_size_succ (a : Word) (n i : ℕ) : a + size (n*(i+1)) = a + size n + size (n*i) := by
  simp only [size,BitVec.add_assoc,← BitVec.ofNat_add]
  congr 2
  rw [Nat.mul_succ,Nat.add_comm]

theorem iovecLoop_eq_zero_iff {iov : Word} {n : ℕ} : iovecLoop mmapBase m iov n = 0 ↔
    ∀ i < n, memRefIsSafe mmapBase (iovBase m iov i) (iovLen m iov i) = true := by
  induction n generalizing iov with
  | zero => simp [iovecLoop]
  | succ n ih =>
    have hnext (i : ℕ) : memRefIsSafe mmapBase (iovBase m (iov + size sizeofIovec) i)
        (iovLen m (iov + size sizeofIovec) i) =
          memRefIsSafe mmapBase (iovBase m iov (i+1)) (iovLen m iov (i+1)) := by
      simp only [iovBase,iovLen,add_size_succ]
    rw [iovecLoop]
    split_ifs with hc
    · refine iff_of_false neg_EFAULT_ne_zero fun h => ?_
      exact hc (checkExtent_eq_zero.mpr (h 0 n.succ_pos))
    · rw [ih]
      simp only [hnext]
      refine ⟨fun h i hi => ?_,fun h i hi => h (i+1) (by omega)⟩
      cases i with
      | zero => exact checkExtent_eq_zero.mp (not_not.mp hc)
      | succ i => exact h i (by omega)

theorem checkIovec_eq_zero {iov count : Word} (hc : count.toNat < 2^31)
    (h : checkIovec mmapBase m iov (count.setWidth 32) = 0) :
    memRefIsSafe mmapBase iov (count * size sizeofIovec) = true ∧
    ∀ i < count.toNat, memRefIsSafe mmapBase (iovBase m iov i) (iovLen m iov i) = true := by
  have hn : (count.setWidth 32).toNat = count.toNat := by
    rw [BitVec.toNat_setWidth,Nat.mod_eq_of_lt (by omega)]
  have hx : (count.setWidth 32).signExtend 64 = count := by
    have hm : (count.setWidth 32).msb = false := by
      rw [BitVec.msb_eq_decide,hn]
      simp only [decide_eq_false_iff_not]
      omega
    rw [BitVec.signExtend_eq_setWidth_of_msb_false hm]
    apply BitVec.eq_of_toNat_eq
    rw [BitVec.toNat_setWidth,hn,Nat.mod_eq_of_lt (by omega)]
  simp only [checkIovec,hx,hn] at h
  split_ifs at h with hs
  · exact absurd h neg_EFAULT_ne_zero
  · rw [BitVec.mul_comm]
    exact ⟨checkExtent_eq_zero.mp (not_not.mp hs),iovecLoop_eq_zero_iff.mp h⟩

end Vectors

/-- Every buffer of a call that passes went through the range test, reduced
modulo `2^64`. One case for each arm of the switch. -/
theorem passed_of_admits {mmapBase : Word} {m : Mem} {tf : TrapFrame}
    (h : Admits mmapBase m (dispatch mmapBase m tf)) (hv : VectorFits tf) {b : Span}
    (hb : b ∈ callBuffers m tf) : Passed mmapBase b := by
  unfold dispatch at h
  unfold callBuffers at hb
  unfold VectorFits at hv
  cases hs : Syscall.ofRax tf.rax <;> simp only [hs] at h hb hv
  case accept =>
    split_ifs at h hb with h2 he h1
    · exact absurd (admits_fallThrough h).1 neg_EFAULT_ne_zero
    · exact h.elim
    · have hl : Tested mmapBase tf.arg2 (size sizeofSocklen) :=
        .inr (.inr (checkExtent_eq_zero.mp (not_not.mp he)))
      have hw : ((load32 m tf.arg2).setWidth 64).toNat = (load32 m tf.arg2).toNat :=
        BitVec.toNat_setWidth_of_le (by omega)
      have ht := passed_bytes (admits_extent h)
      rw [hw] at ht
      rcases List.mem_pair.mp hb with rfl | rfl
      · exact passed_object hl
      · exact ht
    · exact absurd hb List.not_mem_nil
  case readv | writev =>
    obtain ⟨ha,he⟩ := checkIovec_eq_zero (hv (by simp)) (admits_fallThrough h).1
    rcases List.mem_cons.mp hb with rfl | hb
    · exact passed_array (.inr (.inr ha))
    · obtain ⟨i,hi,rfl⟩ := List.mem_map.mp hb
      exact passed_bytes (.inr (.inr (he i (List.mem_range.mp hi))))
  case getdents | read | write | connect | bind | setsockopt | getcwd =>
    exact (passed_bytes (admits_extent h)).of_mem hb
  case uname | fstat | time | epollCtl | sigaltstack | signalfd | signalfd4 | rtSigpending |
      rtSigsuspend | rtSigqueueinfo | getrlimit | sendfile =>
    exact (passed_object (admits_extent h)).of_mem hb
  case stat | lstat | statfs =>
    exact (passed_object (admits_fallThrough h).2).of_mem hb
  case epollWait =>
    exact (passed_array (admits_extent h)).of_mem hb
  case setgroups =>
    rw [BitVec.mul_comm] at h
    exact (passed_array (admits_extent h)).of_mem hb
  case archPrctl | ioctl =>
    split_ifs at h hb
    · rw [List.mem_singleton] at hb
      subst hb
      first | exact passed_object (admits_extent h) | exact passed_bytes (admits_extent h)
    · exact absurd hb List.not_mem_nil
  case fcntl =>
    cases hc : fcntlArg tf.arg1 <;> simp only [hc] at h hb
    case flock =>
      exact (passed_object (admits_extent h)).of_mem hb
    all_goals simp at hb
  case rtSigaction =>
    split_ifs at h hb with h2
    · obtain ⟨h2',h1⟩ := admits_guardExtent h
      rcases List.mem_pair.mp hb with rfl | rfl
      · exact passed_object (admits_extent h1)
      · exact passed_object h2'
    · exact (passed_object (admits_extent h)).of_mem hb
  case rtSigprocmask =>
    split_ifs at h hb with h2 h1 h1
    · obtain ⟨h2',h1'⟩ := admits_guardExtent h
      rcases List.mem_pair.mp hb with rfl | rfl
      · exact passed_object (admits_extent h1')
      · exact passed_object h2'
    · obtain ⟨h2',-⟩ := admits_guardExtent h
      exact (passed_object h2').of_mem hb
    · exact (passed_object (admits_extent h)).of_mem hb
    · exact absurd hb List.not_mem_nil
  case rtSigtimedwait =>
    obtain ⟨h0,h⟩ := admits_guardExtent h
    obtain ⟨h1,h⟩ := admits_guardExtent h
    rcases List.mem_cons.mp hb with rfl | hb
    · exact passed_object h0
    rcases List.mem_cons.mp hb with rfl | hb
    · exact passed_object h1
    split_ifs at h hb
    · exact (passed_object (admits_guardExtent h).1).of_mem hb
    · exact absurd hb List.not_mem_nil
  all_goals exact absurd hb List.not_mem_nil

/-- A buffer that ends below `2^64` and, when its address is null, is no longer
than a window that starts there. The range test sees such a buffer as it is. -/
def Plain (mmapBase : Word) (b : Span) : Prop :=
  b.stop < 2^64 ∧
    (b.start = 0 → b.len ≤ 0x70000000 ∨ (mmapBase = 0 ∧ b.len ≤ 0x200000000))

instance (mmapBase : Word) (b : Span) : Decidable (Plain mmapBase b) :=
  inferInstanceAs (Decidable (_ ∧ (_ → _)))

theorem inApp_of_passed {mmapBase : Word} (hp : Placed mmapBase) {b : Span}
    (h : Passed mmapBase b) (hb : Plain mmapBase b) : b.len = 0 ∨ InApp mmapBase b := by
  obtain ⟨ptr,len,hs,hl,ht⟩ := h
  obtain ⟨hstop,hnull⟩ := hb
  have hlen : b.len = len.toNat := by
    rw [← hl,Nat.mod_eq_of_lt (by simp only [Span.stop] at hstop; omega)]
  rcases ht with rfl | rfl | ht
  · right
    have h0 : b.start = 0 := hs
    simp only [InApp,Span.Inside,Span.stop,h0]
    rcases hnull h0 with hn | ⟨rfl,hn⟩
    · omega
    · right
      simpa using hn
  · left
    exact hlen
  · right
    have hi := inApp_of_memRefIsSafe hp ht (by simp only [Span.stop] at hstop; omega)
    rwa [← hs,← hlen] at hi

theorem plain_of_inApp {mmapBase : Word} (hp : Placed mmapBase) {b : Span}
    (h : InApp mmapBase b) : Plain mmapBase b := by
  have hf := hp.fits
  refine ⟨by have := h.stop_lt hp; omega,fun h0 => ?_⟩
  simp only [InApp,Span.Inside,Span.stop,h0] at h
  rcases h with h | h
  · omega
  · right
    exact ⟨BitVec.eq_of_toNat_eq (by simp; omega),by omega⟩

/-- When the parameter check returns zero, every buffer of the call is empty or
in a window exactly when no non-empty buffer wraps or is an oversized null
buffer and no vector count is cut down to an `int`. -/
theorem syscallCheckParams_sound_iff {mmapBase : Word} (hp : Placed mmapBase) (m : Mem)
    (tf tf' : TrapFrame) (hret : syscallCheckParams mmapBase m tf = some (0,tf')) :
    (∀ b ∈ callBuffers m tf, b.len = 0 ∨ InApp mmapBase b) ↔
      (∀ b ∈ callBuffers m tf, b.len = 0 ∨ Plain mmapBase b) ∧ VectorFits tf := by
  constructor
  · intro h
    refine ⟨fun b hb => (h b hb).imp_right (plain_of_inApp hp),fun hv => ?_⟩
    have hmem : buffer tf.arg1 tf.arg2.toNat sizeofIovec ∈ callBuffers m tf := by
      rcases hv with hv | hv <;> simp [callBuffers,hv]
    have hf := hp.fits
    rcases h _ hmem with h0 | (h0 | h0) <;>
      simp only [Span.Inside,Span.stop,buffer,sizeofIovec] at h0 <;> omega
  · rintro ⟨hplain,hv⟩ b hb
    rcases hplain b hb with h0 | hb'
    · exact .inl h0
    · exact inApp_of_passed hp (passed_of_admits (admits_of_return hret) hv hb) hb'

/-- A sixteen-byte `read` into the program image meets every hypothesis. -/
theorem syscallCheckParams_sound_iff_read : InApp 0x100000000000 ⟨0x400000,16⟩ := by
  have hp : Placed 0x100000000000 := ⟨by decide,by decide⟩
  have h := (syscallCheckParams_sound_iff hp (fun _ => 0) {rsi := 0x400000,rdx := 16}
    {rsi := 0x400000,rdx := 16} (by decide)).mpr ⟨by decide,by decide⟩
  exact (h ⟨0x400000,16⟩ (by decide)).resolve_left (by decide)

/-- `read(0, (void *) -1, 1)` returns zero although its only buffer ends at `2^64`. -/
theorem syscallCheckParams_accepts_wrapped :
    ¬ ∀ (mmapBase : Word) (m : Mem) (tf tf' : TrapFrame), Placed mmapBase →
      syscallCheckParams mmapBase m tf = some (0,tf') →
      ∀ b ∈ callBuffers m tf, b.len = 0 ∨ InApp mmapBase b := by
  intro h
  have hbad := h 0x100000000000 (fun _ => 0) {rsi := -1,rdx := 1} {rsi := -1,rdx := 1}
    ⟨by decide,by decide⟩ (by decide) ⟨2^64-1,1⟩ (by decide)
  exact absurd hbad (by decide)

end SyscallParams
end VmplApps

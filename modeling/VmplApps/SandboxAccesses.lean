import VmplApps.SyscallParams
import VmplApps.FirewallMonitor

/-! The application memory that the sandbox's own code touches while it handles a
system call. Each function that follows an application pointer gets the list of
its accesses, computed along the same branches as the function itself, and the
main theorem says for which frames all of them stay in the application's windows. -/
namespace VmplApps
namespace SandboxAccesses

open AppRegion ByteMemory SyscallParams Firewall

/-- Bytes that `memchr(a, 0, n)` looks at, the terminator included. -/
def scanLength (m : Mem) : Word → ℕ → ℕ
  | _, 0 => 0
  | a, n+1 => if byteAt m a == 0 then 1 else scanLength m (a+1) n + 1

def checkStringAccesses (mmapBase : Word) (m : Mem) (ptr : Word) : List Span :=
  if ptr < appMaxElfVaddr then [⟨ptr.toNat,scanLength m ptr (appMaxElfVaddr - ptr).toNat⟩]
  else if ptr ≥ mmapBase then
    if ptr ≥ mmapBase + appMmapLen then []
    else [⟨ptr.toNat,scanLength m ptr (mmapBase + appMmapLen - ptr).toNat⟩]
  else []

/-- The loop of `check_iovec` reads entries up to the first one it rejects. -/
def iovecLoopAccesses (mmapBase : Word) (m : Mem) : Word → ℕ → List Span
  | _, 0 => []
  | iov, n+1 =>
    ⟨iov.toNat,sizeofIovec⟩::
      if checkExtent mmapBase (iovBase m iov 0) (iovLen m iov 0) ≠ 0 then []
      else iovecLoopAccesses mmapBase m (iov + size sizeofIovec) n

def checkIovecAccesses (mmapBase : Word) (m : Mem) (iov : Word) (num : CInt) : List Span :=
  if checkExtent mmapBase iov (size sizeofIovec * num.signExtend 64) ≠ 0 then []
  else iovecLoopAccesses mmapBase m iov num.toNat

/-- Accesses inside the switch of `syscall_check_params`. The other arms compare
their pointers with the windows and read nothing. -/
def dispatchAccesses (mmapBase : Word) (m : Mem) (tf : TrapFrame) : List Span :=
  match Syscall.ofRax tf.rax with
  | .writev | .readv => checkIovecAccesses mmapBase m tf.arg1 (tf.arg2.setWidth 32)
  | .accept =>
    if tf.arg2 ≠ 0 then
      if checkExtent mmapBase tf.arg2 (size sizeofSocklen) ≠ 0 then []
      else [⟨tf.arg2.toNat,sizeofSocklen⟩]
    else []
  | .execve => checkStringAccesses mmapBase m tf.arg0
  | _ => []

def finalAccesses (mmapBase : Word) (m : Mem) : Branch → List Span
  | .fallThrough v => if v.str ≠ 0 then checkStringAccesses mmapBase m v.str else []
  | .early _ | .assertFailed => []

def checkParamsAccesses (mmapBase : Word) (m : Mem) (tf : TrapFrame) : List Span :=
  dispatchAccesses mmapBase m tf ++ finalAccesses mmapBase m (dispatch mmapBase m tf)

/-- `check_bind` and `check_connect` read the family and, for IPv4, what the rules
need. -/
def sockaddrAccesses (m : Mem) (addr : Word) (len : BitVec 32) (fields : List Span) : List Span :=
  if len = sizeofSockaddrIn then
    ⟨addr.toNat,2⟩::if sinFamily m addr = AF_INET then fields else []
  else []

def checkBindAccesses (m : Mem) (addr : Word) (len : BitVec 32) : List Span :=
  sockaddrAccesses m addr len [⟨(addr+2).toNat,2⟩]

def checkConnectAccesses (m : Mem) (addr : Word) (len : BitVec 32) : List Span :=
  sockaddrAccesses m addr len [⟨(addr+2).toNat,2⟩,⟨(addr+4).toNat,4⟩]

def syscallMonitorAccesses (m : Mem) (tf : TrapFrame) : List Span :=
  match Syscall.ofRax tf.rax with
  | .bind => checkBindAccesses m tf.arg1 (addrlen tf)
  | .connect => checkConnectAccesses m tf.arg1 (addrlen tf)
  | _ => []

def CLONE_PARENT_SETTID : CInt := 0x100000

def EXECPGSIZE : ℕ := 4096

/-- First place from `i` on, among the next `n`, where a test holds. -/
def firstStop (page : ℕ → Byte) (stop : Byte → Bool) : ℕ → ℕ → ℕ
  | i, 0 => i
  | i, n+1 => if stop (page i) then i else firstStop page stop (i+1) n

/-- A program file as `exec_execev` sees it: whether it opens, what `read` returns,
and the buffer afterwards, with whatever the stack held behind the data. -/
structure ExecFile where
  opened : Bool
  len : ℤ
  page : ℕ → Byte

namespace ExecFile

/-- The buffer once it is terminated. -/
def text (f : ExecFile) (i : ℕ) : Byte :=
  if f.len < EXECPGSIZE ∧ (i : ℤ) = f.len then 0 else f.page i

def isElf (f : ExecFile) : Bool :=
  f.text 0 == 0x7f && f.text 1 == 0x45 && f.text 2 == 0x4c && f.text 3 == 0x46

/-- The test for `#!`, with the disjunction of the source. -/
def isScript (f : ExecFile) : Bool := f.text 0 == 0x23 || f.text 1 == 0x21

def isBlank (b : Byte) : Bool := b == 0x20 || b == 0x09

def namesInterpreter (f : ExecFile) : Bool :=
  let interpBegin := firstStop f.text (fun b => !isBlank b) 2 (EXECPGSIZE - 2)
  let interpEnd := firstStop f.text (fun b => isBlank b || b == 0x0a || b == 0) interpBegin
    (EXECPGSIZE - interpBegin)
  !(interpBegin == interpEnd || f.text interpBegin == 0)

end ExecFile

/-- The number of entries an `int` can count. More than fit the two windows. -/
def argvLimit : ℕ := 2^31

def getlen (m : Mem) : Word → ℕ → ℕ
  | _, 0 => 0
  | arr, n+1 => if load64 m arr = 0 then 0 else getlen m (arr + 8) n + 1

def getlenAccesses (m : Mem) : Word → ℕ → List Span
  | _, 0 => []
  | arr, n+1 => ⟨arr.toNat,8⟩::if load64 m arr = 0 then [] else getlenAccesses m (arr + 8) n

/-- The loops `for (i = 0; i <= arglen; i++)` that copy `argv`. -/
def copyAccesses (argv : Word) (arglen : ℕ) : List Span :=
  (List.range (arglen+1)).map fun i => ⟨(argv + size (8*i)).toNat,8⟩

/-- `exec_execev`. Opening the file reads its name up to the terminator that
`check_string` has found. -/
def execExecevAccesses (mmapBase : Word) (m : Mem) (f : ExecFile) (filename argv : Word) :
    List Span :=
  let name := checkStringAccesses mmapBase m filename
  let args := getlenAccesses m argv argvLimit
  let copies := copyAccesses argv (getlen m argv argvLimit)
  if !f.opened then name
  else if f.len < 2 then name
  else if f.isElf then name ++ args ++ copies
  else if f.isScript then
    if f.namesInterpreter then name ++ args ++ copies else name ++ args
  else name

/-- What the host decides: whether a thread can be created, and the file behind the
name given to `execve`. -/
structure Host where
  threadCreated : Bool := true
  file : ExecFile

def pthreadEntryAccesses (tf : TrapFrame) : List Span :=
  let flags : CInt := tf.arg0.setWidth 32
  if flags &&& CLONE_PARENT_SETTID ≠ 0 then [⟨tf.arg2.toNat,4⟩] else []

def dunePthreadCreateAccesses (host : Host) (tf : TrapFrame) : List Span :=
  if host.threadCreated then pthreadEntryAccesses tf else []

def duneCloneAccesses (host : Host) (tf : TrapFrame) : List Span :=
  if tf.arg1 ≠ 0 then dunePthreadCreateAccesses host tf else []

def syscallDoForealAccesses (mmapBase : Word) (m : Mem) (host : Host) (tf : TrapFrame) :
    List Span :=
  match Syscall.ofRax tf.rax with
  | .archPrctl => if tf.arg0 = ARCH_GET_FS then [⟨tf.arg1.toNat,sizeofUnsignedLong⟩] else []
  | .clone => duneCloneAccesses host tf
  | .execve => execExecevAccesses mmapBase m host.file tf.arg0 tf.arg1
  | _ => []

/-- `syscall_handler` with the firewall's monitor: all accesses, or nothing when the
assertion stops the process. -/
def syscallHandler (mmapBase : Word) (m : Mem) (rules : List FwRule) (host : Host)
    (tf : TrapFrame) : Option (List Span) :=
  match syscallCheckParams mmapBase m tf with
  | none => none
  | some (ret,tf₁) =>
    if ret = -1 then some (checkParamsAccesses mmapBase m tf)
    else
      let status := syscallMonitor m rules tf₁
      let looked := checkParamsAccesses mmapBase m tf ++ syscallMonitorAccesses m tf₁
      if status.1 = 0 then some looked
      else some (looked ++ syscallDoForealAccesses mmapBase m host status.2)

/-- An access inside the windows that does not start at address zero. -/
def Confined (mmapBase : Word) (s : Span) : Prop := InApp mmapBase s ∧ s.start ≠ 0

instance (mmapBase : Word) (s : Span) : Decidable (Confined mmapBase s) :=
  inferInstanceAs (Decidable (_ ∧ _))

def Handled (mmapBase : Word) : Option (List Span) → Prop
  | none => False
  | some log => ∀ s ∈ log, Confined mmapBase s

/-- A pointer that is not null and, if the range test accepts it, does not run past
the last address. -/
def Straight (mmapBase ptr len : Word) : Prop :=
  ptr ≠ 0 ∧ (memRefIsSafe mmapBase ptr len = true → ptr.toNat + len.toNat < 2^64)

instance (mmapBase ptr len : Word) : Decidable (Straight mmapBase ptr len) :=
  inferInstanceAs (Decidable (_ ∧ (_ → _)))

/-- Entries of an array of pointers up to and including its null entry. -/
def ArgvConfined (mmapBase : Word) (m : Mem) (argv : Word) : Prop :=
  ∀ i, (∀ j < i, load64 m (argv + size (8*j)) ≠ 0) →
    Confined mmapBase ⟨(argv + size (8*i)).toNat,8⟩

def ExecFile.Runs (f : ExecFile) : Prop :=
  f.opened = true ∧ 2 ≤ f.len ∧ (f.isElf = true ∨ f.isScript = true)

def Vetted (mmapBase : Word) (m : Mem) (host : Host) (tf : TrapFrame) : Prop :=
  match Syscall.ofRax tf.rax with
  | .accept =>
    tf.arg2 ≠ 0 → memRefIsSafe mmapBase tf.arg2 4 = true →
      tf.arg1 ≠ 0 ∧ tf.arg2.toNat + 4 < 2^64
  | .readv | .writev =>
    let num : CInt := tf.arg2.setWidth 32
    num ≠ 0 → memRefIsSafe mmapBase tf.arg1 (16 * num.signExtend 64) = true →
      tf.arg1 ≠ 0 ∧ tf.arg1.toNat + (16 * num.signExtend 64).toNat < 2^64
  | .bind | .connect => addrlen tf = sizeofSockaddrIn → Straight mmapBase tf.arg1 tf.arg2
  | .archPrctl => tf.arg0 = ARCH_GET_FS → Straight mmapBase tf.arg1 8
  | .clone =>
    tf.arg1 ≠ 0 → host.threadCreated = true →
      (tf.arg0.setWidth 32 &&& CLONE_PARENT_SETTID : CInt) ≠ 0 →
      Confined mmapBase ⟨tf.arg2.toNat,4⟩
  | .execve =>
    tf.arg0 ≠ 0 ∧ (checkString mmapBase m tf.arg0 = 0 → host.file.Runs →
      ArgvConfined mmapBase m tf.arg1)
  | _ => True

section Ranges
variable {mmapBase ptr len : Word} {log : List Span}

structure PartsOf (ptr len : Word) (log : List Span) : Prop where
  start : ∃ n, ⟨ptr.toNat,n⟩ ∈ log
  parts : ∀ s ∈ log, ∃ k n, s = ⟨(ptr + size k).toNat,n⟩ ∧ k + n ≤ len.toNat

theorem partsOf_whole (ptr len : Word) : PartsOf ptr len [⟨ptr.toNat,len.toNat⟩] := by
  refine ⟨⟨_,List.mem_singleton_self _⟩,fun s hs => ⟨0,len.toNat,?_,by omega⟩⟩
  rw [List.mem_singleton.mp hs,show ptr + size 0 = ptr from BitVec.add_zero ptr]

theorem confined_within (hp : Placed mmapBase) (hs : memRefIsSafe mmapBase ptr len = true)
    (h0 : ptr ≠ 0) (hw : ptr.toNat + len.toNat < 2^64) {k n : ℕ} (hkn : k + n ≤ len.toNat) :
    Confined mmapBase ⟨(ptr + size k).toNat,n⟩ := by
  have hk : (size k).toNat = k := by
    rw [size,BitVec.toNat_ofNat,Nat.mod_eq_of_lt (by omega)]
  have ha : (ptr + size k).toNat = ptr.toNat + k := by
    rw [Words.add_toNat_exact (by omega),hk]
  have hpos : ptr.toNat ≠ 0 := fun h => h0 (BitVec.eq_of_toNat_eq h)
  have hin := inApp_of_memRefIsSafe hp hs hw
  rw [ha]
  refine ⟨?_,by simp only; omega⟩
  simp only [InApp,Span.Inside,Span.stop] at hin ⊢
  omega

/-- A range that passed the test although it wraps starts outside the windows. -/
theorem exact_of_confined (hp : Placed mmapBase) (hs : memRefIsSafe mmapBase ptr len = true)
    {n : ℕ} (h : Confined mmapBase ⟨ptr.toNat,n⟩) :
    ptr ≠ 0 ∧ ptr.toNat + len.toNat < 2^64 := by
  obtain ⟨hin,h0⟩ := h
  have hstop := hin.stop_lt hp
  have hf := hp.fits
  refine ⟨fun hz => h0 (by rw [hz]; rfl),?_⟩
  simp only [Span.stop] at hstop
  rcases (memRefIsSafe_iff hp ptr len).mp hs with hs | hs | hs <;> omega

theorem PartsOf.confined_iff (hlog : PartsOf ptr len log) (hp : Placed mmapBase)
    (hs : memRefIsSafe mmapBase ptr len = true) :
    (∀ s ∈ log, Confined mmapBase s) ↔ ptr ≠ 0 ∧ ptr.toNat + len.toNat < 2^64 := by
  constructor
  · intro h
    obtain ⟨n,hn⟩ := hlog.start
    exact exact_of_confined hp hs (h _ hn)
  · rintro ⟨h0,hw⟩ s hmem
    obtain ⟨k,n,rfl,hkn⟩ := hlog.parts s hmem
    exact confined_within hp hs h0 hw hkn

/-- The test after the switch also lets a null pointer pass. -/
theorem PartsOf.tested_iff (hlog : PartsOf ptr len log) (hp : Placed mmapBase) (hlen : len ≠ 0) :
    (Tested mmapBase ptr len → ∀ s ∈ log, Confined mmapBase s) ↔ Straight mmapBase ptr len := by
  constructor
  · intro h
    refine ⟨?_,fun hs => ((hlog.confined_iff hp hs).mp (h (.inr (.inr hs)))).2⟩
    rintro rfl
    obtain ⟨n,hn⟩ := hlog.start
    exact (h (.inl rfl) _ hn).2 rfl
  · rintro ⟨h0,hw⟩ (h | h | hs)
    · exact absurd h h0
    · exact absurd h hlen
    · exact (hlog.confined_iff hp hs).mpr ⟨h0,hw hs⟩

end Ranges

section Strings
variable {mmapBase : Word} {m : Mem}

theorem scanLength_le (m : Mem) (a : Word) (n : ℕ) : scanLength m a n ≤ n := by
  induction n generalizing a with
  | zero => exact Nat.le_refl 0
  | succ n ih =>
    have := ih (a+1)
    simp only [scanLength]
    split_ifs <;> omega

theorem checkStringAccesses_confined_iff (hp : Placed mmapBase) (ptr : Word) :
    (∀ s ∈ checkStringAccesses mmapBase m ptr, Confined mmapBase s) ↔ ptr ≠ 0 := by
  have he := hp.windowEnd
  constructor
  · rintro h rfl
    have hmem : (⟨0,scanLength m 0 appMaxElfVaddr.toNat⟩ : Span) ∈
        checkStringAccesses mmapBase m 0 := by
      simp [checkStringAccesses,appMaxElfVaddr]
    exact (h _ hmem).2 rfl
  · intro h0 s hs
    have hpos : ptr.toNat ≠ 0 := fun h => h0 (BitVec.eq_of_toNat_eq h)
    simp only [checkStringAccesses,ge_iff_le,BitVec.lt_def,BitVec.le_def,he,
      appMaxElfVaddr_toNat] at hs
    split_ifs at hs with hlow hbase hend
    · have hn := scanLength_le m ptr (appMaxElfVaddr - ptr).toNat
      have hroom : (appMaxElfVaddr - ptr).toNat = 0x70000000 - ptr.toNat :=
        Words.sub_toNat_exact (by simp only [appMaxElfVaddr_toNat]; omega)
      rw [List.mem_singleton.mp hs]
      exact ⟨.inl ⟨Nat.zero_le _,by simp only [Span.stop]; omega⟩,hpos⟩
    · exact absurd hs List.not_mem_nil
    · have hn := scanLength_le m ptr (mmapBase + appMmapLen - ptr).toNat
      have hroom : (mmapBase + appMmapLen - ptr).toNat = (mmapBase + appMmapLen).toNat - ptr.toNat :=
        Words.sub_toNat_exact (by omega)
      rw [List.mem_singleton.mp hs]
      exact ⟨.inr ⟨hbase,by simp only [Span.stop]; omega⟩,hpos⟩
    · exact absurd hs List.not_mem_nil

theorem finalAccesses_confined (hp : Placed mmapBase) (b : Branch) :
    ∀ s ∈ finalAccesses mmapBase m b, Confined mmapBase s := by
  cases b with
  | fallThrough v =>
    simp only [finalAccesses]
    split_ifs with h0
    · exact (checkStringAccesses_confined_iff hp _).mpr h0
    · exact nofun
  | early | assertFailed => exact nofun

end Strings

section Vectors
variable {mmapBase : Word} {m : Mem}

theorem mem_iovecLoopAccesses {iov : Word} {n : ℕ} {s : Span}
    (h : s ∈ iovecLoopAccesses mmapBase m iov n) :
    ∃ i < n, s = ⟨(iov + size (sizeofIovec*i)).toNat,sizeofIovec⟩ := by
  induction n generalizing iov with
  | zero => exact absurd h List.not_mem_nil
  | succ n ih =>
    rcases List.mem_cons.mp h with rfl | h
    · exact ⟨0,by omega,by rw [Nat.mul_zero,show iov + size 0 = iov from BitVec.add_zero iov]⟩
    · split_ifs at h
      · exact absurd h List.not_mem_nil
      · obtain ⟨i,hi,rfl⟩ := ih h
        refine ⟨i+1,by omega,?_⟩
        rw [add_size_succ]

theorem vector_length {iov : Word} {num : CInt}
    (hs : memRefIsSafe mmapBase iov (16 * num.signExtend 64) = true) :
    num.toNat < 2^31 ∧ (16 * num.signExtend 64).toNat = 16 * num.toNat := by
  have hn := num.isLt
  have hle := length_of_memRefIsSafe hs
  have hmul : (16 * num.signExtend 64).toNat = 16 * (num.signExtend 64).toNat % 2^64 :=
    BitVec.toNat_mul ..
  rcases Words.signExtend_toNat_cases num with hx | hx <;> omega

theorem partsOf_vector {iov : Word} {num : CInt} (h0 : num ≠ 0)
    (hs : memRefIsSafe mmapBase iov (16 * num.signExtend 64) = true) :
    PartsOf iov (16 * num.signExtend 64) (iovecLoopAccesses mmapBase m iov num.toNat) := by
  have hlen := (vector_length hs).2
  have hpos : num.toNat ≠ 0 := fun h => h0 (BitVec.eq_of_toNat_eq h)
  refine ⟨⟨sizeofIovec,?_⟩,fun s hmem => ?_⟩
  · obtain ⟨n,hn⟩ := Nat.exists_eq_succ_of_ne_zero hpos
    rw [hn]
    exact List.mem_cons_self
  · obtain ⟨i,hi,rfl⟩ := mem_iovecLoopAccesses hmem
    exact ⟨_,_,rfl,by rw [hlen,sizeofIovec]; omega⟩

end Vectors

section Arguments
variable {mmapBase : Word} {m : Mem}

theorem getlenAccesses_confined_iff (argv : Word) (n : ℕ) :
    (∀ s ∈ getlenAccesses m argv n, Confined mmapBase s) ↔
      ∀ i < n, (∀ j < i, load64 m (argv + size (8*j)) ≠ 0) →
        Confined mmapBase ⟨(argv + size (8*i)).toNat,8⟩ := by
  induction n generalizing argv with
  | zero => simp [getlenAccesses]
  | succ n ih =>
    have hzero : argv + size (8*0) = argv := BitVec.add_zero argv
    rw [getlenAccesses,List.forall_mem_cons]
    constructor
    · rintro ⟨hfirst,hrest⟩ i hi hj
      cases i with
      | zero => rwa [hzero]
      | succ i =>
        have hne : load64 m argv ≠ 0 := hzero ▸ hj 0 (by omega)
        rw [if_neg hne] at hrest
        have h := (ih (argv + 8)).mp hrest i (by omega) fun j hji => by
          have := hj (j+1) (by omega)
          rwa [add_size_succ] at this
        rwa [add_size_succ]
    · intro h
      refine ⟨hzero ▸ h 0 (by omega) (by omega),?_⟩
      split_ifs with hnull
      · exact nofun
      · refine (ih (argv + 8)).mpr fun i hi hj => ?_
        have := h (i+1) (by omega) fun j hji => ?_
        · rwa [add_size_succ] at this
        · cases j with
          | zero => rwa [hzero]
          | succ j =>
            rw [add_size_succ]
            exact hj j (by omega)

theorem load64_of_lt_getlen {argv : Word} {n j : ℕ} (hj : j < getlen m argv n) :
    load64 m (argv + size (8*j)) ≠ 0 := by
  induction n generalizing argv j with
  | zero => exact absurd hj (Nat.not_lt_zero j)
  | succ n ih =>
    rw [getlen] at hj
    split_ifs at hj with hnull
    · omega
    · cases j with
      | zero => rwa [Nat.mul_zero,show argv + size 0 = argv from BitVec.add_zero argv]
      | succ j =>
        rw [add_size_succ]
        have hj' : j < getlen m (argv + size 8) n := Nat.lt_of_succ_lt_succ hj
        exact ih hj'

/-- `INT_MAX` pointers in a row do not fit the windows. -/
theorem exists_not_confined (hp : Placed mmapBase) (argv : Word) :
    ∃ i < argvLimit, ¬Confined mmapBase ⟨(argv + size (8*i)).toNat,8⟩ := by
  by_contra hall
  push Not at hall
  have hf := hp.fits
  have hzero : argv + size (8*0) = argv := BitVec.add_zero argv
  have hlow := (hall 0 (by decide)).1.stop_lt hp
  simp only [hzero,Span.stop] at hlow
  have haddr : ∀ i < argvLimit, (argv + size (8*i)).toNat = argv.toNat + 8*i := by
    intro i hi
    have hi' : i < 2^31 := hi
    have hs : (size (8*i)).toNat = 8*i := by
      rw [size,BitVec.toNat_ofNat,Nat.mod_eq_of_lt (by omega)]
    rw [Words.add_toNat_exact (by omega),hs]
  have hin : ∀ i < argvLimit, argv.toNat + 8*i + 8 ≤ 0x70000000 ∨
      (mmapBase.toNat ≤ argv.toNat + 8*i ∧
        argv.toNat + 8*i + 8 ≤ mmapBase.toNat + 0x200000000) := by
    intro i hi
    have h := (hall i hi).1
    rw [haddr i hi] at h
    simp only [InApp,Span.Inside,Span.stop] at h
    omega
  have hlim : argvLimit = 2^31 := rfl
  -- the last entry is above the first window, so the first one is below the second
  have hfirst := hin 0 (by omega)
  have hlast := hin (2^31-1) (by omega)
  have hgap := hin ((0x70000000 - argv.toNat + 7) / 8) (by omega)
  omega

theorem argvConfined_iff (hp : Placed mmapBase) (argv : Word) :
    ArgvConfined mmapBase m argv ↔
      ∀ s ∈ getlenAccesses m argv argvLimit, Confined mmapBase s := by
  rw [getlenAccesses_confined_iff]
  constructor
  · exact fun h i _ hj => h i hj
  · intro h i hj
    by_cases hi : i < argvLimit
    · exact h i hi hj
    · obtain ⟨k,hk,hbad⟩ := exists_not_confined hp argv
      exact absurd (h k hk fun j hjk => hj j (by omega)) hbad

theorem copyAccesses_confined {argv : Word} (h : ArgvConfined mmapBase m argv) (n : ℕ) :
    ∀ s ∈ copyAccesses argv (getlen m argv n), Confined mmapBase s := by
  intro s hs
  obtain ⟨i,hi,rfl⟩ := List.mem_map.mp hs
  rw [List.mem_range] at hi
  exact h i fun j hj => load64_of_lt_getlen (n := n) (by omega)

theorem execExecevAccesses_confined_iff (hp : Placed mmapBase) (f : ExecFile)
    {filename : Word} (h0 : filename ≠ 0) (argv : Word) :
    (∀ s ∈ execExecevAccesses mmapBase m f filename argv, Confined mmapBase s) ↔
      (f.Runs → ArgvConfined mmapBase m argv) := by
  have hname := (checkStringAccesses_confined_iff (m := m) hp filename).mpr h0
  constructor
  · rintro h ⟨hopen,hlen,hkind⟩
    rw [argvConfined_iff hp]
    intro s hs
    apply h s
    simp only [execExecevAccesses,hopen,Bool.not_true,Bool.false_eq_true,if_false,
      if_neg (show ¬f.len < 2 by omega)]
    rcases hkind with hkind | hkind <;> split_ifs <;> simp_all
  · intro h
    simp only [execExecevAccesses]
    split_ifs with hopen hlen helf hscript hinterp
    · exact hname
    · exact hname
    · have hargv := h ⟨by simpa using hopen,by omega,.inl helf⟩
      simp only [List.forall_mem_append]
      exact ⟨⟨hname,(argvConfined_iff hp argv).mp hargv⟩,copyAccesses_confined hargv _⟩
    · have hargv := h ⟨by simpa using hopen,by omega,.inr hscript⟩
      simp only [List.forall_mem_append]
      exact ⟨⟨hname,(argvConfined_iff hp argv).mp hargv⟩,copyAccesses_confined hargv _⟩
    · have hargv := h ⟨by simpa using hopen,by omega,.inr hscript⟩
      simp only [List.forall_mem_append]
      exact ⟨hname,(argvConfined_iff hp argv).mp hargv⟩
    · exact hname

end Arguments

section Handler
variable {mmapBase : Word} {m : Mem} {rules : List FwRule} {host : Host} {tf : TrapFrame}

theorem dispatch_ne_assertFailed (h : Syscall.ofRax tf.rax ≠ .accept) :
    dispatch mmapBase m tf ≠ .assertFailed := by
  unfold dispatch
  cases hs : Syscall.ofRax tf.rax <;> simp only [extent,guardExtent] <;>
    first
      | exact absurd hs h
      | (split_ifs <;> simp)
      | (split <;> simp)
      | simp

theorem checkParams_cases (h : dispatch mmapBase m tf ≠ .assertFailed) :
    (Admits mmapBase m (dispatch mmapBase m tf) ∧
      syscallCheckParams mmapBase m tf = some (0,tf)) ∨
    (¬Admits mmapBase m (dispatch mmapBase m tf) ∧
      ∃ rax, syscallCheckParams mmapBase m tf = some (-1,{tf with rax := rax})) := by
  unfold syscallCheckParams
  cases hd : dispatch mmapBase m tf with
  | assertFailed => exact absurd hd h
  | early rax => exact .inr ⟨id,rax,rfl⟩
  | fallThrough v =>
    by_cases herr : finalErr mmapBase m v = 0
    · exact .inl ⟨herr,if_neg (not_not.mpr herr)⟩
    · exact .inr ⟨herr,_,if_pos herr⟩

theorem syscallMonitor_frame (h : (syscallMonitor m rules tf).1 ≠ 0) :
    (syscallMonitor m rules tf).2 = tf := by
  unfold syscallMonitor at h ⊢
  cases hs : Syscall.ofRax tf.rax <;> simp only [hs] at h ⊢
  case bind | connect => exact if_neg h

theorem handled_iff (h : dispatch mmapBase m tf ≠ .assertFailed) (hp : Placed mmapBase) :
    Handled mmapBase (syscallHandler mmapBase m rules host tf) ↔
      (∀ s ∈ dispatchAccesses mmapBase m tf, Confined mmapBase s) ∧
      (Admits mmapBase m (dispatch mmapBase m tf) →
        (∀ s ∈ syscallMonitorAccesses m tf, Confined mmapBase s) ∧
        ((syscallMonitor m rules tf).1 ≠ 0 →
          ∀ s ∈ syscallDoForealAccesses mmapBase m host tf, Confined mmapBase s)) := by
  have hfinal := finalAccesses_confined (m := m) hp (dispatch mmapBase m tf)
  have hparams : (∀ s ∈ checkParamsAccesses mmapBase m tf, Confined mmapBase s) ↔
      ∀ s ∈ dispatchAccesses mmapBase m tf, Confined mmapBase s := by
    rw [checkParamsAccesses,List.forall_mem_append]
    exact and_iff_left hfinal
  rw [← hparams]
  rcases checkParams_cases h with ⟨hadm,hret⟩ | ⟨hadm,rax,hret⟩
  · simp only [syscallHandler,hret,hadm,true_imp_iff,show ¬(0 : ℤ) = -1 by decide,if_false]
    by_cases hstatus : (syscallMonitor m rules tf).1 = 0
    · simp only [hstatus,if_true,Handled,List.forall_mem_append,ne_eq,not_true,false_imp_iff,
        and_true]
    · simp only [hstatus,if_false,Handled,List.forall_mem_append,syscallMonitor_frame hstatus,
        ne_eq,not_false_iff,true_imp_iff,and_assoc]
  · simp only [syscallHandler,hret,hadm,false_imp_iff,and_true,if_true,Handled]

theorem admits_extent_iff {ptr len : Word} :
    Admits mmapBase m (extent ptr len) ↔ Tested mmapBase ptr len := by
  refine ⟨admits_extent,fun h => ?_⟩
  have hpass : ¬(ptr ≠ 0 ∧ len ≠ 0 ∧ checkExtent mmapBase ptr len ≠ 0) := by
    rintro ⟨h0,hl,hc⟩
    rcases h with h | h | h
    · exact h0 h
    · exact hl h
    · exact hc (checkExtent_eq_zero.mpr h)
  change finalErr mmapBase m {ptr := ptr,len := len} = 0
  simp only [finalErr,if_neg hpass]
  rfl

theorem handled_of_untouched (h : dispatch mmapBase m tf ≠ .assertFailed) (hp : Placed mmapBase)
    (hd : dispatchAccesses mmapBase m tf = []) (hm : syscallMonitorAccesses m tf = [])
    (hf : syscallDoForealAccesses mmapBase m host tf = []) :
    Handled mmapBase (syscallHandler mmapBase m rules host tf) := by
  rw [handled_iff h hp,hd,hm,hf]
  exact ⟨nofun,fun _ => ⟨nofun,fun _ => nofun⟩⟩

theorem accept_handled_iff (hs : Syscall.ofRax tf.rax = .accept) (hp : Placed mmapBase) :
    Handled mmapBase (syscallHandler mmapBase m rules host tf) ↔
      (tf.arg2 ≠ 0 → memRefIsSafe mmapBase tf.arg2 4 = true →
        tf.arg1 ≠ 0 ∧ tf.arg2.toNat + 4 < 2^64) := by
  have hm : syscallMonitorAccesses m tf = [] := by simp only [syscallMonitorAccesses,hs]
  have hf : syscallDoForealAccesses mmapBase m host tf = [] := by
    simp only [syscallDoForealAccesses,hs]
  have hd : dispatch mmapBase m tf = if tf.arg2 ≠ 0 then
      if checkExtent mmapBase tf.arg2 (size sizeofSocklen) ≠ 0 then .fallThrough {err := -EFAULT}
      else if tf.arg1 = 0 then .assertFailed
      else extent tf.arg1 ((load32 m tf.arg2).setWidth 64)
    else .fallThrough {} := by simp only [dispatch,hs]
  have ha : dispatchAccesses mmapBase m tf = if tf.arg2 ≠ 0 then
      if checkExtent mmapBase tf.arg2 (size sizeofSocklen) ≠ 0 then []
      else [⟨tf.arg2.toNat,sizeofSocklen⟩]
    else [] := by simp only [dispatchAccesses,hs]
  by_cases h2 : tf.arg2 ≠ 0
  · rw [if_pos h2] at hd ha
    by_cases hsafe : memRefIsSafe mmapBase tf.arg2 4 = true
    · have hc : checkExtent mmapBase tf.arg2 (size sizeofSocklen) = 0 :=
        checkExtent_eq_zero.mpr hsafe
      rw [if_neg (not_not.mpr hc)] at hd ha
      by_cases h1 : tf.arg1 = 0
      · rw [if_pos h1] at hd
        have hnone : syscallHandler mmapBase m rules host tf = none := by
          simp only [syscallHandler,syscallCheckParams,hd]
        rw [hnone]
        exact iff_of_false id fun h => (h h2 hsafe).1 h1
      · rw [if_neg h1] at hd
        have hne : dispatch mmapBase m tf ≠ .assertFailed := by
          rw [hd]
          nofun
        rw [handled_iff hne hp,hm,hf,ha]
        have hparts := (partsOf_whole tf.arg2 4).confined_iff hp hsafe
        constructor
        · rintro ⟨h,-⟩ - -
          exact ⟨h1,(hparts.mp h).2⟩
        · intro h
          exact ⟨hparts.mpr ⟨h2,(h h2 hsafe).2⟩,fun _ => ⟨nofun,fun _ => nofun⟩⟩
    · have hc : checkExtent mmapBase tf.arg2 (size sizeofSocklen) ≠ 0 :=
        fun h => hsafe (checkExtent_eq_zero.mp h)
      rw [if_pos hc] at hd ha
      refine iff_of_true (handled_of_untouched ?_ hp ha hm hf) fun _ h => absurd h hsafe
      rw [hd]
      nofun
  · rw [if_neg h2] at hd ha
    refine iff_of_true (handled_of_untouched ?_ hp ha hm hf) fun h => absurd h h2
    rw [hd]
    nofun

theorem vector_handled_iff (hs : Syscall.ofRax tf.rax = .readv ∨ Syscall.ofRax tf.rax = .writev)
    (hp : Placed mmapBase) {num : CInt} (hnum : num = tf.arg2.setWidth 32) :
    Handled mmapBase (syscallHandler mmapBase m rules host tf) ↔
      (num ≠ 0 → memRefIsSafe mmapBase tf.arg1 (16 * num.signExtend 64) = true →
        tf.arg1 ≠ 0 ∧ tf.arg1.toNat + (16 * num.signExtend 64).toNat < 2^64) := by
  have hm : syscallMonitorAccesses m tf = [] := by
    rcases hs with hs | hs <;> simp only [syscallMonitorAccesses,hs]
  have hf : syscallDoForealAccesses mmapBase m host tf = [] := by
    rcases hs with hs | hs <;> simp only [syscallDoForealAccesses,hs]
  have ha : dispatchAccesses mmapBase m tf = checkIovecAccesses mmapBase m tf.arg1 num := by
    rcases hs with hs | hs <;> simp only [dispatchAccesses,hs,hnum]
  have hne : dispatch mmapBase m tf ≠ .assertFailed :=
    dispatch_ne_assertFailed (by rcases hs with hs | hs <;> rw [hs] <;> decide)
  rw [handled_iff hne hp,hm,hf,ha]
  have hrest : (Admits mmapBase m (dispatch mmapBase m tf) →
      (∀ s ∈ ([] : List Span), Confined mmapBase s) ∧
      ((syscallMonitor m rules tf).1 ≠ 0 → ∀ s ∈ ([] : List Span), Confined mmapBase s)) :=
    fun _ => ⟨nofun,fun _ => nofun⟩
  rw [and_iff_left hrest]
  by_cases hsafe : memRefIsSafe mmapBase tf.arg1 (16 * num.signExtend 64) = true
  · have hc : checkExtent mmapBase tf.arg1 (size sizeofIovec * num.signExtend 64) = 0 :=
      checkExtent_eq_zero.mpr hsafe
    rw [checkIovecAccesses,if_neg (not_not.mpr hc)]
    by_cases h0 : num = 0
    · subst h0
      exact iff_of_true nofun fun h => absurd rfl h
    · rw [(partsOf_vector h0 hsafe).confined_iff hp hsafe]
      exact ⟨fun h _ _ => h,fun h => h h0 hsafe⟩
  · have hc : checkExtent mmapBase tf.arg1 (size sizeofIovec * num.signExtend 64) ≠ 0 :=
      fun h => hsafe (checkExtent_eq_zero.mp h)
    rw [checkIovecAccesses,if_pos hc]
    exact iff_of_true nofun fun _ h => absurd h hsafe

theorem partsOf_sockaddr {addr len : Word} (hlen : len.setWidth 32 = sizeofSockaddrIn)
    {fields : List Span} (hfields : ∀ s ∈ fields, ∃ k n, s = ⟨(addr + size k).toNat,n⟩ ∧ k + n ≤ 16) :
    PartsOf addr len (sockaddrAccesses m addr (len.setWidth 32) fields) := by
  have h16 : 16 ≤ len.toNat := by
    have h := congrArg BitVec.toNat hlen
    rw [BitVec.toNat_setWidth] at h
    have hval : sizeofSockaddrIn.toNat = 16 := rfl
    omega
  rw [sockaddrAccesses,if_pos hlen]
  refine ⟨⟨2,List.mem_cons_self⟩,fun s hs => ?_⟩
  rcases List.mem_cons.mp hs with rfl | hs
  · exact ⟨0,2,by rw [show addr + size 0 = addr from BitVec.add_zero addr],by omega⟩
  · split_ifs at hs
    · obtain ⟨k,n,rfl,hkn⟩ := hfields s hs
      exact ⟨k,n,rfl,by omega⟩
    · exact absurd hs List.not_mem_nil

theorem sockaddr_handled_iff (hs : Syscall.ofRax tf.rax = .bind ∨ Syscall.ofRax tf.rax = .connect)
    (hp : Placed mmapBase) : Handled mmapBase (syscallHandler mmapBase m rules host tf) ↔
      (addrlen tf = sizeofSockaddrIn → Straight mmapBase tf.arg1 tf.arg2) := by
  have hf : syscallDoForealAccesses mmapBase m host tf = [] := by
    rcases hs with hs | hs <;> simp only [syscallDoForealAccesses,hs]
  have ha : dispatchAccesses mmapBase m tf = [] := by
    rcases hs with hs | hs <;> simp only [dispatchAccesses,hs]
  have hd : dispatch mmapBase m tf = extent tf.arg1 tf.arg2 := by
    rcases hs with hs | hs <;> simp only [dispatch,hs]
  have hne : dispatch mmapBase m tf ≠ .assertFailed := by
    rw [hd]
    nofun
  obtain ⟨fields,hm,hfields⟩ : ∃ fields,
      syscallMonitorAccesses m tf = sockaddrAccesses m tf.arg1 (addrlen tf) fields ∧
      ∀ s ∈ fields, ∃ k n, s = ⟨(tf.arg1 + size k).toNat,n⟩ ∧ k + n ≤ 16 := by
    rcases hs with hs | hs
    · refine ⟨_,by simp only [syscallMonitorAccesses,hs,checkBindAccesses]; rfl,fun s hmem => ?_⟩
      exact ⟨2,2,List.mem_singleton.mp hmem,by omega⟩
    · refine ⟨_,by simp only [syscallMonitorAccesses,hs,checkConnectAccesses]; rfl,fun s hmem => ?_⟩
      rcases List.mem_pair.mp hmem with rfl | rfl
      · exact ⟨2,2,rfl,by omega⟩
      · exact ⟨4,4,rfl,by omega⟩
  rw [handled_iff hne hp,ha,hf,hm,hd,admits_extent_iff]
  by_cases hlen : addrlen tf = sizeofSockaddrIn
  · have h2 : tf.arg2 ≠ 0 := by
      intro h
      rw [addrlen,h] at hlen
      exact absurd hlen (by decide)
    rw [← (partsOf_sockaddr (m := m) hlen hfields).tested_iff hp h2]
    exact ⟨fun h _ ht => (h.2 ht).1,fun h => ⟨nofun,fun ht => ⟨h hlen ht,fun _ => nofun⟩⟩⟩
  · rw [sockaddrAccesses,if_neg hlen]
    exact iff_of_true ⟨nofun,fun _ => ⟨nofun,fun _ => nofun⟩⟩ fun h => absurd h hlen

theorem foreal_handled_iff (hd : dispatchAccesses mmapBase m tf = [])
    (hne : dispatch mmapBase m tf ≠ .assertFailed)
    (hm : syscallMonitor m rules tf = (1,tf)) (hma : syscallMonitorAccesses m tf = [])
    (hp : Placed mmapBase) : Handled mmapBase (syscallHandler mmapBase m rules host tf) ↔
      (Admits mmapBase m (dispatch mmapBase m tf) →
        ∀ s ∈ syscallDoForealAccesses mmapBase m host tf, Confined mmapBase s) := by
  rw [handled_iff hne hp,hd,hm,hma]
  exact ⟨fun h ha => (h.2 ha).2 Int.one_ne_zero,
    fun h => ⟨nofun,fun ha => ⟨nofun,fun _ => h ha⟩⟩⟩

theorem archPrctl_handled_iff (hs : Syscall.ofRax tf.rax = .archPrctl) (hp : Placed mmapBase) :
    Handled mmapBase (syscallHandler mmapBase m rules host tf) ↔
      (tf.arg0 = ARCH_GET_FS → Straight mmapBase tf.arg1 8) := by
  rw [foreal_handled_iff (by simp only [dispatchAccesses,hs])
    (dispatch_ne_assertFailed (by rw [hs]; decide)) (by simp only [syscallMonitor,hs])
    (by simp only [syscallMonitorAccesses,hs]) hp]
  simp only [dispatch,syscallDoForealAccesses,hs]
  by_cases hget : tf.arg0 = ARCH_GET_FS
  · rw [if_pos hget,if_pos hget,admits_extent_iff]
    exact ((partsOf_whole tf.arg1 8).tested_iff hp (by decide)).trans
      ⟨fun h _ => h,fun h => h hget⟩
  · rw [if_neg hget,if_neg hget]
    exact iff_of_true (fun _ => List.forall_mem_nil _) fun h => absurd h hget

theorem clone_handled_iff (hs : Syscall.ofRax tf.rax = .clone) (hp : Placed mmapBase) :
    Handled mmapBase (syscallHandler mmapBase m rules host tf) ↔
      (tf.arg1 ≠ 0 → host.threadCreated = true →
        (tf.arg0.setWidth 32 &&& CLONE_PARENT_SETTID : CInt) ≠ 0 →
        Confined mmapBase ⟨tf.arg2.toNat,4⟩) := by
  rw [foreal_handled_iff (by simp only [dispatchAccesses,hs])
    (dispatch_ne_assertFailed (by rw [hs]; decide)) (by simp only [syscallMonitor,hs])
    (by simp only [syscallMonitorAccesses,hs]) hp]
  have hadm : Admits mmapBase m (dispatch mmapBase m tf) := by
    simp only [dispatch,hs]
    rfl
  simp only [hadm,true_imp_iff,syscallDoForealAccesses,hs,duneCloneAccesses,
    dunePthreadCreateAccesses,pthreadEntryAccesses]
  split_ifs with h1 h2 h3
  · simp only [List.forall_mem_singleton,h1,h2,h3,true_imp_iff,ne_eq,not_false_iff]
  · exact iff_of_true (List.forall_mem_nil _) fun _ _ h => absurd h h3
  · exact iff_of_true (List.forall_mem_nil _) fun _ h => absurd h h2
  · exact iff_of_true (List.forall_mem_nil _) fun h => absurd h h1

theorem execve_handled_iff (hs : Syscall.ofRax tf.rax = .execve) (hp : Placed mmapBase) :
    Handled mmapBase (syscallHandler mmapBase m rules host tf) ↔
      tf.arg0 ≠ 0 ∧ (checkString mmapBase m tf.arg0 = 0 → host.file.Runs →
        ArgvConfined mmapBase m tf.arg1) := by
  have hma : syscallMonitorAccesses m tf = [] := by simp only [syscallMonitorAccesses,hs]
  have hm : syscallMonitor m rules tf = (1,tf) := by simp only [syscallMonitor,hs]
  have ha : dispatchAccesses mmapBase m tf = checkStringAccesses mmapBase m tf.arg0 := by
    simp only [dispatchAccesses,hs]
  have hf : syscallDoForealAccesses mmapBase m host tf =
      execExecevAccesses mmapBase m host.file tf.arg0 tf.arg1 := by
    simp only [syscallDoForealAccesses,hs]
  have hadm : Admits mmapBase m (dispatch mmapBase m tf) ↔ checkString mmapBase m tf.arg0 = 0 := by
    simp only [dispatch,hs]
    split_ifs with hstr
    · exact iff_of_false (fun h => neg_EFAULT_ne_zero (admits_fallThrough h).1) hstr
    · exact iff_of_true rfl (not_not.mp hstr)
  rw [handled_iff (dispatch_ne_assertFailed (by rw [hs]; decide)) hp,ha,hma,hm,hf,hadm,
    checkStringAccesses_confined_iff hp]
  refine and_congr_right fun h0 => ?_
  rw [execExecevAccesses_confined_iff hp host.file h0]
  exact ⟨fun h hc => (h hc).2 Int.one_ne_zero,fun h hc => ⟨List.forall_mem_nil _,fun _ => h hc⟩⟩

end Handler

/-- The sandbox follows an application's pointers into the windows only, and the
assertion holds, exactly for the frames whose pointers are fit to be followed. -/
theorem syscallHandler_confined_iff {mmapBase : Word} (hp : Placed mmapBase) (m : Mem)
    (rules : List FwRule) (host : Host) (tf : TrapFrame) :
    Handled mmapBase (syscallHandler mmapBase m rules host tf) ↔ Vetted mmapBase m host tf := by
  unfold Vetted
  cases hs : Syscall.ofRax tf.rax
  case accept => exact accept_handled_iff hs hp
  case readv => exact vector_handled_iff (.inl hs) hp rfl
  case writev => exact vector_handled_iff (.inr hs) hp rfl
  case bind => exact sockaddr_handled_iff (.inl hs) hp
  case connect => exact sockaddr_handled_iff (.inr hs) hp
  case archPrctl => exact archPrctl_handled_iff hs hp
  case clone => exact clone_handled_iff hs hp
  case execve => exact execve_handled_iff hs hp
  all_goals
    exact iff_of_true (handled_of_untouched (dispatch_ne_assertFailed (by rw [hs]; decide)) hp
      (by simp only [dispatchAccesses,hs]) (by simp only [syscallMonitorAccesses,hs])
      (by simp only [syscallDoForealAccesses,hs])) trivial

def emptyHost : Host := ⟨false,⟨false,0,fun _ => 0⟩⟩

/-- `arch_prctl(ARCH_GET_FS, 0x400000)` writes one word of the program image. -/
theorem syscallHandler_confined_iff_get_fs :
    Handled 0x100000000000 (syscallHandler 0x100000000000 (fun _ => 0) [] emptyHost
      {rax := 158,rdi := 0x1003,rsi := 0x400000}) :=
  (syscallHandler_confined_iff ⟨by decide,by decide⟩ (fun _ => 0) [] emptyHost
    {rax := 158,rdi := 0x1003,rsi := 0x400000}).mpr fun _ => ⟨by decide,fun _ => by decide⟩

/-- `arch_prctl(ARCH_GET_FS, NULL)` passes the check and writes to address zero. -/
theorem getFs_null_written :
    ¬∀ (mmapBase : Word) (m : Mem) (rules : List FwRule) (host : Host) (tf : TrapFrame),
      Placed mmapBase → Handled mmapBase (syscallHandler mmapBase m rules host tf) := by
  intro h
  have hbad := h 0x100000000000 (fun _ => 0) [] emptyHost {rax := 158,rdi := 0x1003}
    ⟨by decide,by decide⟩
  exact absurd (hbad ⟨0,8⟩ (by decide)) (by decide)

end SandboxAccesses
end VmplApps

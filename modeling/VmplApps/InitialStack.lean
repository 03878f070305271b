import VmplApps.ByteBlocks
import VmplApps.ElfLoader

/-! The initial stack of the application. Its strings are copied to the top, and
below them come the argument count, the vectors of pointers and the auxiliary
vector, which grow up towards the strings from an address computed beforehand. -/
namespace VmplApps
namespace InitialStack

open ByteMemory
open ElfLoader (ElfData)

/-- A string in the memory of the sandbox: its address and the bytes before its
terminator. -/
structure CStr where
  addr : ℕ
  bytes : List Byte
  noNul : 0 ∉ bytes

def CStr.stored (s : CStr) : List Byte := s.bytes ++ [0]

/-- A vector of strings that lie back to back, as the host kernel lays them out. -/
structure StringVector where
  strs : List CStr
  adjacent : strs.IsChain fun s t => t.addr = s.addr + s.bytes.length + 1

/-- `Elf64_auxv_t`. -/
structure Aux where
  aType : Word
  aVal : Word
  deriving DecidableEq, Repr

def NUM_AUX : ℕ := 13
def AT_PHDR : Word := 3
def AT_PHNUM : Word := 5
def AT_PAGESZ : Word := 6
def AT_FLAGS : Word := 8
def AT_ENTRY : Word := 9
def AT_UID : Word := 11
def AT_EUID : Word := 12
def AT_GID : Word := 13
def AT_EGID : Word := 14
def AT_HWCAP : Word := 16
def AT_CLKTCK : Word := 17
def AT_SECURE : Word := 23
def AT_RANDOM : Word := 25

/-- `count_args`: the number of strings, and the bytes from the first one to the
terminator of the last one. -/
def countArgs (argv : List CStr) : ℕ × ℕ :=
  match argv.head?, argv.getLast? with
  | some first, some last => (argv.length,last.addr + last.bytes.length - first.addr + 1)
  | _, _ => (0,0)

def findAuxEntry : List Aux → Word → Option Aux
  | [], _ => none
  | aux::rest, type =>
    if aux.aType = 0 then none
    else if aux.aType = type then some aux
    else findAuxEntry rest type

def setAux (x : Mem × ℕ) (type val : Word) : Mem × ℕ :=
  (writeBytes (writeBytes x.1 x.2 (wordBytes type)) (x.2 + 8) (wordBytes val),x.2 + 16)

/-- `copy_aux`; a missing entry fails an assertion. -/
def copyAux (ref : List Aux) (x : Mem × ℕ) (type : Word) : Option (Mem × ℕ) :=
  (findAuxEntry ref type).map fun found => setAux x type found.aVal

def setupAux (ref : List Aux) (m : Mem) (cur : ℕ) (data : ElfData) : Option Mem := do
  let x ← copyAux ref (m,cur) AT_HWCAP
  let x ← copyAux ref x AT_PAGESZ
  let x ← copyAux ref x AT_CLKTCK
  let x := setAux x AT_PHDR data.phdr
  let x := setAux x AT_PHNUM (data.phnum.signExtend 64)
  let x ← copyAux ref x AT_FLAGS
  let x := setAux x AT_ENTRY data.entry
  let x ← copyAux ref x AT_UID
  let x ← copyAux ref x AT_EUID
  let x ← copyAux ref x AT_GID
  let x ← copyAux ref x AT_EGID
  let x := setAux x AT_SECURE 0
  let x := setAux x AT_RANDOM data.phdr
  -- only the type of the last entry is written
  some (writeBytes x.1 x.2 (wordBytes 0))

/-- Memory and the two pointers that `setup_arguments` moves. -/
structure Cursor where
  mem : Mem
  argPtr : ℕ
  dataPtr : ℕ

/-- `*arg_ptr = w; arg_ptr++`. -/
def putWord (x : Cursor) (w : Word) : Cursor :=
  {x with mem := writeBytes x.mem x.argPtr (wordBytes w),argPtr := x.argPtr + 8}

/-- `data_ptr = stpcpy(data_ptr, s) + 1`. -/
def copyString (x : Cursor) (s : CStr) : Cursor :=
  {x with mem := writeBytes x.mem x.dataPtr s.stored,dataPtr := x.dataPtr + s.bytes.length + 1}

def putString (x : Cursor) (s : CStr) : Cursor :=
  copyString (putWord x (BitVec.ofNat 64 x.dataPtr)) s

def stringLen (path : CStr) (argv envv : List CStr) : ℕ :=
  (countArgs argv).2 + (countArgs envv).2 + (path.bytes.length + 1)

/-- Bytes needed: strings, auxiliary entries, and words for the count, the pointers
and the two terminators. -/
def neededLen (path : CStr) (argv envv : List CStr) : ℕ :=
  stringLen path argv envv + 16*NUM_AUX + ((countArgs argv).1 + (countArgs envv).1 + 4)*8

/-- `(len + 0x1f) & ~0x1f`. -/
def frameLen (path : CStr) (argv envv : List CStr) : ℕ := (neededLen path argv envv + 31)/32*32

/-- The cursor of `setup_arguments` when the strings are copied and both vectors of
pointers are ended; `dataPtr` is the address after the last byte copied. -/
def copiedStrings (m : Mem) (sp : ℕ) (path : CStr) (argv envv : List CStr) : Cursor :=
  let x : Cursor := ⟨m,sp - frameLen path argv envv,sp - stringLen path argv envv⟩
  let x := putWord x (BitVec.ofNat 64 ((countArgs argv).1 + 1))
  let x := putString x path
  let x := argv.foldl putString x
  let x := putWord x 0
  let x := envv.foldl putString x
  putWord x 0

/-- `setup_arguments`; the sources are outside of the memory that is written. -/
def setupArguments (m : Mem) (sp : ℕ) (path : CStr) (argv envv : List CStr) (ref : List Aux)
    (data : ElfData) : Option (Mem × ℕ) :=
  (setupAux ref (copiedStrings m sp path argv envv).mem (copiedStrings m sp path argv envv).argPtr
    data).map fun m => (m,sp - frameLen path argv envv)

def StringAt (m : Mem) : ℕ → List Byte → Prop
  | a, [] => m a = 0
  | a, b::bs => m a = b ∧ b ≠ 0 ∧ StringAt m (a+1) bs

def PointersAt (m : Mem) : ℕ → List (List Byte) → Prop
  | a, [] => wordAt m a = 0
  | a, s::rest => wordAt m a ≠ 0 ∧ StringAt m (wordAt m a).toNat s ∧ PointersAt m (a+8) rest

def AuxAt (m : Mem) : ℕ → List Aux → Prop
  | a, [] => wordAt m a = 0
  | a, x::rest => (wordAt m a = x.aType ∧ x.aType ≠ 0 ∧ wordAt m (a+8) = x.aVal) ∧ AuxAt m (a+16) rest

/-- What a program finds at its initial stack pointer. -/
structure Decodes (m : Mem) (sp : ℕ) (args envs : List (List Byte)) (aux : List Aux) : Prop where
  argc : wordAt m sp = BitVec.ofNat 64 args.length
  argv : PointersAt m (sp + 8) args
  envv : PointersAt m (sp + 8*(args.length + 2)) envs
  aux : AuxAt m (sp + 8*(args.length + envs.length + 3)) aux

/-- The entries that the application gets: copies of the reference's, the location of
the program, and a fixed rest. -/
def auxVector (ref : List Aux) (data : ElfData) : Option (List Aux) := do
  let hwcap ← findAuxEntry ref AT_HWCAP
  let pagesz ← findAuxEntry ref AT_PAGESZ
  let clktck ← findAuxEntry ref AT_CLKTCK
  let flags ← findAuxEntry ref AT_FLAGS
  let uid ← findAuxEntry ref AT_UID
  let euid ← findAuxEntry ref AT_EUID
  let gid ← findAuxEntry ref AT_GID
  let egid ← findAuxEntry ref AT_EGID
  some [⟨AT_HWCAP,hwcap.aVal⟩,⟨AT_PAGESZ,pagesz.aVal⟩,⟨AT_CLKTCK,clktck.aVal⟩,⟨AT_PHDR,data.phdr⟩,
    ⟨AT_PHNUM,data.phnum.signExtend 64⟩,⟨AT_FLAGS,flags.aVal⟩,⟨AT_ENTRY,data.entry⟩,
    ⟨AT_UID,uid.aVal⟩,⟨AT_EUID,euid.aVal⟩,⟨AT_GID,gid.aVal⟩,⟨AT_EGID,egid.aVal⟩,⟨AT_SECURE,0⟩,
    ⟨AT_RANDOM,data.phdr⟩]

def blockOf (strs : List CStr) : List Byte := strs.flatMap CStr.stored

def pointersFrom : ℕ → List CStr → List Word
  | _, [] => []
  | d, s::rest => BitVec.ofNat 64 d::pointersFrom (d + s.bytes.length + 1) rest

def auxWords (aux : List Aux) : List Word := aux.flatMap fun x => [x.aType,x.aVal]

section Counting

@[simp] theorem length_stored (s : CStr) : s.stored.length = s.bytes.length + 1 := by
  simp [CStr.stored]

theorem blockOf_cons (s : CStr) (rest : List CStr) :
    blockOf (s::rest) = s.stored ++ blockOf rest := List.flatMap_cons

theorem length_blockOf_cons (s : CStr) (rest : List CStr) :
    (blockOf (s::rest)).length = s.bytes.length + 1 + (blockOf rest).length := by
  rw [blockOf_cons,List.length_append,length_stored]

theorem last_of_chain (s : CStr) (rest : List CStr)
    (h : (s::rest).IsChain fun s t => t.addr = s.addr + s.bytes.length + 1) :
    ((s::rest).getLast (List.cons_ne_nil s rest)).addr +
      ((s::rest).getLast (List.cons_ne_nil s rest)).bytes.length + 1 =
      s.addr + (blockOf (s::rest)).length := by
  induction rest generalizing s with
  | nil => simp [blockOf,CStr.stored,Nat.add_assoc]
  | cons t rest ih =>
    rw [List.isChain_cons_cons] at h
    rw [List.getLast_cons (List.cons_ne_nil t rest),ih t h.2,h.1,length_blockOf_cons s]
    omega

theorem countArgs_eq (v : StringVector) : countArgs v.strs = (v.strs.length,(blockOf v.strs).length) := by
  obtain ⟨strs,hadj⟩ := v
  cases strs with
  | nil => rfl
  | cons s rest =>
    have hlast := last_of_chain s rest hadj
    have hlen := length_blockOf_cons s rest
    simp only [countArgs,List.head?_cons,List.getLast?_eq_getLast_of_ne_nil (List.cons_ne_nil s rest),
      Prod.mk.injEq,true_and]
    omega

end Counting

/-- The memory under construction: a block of strings from `top` on, and over it the
words from `base` on. -/
structure Built (m : Mem) (base top : ℕ) (words : List Word) (strings : List Byte) (x : Cursor) :
    Prop where
  mem : x.mem = writeBytes (writeBytes m top strings) base (words.flatMap wordBytes)
  argPtr : x.argPtr = base + 8*words.length
  dataPtr : x.dataPtr = top + strings.length

section Building
variable {m : Mem} {base top : ℕ} {words : List Word} {strings : List Byte} {x : Cursor}

theorem writeWord (w : Word) : writeBytes (writeBytes m base (words.flatMap wordBytes))
    (base + 8*words.length) (wordBytes w) = writeBytes m base ((words ++ [w]).flatMap wordBytes) := by
  rw [← length_flatMap_wordBytes,writeBytes_append,List.flatMap_append,List.flatMap_singleton]

theorem Built.putWord (h : Built m base top words strings x) (w : Word) :
    Built m base top (words ++ [w]) strings (putWord x w) := by
  refine ⟨?_,?_,h.dataPtr⟩
  · rw [InitialStack.putWord,h.mem,h.argPtr,writeWord]
  · rw [InitialStack.putWord,h.argPtr,List.length_append,List.length_singleton]
    rfl

theorem Built.copyString (h : Built m base top words strings x) (hroom : base + 8*words.length ≤ top)
    (s : CStr) : Built m base top words (strings ++ s.stored) (copyString x s) := by
  refine ⟨?_,h.argPtr,?_⟩
  · rw [InitialStack.copyString,h.mem,h.dataPtr,writeBytes_comm,writeBytes_append]
    rw [length_flatMap_wordBytes]
    omega
  · change x.dataPtr + s.bytes.length + 1 = _
    rw [h.dataPtr,List.length_append,length_stored]
    omega

theorem Built.putString (h : Built m base top words strings x)
    (hroom : base + 8*(words.length + 1) ≤ top) (s : CStr) :
    Built m base top (words ++ [BitVec.ofNat 64 (top + strings.length)]) (strings ++ s.stored)
      (putString x s) := by
  rw [← h.dataPtr]
  exact (h.putWord _).copyString (by rw [List.length_append]; exact hroom) s

theorem Built.putStrings (strs : List CStr) (h : Built m base top words strings x)
    (hroom : base + 8*(words.length + strs.length) ≤ top) :
    Built m base top (words ++ pointersFrom (top + strings.length) strs)
      (strings ++ blockOf strs) (strs.foldl InitialStack.putString x) := by
  induction strs generalizing words strings x with
  | nil => simpa [pointersFrom,blockOf] using h
  | cons s rest ih =>
    rw [List.length_cons] at hroom
    have hrest := ih (h.putString (by omega) s)
      (by rw [List.length_append,List.length_singleton]; omega)
    have hnext : top + (strings ++ s.stored).length = top + strings.length + s.bytes.length + 1 := by
      rw [List.length_append,length_stored]
      omega
    rwa [hnext,List.append_assoc,List.append_assoc] at hrest

theorem length_pointersFrom (d : ℕ) (strs : List CStr) :
    (pointersFrom d strs).length = strs.length := by
  induction strs generalizing d with
  | nil => rfl
  | cons s rest ih => rw [pointersFrom,List.length_cons,ih,List.length_cons]

end Building

structure AuxBuilt (m : Mem) (base : ℕ) (words : List Word) (x : Mem × ℕ) : Prop where
  mem : x.1 = writeBytes m base (words.flatMap wordBytes)
  cur : x.2 = base + 8*words.length

section Auxiliary
variable {m : Mem} {base : ℕ} {words : List Word} {x : Mem × ℕ}

theorem length_auxWords (aux : List Aux) : (auxWords aux).length = 2*aux.length := by
  simp [auxWords,Nat.mul_comm]

theorem AuxBuilt.setAux (h : AuxBuilt m base words x) (type val : Word) :
    AuxBuilt m base (words ++ [type,val]) (setAux x type val) := by
  refine ⟨?_,?_⟩
  · rw [InitialStack.setAux,h.mem,h.cur,writeWord]
    have hnext : base + 8*words.length + 8 = base + 8*(words ++ [type]).length := by
      rw [List.length_append,List.length_singleton]
      omega
    rw [hnext,writeWord,List.append_assoc]
    rfl
  · change x.2 + 16 = _
    rw [h.cur,List.length_append]
    rfl

theorem AuxBuilt.finish (h : AuxBuilt m base words x) :
    writeBytes x.1 x.2 (wordBytes 0) = writeBytes m base ((words ++ [0]).flatMap wordBytes) := by
  rw [h.mem,h.cur,writeWord]

theorem setupAux_eq {ref : List Aux} {data : ElfData} {aux : List Aux}
    (h : AuxBuilt m base words x) (haux : auxVector ref data = some aux) :
    setupAux ref x.1 x.2 data =
      some (writeBytes m base ((words ++ (auxWords aux ++ [0])).flatMap wordBytes)) := by
  simp only [auxVector,Option.bind_eq_bind,Option.bind_eq_some_iff] at haux
  obtain ⟨hwcap,h₁,pagesz,h₂,clktck,h₃,flags,h₄,uid,h₅,euid,h₆,gid,h₇,egid,h₈,haux⟩ := haux
  obtain rfl := Option.some.inj haux
  simp only [setupAux,copyAux,h₁,h₂,h₃,h₄,h₅,h₆,h₇,h₈,Option.map_some,Option.bind_eq_bind,
    Option.bind_some]
  have hbuilt := ((((((((((((h.setAux AT_HWCAP hwcap.aVal).setAux AT_PAGESZ pagesz.aVal).setAux
    AT_CLKTCK clktck.aVal).setAux AT_PHDR data.phdr).setAux AT_PHNUM
    (data.phnum.signExtend 64)).setAux AT_FLAGS flags.aVal).setAux AT_ENTRY data.entry).setAux
    AT_UID uid.aVal).setAux AT_EUID euid.aVal).setAux AT_GID gid.aVal).setAux AT_EGID
    egid.aVal).setAux AT_SECURE 0).setAux AT_RANDOM data.phdr
  rw [hbuilt.finish]
  simp only [auxWords,List.flatMap_cons,List.flatMap_nil,List.append_assoc,List.cons_append,
    List.nil_append]

end Auxiliary

def stackWords (top : ℕ) (path : CStr) (argv envv : List CStr) (aux : List Aux) : List Word :=
  [BitVec.ofNat 64 (argv.length + 1)] ++ pointersFrom top (path::argv) ++ [0] ++
    pointersFrom (top + (blockOf (path::argv)).length) envv ++ [0] ++ auxWords aux

/-- Bytes between the auxiliary vector and the strings, the effect of rounding. -/
def slack (path : CStr) (argv envv : List CStr) : ℕ :=
  frameLen path argv envv - neededLen path argv envv

section Frame
variable {m : Mem} {sp : ℕ} (path : CStr) (argv envv : StringVector) {ref : List Aux}
  {data : ElfData} {aux : List Aux}

theorem stringLen_eq : stringLen path argv.strs envv.strs =
    (blockOf (path::argv.strs)).length + (blockOf envv.strs).length := by
  rw [stringLen,countArgs_eq,countArgs_eq,length_blockOf_cons]
  omega

theorem neededLen_eq : neededLen path argv.strs envv.strs = stringLen path argv.strs envv.strs +
    8*(argv.strs.length + envv.strs.length + 30) := by
  rw [neededLen,countArgs_eq,countArgs_eq,NUM_AUX]
  omega

theorem neededLen_le (path : CStr) (argv envv : List CStr) :
    neededLen path argv envv ≤ frameLen path argv envv := by
  rw [frameLen]
  omega

theorem copiedStrings_built (hroom : frameLen path argv.strs envv.strs ≤ sp) :
    Built m (sp - frameLen path argv.strs envv.strs) (sp - stringLen path argv.strs envv.strs)
      ([BitVec.ofNat 64 (argv.strs.length + 1)] ++
        pointersFrom (sp - stringLen path argv.strs envv.strs) (path::argv.strs) ++ [0] ++
        pointersFrom (sp - stringLen path argv.strs envv.strs + (blockOf (path::argv.strs)).length)
          envv.strs ++ [0])
      (blockOf (path::argv.strs) ++ blockOf envv.strs)
      (copiedStrings m sp path argv.strs envv.strs) := by
  have hneeded := neededLen_le path argv.strs envv.strs
  rw [neededLen_eq] at hneeded
  have hcount : (countArgs argv.strs).1 = argv.strs.length := by rw [countArgs_eq]
  have hstart : Built m (sp - frameLen path argv.strs envv.strs)
      (sp - stringLen path argv.strs envv.strs) [] []
      ⟨m,sp - frameLen path argv.strs envv.strs,sp - stringLen path argv.strs envv.strs⟩ :=
    ⟨by simp,rfl,rfl⟩
  have hargs := (hstart.putWord (BitVec.ofNat 64 (argv.strs.length + 1))).putStrings
    (path::argv.strs) (by simp; omega)
  have henvs := ((hargs.putWord 0).putStrings envv.strs
    (by simp [length_pointersFrom]; omega)).putWord 0
  rw [copiedStrings,hcount]
  exact henvs

/-- The whole memory after `setup_arguments`. -/
theorem setupArguments_eq (hroom : frameLen path argv.strs envv.strs ≤ sp)
    (haux : auxVector ref data = some aux) :
    setupArguments m sp path argv.strs envv.strs ref data =
      some (writeBytes (writeBytes m (sp - stringLen path argv.strs envv.strs)
          (blockOf (path::argv.strs) ++ blockOf envv.strs))
        (sp - frameLen path argv.strs envv.strs)
        ((stackWords (sp - stringLen path argv.strs envv.strs) path argv.strs envv.strs aux ++
          [0]).flatMap wordBytes),sp - frameLen path argv.strs envv.strs) := by
  have hcopied := copiedStrings_built (m := m) path argv envv hroom
  have hfinal := setupAux_eq (x := (_,_)) ⟨hcopied.mem,hcopied.argPtr⟩ haux
  rw [setupArguments,stackWords,List.append_assoc _ (auxWords aux)]
  exact congrArg (Option.map fun m => (m,sp - frameLen path argv.strs envv.strs)) hfinal

theorem length_stackWords (top : ℕ) (argv envv : List CStr) (aux : List Aux) :
    (stackWords top path argv envv aux).length = argv.length + envv.length + 4 + 2*aux.length := by
  simp only [stackWords,List.length_append,length_pointersFrom,List.length_cons,List.length_nil,
    length_auxWords]
  omega

end Frame

section Reading
variable {m : Mem} {a d : ℕ}

theorem stringAt_iff {bs : List Byte} (h : 0 ∉ bs) :
    StringAt m a bs ↔ BytesAt m a (bs ++ [0]) := by
  induction bs generalizing a with
  | nil => simp [StringAt,BytesAt]
  | cons b bs ih =>
    rw [List.mem_cons,not_or] at h
    rw [StringAt,List.cons_append,BytesAt,ih h.2]
    exact and_congr_right fun _ => and_iff_right (Ne.symm h.1)

theorem stringAt_stored (s : CStr) : StringAt m a s.bytes ↔ BytesAt m a s.stored :=
  stringAt_iff s.noNul

/-- A vector of pointers into a block is read back exactly when the block is intact. -/
theorem pointersAt_iff {strs : List CStr} (hd : 0 < d) (hlim : d + (blockOf strs).length ≤ 2^64)
    (hw : WordsAt m a (pointersFrom d strs ++ [0])) :
    PointersAt m a (strs.map CStr.bytes) ↔ BytesAt m d (blockOf strs) := by
  induction strs generalizing a d with
  | nil => simpa [PointersAt,BytesAt,blockOf] using hw.1
  | cons s rest ih =>
    rw [length_blockOf_cons] at hlim
    obtain ⟨hword,hrest⟩ := hw
    have hptr : (wordAt m a).toNat = d := by
      rw [hword,BitVec.toNat_ofNat,Nat.mod_eq_of_lt (by omega)]
    have hne : wordAt m a ≠ 0 := by
      intro h0
      rw [h0] at hptr
      exact absurd hptr (by simp; omega)
    rw [List.map_cons,PointersAt,hptr,stringAt_stored,ih (by omega) (by omega) hrest,
      blockOf_cons,bytesAt_append,length_stored]
    exact and_iff_right hne

theorem auxAt_of_words {aux : List Aux} (htypes : ∀ x ∈ aux, x.aType ≠ 0)
    (hw : WordsAt m a (auxWords aux ++ [0])) : AuxAt m a aux := by
  induction aux generalizing a with
  | nil => exact hw.1
  | cons x rest ih =>
    obtain ⟨htype,hval,hrest⟩ := hw
    exact ⟨⟨htype,htypes x List.mem_cons_self,hval⟩,
      ih (fun y hy => htypes y (List.mem_cons_of_mem _ hy)) hrest⟩

theorem auxVector_types {ref : List Aux} {data : ElfData} {aux : List Aux}
    (h : auxVector ref data = some aux) : aux.length = NUM_AUX ∧ ∀ x ∈ aux, x.aType ≠ 0 := by
  simp only [auxVector,Option.bind_eq_bind,Option.bind_eq_some_iff] at h
  obtain ⟨hwcap,-,pagesz,-,clktck,-,flags,-,uid,-,euid,-,gid,-,egid,-,h⟩ := h
  obtain rfl := Option.some.inj h
  refine ⟨rfl,?_⟩
  simp only [List.forall_mem_cons]
  decide

end Reading

section Decoding
variable {m : Mem} {base top : ℕ} {path : CStr} {argv envv : List CStr} {aux : List Aux}

theorem decodes_iff (htop : 0 < top)
    (hlim : top + (blockOf (path::argv)).length + (blockOf envv).length ≤ 2^64)
    (htypes : ∀ x ∈ aux, x.aType ≠ 0)
    (hw : WordsAt m base (stackWords top path argv envv aux ++ [0])) :
    Decodes m base ((path::argv).map CStr.bytes) (envv.map CStr.bytes) aux ↔
      BytesAt m top (blockOf (path::argv) ++ blockOf envv) := by
  have hgroup : stackWords top path argv envv aux ++ [0] =
      [BitVec.ofNat 64 (argv.length + 1)] ++ ((pointersFrom top (path::argv) ++ [0]) ++
        ((pointersFrom (top + (blockOf (path::argv)).length) envv ++ [0]) ++
          (auxWords aux ++ [0]))) := by
    simp only [stackWords,List.append_assoc]
  rw [hgroup] at hw
  obtain ⟨⟨hargc,-⟩,hw⟩ := wordsAt_append.mp hw
  obtain ⟨hargv,hw⟩ := wordsAt_append.mp hw
  obtain ⟨henvv,haux⟩ := wordsAt_append.mp hw
  have hpos : base + 8*[BitVec.ofNat 64 (argv.length + 1)].length +
      8*(pointersFrom top (path::argv) ++ [0]).length =
      base + 8*(((path::argv).map CStr.bytes).length + 2) := by
    rw [List.length_append,length_pointersFrom,List.length_map,List.length_singleton,
      List.length_singleton]
    omega
  have hpos' : base + 8*(((path::argv).map CStr.bytes).length + 2) +
      8*(pointersFrom (top + (blockOf (path::argv)).length) envv ++ [0]).length =
      base + 8*(((path::argv).map CStr.bytes).length + (envv.map CStr.bytes).length + 3) := by
    rw [List.length_append,length_pointersFrom,List.length_map,List.length_map,
      List.length_singleton]
    omega
  rw [hpos] at henvv haux
  rw [hpos'] at haux
  have hcount : wordAt m base = BitVec.ofNat 64 ((path::argv).map CStr.bytes).length := by
    rw [hargc,List.length_map,List.length_cons]
  rw [bytesAt_append,← pointersAt_iff htop (by omega) hargv,← pointersAt_iff (by omega) hlim henvv]
  exact ⟨fun h => ⟨h.argv,h.envv⟩,fun h => ⟨hcount,h.1,h.2,auxAt_of_words htypes haux⟩⟩

/-- The last word covers the first bytes of the strings when there is no room for it. -/
theorem strings_iff {words : List Word} {strings : List Byte} {gap : ℕ}
    (hgap : base + 8*words.length + gap = top) :
    BytesAt (writeBytes (writeBytes m top strings) base ((words ++ [0]).flatMap wordBytes)) top
      strings ↔ ∀ b ∈ strings.take (8 - gap), b = 0 := by
  have hzero (i : ℕ) (hi : i < (wordBytes 0).length) : (wordBytes 0)[i] = 0 := by
    rw [length_wordBytes] at hi
    interval_cases i <;> rfl
  have hbyte (i : ℕ) (hi : i < strings.length) :
      writeBytes (writeBytes m top strings) base ((words ++ [0]).flatMap wordBytes) (top + i) =
        if i < 8 - gap then 0 else strings[i] := by
    rw [← writeWord]
    split_ifs with hcovered
    · rw [writeBytes_in (by omega) (by rw [length_wordBytes]; omega)]
      exact hzero _ _
    · rw [writeBytes_out (.inr (by rw [length_wordBytes]; omega)),
        writeBytes_out (.inr (by rw [length_flatMap_wordBytes]; omega)),
        writeBytes_in (by omega) (by omega)]
      exact getElem_congr rfl (by omega) _
  rw [bytesAt_iff]
  refine ⟨fun h b hb => ?_,fun h i hi => ?_⟩
  · obtain ⟨i,hi,rfl⟩ := List.mem_take_iff_getElem.mp hb
    rw [← h i (by omega),hbyte i (by omega),if_pos (by omega)]
  · rw [hbyte i hi]
    split_ifs with hcovered
    · exact (h _ (List.mem_take_iff_getElem.mpr ⟨i,by omega,rfl⟩)).symm
    · rfl

end Decoding

/-- The initial stack decodes to what was encoded exactly when the terminator of the
auxiliary vector, for which no room is reserved, falls into the bytes left over by
rounding or onto bytes of the strings that are zero anyway. -/
theorem setupArguments_decodes_iff (m : Mem) (sp : ℕ) (path : CStr) (argv envv : StringVector)
    (ref : List Aux) (data : ElfData) {aux : List Aux} (hsp : sp ≤ 2^64)
    (hroom : frameLen path argv.strs envv.strs ≤ sp) (haux : auxVector ref data = some aux) :
    (∃ m' sp', setupArguments m sp path argv.strs envv.strs ref data = some (m',sp') ∧
      Decodes m' sp' ((path::argv.strs).map CStr.bytes) (envv.strs.map CStr.bytes) aux) ↔
    ∀ b ∈ (blockOf (path::argv.strs) ++ blockOf envv.strs).take
      (8 - slack path argv.strs envv.strs), b = 0 := by
  have hneeded := neededLen_le path argv.strs envv.strs
  have hslack : slack path argv.strs envv.strs = frameLen path argv.strs envv.strs -
    neededLen path argv.strs envv.strs := rfl
  have hlen := stringLen_eq path argv envv
  rw [neededLen_eq] at hneeded hslack
  obtain ⟨hnum,htypes⟩ := auxVector_types haux
  have hwords := length_stackWords path (sp - stringLen path argv.strs envv.strs) argv.strs
    envv.strs aux
  rw [hnum,NUM_AUX] at hwords
  have hpath := length_blockOf_cons path argv.strs
  have hgap : sp - frameLen path argv.strs envv.strs + 8*(stackWords (sp - stringLen path argv.strs
      envv.strs) path argv.strs envv.strs aux).length + slack path argv.strs envv.strs =
      sp - stringLen path argv.strs envv.strs := by omega
  rw [setupArguments_eq path argv envv hroom haux,← strings_iff (m := m) hgap,
    ← decodes_iff (by omega) (by omega) htypes (wordsAt_iff.mpr bytesAt_writeBytes)]
  refine ⟨?_,fun h => ⟨_,_,rfl,h⟩⟩
  rintro ⟨m',sp',heq,h⟩
  cases heq
  exact h

section Bounds
variable {ref : List Aux} {data : ElfData}

end Bounds

section Samples

def hostAux : List Aux := [⟨AT_HWCAP,0x178bfbff⟩,⟨AT_PAGESZ,4096⟩,⟨AT_CLKTCK,100⟩,⟨AT_FLAGS,0⟩,
  ⟨AT_UID,1000⟩,⟨AT_EUID,1000⟩,⟨AT_GID,1000⟩,⟨AT_EGID,1000⟩]

def sampleData : ElfData := ⟨0x401000,0x400040,4⟩

def shellPath : CStr := ⟨0x7000,[0x2f,0x62,0x69,0x6e,0x2f,0x73,0x68],by decide⟩

def pythonPath : CStr :=
  ⟨0x7000,[0x2f,0x75,0x73,0x72,0x2f,0x62,0x69,0x6e,0x2f,0x70,0x79,0x74,0x68,0x6f,0x6e],by decide⟩

def oneArgument : StringVector := ⟨[⟨0x7100,[0x2d,0x63],by decide⟩],by simp⟩

def noStrings : StringVector := ⟨[],by simp⟩

theorem setupArguments_decodes_shell : ∃ aux, auxVector hostAux sampleData = some aux ∧
    frameLen shellPath oneArgument.strs noStrings.strs ≤ 0x1000 ∧
    ∃ m' sp', setupArguments (fun _ => 0xcc) 0x1000 shellPath oneArgument.strs noStrings.strs hostAux
      sampleData = some (m',sp') ∧
      Decodes m' sp' ((shellPath::oneArgument.strs).map CStr.bytes)
        (noStrings.strs.map CStr.bytes) aux := by
  refine ⟨_,rfl,by decide,?_⟩
  exact (setupArguments_decodes_iff (fun _ => 0xcc) 0x1000 shellPath oneArgument noStrings hostAux
    sampleData (by decide) (by decide) rfl).mpr (by decide)

/-- Strings of sixteen bytes fill the frame exactly: the terminator is written over the
first half of the path, which reads back as the empty string. -/
theorem pythonPath_overwritten : ∃ m', setupArguments (fun _ => 0xcc) 0x1000 pythonPath [] [] hostAux
      sampleData = some (m',0xf00) ∧ wordAt m' 0xf08 = 0xff0 ∧ wordAt m' 0xff0 = 0 ∧
    ∀ aux, ¬Decodes m' 0xf00 [pythonPath.bytes] [] aux := by
  have hrun : (setupArguments (fun _ => 0xcc) 0x1000 pythonPath [] [] hostAux sampleData).any
      (fun x => x.2 == 0xf00 && wordAt x.1 0xf08 == 0xff0 && wordAt x.1 0xff0 == 0 &&
        x.1 0xff0 == 0) = true := by decide +kernel
  obtain ⟨⟨m',sp'⟩,heq,hprops⟩ := Option.any_eq_true _ _ |>.mp hrun
  simp only [Bool.and_eq_true,beq_iff_eq] at hprops
  obtain ⟨⟨⟨rfl,hptr⟩,hterm⟩,hbyte⟩ := hprops
  refine ⟨m',heq,hptr,hterm,fun aux h => ?_⟩
  have hstring := h.argv.2.1
  rw [hptr] at hstring
  have hslash : m' 0xff0 = 0x2f := hstring.1
  rw [hbyte] at hslash
  exact absurd hslash (by decide)

end Samples

end InitialStack
end VmplApps

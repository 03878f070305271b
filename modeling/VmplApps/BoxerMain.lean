import VmplApps.InitialStack
import VmplApps.ProgramEmbedding
import VmplApps.UmmMaps

/-! From the start of the sandbox to the first instruction of the application.
`boxer_main` enters Dune mode, loads the file, registers the handlers, allocates the
stack, lays out the arguments and jumps. Whatever it is answered on the way, it maps
nothing outside the application's windows; and when it jumps, the guest page table is
the image that the file describes with the stack on top of it. -/
namespace VmplApps
namespace Boxer

open ByteMemory ElfLoader InitialStack
open Umm (Perm Counters overlay range)

inductive HostCall
  | printf (text : String)
  | duneInit
  | duneEnter
  | elf (c : ElfLoader.HostCall)
  | setUserFs (fs : Word)
  | mutexInit
  | registerPgflt
  | registerSyscall
  | memory (c : Umm.HostCall)
  | jumpToUser (tf : TrapFrame)
  deriving DecidableEq, Repr

/-- The counters of the memory manager, the local variable `data`, and memory. -/
structure Process where
  counters : Counters := {}
  data : ElfData
  mem : Mem

abbrev Code := Prog Process Empty HostCall Umm.Reply

def int (r : Umm.Reply) : CInt := r.ret.setWidth 32

def dataPart : Prog.Part Process ElfData where
  read x := x.data
  write x data := {x with data := data}
  read_write _ _ := rfl
  write_write _ _ _ := rfl
  write_read _ := rfl

def countersPart : Prog.Part Process Counters where
  read x := x.counters
  write x s := {x with counters := s}
  read_write _ _ := rfl
  write_write _ _ _ := rfl
  write_read _ := rfl

def report (text : String) (ret : CInt) : Code CInt := do
  let _ ← Prog.call (.printf text)
  pure ret

def plain : Except Empty CInt → CInt
  | .ok ret => ret
  | .error e => e.elim

def loadElf (elf : Elf) : Code CInt :=
  ((ElfLoader.loadElf elf).framed .elf int plain).onPart dataPart

/-- The value stored through `stack_top`, or the error that is returned. -/
def ummAllocStack (mmapBase : Word) : Code (Except Word Word) :=
  ((Umm.ummAllocStack mmapBase).framed .memory id id).onPart countersPart

def trapInit : Code CInt := do
  let r ← Prog.call .mutexInit
  if int r ≠ 0 then pure (-1)
  else
    let _ ← Prog.call .registerPgflt
    let _ ← Prog.call .registerSyscall
    pure 0

/-- `run_app`; all other registers are zero. -/
def runApp (sp entry : Word) : Code CInt := do
  let r ← Prog.call (.jumpToUser {rip := entry,rsp := sp})
  pure (int r)

/-- `setup_arguments` for the loaded file; a missing auxiliary entry stops the process. -/
def setupStack (sp : Word) (path : CStr) (argv envv : List CStr) (ref : List Aux) : Code Word := do
  let x ← Prog.state
  match setupArguments x.mem sp.toNat path argv envv ref x.data with
  | none => .halt
  | some (m,sp) =>
    Prog.modify fun x => {x with mem := m}
    pure (BitVec.ofNat 64 sp)

def enterApp (top : Word) (path : CStr) (argv envv : List CStr) (ref : List Aux) : Code CInt := do
  let sp ← setupStack top path argv envv ref
  if sp = 0 then report "failed to setup arguments\n" (-einval)
  else
    let x ← Prog.state
    runApp sp x.data.entry

def startApp (mmapBase : Word) (path : CStr) (argv envv : List CStr) (ref : List Aux) :
    Code CInt := do
  let ret ← trapInit
  if ret ≠ 0 then report "failed to initialize trap handlers\n" ret
  else
    let stack ← ummAllocStack mmapBase
    match stack with
    | .error e => report "failed to alloc stack\n" (e.setWidth 32)
    | .ok top => enterApp top path argv envv ref

/-- `boxer_main` for a command line, the file that its second word names, the
environment and the auxiliary vector behind it. -/
def boxerMain (mmapBase : Word) (elf : Elf) (args envv : List CStr) (ref : List Aux) : Code CInt :=
  match args with
  | _::path::argv => do
    let _ ← Prog.call (.printf " \x08")
    let r ← Prog.call .duneInit
    if int r ≠ 0 then report "sandbox: failed to initialize Dune\n" (int r)
    else
      let r ← Prog.call .duneEnter
      if int r ≠ 0 then report "sandbox: failed to enter Dune mode\n" (int r)
      else
        let ret ← loadElf elf
        if ret ≠ 0 then pure ret
        else
          let _ ← Prog.call (.setUserFs 0)
          startApp mmapBase path argv envv ref
  | _ => pure (-einval)

/-- The runtime library may answer the loader as it likes. -/
def LoaderOk (_ : ElfLoader.HostCall) (_ : CInt) : Prop := True

def HostOk : HostCall → Umm.Reply → Prop
  | .elf c, r => LoaderOk c (int r)
  | .memory c, r => Umm.HostOk c r
  | _, _ => True

abbrev Trace := List (HostCall × Umm.Reply)

/-- The replies of the runtime library to the loader, as the guest page table sees them. -/
def actElf (g : ℕ → Option Perm) : ElfLoader.HostCall × CInt → ℕ → Option Perm
  | (.mapPhys va len _ perm,r) =>
    if r = 0 then overlay (range va len) (fun _ => some perm) g else g
  | (.mprotect va len perm,r) =>
    if r = 0 then overlay (range va len) (fun p => (g p).map fun _ => perm) g else g
  | _ => g

/-- Pages of which only the permission matters. -/
def noBacking : Umm.Backing Unit := ⟨(),fun _ _ _ => (),fun _ _ => (),fun _ _ => ()⟩

/-- What a call does to the guest page table. -/
def actGuest (g : ℕ → Option Perm) : HostCall × Umm.Reply → ℕ → Option Perm
  | (.elf c,r) => actElf g (c,int r)
  | (.memory c,r) => (Umm.act noBacking ⟨fun _ => none,g,fun _ => 0⟩ (c,r)).guest
  | _ => g

def guestAfter (t : Trace) (g : ℕ → Option Perm) : ℕ → Option Perm := t.foldl actGuest g

local instance pageSize : NeZero 4096 := ⟨by decide⟩

/-- The loadable header that a page gets its permission from: the last one that has a
byte on it. -/
def segmentAt (elf : Elf) (p : ℕ) : Option Phdr :=
  elf.phdrs.reverse.find? fun phdr =>
    phdr.pType = PT_LOAD ∧ (phdr.range (segmentOff elf.eType)).OnPage 4096 p

/-- The pages of the file on top of those of the sandbox. -/
def image (elf : Elf) (g : ℕ → Option Perm) (p : ℕ) : Option Perm :=
  match segmentAt elf p with
  | some phdr => some (permOfFlags phdr.pFlags)
  | none => g p

def stackRange (mmapBase : Word) : Span := ⟨mmapBase.toNat + 0x1ff801000,0x7ff000⟩

def startPages (mmapBase : Word) (elf : Elf) (g : ℕ → Option Perm) : ℕ → Option Perm :=
  overlay (stackRange mmapBase) (fun _ => some {r := true,w := true}) (image elf g)

def Outside (mmapBase : Word) (p : ℕ) : Prop :=
  0x70000000 ≤ p*4096 ∧ ((p+1)*4096 ≤ mmapBase.toNat ∨ mmapBase.toNat + 0x200000000 ≤ p*4096)

/-- The call does not start the application and leaves the permissions of all pages
outside its windows as they are. -/
def Harmless (mmapBase : Word) (x : HostCall × Umm.Reply) : Prop :=
  (∀ tf, x.1 ≠ .jumpToUser tf) ∧ ∀ g p, Outside mmapBase p → actGuest g x p = g p

section Loading
variable {env : ElfLoader.HostCall → CInt → Prop} {eType : BitVec 16} {phdr : Phdr}
  {phdrs : List Phdr} {elf : Elf} {s : ElfData}

def headerCalls (eType : BitVec 16) (phdr : Phdr) : List (ElfLoader.HostCall × CInt) :=
  if phdr.pType = PT_LOAD then (segmentCalls (segmentOff eType) phdr).map fun c => (c,0) else []

theorem processElfPh_trace : Prog.wp env (processElfPh eType phdr) s fun t o =>
    ∃ ret s', o = .ok ret s' ∧ s' = s ∧
      (ret = 0 → accepted eType phdr = true ∧ t = headerCalls eType phdr) := by
  unfold processElfPh
  split_ifs with hinterp hload
  · exact fun r _ => ⟨_,s,rfl,rfl,fun h => absurd h einval_ne⟩
  · refine ⟨0,s,rfl,rfl,fun _ => ⟨accepted_iff.mpr ⟨hinterp,fun h => absurd h hload⟩,?_⟩⟩
    rw [headerCalls,if_neg hload]
  · dsimp only
    split_ifs with hinsecure
    · exact fun r _ => ⟨_,s,rfl,rfl,fun h => absurd h einval_ne⟩
    · simp only [Prog.wp_bind,Prog.wp_call,Prog.thenPost]
      intro r₁ _
      split_ifs with h₁
      · exact fun r _ => ⟨r₁,s,rfl,rfl,fun h => absurd h h₁⟩
      · simp only [Prog.wp_bind,Prog.wp_call,Prog.thenPost]
        intro r₂ _
        split_ifs with h₂
        · exact fun r _ => ⟨r₂,s,rfl,rfl,fun h => absurd h h₂⟩
        · simp only [Prog.wp_bind,Prog.wp_call,Prog.thenPost]
          intro r₃ _
          split_ifs with h₃
          · exact fun r _ => ⟨r₃,s,rfl,rfl,fun h => absurd h h₃⟩
          · obtain rfl := not_not.mp h₁
            obtain rfl := not_not.mp h₂
            obtain rfl := not_not.mp h₃
            refine ⟨0,s,rfl,rfl,fun _ => ⟨accepted_iff.mpr
              ⟨hinterp,fun _ => Bool.eq_false_iff.mpr hinsecure⟩,?_⟩⟩
            rw [headerCalls,if_pos (not_not.mp hload)]
            rfl

theorem elfIterPh_trace (phdrs : List Phdr) :
    Prog.wp env (elfIterPh (processElfPh eType) phdrs) s fun t o =>
      ∃ ret s', o = .ok ret s' ∧ s' = s ∧ (ret = 0 → (∀ phdr ∈ phdrs, accepted eType phdr = true) ∧
        t = phdrs.flatMap (headerCalls eType)) := by
  induction phdrs with
  | nil => exact ⟨0,s,rfl,rfl,by simp⟩
  | cons phdr rest ih =>
    refine Prog.wp_then processElfPh_trace ?_
    rintro t ret s' ⟨rfl,hp⟩
    split_ifs with hret
    · exact ⟨ret,s',rfl,rfl,fun h => absurd h hret⟩
    · obtain ⟨hacc,rfl⟩ := hp (not_not.mp hret)
      refine Prog.wp_mono ih ?_
      rintro t' o ⟨ret',s'',rfl,rfl,hi⟩
      refine ⟨ret',s'',rfl,rfl,fun h0 => ?_⟩
      obtain ⟨hrest,rfl⟩ := hi h0
      exact ⟨List.forall_mem_cons.mpr ⟨hacc,hrest⟩,by rw [List.flatMap_cons]⟩

/-- A successful `load_elf` has made the calls of all loadable headers in their order. -/
structure ElfLoaded (elf : Elf) (t : List (ElfLoader.HostCall × CInt)) (s : ElfData) : Prop where
  data : s = elfData elf
  typed : elf.eType = ET_EXEC ∨ elf.eType = ET_DYN
  accepted : ∀ phdr ∈ elf.phdrs, accepted elf.eType phdr = true
  calls : ∃ r, t = (.elfOpen,0)::(elf.phdrs.flatMap (headerCalls elf.eType) ++ [(.elfClose,r)])

theorem loadElf_trace (elf : Elf) : Prog.wp env (ElfLoader.loadElf elf) s fun t o =>
    ∃ ret s', o = .ok ret s' ∧ (ret = 0 → ElfLoaded elf t s') := by
  unfold ElfLoader.loadElf
  rw [Prog.wp_bind,Prog.wp_call]
  intro r _
  dsimp only [Prog.thenPost]
  split_ifs with hr
  · exact ⟨r,s,rfl,fun h => absurd h hr⟩
  · obtain rfl := not_not.mp hr
    unfold loadOpened
    split_ifs with htype
    · exact fun _ _ r' _ => ⟨_,s,rfl,fun h => absurd h einval_ne⟩
    · rw [Prog.wp_bind]
      refine Prog.wp_then (elfIterPh_trace elf.phdrs) ?_
      rintro t ret s' ⟨rfl,hi⟩
      split_ifs with hret
      · exact fun r' _ => ⟨ret,s',rfl,fun h => absurd h hret⟩
      · obtain ⟨hacc,rfl⟩ := hi (not_not.mp hret)
        exact fun r' _ => ⟨0,elfData elf,rfl,fun _ => ⟨rfl,by tauto,hacc,r',by simp⟩⟩

end Loading

section Images
variable {elf : Elf} {phdr : Phdr} {phdrs : List Phdr} {g : ℕ → Option Perm} {p : ℕ} {off : Word}

def pagesOf (off : Word) (phdrs : List Phdr) (g : ℕ → Option Perm) (p : ℕ) : Option Perm :=
  match phdrs.reverse.find? fun phdr =>
    phdr.pType = PT_LOAD ∧ (phdr.range off).OnPage 4096 p with
  | some phdr => some (permOfFlags phdr.pFlags)
  | none => g p

theorem pagesOf_cons (phdr : Phdr) (phdrs : List Phdr) (g : ℕ → Option Perm) :
    pagesOf off (phdr::phdrs) g = pagesOf off phdrs (pagesOf off [phdr] g) := by
  funext p
  simp only [pagesOf,List.reverse_cons,List.find?_append,List.reverse_nil,List.nil_append]
  cases (phdrs.reverse.find? fun phdr =>
    phdr.pType = PT_LOAD ∧ (phdr.range off).OnPage 4096 p) <;> rfl

theorem image_eq (elf : Elf) (g : ℕ → Option Perm) :
    image elf g = pagesOf (segmentOff elf.eType) elf.phdrs g := rfl

theorem range_eq (h : phdr.pVaddr.toNat + off.toNat + phdr.pMemsz.toNat < 2^64) :
    range (phdr.pVaddr + off) phdr.pMemsz = phdr.range off := by
  rw [range,Phdr.range,Words.add_toNat_exact (by omega)]

theorem actElf_header {eType : BitVec 16} (h : phdr.pType = PT_LOAD →
      phdr.pVaddr.toNat + (segmentOff eType).toNat + phdr.pMemsz.toNat < 2^64) :
    (headerCalls eType phdr).foldl actElf g = pagesOf (segmentOff eType) [phdr] g := by
  funext p
  by_cases hload : phdr.pType = PT_LOAD
  · rw [headerCalls,if_pos hload]
    simp only [segmentCalls,List.map_cons,List.map_nil,List.foldl_cons,List.foldl_nil,actElf,if_true,
      range_eq (h hload)]
    by_cases hp : (phdr.range (segmentOff eType)).OnPage 4096 p
    · simp [Umm.overlay_in hp,pagesOf,hload,hp]
    · simp [Umm.overlay_out hp,pagesOf,hp]
  · rw [headerCalls,if_neg hload]
    simp [pagesOf,hload]

theorem actElf_headers {eType : BitVec 16} (h : ∀ phdr ∈ phdrs, phdr.pType = PT_LOAD →
      phdr.pVaddr.toNat + (segmentOff eType).toNat + phdr.pMemsz.toNat < 2^64) :
    (phdrs.flatMap (headerCalls eType)).foldl actElf g = pagesOf (segmentOff eType) phdrs g := by
  induction phdrs generalizing g with
  | nil => rfl
  | cons phdr rest ih =>
    rw [List.flatMap_cons,List.foldl_append,actElf_header (h phdr List.mem_cons_self),
      ih fun x hx => h x (List.mem_cons_of_mem phdr hx),← pagesOf_cons]

/-- After a successful `load_elf` the pages are those of the file. -/
theorem actElf_loaded {t : List (ElfLoader.HostCall × CInt)} {s : ElfData} (h : ElfLoaded elf t s)
    (hwrap : NoWrap elf) : t.foldl actElf g = image elf g := by
  have hall : elf.phdrs.takeWhile (accepted elf.eType) = elf.phdrs :=
    List.takeWhile_eq_self_iff.mpr h.accepted
  rw [NoWrap,hall] at hwrap
  obtain ⟨r,rfl⟩ := h.calls
  rw [List.foldl_cons,List.foldl_append,image_eq,← actElf_headers hwrap]
  rfl

theorem actElf_outside {mmapBase : Word} {x : ElfLoader.HostCall × CInt} (h : Expected elf x.1)
    (hwrap : elf.eType = ET_EXEC ∨ elf.eType = ET_DYN → NoWrap elf) (hp : Outside mmapBase p) :
    actElf g x p = g p := by
  obtain ⟨c,r⟩ := x
  have hfar (va len : Word) (hva : ∃ phdr : Phdr, va = phdr.pVaddr + segmentOff elf.eType ∧
      len = phdr.pMemsz ∧ (phdr.range (segmentOff elf.eType)).Inside 0 0x70000000) :
      ¬(range va len).OnPage 4096 p := by
    obtain ⟨phdr,rfl,rfl,-,hstop⟩ := hva
    have hlow := hp.1
    simp only [Span.stop,Phdr.range] at hstop
    rw [Umm.onPage_range,Words.add_toNat_exact (by omega)]
    omega
  rcases h with (rfl | rfl | ⟨text,rfl⟩) | ⟨htype,phdr,hmem,hload,hc⟩
  · rfl
  · rfl
  · rfl
  have hsecure := (accepted_iff.mp (List.mem_takeWhile_imp hmem)).2 hload
  have hin := range_inside hsecure (hwrap htype phdr hmem hload)
  have hnot := hfar _ _ ⟨phdr,rfl,rfl,hin⟩
  simp only [segmentCalls,List.mem_cons,List.not_mem_nil,or_false] at hc
  rcases hc with rfl | rfl | rfl
  · simp only [actElf]
    split_ifs
    · exact Umm.overlay_out hnot
    · rfl
  · rfl
  · simp only [actElf]
    split_ifs
    · exact Umm.overlay_out hnot
    · rfl

end Images

section Stages
variable {mmapBase : Word} {elf : Elf} {x : Process}

theorem guestAfter_elf {t : Trace} {t₀ : List (ElfLoader.HostCall × CInt)}
    (h : List.Forall₂ (fun x y => x.1 = .elf y.1 ∧ y.2 = int x.2) t t₀) (g : ℕ → Option Perm) :
    guestAfter t g = t₀.foldl actElf g := by
  induction h generalizing g with
  | nil => rfl
  | @cons x y t t₀ hxy _ ih =>
    obtain ⟨c,r⟩ := x
    obtain ⟨rfl,hr⟩ := hxy
    rw [guestAfter,List.foldl_cons,List.foldl_cons,← guestAfter,ih,actGuest,← hr]

/-- What `load_elf` leaves for the rest of `boxer_main`. -/
structure LoadedTo (mmapBase : Word) (elf : Elf) (x : Process) (t : Trace) (ret : CInt)
    (x' : Process) : Prop where
  harmless : ∀ e ∈ t, Harmless mmapBase e
  rest : x' = {x with data := x'.data}
  done : ret = 0 → x'.data = elfData elf ∧ ∀ g, guestAfter t g = image elf g

theorem loadElf_loaded (mmapBase : Word) (hwrap : NoWrap elf) : Prog.wp HostOk (loadElf elf) x fun t o =>
    ∃ ret x', o = .ok ret x' ∧ LoadedTo mmapBase elf x t ret x' := by
  unfold loadElf
  rw [Prog.wp_onPart]
  have henv : ∀ c r, HostOk (.elf c) r → LoaderOk c (int r) := fun _ _ h => h
  refine Prog.wp_mono (Prog.wp_framed henv (loadElf_trace elf)) ?_
  rintro t o ⟨t₀,o₀,hexec,⟨ret,s',rfl,hloaded⟩,rfl,htrace⟩
  have hexpected := ((Prog.wp_iff _ _ _ _).mp (loadElf_wp elf) t₀ _ hexec).1
  refine ⟨ret,{x with data := s'},rfl,fun e he => ?_,rfl,fun h0 => ⟨(hloaded h0).data,fun g => ?_⟩⟩
  · -- the call inside that is seen as this one
    obtain ⟨y,hy,hcall,hr⟩ : ∃ y ∈ t₀, e.1 = .elf y.1 ∧ y.2 = int e.2 := by
      obtain ⟨⟨i,hi⟩,rfl⟩ := List.get_of_mem he
      exact ⟨_,List.get_mem t₀ ⟨i,htrace.length_eq ▸ hi⟩,htrace.get hi _⟩
    obtain ⟨c,r⟩ := e
    obtain rfl : c = .elf y.1 := hcall
    refine ⟨fun tf => HostCall.noConfusion,fun g p hp => ?_⟩
    have hsame : actGuest g (.elf y.1,r) = actElf g y := by rw [actGuest,← hr]
    rw [hsame]
    exact actElf_outside (hexpected y hy) (fun _ => hwrap) hp
  · rw [guestAfter_elf htrace,actElf_loaded (hloaded h0) hwrap]

/-- The stack is mapped for reading and writing, and nothing else of the window is. -/
structure StackAt (mmapBase : Word) (x : Process) (t : Trace) (top : Word) (x' : Process) : Prop where
  top : top.toNat = mmapBase.toNat + 0x200000000
  rest : x' = {x with counters := ⟨0,0x800000⟩}
  pages : ∀ g, guestAfter t g =
    overlay (stackRange mmapBase) (fun _ => some {r := true,w := true}) g
  call : ∃ c, c.op = .allocStack ∧ Umm.Step mmapBase {} c ⟨0,0x800000⟩

theorem stack_position (hb : Umm.Based mmapBase) :
    (Umm.pgAddr (Umm.ummGetMapPos mmapBase {})).toNat = mmapBase.toNat + 0x200000000 ∧
    Umm.pgOff (Umm.ummGetMapPos mmapBase {}) = 0 ∧
    range (Umm.pgAddr (Umm.ummGetMapPos mmapBase {}) - AppRegion.appStackSize + Umm.pgSize)
      (AppRegion.appStackSize - Umm.pgSize) = stackRange mmapBase := by
  have hpos := Umm.mapPos_toNat (s := {}) hb ⟨by decide,by decide,by decide⟩
  have haligned := hb.aligned
  have hlow := hb.lower
  have hup := hb.upper
  have hzero : (0 : Word).toNat = 0 := rfl
  rw [hzero] at hpos
  have haddr : (Umm.pgAddr (Umm.ummGetMapPos mmapBase {})).toNat = mmapBase.toNat + 0x200000000 := by
    rw [Umm.pgAddr_toNat]
    omega
  refine ⟨haddr,BitVec.eq_of_toNat_eq ?_,?_⟩
  · rw [Umm.pgOff_toNat,hzero]
    omega
  · have hsub : (Umm.pgAddr (Umm.ummGetMapPos mmapBase {}) - AppRegion.appStackSize).toNat =
        mmapBase.toNat + 0x1ff800000 := by
      rw [Words.sub_toNat_exact (by rw [haddr,AppRegion.appStackSize_toNat]; omega),haddr,
        AppRegion.appStackSize_toNat]
      omega
    have hpage : Umm.pgSize.toNat = 4096 := rfl
    have hlen : (AppRegion.appStackSize - Umm.pgSize).toNat = 0x7ff000 := by decide
    rw [range,hlen,Words.add_toNat_exact (by rw [hsub,hpage]; omega),hsub,hpage,stackRange,
      Nat.add_assoc]

theorem harmless_host {c : Umm.HostCall} (hc : c.forGuest = false) (r : Umm.Reply) :
    Harmless mmapBase (.memory c,r) := by
  refine ⟨fun tf => HostCall.noConfusion,fun g p _ => ?_⟩
  rw [actGuest,Umm.act_guest noBacking _ hc r]

theorem harmless_stack {addr len : Word} {perm : Perm} (h : range addr len = stackRange mmapBase)
    (r : Umm.Reply) : Harmless mmapBase (.memory (.vmMapPhys addr len perm),r) := by
  refine ⟨fun tf => HostCall.noConfusion,fun g p hp => ?_⟩
  have hfar : ¬(range addr len).OnPage 4096 p := by
    rw [h,Span.onPage_iff (by omega)]
    have hout := hp.2
    simp only [stackRange,Span.stop]
    omega
  simp only [actGuest,Umm.act]
  split_ifs
  · exact (Umm.overlay_out hfar : overlay _ (fun _ => some perm) g p = g p)
  · rfl

theorem trace_memory {t : Trace} {t₀ : List (Umm.HostCall × Umm.Reply)}
    (h : List.Forall₂ (fun x y => x.1 = .memory y.1 ∧ y.2 = id x.2) t t₀) :
    t = t₀.map fun y => (.memory y.1,y.2) := by
  induction h with
  | nil => rfl
  | @cons x y _ _ hxy _ ih =>
    rw [List.map_cons,← ih,hxy.2,← hxy.1]
    rfl

theorem ummAllocStack_stage (hb : Umm.Based mmapBase) (hx : x.counters = {}) :
    Prog.wp HostOk (ummAllocStack mmapBase) x fun t o => ∃ res x', o = .ok res x' ∧
      (∀ e ∈ t, Harmless mmapBase e) ∧ ∀ top, res = .ok top → StackAt mmapBase x t top x' := by
  obtain ⟨htop,hoff,hrange⟩ := stack_position hb
  unfold ummAllocStack
  rw [Prog.wp_onPart]
  have henv : ∀ c r, HostOk (.memory c) r → Umm.HostOk c (id r) := fun _ _ h => h
  refine Prog.wp_mono (Prog.wp_framed henv Umm.ummAllocStack_paths) ?_
  rintro t o ⟨t₀,o₀,hexec,hpath,rfl,htrace⟩
  obtain rfl := trace_memory htrace
  change Umm.Path mmapBase x.counters .allocStack t₀ o₀ at hpath
  change Prog.Exec Umm.HostOk (Umm.ummAllocStack mmapBase) x.counters t₀ o₀ at hexec
  rw [hx] at hpath hexec
  cases hpath with
  | early _ e => exact ⟨.error e,_,rfl,by simp,fun top h => by cases h⟩
  | stack _ v hroom hmap =>
    cases hmap with
    | refused r hr =>
      have hok := hexec.allowed _ List.mem_cons_self
      have herrno : -r.errno ≠ 0 := by
        rcases hok with ⟨heq,-⟩ | ⟨-,hne⟩
        · exact absurd heq hr
        · simpa using hne
      rw [Umm.mapEnd,if_pos herrno]
      refine ⟨.error (-r.errno),_,rfl,?_,fun top h => by cases h⟩
      simp only [List.map_cons,List.map_nil,List.forall_mem_singleton]
      exact harmless_host rfl r
    | takenBack r a u hr ha =>
      rw [Umm.mapEnd,if_pos ha]
      refine ⟨.error a.ret,_,rfl,?_,fun top h => by cases h⟩
      simp only [List.map_cons,List.map_nil,List.forall_mem_cons]
      exact ⟨harmless_host rfl r,harmless_stack hrange a,harmless_host rfl u,by simp⟩
    | mapped r a hr ha =>
      have hcounters : ({mmapLen := 0 + (AppRegion.appStackSize + 0)} : Counters) = ⟨0,0x800000⟩ := by
        decide
      rw [Umm.mapEnd,if_neg (by simp),hoff,hcounters] at hexec ⊢
      refine ⟨.ok _,{x with counters := ⟨0,0x800000⟩},rfl,?_,fun top h => ?_⟩
      · simp only [List.map_cons,List.map_nil,List.forall_mem_cons]
        exact ⟨harmless_host rfl r,harmless_stack hrange a,by simp⟩
      · cases h
        refine ⟨htop,rfl,fun g => ?_,⟨.allocStack,_,_⟩,rfl,hexec,rfl⟩
        simp only [List.map_cons,List.map_nil,guestAfter,List.foldl_cons,List.foldl_nil,actGuest,
          Umm.act_guest noBacking _ (c := Umm.anonCall _ _ _) rfl r]
        simp only [Umm.act,ha,if_true,hrange]
        rfl

end Stages

/-- What the application finds when it starts: the handlers are in place, its memory is
the image of the file with the stack, and `sp` is where `setup_arguments` has laid out
the arguments at the top of the stack. The memory manager has made one call. -/
structure Started (mmapBase : Word) (elf : Elf) (path : CStr) (argv envv : List CStr)
    (ref : List Aux) (m : Mem) (before : Trace) (sp : Word) (x : Process) : Prop where
  lock : ∃ r, (.mutexInit,r) ∈ before ∧ int r = 0
  handlers : (∃ r, (.registerPgflt,r) ∈ before) ∧ ∃ r, (.registerSyscall,r) ∈ before
  pages : ∀ g, guestAfter before g = startPages mmapBase elf g
  counters : ∃ c, c.op = .allocStack ∧ Umm.Step mmapBase {} c x.counters
  arguments : setupArguments m (mmapBase.toNat + 0x200000000) path argv envv ref (elfData elf) =
    some (x.mem,sp.toNat)
  aligned : sp.toNat % 32 = 0
  inside : Span.Inside ⟨sp.toNat,frameLen path argv envv⟩ (stackRange mmapBase).start
    (stackRange mmapBase).stop

/-- How `boxer_main` ends: it has not started the application, or it returns what the
application left with. -/
def Ended (mmapBase : Word) (elf : Elf) (path : CStr) (argv envv : List CStr) (ref : List Aux)
    (m : Mem) (t : Trace) (o : Outcome Process Empty CInt) : Prop :=
  (∀ e ∈ t, Harmless mmapBase e) ∨
  ∃ before sp r x, t = before ++ [(.jumpToUser {rip := (elfData elf).entry,rsp := sp},r)] ∧
    (∀ e ∈ before, Harmless mmapBase e) ∧ o = .ok (int r) x ∧
    Started mmapBase elf path argv envv ref m before sp x

section Start
variable {mmapBase : Word} {elf : Elf} {path : CStr} {argv envv : List CStr} {ref : List Aux}
  {x : Process} {t₁ : Trace}

theorem harmless_other {c : HostCall} (r : Umm.Reply) (hjump : ∀ tf, c ≠ .jumpToUser tf)
    (hguest : ∀ g, actGuest g (c,r) = g) : Harmless mmapBase (c,r) :=
  ⟨hjump,fun g p _ => congrFun (hguest g) p⟩

theorem guestAfter_append (t t' : Trace) (g : ℕ → Option Perm) :
    guestAfter (t ++ t') g = guestAfter t' (guestAfter t g) := List.foldl_append

theorem report_harmless (mmapBase : Word) (text : String) (ret : CInt) :
    Prog.wp HostOk (report text ret) x fun t _ => ∀ e ∈ t, Harmless mmapBase e := by
  intro r _ e he
  obtain rfl := List.mem_singleton.mp he
  exact harmless_other r (fun _ => HostCall.noConfusion) fun _ => rfl

/-- `trap_init` makes the lock and registers both handlers. -/
structure TrapsReady (mmapBase : Word) (t : Trace) (ret : CInt) : Prop where
  harmless : ∀ e ∈ t, Harmless mmapBase e
  pages : ∀ g, guestAfter t g = g
  lock : ret = 0 → ∃ r, (.mutexInit,r) ∈ t ∧ int r = 0
  handlers : ret = 0 → (∃ r, (.registerPgflt,r) ∈ t) ∧ ∃ r, (.registerSyscall,r) ∈ t

theorem trapInit_ready (mmapBase : Word) : Prog.wp HostOk trapInit x fun t o =>
    ∃ ret x', o = .ok ret x' ∧ x' = x ∧ TrapsReady mmapBase t ret := by
  have hmutex (r : Umm.Reply) : Harmless mmapBase (.mutexInit,r) :=
    harmless_other r (fun _ => HostCall.noConfusion) fun _ => rfl
  unfold trapInit
  simp only [Prog.wp_bind,Prog.wp_call,Prog.thenPost]
  intro r _
  split_ifs with hr
  · refine ⟨-1,x,rfl,rfl,by simpa using hmutex r,fun _ => rfl,fun h => ?_,fun h => ?_⟩ <;> cases h
  · simp only [Prog.wp_bind,Prog.wp_call,Prog.thenPost,Prog.wp_pure]
    intro r₁ _ r₂ _
    refine ⟨0,x,rfl,rfl,?_,fun _ => rfl,fun _ => ⟨r,by simp,not_not.mp hr⟩,
      fun _ => ⟨⟨r₁,by simp⟩,r₂,by simp⟩⟩
    simp only [List.append_nil,List.cons_append,List.nil_append,List.forall_mem_cons]
    exact ⟨hmutex r,harmless_other r₁ (fun _ => HostCall.noConfusion) fun _ => rfl,
      harmless_other r₂ (fun _ => HostCall.noConfusion) fun _ => rfl,by simp⟩

theorem setupArguments_frame {m m' : Mem} {top sp : ℕ} {data : ElfData}
    (h : setupArguments m top path argv envv ref data = some (m',sp)) :
    sp = top - frameLen path argv envv := by
  rw [setupArguments] at h
  obtain ⟨m₀,-,heq⟩ := Option.map_eq_some_iff.mp h
  exact (Prod.mk.inj heq).2.symm

theorem Harmless.append {t t' : Trace} (h : ∀ e ∈ t, Harmless mmapBase e)
    (h' : ∀ e ∈ t', Harmless mmapBase e) : ∀ e ∈ t ++ t', Harmless mmapBase e :=
  fun e he => (List.mem_append.mp he).elim (h e) (h' e)

/-- Once the stack is there, the application is started at the file's entry. -/
theorem enterApp_ended (hb : Umm.Based mmapBase) (hfit : frameLen path argv envv ≤ 0x7ff000)
    {top : Word} (htop : top.toNat = mmapBase.toNat + 0x200000000) (hdata : x.data = elfData elf)
    (hcall : ∃ c, c.op = .allocStack ∧ Umm.Step mmapBase {} c x.counters)
    (hcalm : ∀ e ∈ t₁, Harmless mmapBase e) (hpages : ∀ g, guestAfter t₁ g = startPages mmapBase elf g)
    (hlock : ∃ r, (.mutexInit,r) ∈ t₁ ∧ int r = 0)
    (hhandlers : (∃ r, (.registerPgflt,r) ∈ t₁) ∧ ∃ r, (.registerSyscall,r) ∈ t₁) :
    Prog.wp HostOk (enterApp top path argv envv ref) x fun t o =>
      Ended mmapBase elf path argv envv ref x.mem (t₁ ++ t) o := by
  unfold enterApp setupStack
  simp only [Prog.wp_bind,Prog.wp_state,Prog.thenPost]
  cases hset : setupArguments x.mem top.toNat path argv envv ref x.data with
  | none => exact .inl (by simpa using hcalm)
  | some res =>
    obtain ⟨m,sp⟩ := res
    simp only [Prog.wp_bind,Prog.wp_modify,Prog.wp_pure,Prog.thenPost]
    split_ifs with hzero
    · refine Prog.wp_mono (report_harmless mmapBase _ _) fun t o ht => .inl ?_
      simpa using Harmless.append hcalm ht
    · simp only [Prog.wp_bind,Prog.wp_state,Prog.thenPost]
      intro r _
      have hsp := setupArguments_frame hset
      have hlen : frameLen path argv envv % 32 = 0 := Nat.mul_mod_left _ 32
      have haligned := hb.aligned
      have hup := hb.upper
      have hnat : (BitVec.ofNat 64 sp).toNat = sp := by
        rw [BitVec.toNat_ofNat]
        exact Nat.mod_eq_of_lt (by omega)
      refine .inr ⟨t₁,BitVec.ofNat 64 sp,r,{x with mem := m},?_,hcalm,rfl,hlock,hhandlers,hpages,hcall,?_,
        ?_,?_⟩
      · simp [hdata]
      · rw [hnat,← htop,← hdata]
        exact hset
      · rw [hnat]
        omega
      · rw [hnat]
        simp only [Span.Inside,Span.stop,stackRange]
        omega

theorem startApp_ended (hb : Umm.Based mmapBase) (hfit : frameLen path argv envv ≤ 0x7ff000)
    (hdata : x.data = elfData elf) (hcounters : x.counters = {})
    (hcalm : ∀ e ∈ t₁, Harmless mmapBase e) (hpages : ∀ g, guestAfter t₁ g = image elf g) :
    Prog.wp HostOk (startApp mmapBase path argv envv ref) x fun t o =>
      Ended mmapBase elf path argv envv ref x.mem (t₁ ++ t) o := by
  unfold startApp
  refine Prog.wp_then (trapInit_ready mmapBase) ?_
  rintro t ret x' ⟨rfl,htraps⟩
  have hcalm' := Harmless.append hcalm htraps.harmless
  split_ifs with hret
  · refine Prog.wp_mono (report_harmless mmapBase _ _) fun t' o ht' => .inl ?_
    rw [← List.append_assoc]
    exact Harmless.append hcalm' ht'
  · refine Prog.wp_then (ummAllocStack_stage hb hcounters) ?_
    rintro t' res x'' ⟨hcalm'',hstack⟩
    cases res with
    | error e =>
      refine Prog.wp_mono (report_harmless mmapBase _ _) fun t₃ o ht₃ => .inl ?_
      rw [← List.append_assoc,← List.append_assoc]
      exact Harmless.append (Harmless.append hcalm' hcalm'') ht₃
    | ok top =>
      obtain ⟨htop,rfl,hmapped,hcall⟩ := hstack top rfl
      have h0 : ret = 0 := not_not.mp hret
      obtain ⟨r,hr,hr0⟩ := htraps.lock h0
      obtain ⟨⟨r₁,hr₁⟩,r₂,hr₂⟩ := htraps.handlers h0
      have hin {e : HostCall × Umm.Reply} (he : e ∈ t) : e ∈ t₁ ++ t ++ t' :=
        List.mem_append_left _ (List.mem_append_right _ he)
      refine Prog.wp_mono (enterApp_ended hb hfit htop hdata hcall
        (Harmless.append hcalm' hcalm'') (fun g => ?_) ⟨r,hin hr,hr0⟩
        ⟨⟨r₁,hin hr₁⟩,r₂,hin hr₂⟩) fun t₃ o h => ?_
      · rw [guestAfter_append,guestAfter_append,hpages,htraps.pages,hmapped]
        rfl
      · simpa only [List.append_assoc] using h

theorem boxerMain_ended (hb : Umm.Based mmapBase) (hwrap : NoWrap elf)
    (hfit : frameLen path argv envv ≤ 0x7ff000) (hcounters : x.counters = {}) (prog : CStr) :
    Prog.wp HostOk (boxerMain mmapBase elf (prog::path::argv) envv ref) x
      (Ended mmapBase elf path argv envv ref x.mem) := by
  have hother (c : HostCall) (r : Umm.Reply) (hjump : ∀ tf, c ≠ .jumpToUser tf)
      (hguest : ∀ g, actGuest g (c,r) = g) : ∀ e ∈ [(c,r)], Harmless mmapBase e := by
    intro e he
    obtain rfl := List.mem_singleton.mp he
    exact harmless_other r hjump hguest
  simp only [boxerMain,Prog.wp_bind,Prog.wp_call,Prog.thenPost]
  intro r₀ _ r₁ _
  have hfirst := Harmless.append (hother (.printf " \x08") r₀ (fun _ => HostCall.noConfusion) fun _ => rfl)
    (hother .duneInit r₁ (fun _ => HostCall.noConfusion) fun _ => rfl)
  split_ifs with hinit
  · refine Prog.wp_mono (report_harmless mmapBase _ _) fun t o ht => .inl ?_
    rw [← List.append_assoc]
    exact Harmless.append hfirst ht
  · simp only [Prog.wp_bind,Prog.wp_call,Prog.thenPost]
    intro r₂ _
    have hsecond := Harmless.append hfirst
      (hother .duneEnter r₂ (fun _ => HostCall.noConfusion) fun _ => rfl)
    split_ifs with henter
    · refine Prog.wp_mono (report_harmless mmapBase _ _) fun t o ht => .inl ?_
      simpa only [List.append_assoc] using Harmless.append hsecond ht
    · refine Prog.wp_then (loadElf_loaded mmapBase hwrap) ?_
      intro t ret x' hload
      have hthird := Harmless.append hsecond hload.harmless
      split_ifs with hret
      · exact .inl (by simpa only [List.append_assoc,List.append_nil] using hthird)
      · simp only [Prog.wp_bind,Prog.wp_call,Prog.thenPost]
        intro r₃ _
        obtain ⟨hdata,himage⟩ := hload.done (not_not.mp hret)
        have hcounters' : x'.counters = {} := by rw [hload.rest]; exact hcounters
        have hmem : x'.mem = x.mem := by rw [hload.rest]
        have hfourth := Harmless.append hthird
          (hother (.setUserFs 0) r₃ (fun _ => HostCall.noConfusion) fun _ => rfl)
        refine Prog.wp_mono (startApp_ended hb hfit hdata hcounters' hfourth fun g => ?_)
          fun t' o h => ?_
        · rw [guestAfter_append,guestAfter_append,himage]
          rfl
        · rw [hmem] at h
          simpa only [List.append_assoc] using h

theorem guestAfter_outside {t : Trace} (h : ∀ e ∈ t, Harmless mmapBase e) (g : ℕ → Option Perm)
    {p : ℕ} (hp : Outside mmapBase p) : guestAfter t g p = g p := by
  induction t generalizing g with
  | nil => rfl
  | cons e t ih =>
    rw [guestAfter,List.foldl_cons]
    exact (ih (fun e' he' => h e' (List.mem_cons_of_mem e he')) _).trans
      ((h e List.mem_cons_self).2 g p hp)

end Start

/-- `boxer_main` for every file whose segments end in the address space, every command
line and every answer on the way: it changes no page outside the application's windows,
and if it starts the application, then exactly once, at the file's entry, with the
handlers registered, the pages of the file and the stack mapped as the file and the stack
ask for, and the arguments laid out in the stack. -/
theorem boxerMain_starts {mmapBase : Word} {elf : Elf} {prog path : CStr} {argv envv : List CStr}
    {ref : List Aux} {data : ElfData} {m : Mem} {t : Trace} {o : Outcome Process Empty CInt}
    (hb : Umm.Based mmapBase) (hwrap : NoWrap elf) (hfit : frameLen path argv envv ≤ 0x7ff000)
    (h : Prog.Exec HostOk (boxerMain mmapBase elf (prog::path::argv) envv ref)
      {data := data,mem := m} t o) :
    (∀ g p, Outside mmapBase p → guestAfter t g p = g p) ∧
    ((∀ e ∈ t, ∀ tf, e.1 ≠ .jumpToUser tf) ∨
      ∃ before sp r x, t = before ++ [(.jumpToUser {rip := (elfData elf).entry,rsp := sp},r)] ∧
        (∀ e ∈ before, ∀ tf, e.1 ≠ .jumpToUser tf) ∧ o = .ok (int r) x ∧
        Started mmapBase elf path argv envv ref m before sp x) := by
  have hended := (Prog.wp_iff _ _ _ _).mp (boxerMain_ended hb hwrap hfit rfl prog) t o h
  rcases hended with hcalm | ⟨before,sp,r,x,rfl,hcalm,ho,hstart⟩
  · exact ⟨fun g p hp => guestAfter_outside hcalm g hp,.inl fun e he => (hcalm e he).1⟩
  · refine ⟨fun g p hp => ?_,.inr ⟨before,sp,r,x,rfl,fun e he => (hcalm e he).1,ho,hstart⟩⟩
    rw [guestAfter_append]
    exact guestAfter_outside hcalm g hp

section Sample

def twoSegments : Elf where
  eType := ET_EXEC
  eEntry := 0x401000
  ePhoff := 64
  ePhnum := 2
  phdrs := [{pType := PT_LOAD,pFlags := PF_R ||| PF_X,pVaddr := 0x401000,pFilesz := 0x800,pMemsz := 0x800},
    {pType := PT_LOAD,pFlags := PF_R ||| PF_W,pVaddr := 0x402000,pFilesz := 0x10,pMemsz := 0x1000}]

def agreeable : HostCall × Umm.Reply → Bool
  | (.memory c,r) => decide (Umm.HostOk c r)
  | _ => true

theorem hostOk_of_agreeable {e : HostCall × Umm.Reply} (h : agreeable e = true) : HostOk e.1 e.2 := by
  obtain ⟨c,r⟩ := e
  cases c with
  | memory c =>
    have hok : Umm.HostOk c r := of_decide_eq_true h
    exact hok
  | _ => trivial

def jumps : HostCall × Umm.Reply → Bool
  | (.jumpToUser _,_) => true
  | _ => false

def reachesApp (r : Trace × Outcome Process Empty CInt) : Bool := r.1.all agreeable && r.1.any jumps

/-- Everything succeeds, and the application returns 7. -/
def smoothReplies : List Umm.Reply :=
  List.replicate 15 ({} : Umm.Reply) ++ [{ret := 0x5ff801000},{ret := 0},{ret := 7}]

theorem boxerMain_starts_twoSegments : ∃ t o, Prog.Exec HostOk (boxerMain 0x400000000 twoSegments
      [shellPath,shellPath] [] hostAux) {data := ⟨0,0,0⟩,mem := fun _ => 0} t o ∧
    ∃ before sp r x, t = before ++ [(.jumpToUser {rip := 0x401000,rsp := sp},r)] ∧
      o = .ok (int r) x ∧
      Started 0x400000000 twoSegments shellPath [] [] hostAux (fun _ => 0) before sp x := by
  obtain ⟨t,o,hexec,htest⟩ : ∃ t o, Prog.Exec HostOk (boxerMain 0x400000000 twoSegments
      [shellPath,shellPath] [] hostAux) {data := ⟨0,0,0⟩,mem := fun _ => 0} t o ∧
        reachesApp (t,o) = true :=
    Prog.exists_of_runWith smoothReplies (fun r hr e he => hostOk_of_agreeable
      (List.all_eq_true.mp (Bool.and_eq_true_iff.mp hr).1 e he)) (by decide +kernel)
  have hwrap : NoWrap twoSegments := by
    unfold NoWrap
    decide
  obtain ⟨-,hnone | ⟨before,sp,r,x,ht,-,ho,hstart⟩⟩ :=
    boxerMain_starts ⟨by decide,by decide,by decide⟩ hwrap (by decide) hexec
  · obtain ⟨⟨c,r⟩,he,hj⟩ := List.any_eq_true.mp (Bool.and_eq_true_iff.mp htest).2
    cases c with
    | jumpToUser tf => exact absurd rfl (hnone _ he tf)
    | _ => cases hj
  · exact ⟨t,o,hexec,before,sp,r,x,ht,ho,hstart⟩

end Sample

end Boxer
end VmplApps

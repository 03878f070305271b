import Mathlib.Data.List.TakeWhile
import VmplApps.Umm

/-! Loading the application's ELF file. The program headers come from an untrusted
file; each one that asks for memory is tested, mapped, filled and protected. The
runtime library walks the headers and stops at the first nonzero result. -/
namespace VmplApps
namespace ElfLoader

open AppRegion
open Umm (Perm)

def PT_LOAD : BitVec 32 := 1
def PT_INTERP : BitVec 32 := 3
def PF_X : BitVec 32 := 1
def PF_W : BitVec 32 := 2
def PF_R : BitVec 32 := 4
def ET_EXEC : BitVec 16 := 2
def ET_DYN : BitVec 16 := 3
def einval : CInt := EINVAL.setWidth 32

/-- The fields of `Elf64_Phdr` that the loader reads. -/
structure Phdr where
  pType : BitVec 32
  pFlags : BitVec 32 := 0
  pVaddr : Word := 0
  pFilesz : Word := 0
  pMemsz : Word := 0
  deriving DecidableEq, Repr

/-- An open file: the fields of its header that the loader reads, and the program
headers in order. -/
structure Elf where
  eType : BitVec 16
  eEntry : Word
  ePhoff : Word
  ePhnum : BitVec 16
  phdrs : List Phdr
  deriving DecidableEq, Repr

structure ElfData where
  entry : Word
  phdr : Word
  phnum : CInt
  deriving DecidableEq, Repr

inductive HostCall
  | elfOpen
  | elfClose
  | printf (text : String)
  | mapPhys (va len pa : Word) (perm : Perm)
  | loadPh (phdr : Phdr) (off : Word)
  | mprotect (va len : Word) (perm : Perm)
  deriving DecidableEq, Repr

/-- The state is what `data` points to; replies are the returned values. -/
abbrev Code := Prog ElfData Empty HostCall CInt

def segmentOff (eType : BitVec 16) : Word := if eType = ET_DYN then loaderVaddrOff else 0

/-- The test on a loadable segment, with its sum modulo `2^64`. -/
def insecure (off : Word) (phdr : Phdr) : Bool :=
  phdr.pVaddr + off + phdr.pMemsz > appMaxElfVaddr || phdr.pMemsz > appMaxElfVaddr ||
    phdr.pFilesz > phdr.pMemsz

def permOfFlags (flags : BitVec 32) : Perm where
  u := true
  r := flags &&& PF_R != 0
  w := flags &&& PF_W != 0
  x := flags &&& PF_X != 0

def report (text : String) (ret : CInt) : Code CInt := do
  let _ ← Prog.call (.printf text)
  pure ret

def processElfPh (eType : BitVec 16) (phdr : Phdr) : Code CInt :=
  if phdr.pType = PT_INTERP then
    report "sandbox: .interp sections are not yet supported\n" (-einval)
  else if phdr.pType ≠ PT_LOAD then pure 0
  else
    let off := segmentOff eType
    if insecure off phdr then report "sandbox: segment address is insecure\n" (-einval)
    else do
      let ret ← Prog.call (.mapPhys (phdr.pVaddr + off) phdr.pMemsz (phdr.pVaddr + off)
        {u := false,r := true,w := true})
      if ret ≠ 0 then report "sandbox: segment mapping failed\n" ret
      else
        let ret ← Prog.call (.loadPh phdr off)
        if ret ≠ 0 then report "sandbox: segment load failed\n" ret
        else
          let ret ← Prog.call (.mprotect (phdr.pVaddr + off) phdr.pMemsz (permOfFlags phdr.pFlags))
          if ret ≠ 0 then report "sandbox: segment protection failed\n" ret else pure 0

/-- `dune_elf_iter_ph`: each header in order, up to the first nonzero result. -/
def elfIterPh (cb : Phdr → Code CInt) : List Phdr → Code CInt
  | [] => pure 0
  | phdr::rest => do
    let ret ← cb phdr
    if ret ≠ 0 then pure ret else elfIterPh cb rest

/-- What `load_elf` stores through `data`. -/
def elfData (elf : Elf) : ElfData :=
  if elf.eType = ET_DYN then {
    entry := elf.eEntry + loaderVaddrOff
    phdr := elf.ePhoff + loaderVaddrOff
    phnum := elf.ePhnum.setWidth 32}
  else {entry := elf.eEntry,phdr := elf.ePhoff + 0x400000,phnum := elf.ePhnum.setWidth 32}

/-- `load_elf` between opening and closing the file. -/
def loadOpened (elf : Elf) : Code CInt :=
  if elf.eType ≠ ET_EXEC ∧ elf.eType ≠ ET_DYN then
    report "sandbox: ELF is not a valid type\n" (-einval)
  else do
    let ret ← elfIterPh (processElfPh elf.eType) elf.phdrs
    if ret ≠ 0 then pure ret
    else
      Prog.modify fun _ => elfData elf
      pure 0

def loadElf (elf : Elf) : Code CInt := do
  let ret ← Prog.call .elfOpen
  if ret ≠ 0 then pure ret
  else
    let ret ← loadOpened elf
    let _ ← Prog.call .elfClose
    pure ret

/-- The range of a segment in exact integers. -/
def Phdr.range (off : Word) (phdr : Phdr) : Span := ⟨phdr.pVaddr.toNat + off.toNat,phdr.pMemsz.toNat⟩

def segmentCalls (off : Word) (phdr : Phdr) : List HostCall := [
  .mapPhys (phdr.pVaddr + off) phdr.pMemsz (phdr.pVaddr + off) {u := false,r := true,w := true},
  .loadPh phdr off,
  .mprotect (phdr.pVaddr + off) phdr.pMemsz (permOfFlags phdr.pFlags)]

def accepted (eType : BitVec 16) (phdr : Phdr) : Bool :=
  phdr.pType != PT_INTERP && (phdr.pType != PT_LOAD || !insecure (segmentOff eType) phdr)

def HostCall.passes (off : Word) (phdr : Phdr) : HostCall → Prop
  | .mapPhys va len _ _ => va = phdr.pVaddr + off ∧ len = phdr.pMemsz
  | .loadPh phdr' off' => phdr' = phdr ∧ off' = off
  | .mprotect va len _ => va = phdr.pVaddr + off ∧ len = phdr.pMemsz
  | _ => False

def HostCall.onSegment : HostCall → Bool
  | .mapPhys _ _ _ _ | .loadPh _ _ | .mprotect _ _ _ => true
  | _ => false

/-- Every range that is passed on is that of a header and lies in the application's code
area. -/
def Confined (elf : Elf) (trace : List (HostCall × CInt)) : Prop :=
  ∀ x ∈ trace, x.1.onSegment = true → ∃ phdr ∈ elf.phdrs,
    x.1.passes (segmentOff elf.eType) phdr ∧
    (phdr.range (segmentOff elf.eType)).Inside 0 0x70000000

/-- No interpreter is asked for, and every loadable segment was mapped, filled and
given the permissions of its flags, for user mode. -/
def Loaded (elf : Elf) (trace : List (HostCall × CInt)) : Prop :=
  (∀ phdr ∈ elf.phdrs, phdr.pType ≠ PT_INTERP) ∧
  ∀ phdr ∈ elf.phdrs, phdr.pType = PT_LOAD → ∀ c ∈ segmentCalls (segmentOff elf.eType) phdr,
    (c,0) ∈ trace

/-- The exact end of every segment that is accepted can be represented. -/
def NoWrap (elf : Elf) : Prop :=
  ∀ phdr ∈ elf.phdrs.takeWhile (accepted elf.eType), phdr.pType = PT_LOAD →
    phdr.pVaddr.toNat + (segmentOff elf.eType).toNat + phdr.pMemsz.toNat < 2^64

section Header
variable {eType : BitVec 16} {phdr phdr' : Phdr} {off : Word} {c : HostCall}

theorem accepted_iff : accepted eType phdr = true ↔ phdr.pType ≠ PT_INTERP ∧
    (phdr.pType = PT_LOAD → insecure (segmentOff eType) phdr = false) := by
  simp [accepted,imp_iff_not_or]

theorem range_inside (h : insecure off phdr = false)
    (hw : phdr.pVaddr.toNat + off.toNat + phdr.pMemsz.toNat < 2^64) :
    (phdr.range off).Inside 0 0x70000000 := by
  simp only [insecure,Bool.or_eq_false_iff,decide_eq_false_iff_not,BitVec.not_lt,gt_iff_lt,
    BitVec.le_def,appMaxElfVaddr_toNat] at h
  have hsum := h.1.1
  rw [Words.add_toNat_exact (by rw [Words.add_toNat_exact (by omega)]; omega),
    Words.add_toNat_exact (by omega)] at hsum
  exact ⟨Nat.zero_le _,hsum⟩

theorem passes_of_mem (h : c ∈ segmentCalls off phdr) : c.passes off phdr := by
  simp only [segmentCalls,List.mem_cons,List.not_mem_nil,or_false] at h
  rcases h with rfl | rfl | rfl <;> exact ⟨rfl,rfl⟩

theorem passes_range (h : c.passes off phdr) (h' : c.passes off phdr') :
    phdr'.range off = phdr.range off := by
  have hadd {v v' : Word} (heq : v + off = v' + off) : v = v' := by bv_omega
  cases c with
  | elfOpen | elfClose | printf => cases h
  | mapPhys va len pa perm | mprotect va len perm =>
    rw [Phdr.range,Phdr.range,hadd (h.1.symm.trans h'.1),← h.2,← h'.2]
  | loadPh =>
    rw [← h.1,← h'.1]

end Header

structure Processed (eType : BitVec 16) (phdr : Phdr) (trace : List (HostCall × CInt)) (ret : CInt) :
    Prop where
  calls : ∀ x ∈ trace, (∃ text, x.1 = .printf text) ∨ accepted eType phdr = true ∧
    phdr.pType = PT_LOAD ∧ x.1 ∈ segmentCalls (segmentOff eType) phdr
  done : ret = 0 → accepted eType phdr = true ∧
    (phdr.pType = PT_LOAD → ∀ c ∈ segmentCalls (segmentOff eType) phdr, (c,0) ∈ trace)

structure Iterated (eType : BitVec 16) (phdrs : List Phdr) (trace : List (HostCall × CInt))
    (ret : CInt) : Prop where
  calls : ∀ x ∈ trace, (∃ text, x.1 = .printf text) ∨
    ∃ phdr ∈ phdrs.takeWhile (accepted eType), phdr.pType = PT_LOAD ∧
      x.1 ∈ segmentCalls (segmentOff eType) phdr
  done : ret = 0 → ∀ phdr ∈ phdrs, accepted eType phdr = true ∧
    (phdr.pType = PT_LOAD → ∀ c ∈ segmentCalls (segmentOff eType) phdr, (c,0) ∈ trace)

section Runs
variable {env : HostCall → CInt → Prop} {eType : BitVec 16} {phdr : Phdr} {s : ElfData}

theorem einval_ne : -einval ≠ 0 := by decide

theorem processed_report (trace : List (HostCall × CInt)) {ret r : CInt} {text : String}
    (hret : ret ≠ 0) (h : ∀ x ∈ trace, accepted eType phdr = true ∧ phdr.pType = PT_LOAD ∧
      x.1 ∈ segmentCalls (segmentOff eType) phdr) :
    Processed eType phdr (trace ++ [(.printf text,r)]) ret := by
  refine ⟨fun x hx => ?_,fun h0 => absurd h0 hret⟩
  rcases List.mem_append.mp hx with hx | hx
  · exact .inr (h x hx)
  · exact .inl ⟨text,by rw [List.mem_singleton.mp hx]⟩

theorem processed_success (hacc : accepted eType phdr = true) (hload : phdr.pType = PT_LOAD) :
    Processed eType phdr ((segmentCalls (segmentOff eType) phdr).map fun c => (c,0)) 0 := by
  refine ⟨fun x hx => ?_,fun _ => ⟨hacc,fun _ c hc => List.mem_map_of_mem hc⟩⟩
  obtain ⟨c,hc,rfl⟩ := List.mem_map.mp hx
  exact .inr ⟨hacc,hload,hc⟩

theorem processElfPh_wp : Prog.wp env (processElfPh eType phdr) s fun t o =>
    ∃ ret s', o = .ok ret s' ∧ s' = s ∧ Processed eType phdr t ret := by
  unfold processElfPh
  split_ifs with hinterp hload
  · exact fun r _ => ⟨_,s,rfl,rfl,processed_report [] einval_ne (by simp)⟩
  · refine ⟨0,s,rfl,rfl,by simp,fun _ => ⟨accepted_iff.mpr ⟨hinterp,fun h => absurd h hload⟩,
      fun h => absurd h hload⟩⟩
  · dsimp only
    split_ifs with hinsecure
    · exact fun r _ => ⟨_,s,rfl,rfl,processed_report [] einval_ne (by simp)⟩
    · have hload := not_not.mp hload
      have hacc : accepted eType phdr = true :=
        accepted_iff.mpr ⟨hinterp,fun _ => Bool.eq_false_iff.mpr hinsecure⟩
      simp only [Prog.wp_bind,Prog.wp_call,Prog.thenPost]
      intro r₁ _
      split_ifs with h₁
      · exact fun r _ => ⟨r₁,s,rfl,rfl,processed_report [_] h₁ (by simp [segmentCalls,hacc,hload])⟩
      · simp only [Prog.wp_bind,Prog.wp_call,Prog.thenPost]
        intro r₂ _
        split_ifs with h₂
        · exact fun r _ => ⟨r₂,s,rfl,rfl,processed_report [_,_] h₂ (by simp [segmentCalls,hacc,hload])⟩
        · simp only [Prog.wp_bind,Prog.wp_call,Prog.thenPost]
          intro r₃ _
          split_ifs with h₃
          · exact fun r _ => ⟨r₃,s,rfl,rfl,
              processed_report [_,_,_] h₃ (by simp [segmentCalls,hacc,hload])⟩
          · obtain rfl := not_not.mp h₁
            obtain rfl := not_not.mp h₂
            obtain rfl := not_not.mp h₃
            exact ⟨0,s,rfl,rfl,processed_success hacc hload⟩

theorem iterated_stop {phdrs : List Phdr} {trace : List (HostCall × CInt)} {ret : CInt}
    (h : Processed eType phdr trace ret) (hret : ret ≠ 0) :
    Iterated eType (phdr::phdrs) trace ret := by
  refine ⟨fun x hx => ?_,fun h0 => absurd h0 hret⟩
  rcases h.calls x hx with htext | ⟨hacc,hload,hc⟩
  · exact .inl htext
  · exact .inr ⟨phdr,by simp [hacc],hload,hc⟩

theorem iterated_cons {phdrs : List Phdr} {trace trace' : List (HostCall × CInt)} {ret : CInt}
    (h : Processed eType phdr trace 0) (h' : Iterated eType phdrs trace' ret) :
    Iterated eType (phdr::phdrs) (trace ++ trace') ret := by
  obtain ⟨hacc,hdone⟩ := h.done rfl
  refine ⟨fun x hx => ?_,fun h0 => List.forall_mem_cons.mpr ⟨⟨hacc,fun hload c hc => ?_⟩,
    fun p hp => ⟨(h'.done h0 p hp).1,fun hload c hc => ?_⟩⟩⟩
  · rw [List.takeWhile_cons,if_pos hacc]
    rcases List.mem_append.mp hx with hx | hx
    · rcases h.calls x hx with htext | ⟨-,hload,hc⟩
      · exact .inl htext
      · exact .inr ⟨phdr,List.mem_cons_self,hload,hc⟩
    · rcases h'.calls x hx with htext | ⟨p,hp,hload,hc⟩
      · exact .inl htext
      · exact .inr ⟨p,List.mem_cons_of_mem _ hp,hload,hc⟩
  · exact List.mem_append_left _ (hdone hload c hc)
  · exact List.mem_append_right _ ((h'.done h0 p hp).2 hload c hc)

theorem elfIterPh_wp (phdrs : List Phdr) :
    Prog.wp env (elfIterPh (processElfPh eType) phdrs) s fun t o =>
      ∃ ret s', o = .ok ret s' ∧ s' = s ∧ Iterated eType phdrs t ret := by
  induction phdrs with
  | nil => exact ⟨0,s,rfl,rfl,by simp,by simp⟩
  | cons phdr rest ih =>
    refine Prog.wp_then processElfPh_wp ?_
    rintro t ret s' ⟨rfl,hp⟩
    split_ifs with hret
    · exact ⟨ret,s',rfl,rfl,by simpa using iterated_stop hp hret⟩
    · obtain rfl := not_not.mp hret
      refine Prog.wp_mono ih ?_
      rintro t' o ⟨ret',s',rfl,rfl,hi⟩
      exact ⟨ret',s',rfl,rfl,iterated_cons hp hi⟩

/-- A call that is not about a segment, or one for an accepted segment. -/
def Expected (elf : Elf) (c : HostCall) : Prop :=
  (c = .elfOpen ∨ c = .elfClose ∨ ∃ text, c = .printf text) ∨
    (elf.eType = ET_EXEC ∨ elf.eType = ET_DYN) ∧
    ∃ phdr ∈ elf.phdrs.takeWhile (accepted elf.eType), phdr.pType = PT_LOAD ∧
      c ∈ segmentCalls (segmentOff elf.eType) phdr

theorem loadOpened_wp (elf : Elf) : Prog.wp env (loadOpened elf) s fun t o =>
    ∃ ret s', o = .ok ret s' ∧ (∀ x ∈ t, Expected elf x.1) ∧ (ret = 0 → Loaded elf t) := by
  unfold loadOpened
  split_ifs with htype
  · exact fun r _ => ⟨_,s,rfl,by simp [Expected],fun h => absurd h einval_ne⟩
  · refine Prog.wp_then (elfIterPh_wp elf.phdrs) ?_
    rintro t ret s' ⟨rfl,hi⟩
    have hcalls (x : HostCall × CInt) (hx : x ∈ t) : Expected elf x.1 := by
      rcases hi.calls x hx with htext | hseg
      · exact .inl (.inr (.inr htext))
      · exact .inr ⟨by tauto,hseg⟩
    split_ifs with hret
    · exact ⟨ret,s',rfl,by simpa using hcalls,fun h => absurd h hret⟩
    · obtain rfl := not_not.mp hret
      have hdone := hi.done rfl
      refine ⟨0,elfData elf,rfl,by simpa using hcalls,fun _ => ⟨fun p hp => ?_,fun p hp => ?_⟩⟩
      · exact (accepted_iff.mp (hdone p hp).1).1
      · simpa using (hdone p hp).2

/-- The whole of `load_elf`: what it calls, and what a result of zero means. -/
theorem loadElf_wp (elf : Elf) : Prog.wp env (loadElf elf) s fun t o =>
    (∀ x ∈ t, Expected elf x.1) ∧ ∀ s', o = .ok 0 s' → Loaded elf t := by
  unfold loadElf
  rw [Prog.wp_bind,Prog.wp_call]
  intro r _
  dsimp only [Prog.thenPost]
  split_ifs with hr
  · refine ⟨by simp [Expected],fun s' h => ?_⟩
    cases h
    exact absurd rfl hr
  · refine Prog.wp_then (loadOpened_wp elf) ?_
    rintro t ret s' ⟨hcalls,hloaded⟩ r' _
    have hmem (x : HostCall × CInt) (hx : x ∈ t) :
        x ∈ [(HostCall.elfOpen,r)] ++ (t ++ [(HostCall.elfClose,r')]) :=
      List.mem_append_right _ (List.mem_append_left _ hx)
    refine ⟨fun x hx => ?_,fun s'' h => ?_⟩
    · simp only [List.mem_append,List.mem_singleton] at hx
      rcases hx with rfl | hx | rfl
      · exact .inl (.inl rfl)
      · exact hcalls x hx
      · exact .inl (.inr (.inl rfl))
    · cases h
      obtain ⟨hinterp,hsegs⟩ := hloaded rfl
      exact ⟨hinterp,fun p hp hload c hc => hmem _ (hsegs p hp hload c hc)⟩

end Runs

section Success
variable {eType : BitVec 16} {phdr : Phdr} {s : ElfData}

abbrev succeed : Code CInt → ElfData → List (HostCall × CInt) × Outcome ElfData Empty CInt :=
  Prog.answer fun _ => 0

theorem succeed_process (hacc : accepted eType phdr = true) :
    succeed (processElfPh eType phdr) s = (if phdr.pType = PT_LOAD then
      (segmentCalls (segmentOff eType) phdr).map fun c => (c,0) else [],.ok 0 s) := by
  obtain ⟨hinterp,hsecure⟩ := accepted_iff.mp hacc
  unfold processElfPh
  by_cases hload : phdr.pType = PT_LOAD
  · simp only [hload,hsecure hload,if_false,if_true,not_true,ne_eq,Bool.false_eq_true]
    rfl
  · simp only [hinterp,hload,if_false,if_true,not_false_eq_true,ne_eq]
    rfl

theorem succeed_iter {phdrs : List Phdr} (hmem : phdr ∈ phdrs.takeWhile (accepted eType))
    (hload : phdr.pType = PT_LOAD) {c : HostCall} (hc : c ∈ segmentCalls (segmentOff eType) phdr) :
    (c,0) ∈ (succeed (elfIterPh (processElfPh eType) phdrs) s).1 := by
  induction phdrs with
  | nil => simp at hmem
  | cons p rest ih =>
    by_cases hacc : accepted eType p = true
    · rw [List.takeWhile_cons,if_pos hacc] at hmem
      have hrun : succeed (elfIterPh (processElfPh eType) (p::rest)) s = _ :=
        Prog.answer_bind (succeed_process hacc) _
      rw [hrun]
      rcases List.mem_cons.mp hmem with rfl | hmem
      · rw [if_pos hload]
        exact List.mem_append_left _ (List.mem_map_of_mem hc)
      · exact List.mem_append_right _ (ih hmem)
    · simp [hacc] at hmem

theorem succeed_load {elf : Elf} (htype : elf.eType = ET_EXEC ∨ elf.eType = ET_DYN)
    (hmem : phdr ∈ elf.phdrs.takeWhile (accepted elf.eType)) (hload : phdr.pType = PT_LOAD)
    {c : HostCall} (hc : c ∈ segmentCalls (segmentOff elf.eType) phdr) :
    (c,0) ∈ (succeed (loadElf elf) s).1 := by
  have hopened : (c,0) ∈ (succeed (loadOpened elf) s).1 := by
    rw [loadOpened,if_neg (by tauto)]
    exact Prog.mem_answer_bind (succeed_iter hmem hload hc) _
  exact List.mem_cons_of_mem _ (Prog.mem_answer_bind hopened _)

end Success

/-- `load_elf` keeps every segment inside the application's area, whatever the runtime
library replies, exactly when no accepted segment ends past the last address; what
it maps when it returns zero is right in any case. -/
theorem loadElf_confined_iff (elf : Elf) (s : ElfData) :
    (∀ t o, Prog.Exec (fun _ _ => True) (loadElf elf) s t o →
      Confined elf t ∧ ∀ s', o = .ok 0 s' → Loaded elf t) ↔
    (elf.eType = ET_EXEC ∨ elf.eType = ET_DYN → NoWrap elf) := by
  have hwp := (Prog.wp_iff (fun _ _ => True) (loadElf elf) s _).mp (loadElf_wp elf)
  refine ⟨fun h htype phdr hmem hload => ?_,fun h t o hexec => ?_⟩
  · have hc : _ ∈ segmentCalls (segmentOff elf.eType) phdr := List.mem_cons_self
    obtain ⟨p,-,hpass,hin⟩ := (h _ _ (Prog.exec_answer (fun _ => trivial) _ _)).1 _
      (succeed_load htype hmem hload hc) rfl
    rw [passes_range (passes_of_mem hc) hpass] at hin
    have hend := hin.2
    simp only [Span.stop,Phdr.range] at hend
    omega
  · obtain ⟨hcalls,hloaded⟩ := hwp t o hexec
    refine ⟨fun x hx hseg => ?_,hloaded⟩
    rcases hcalls x hx with hother | ⟨htype,p,hp,hload,hc⟩
    · rcases hother with heq | heq | ⟨text,heq⟩ <;> rw [heq] at hseg <;> cases hseg
    · have hsecure := (accepted_iff.mp (List.mem_takeWhile_imp hp)).2 hload
      exact ⟨p,List.takeWhile_subset _ hp,passes_of_mem hc,
        range_inside hsecure (h htype p hp hload)⟩

/-- A segment that starts in the last page and ends in the second one. -/
def wrappingElf : Elf where
  eType := ET_EXEC
  eEntry := 0x400000
  ePhoff := 64
  ePhnum := 1
  phdrs := [{pType := PT_LOAD,pFlags := PF_R,pVaddr := 0xfffffffffffff000,pMemsz := 0x2000}]

/-- Its sum wraps to `0x1000`, and it is mapped across the end of the address space. -/
theorem wrappingElf_not_confined : ∃ t s', Prog.Exec (fun _ _ => True) (loadElf wrappingElf)
    ⟨0,0,0⟩ t (.ok 0 s') ∧
    t[1]? = some (.mapPhys 0xfffffffffffff000 0x2000 0xfffffffffffff000
      {u := false,r := true,w := true},0) ∧ ¬Confined wrappingElf t := by
  let phdr : Phdr := {pType := PT_LOAD,pFlags := PF_R,pVaddr := 0xfffffffffffff000,pMemsz := 0x2000}
  have hexec : Prog.Exec (fun _ _ => True) (loadElf wrappingElf) ⟨0,0,0⟩
      ((.elfOpen,0)::((segmentCalls 0 phdr).map fun c => (c,0)) ++ [(.elfClose,0)])
      (.ok 0 (elfData wrappingElf)) :=
    Prog.exec_of_runWith [0,0,0,0,0] (by decide) fun _ _ => trivial
  refine ⟨_,_,hexec,rfl,fun h => ?_⟩
  obtain ⟨p,hp,-,hin⟩ := h _ (List.mem_cons_of_mem _ List.mem_cons_self) rfl
  rw [List.mem_singleton.mp hp] at hin
  exact absurd hin (by decide)

end ElfLoader
end VmplApps

import VmplApps.UmmAccounting
import VmplApps.UmmPaths

/-! The two structures that map a page of the application: the mappings of the
host process and the guest page table. `act` says what one host call does to
them; a call that fails does nothing. -/
namespace VmplApps
namespace Umm

open AppRegion

/-- A page mapped by the host: its protection and what it shows. -/
structure HostPage (D : Type) where
  prot : CInt
  data : D
  deriving DecidableEq, Repr

/-- What pages show when the host maps them: anonymous memory, a page of a file, a
page of a segment, and a page by which a moved mapping grew. -/
structure Backing (D : Type) where
  anon : D
  file : CInt → Word → ℕ → D
  shm : CInt → ℕ → D
  grown : D → ℕ → D

/-- Pages by number. `attached` is the size of the segment attached at an address. -/
structure Maps (D : Type) where
  host : ℕ → Option (HostPage D)
  guest : ℕ → Option Perm
  attached : Word → Word

/-- The pages of a range taken from `f`, all others from `m`. -/
def overlay {α : Type} (r : Span) (f m : ℕ → α) : ℕ → α := fun p => if r.OnPage 4096 p then f p else m p

def SHM_EXEC : CInt := 0x8000

def shmProt (shmflg : CInt) : CInt :=
  (if shmflg &&& SHM_RDONLY = 0 then PROT_READ ||| PROT_WRITE else PROT_READ) |||
    (if shmflg &&& SHM_EXEC = 0 then 0 else PROT_EXEC)

def range (addr len : Word) : Span := ⟨addr.toNat,len.toNat⟩

def pageOf (addr : Word) : ℕ := addr.toNat / 4096

section Effects
variable {D : Type} (b : Backing D)

def mappedData (flags fd : CInt) (offset : Word) (j : ℕ) : D :=
  if flags &&& MAP_ANONYMOUS ≠ 0 then b.anon else b.file fd offset j

def freshPages (addr : Word) (prot flags fd : CInt) (offset : Word) (p : ℕ) : Option (HostPage D) :=
  some ⟨prot,mappedData b flags fd offset (p - pageOf addr)⟩

def segmentPages (addr : Word) (shmid shmflg : CInt) (p : ℕ) : Option (HostPage D) :=
  some ⟨shmProt shmflg,b.shm shmid (p - pageOf addr)⟩

/-- The `j`-th page of a moved mapping; beyond the old pages the mapping grows with
the protection of its last page. -/
def moved (host : ℕ → Option (HostPage D)) (oldAddress oldSize : Word) (j : ℕ) :
    Option (HostPage D) :=
  let last := (oldAddress.toNat + oldSize.toNat - 1) / 4096 - pageOf oldAddress
  if j ≤ last then host (pageOf oldAddress + j)
  else (host (pageOf oldAddress + last)).map fun pg => ⟨pg.prot,b.grown pg.data (j - last)⟩

def act (m : Maps D) : HostCall × Reply → Maps D
  | (.mmap _ len prot flags fd offset,r) =>
    if r.ret = MAP_FAILED then m
    else {m with
      host := overlay (range r.ret len) (freshPages b r.ret prot flags fd offset) m.host}
  | (.munmap addr len,r) =>
    if r.ret = 0 then {m with host := overlay (range addr len) (fun _ => none) m.host} else m
  | (.mprotect addr len prot,r) =>
    if r.ret = 0 then
      {m with
        host := overlay (range addr len)
          (fun p => (m.host p).map fun pg => {pg with prot := prot}) m.host}
    else m
  | (.shmctl _,_) => m
  | (.shmat shmid _ shmflg segsz,r) =>
    if r.ret = -1 then m
    else {m with
      host := overlay (range r.ret segsz) (segmentPages b r.ret shmid shmflg) m.host
      attached := Function.update m.attached r.ret segsz}
  | (.shmdt addr,r) =>
    if r.ret = 0 then {m with
      host := overlay (range addr (m.attached addr)) (fun _ => none) m.host
      attached := Function.update m.attached addr 0}
    else m
  | (.mremap oldAddress oldSize newSize _ _,r) =>
    if r.ret = MAP_FAILED then m
    else {m with
      host := overlay (range r.ret newSize)
        (fun p => moved b m.host oldAddress oldSize (p - pageOf r.ret))
        (overlay (range oldAddress oldSize) (fun _ => none) m.host)}
  | (.vmMapPhys addr len perm,r) =>
    if r.ret = 0 then {m with guest := overlay (range addr len) (fun _ => some perm) m.guest} else m
  | (.vmUnmap addr len,_) => {m with guest := overlay (range addr len) (fun _ => none) m.guest}
  | (.vmMprotect addr len perm,r) =>
    if r.ret = 0 then
      {m with guest := overlay (range addr len) (fun p => (m.guest p).map fun _ => perm) m.guest}
    else m

def actAll (t : List (HostCall × Reply)) (m : Maps D) : Maps D := t.foldl (act b) m

@[simp] theorem actAll_nil (m : Maps D) : actAll b [] m = m := rfl
@[simp] theorem actAll_cons (e : HostCall × Reply) (t : List (HostCall × Reply)) (m : Maps D) :
    actAll b (e::t) m = actAll b t (act b m e) := rfl

def HostCall.forGuest : HostCall → Bool
  | .vmMapPhys .. | .vmUnmap .. | .vmMprotect .. => true
  | _ => false

end Effects

section Overlay
variable {α : Type} {r : Span} {f m : ℕ → α} {p : ℕ}

theorem overlay_in (h : r.OnPage 4096 p) : overlay r f m p = f p := if_pos h

theorem overlay_out (h : ¬r.OnPage 4096 p) : overlay r f m p = m p := if_neg h

end Overlay

theorem onPage_range {addr len : Word} {p : ℕ} :
    (range addr len).OnPage 4096 p ↔
      0 < len.toNat ∧ addr.toNat < (p+1)*4096 ∧ p*4096 < addr.toNat + len.toNat := by
  rw [Span.onPage_iff (by omega)]
  simp only [range,Span.stop]
  omega

def InWindow (mmapBase : Word) (p : ℕ) : Prop :=
  mmapBase.toNat ≤ p*4096 ∧ p*4096 < mmapBase.toNat + 0x200000000

instance (mmapBase : Word) (p : ℕ) : Decidable (InWindow mmapBase p) :=
  inferInstanceAs (Decidable (_ ∧ _))

theorem not_onPage_failed {mmapBase : Word} (hb : Based mmapBase) {len : Word} {p : ℕ}
    (hp : InWindow mmapBase p) : ¬(range MAP_FAILED len).OnPage 4096 p := by
  have hu := hb.upper
  have hw := hp.2
  have hf : MAP_FAILED.toNat = 2^64 - 1 := rfl
  rw [onPage_range]
  omega

section Acts
variable {D : Type} (b : Backing D) (m : Maps D)

theorem act_guest {c : HostCall} (hc : c.forGuest = false) (r : Reply) :
    (act b m (c,r)).guest = m.guest := by
  cases c with
  | vmMapPhys | vmUnmap | vmMprotect => cases hc
  | shmctl => rfl
  | mmap | munmap | mprotect | shmat | shmdt | mremap =>
    simp only [act]
    split_ifs <;> rfl

theorem act_host {c : HostCall} (hc : c.forGuest = true) (r : Reply) :
    (act b m (c,r)).host = m.host := by
  cases c with
  | vmUnmap => rfl
  | vmMapPhys | vmMprotect =>
    simp only [act]
    split_ifs <;> rfl
  | mmap | munmap | mprotect | shmctl | shmat | shmdt | mremap => cases hc

theorem actAll_host (e : HostCall × Reply) {c : HostCall} (hc : c.forGuest = true) (r : Reply) :
    (actAll b [e,(c,r)] m).host = (act b m e).host := by
  rw [actAll_cons,actAll_cons,actAll_nil,act_host _ _ hc]

theorem act_shmctl (shmid : CInt) (r : Reply) : act b m (.shmctl shmid,r) = m := rfl

variable {b m}

theorem act_mmap (addr len : Word) (prot flags fd : CInt) (offset : Word) {r : Reply}
    (hr : r.ret = addr) :
    (act b m (.mmap addr len prot flags fd offset,r)).host =
      if r.ret = MAP_FAILED then m.host
      else overlay (range addr len) (freshPages b addr prot flags fd offset) m.host := by
  subst hr
  simp only [act]
  split_ifs <;> rfl

theorem act_shmat (shmid : CInt) (addr : Word) (shmflg : CInt) (segsz : Word) {r : Reply} :
    (act b m (.shmat shmid addr shmflg segsz,r)).host =
      if r.ret = -1 then m.host
      else overlay (range r.ret segsz) (segmentPages b r.ret shmid shmflg) m.host := by
  simp only [act]
  split_ifs <;> rfl

theorem attached_shmat (shmid : CInt) {addr : Word} (shmflg : CInt) (segsz : Word) {r : Reply}
    (hr : r.ret = addr) : (act b m (.shmat shmid addr shmflg segsz,r)).attached addr =
      if r.ret = -1 then m.attached addr else segsz := by
  simp only [act]
  split_ifs
  · rfl
  · simp [hr]

theorem act_munmap (addr len : Word) {u : Reply} (hu : u.ret = 0) :
    (act b m (.munmap addr len,u)).host = overlay (range addr len) (fun _ => none) m.host := by
  simp only [act,if_pos hu]

theorem act_munmap_refused (addr len : Word) {u : Reply} (hu : u.ret ≠ 0) :
    act b m (.munmap addr len,u) = m := by
  simp only [act,if_neg hu]

theorem act_shmdt (addr : Word) {u : Reply} (hu : u.ret = 0) :
    (act b m (.shmdt addr,u)).host =
      overlay (range addr (m.attached addr)) (fun _ => none) m.host := by
  simp only [act,if_pos hu]

theorem act_shmdt_refused (addr : Word) {u : Reply} (hu : u.ret ≠ 0) :
    act b m (.shmdt addr,u) = m := by
  simp only [act,if_neg hu]

theorem act_vmUnmap (addr len : Word) (g : Reply) :
    (act b m (.vmUnmap addr len,g)).guest = overlay (range addr len) (fun _ => none) m.guest := rfl

theorem act_mapPhys (addr len : Word) (perm : Perm) {g : Reply} (hg : g.ret = 0) :
    (act b m (.vmMapPhys addr len perm,g)).guest =
      overlay (range addr len) (fun _ => some perm) m.guest := by
  simp only [act,if_pos hg]

theorem act_mapPhys_refused (addr len : Word) (perm : Perm) {g : Reply} (hg : g.ret ≠ 0) :
    act b m (.vmMapPhys addr len perm,g) = m := by
  simp only [act,if_neg hg]

variable (b m)

theorem act_mmap_host (addr len : Word) (prot flags fd : CInt) (offset : Word) {r : Reply} {p : ℕ}
    (hfar : r.ret = MAP_FAILED → ¬(range r.ret len).OnPage 4096 p) :
    (act b m (.mmap addr len prot flags fd offset,r)).host p =
      overlay (range r.ret len) (freshPages b r.ret prot flags fd offset) m.host p := by
  simp only [act]
  split_ifs with hf
  · rw [overlay_out (hfar hf)]
  · rfl

theorem act_shmat_host (shmid : CInt) (addr : Word) (shmflg : CInt) (segsz : Word) {r : Reply} {p : ℕ}
    (hfar : r.ret = -1 → ¬(range r.ret segsz).OnPage 4096 p) :
    (act b m (.shmat shmid addr shmflg segsz,r)).host p =
      overlay (range r.ret segsz) (segmentPages b r.ret shmid shmflg) m.host p := by
  simp only [act]
  split_ifs with hf
  · rw [overlay_out (hfar hf)]
  · rfl

end Acts

theorem mmap_refused {addr len : Word} {prot flags fd : CInt} {offset : Word} {r : Reply}
    (h : HostOk (.mmap addr len prot flags fd offset) r) (hr : r.ret ≠ addr) :
    r.ret = MAP_FAILED := by
  rcases h with ⟨he,-⟩ | ⟨hf,-⟩
  · exact absurd he hr
  · exact hf

theorem mapCall_eq (addr len : Word) (prot flags fd : CInt) (offset : Word) :
    ∃ flags' fd' offset', mapCall addr len prot flags fd offset =
      .mmap addr len prot flags' fd' offset' := by
  unfold mapCall anonCall
  split
  · exact ⟨_,_,_,rfl⟩
  · exact ⟨_,_,_,rfl⟩

/-- One call that returns, with its effect on both structures. -/
def MapStep {D : Type} (b : Backing D) (mmapBase : Word) (x : Counters × Maps D) (c : Call)
    (y : Counters × Maps D) : Prop :=
  Step mmapBase x.1 c y.1 ∧ y.2 = actAll b c.trace x.2

def blankMaps : Maps Unit := ⟨fun _ => none,fun _ => none,fun _ => 0⟩

def unitBacking : Backing Unit := ⟨(),fun _ _ _ => (),fun _ _ => (),fun _ _ => ()⟩

def placedCall (prot : CInt) : Call where
  op := .mmap 0 8192 prot 0x22 (-1) 0
  trace := [(.mmap 0x5ffffe000 8192 prot 0x32 (-1) 0,{ret := 0x5ffffe000}),
    (.vmMapPhys 0x5ffffe000 8192 (protToPerm prot),{})]
  outcome := .ok 0x5ffffe000 ⟨0,8192⟩

def movedCall : Call where
  op := .mremap 0x5ffffe000 4096 4096 MREMAP_MAYMOVE 0
  trace := [(.mremap 0x5ffffe000 4096 4096 3 0x5ffffd000,{ret := 0x5ffffd000}),
    (.vmUnmap 0x5ffffe000 4096,{}),(.vmMapPhys 0x5ffffd000 4096 (protToPerm 3),{})]
  outcome := .ok 0x5ffffd000 ⟨0,12288⟩

theorem placedCall_step (prot : CInt) : Step 0x400000000 {} (placedCall prot) ⟨0,8192⟩ := by
  refine ⟨Prog.exec_of_runWith [{ret := 0x5ffffe000},{}] rfl ?_,rfl⟩
  simp [placedCall,HostOk]

theorem movedCall_step : Step 0x400000000 ⟨0,8192⟩ movedCall ⟨0,12288⟩ := by
  refine ⟨Prog.exec_of_runWith [{ret := 0x5ffffd000},{},{}] rfl ?_,rfl⟩
  simp [movedCall,HostOk]

end Umm
end VmplApps

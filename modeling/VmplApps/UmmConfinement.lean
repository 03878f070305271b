import VmplApps.UmmAccounting

/-! Where the memory manager acts. Every range on which a host call succeeds or
that is handed to the guest page tables lies in the application's windows, with
one exception: the retry of a refused `munmap` uses a length rounded to 2 MiB
after the range test. -/
namespace VmplApps
namespace Umm

open AppRegion

/-- The ranges a call acts on: those of a host call only when it succeeds, those
given to the guest page tables always. -/
def touched : HostCall × Reply → List Span
  | (.mmap _ len _ _ _ _,r) => if r.ret = MAP_FAILED then [] else [⟨r.ret.toNat,len.toNat⟩]
  | (.munmap addr len,r) | (.mprotect addr len _,r) =>
    if r.ret = 0 then [⟨addr.toNat,len.toNat⟩] else []
  | (.shmat _ _ _ segsz,r) => if r.ret = -1 then [] else [⟨r.ret.toNat,segsz.toNat⟩]
  | (.mremap oldAddress oldSize newSize _ _,r) =>
    if r.ret = MAP_FAILED then []
    else [⟨oldAddress.toNat,oldSize.toNat⟩,⟨r.ret.toNat,newSize.toNat⟩]
  | (.vmMapPhys addr len _,_) | (.vmUnmap addr len,_) | (.vmMprotect addr len _,_) =>
    [⟨addr.toNat,len.toNat⟩]
  | (.shmctl _,_) | (.shmdt _,_) => []

/-- Everything a trace acts on, in whole pages, lies in the windows. -/
def Confined (mmapBase : Word) (t : List (HostCall × Reply)) : Prop :=
  ∀ e ∈ t, ∀ r ∈ touched e, InApp mmapBase (r.outward 4096)

section Traces
variable {mmapBase : Word}

@[simp] theorem confined_nil : Confined mmapBase [] := by simp [Confined]
@[simp] theorem confined_cons (e : HostCall × Reply) (t : List (HostCall × Reply)) :
    Confined mmapBase (e::t) ↔
      (∀ r ∈ touched e, InApp mmapBase (r.outward 4096)) ∧ Confined mmapBase t := by
  simp [Confined]
@[simp] theorem confined_append (t t' : List (HostCall × Reply)) :
    Confined mmapBase (t ++ t') ↔ Confined mmapBase t ∧ Confined mmapBase t' := by
  simp only [Confined,List.mem_append,or_imp,forall_and]

theorem inApp_outward_iff (hb : Based mmapBase) (r : Span) :
    InApp mmapBase (r.outward 4096) ↔ InApp mmapBase r := by
  have ha := Nat.dvd_of_mod_eq_zero hb.aligned
  simp only [InApp]
  rw [Span.outward_inside_iff (by omega) (by omega) (by omega),
    Span.outward_inside_iff (by omega) ha (by omega)]

end Traces

/-- No argument range runs past the last address. The length of an attachment is
what `shmctl` reported; an address that is not used is not restricted. -/
def Op.Exact (t : List (HostCall × Reply)) : Op → Prop
  | .mmap addr len _ _ _ _ | .munmap addr len | .mprotect addr len _ =>
    addr.toNat + len.toNat < 2^64
  | .shmat _ addr _ => ∀ e ∈ t.head?, addr.toNat + e.2.segsz.toNat < 2^64
  | .mremap oldAddress oldSize newSize flags newAddress =>
    oldAddress.toNat + oldSize.toNat < 2^64 ∧
      (flags &&& MREMAP_FIXED ≠ 0 → newAddress.toNat + newSize.toNat < 2^64)
  | .allocStack | .brk _ => True

section Calls
variable {mmapBase : Word} {s : Counters}

theorem chosen_inApp (hb : Based mmapBase) (hs : s.Balanced) {auto : Bool} {addr len target : Word}
    (hch : Chosen mmapBase auto addr len s (.ok target s))
    (hex : auto = false → addr.toNat + len.toNat < 2^64)
    (hgrant : len.toNat < 2^47 ∨ target = MAP_FAILED) :
    InApp mmapBase (Span.outward 4096 ⟨target.toNat,len.toNat⟩) := by
  rw [inApp_outward_iff hb]
  rcases hch with ⟨-,⟨rfl,hsp,ht⟩ | ⟨rfl,hsafe,rfl⟩⟩
  · exact .inr (effect_of_placed hb hs hsp ht hgrant).inside
  · exact inApp_of_memRefIsSafe hb.placed hsafe (hex rfl)

def Grantable (mmapBase addr len : Word) : Prop :=
  len.toNat < 2^47 ∨ addr = MAP_FAILED →
    InApp mmapBase (Span.outward 4096 ⟨addr.toNat,len.toNat⟩)

theorem mmap_touched {addr len : Word} {prot flags fd : CInt} {offset : Word} {r : Reply}
    (h : Grantable mmapBase addr len) (hr : HostOk (.mmap addr len prot flags fd offset) r) :
    ∀ x ∈ touched (.mmap addr len prot flags fd offset,r), InApp mmapBase (x.outward 4096) := by
  rcases hr with ⟨hret,hl⟩ | ⟨hret,-⟩ <;> simp only [touched,hret]
  · split_ifs <;> simp [h (.inl hl)]
  · simp

theorem mremap_touched {oldAddress oldSize newSize newAddress : Word} {flags : CInt} {r : Reply}
    (hold : InApp mmapBase (Span.outward 4096 ⟨oldAddress.toNat,oldSize.toNat⟩))
    (h : Grantable mmapBase newAddress newSize)
    (hr : HostOk (.mremap oldAddress oldSize newSize flags newAddress) r) :
    ∀ x ∈ touched (.mremap oldAddress oldSize newSize flags newAddress,r),
      InApp mmapBase (x.outward 4096) := by
  rcases hr with ⟨hret,hl⟩ | ⟨hret,-⟩ <;> simp only [touched,hret]
  · split_ifs <;> simp [hold,h (.inl hl)]
  · simp

theorem inApp_pgAddr (hb : Based mmapBase) {addr : Word} {len : ℕ}
    (h : InApp mmapBase ⟨addr.toNat,len⟩) : InApp mmapBase ⟨(pgAddr addr).toNat,len⟩ := by
  have ha := hb.aligned
  have hpg := pgAddr_toNat addr
  simp only [InApp,Span.Inside,Span.stop] at h ⊢
  omega

/-- An attachment that the host rounded down to a page does not leave the windows. -/
theorem shmat_touched (hb : Based mmapBase) {shmid shmflg : CInt} {addr segsz : Word} {r : Reply}
    (h : Grantable mmapBase addr segsz) (hr : HostOk (.shmat shmid addr shmflg segsz) r) :
    ∀ x ∈ touched (.shmat shmid addr shmflg segsz,r), InApp mmapBase (x.outward 4096) := by
  rcases hr with ⟨hret,hl⟩ | ⟨hret,-⟩
  · have hin := (inApp_outward_iff hb _).mp (h (.inl hl))
    have hret : InApp mmapBase ⟨r.ret.toNat,segsz.toNat⟩ := by
      rcases hret with hret | ⟨-,hret⟩ <;> rw [hret]
      · exact hin
      · exact inApp_pgAddr hb hin
    simp only [touched]
    split_ifs <;> simp [(inApp_outward_iff hb _).mpr hret]
  · simp [touched,hret]

theorem munmap_touched {addr len : Word} (r : Reply)
    (h : InApp mmapBase (Span.outward 4096 ⟨addr.toNat,len.toNat⟩)) :
    ∀ x ∈ touched (.munmap addr len,r), InApp mmapBase (x.outward 4096) := by
  simp only [touched]
  split_ifs <;> simp [h]

theorem vmUnmap_touched {addr len : Word} (r : Reply)
    (h : InApp mmapBase (Span.outward 4096 ⟨addr.toNat,len.toNat⟩)) :
    ∀ x ∈ touched (.vmUnmap addr len,r), InApp mmapBase (x.outward 4096) := by
  simpa only [touched,List.forall_mem_singleton] using h

theorem mapGuest_confined {addr len : Word} (perm : Perm)
    (h : InApp mmapBase (Span.outward 4096 ⟨addr.toNat,len.toNat⟩)) :
    Prog.wp HostOk (mapGuest addr len perm) s fun t _ => Confined mmapBase t := by
  simp only [mapGuest,Prog.wp_bind,Prog.wp_call,Prog.thenPost]
  intro r _
  split_ifs
  · simp only [Prog.wp_bind,Prog.wp_call,Prog.thenPost]
    intro r' _
    simp [touched,h]
  · simp [touched,h]

theorem mmap_then_guest_confined {addr len : Word} (prot flags fd : CInt) (offset : Word)
    (perm : Perm) (h : Grantable mmapBase addr len) {r : Reply}
    (hr : HostOk (.mmap addr len prot flags fd offset) r) :
    Prog.wp HostOk (if r.ret ≠ addr then pure (-r.errno) else mapGuest addr len perm) s fun t _ =>
      Confined mmapBase ((.mmap addr len prot flags fd offset,r)::t) := by
  have hmem := mmap_touched h hr
  by_cases hne : r.ret ≠ addr
  · rw [if_pos hne]
    exact (confined_cons _ _).mpr ⟨hmem,confined_nil⟩
  · rw [if_neg hne]
    have hin := h ((mmap_granted hr).2 (not_not.mp hne))
    exact Prog.wp_mono (mapGuest_confined perm hin) fun t _ ht => (confined_cons _ _).mpr ⟨hmem,ht⟩

theorem ummMmapAnom_confined {addr len : Word} (prot : CInt) (big : Bool)
    (h : Grantable mmapBase addr len) :
    Prog.wp HostOk (ummMmapAnom addr len prot big) s fun t _ => Confined mmapBase t := by
  simp only [ummMmapAnom,Prog.wp_bind,Prog.wp_call,Prog.thenPost]
  exact fun r hr => mmap_then_guest_confined _ _ _ _ _ h hr

theorem ummMmapFile_confined {addr len : Word} (prot flags fd : CInt) (offset : Word)
    (h : Grantable mmapBase addr len) :
    Prog.wp HostOk (ummMmapFile addr len prot flags fd offset) s fun t _ => Confined mmapBase t := by
  simp only [ummMmapFile,Prog.wp_bind,Prog.wp_call,Prog.thenPost]
  exact fun r hr => mmap_then_guest_confined _ _ _ _ _ h hr

theorem mapKind_confined {target len : Word} (prot flags fd : CInt) (offset : Word)
    (h : Grantable mmapBase target len) :
    Prog.wp HostOk (mapKind target len prot flags fd offset) s fun t _ => Confined mmapBase t := by
  unfold mapKind
  split_ifs
  · exact ummMmapAnom_confined _ _ h
  · exact ummMmapFile_confined _ _ _ _ h
  · exact confined_nil

theorem ummMmap_confined (hb : Based mmapBase) (hs : s.Balanced) {addr len : Word}
    (prot flags fd : CInt) (offset : Word) (hex : addr.toNat + len.toNat < 2^64) :
    Prog.wp HostOk (ummMmap mmapBase addr len prot flags fd offset) s
      fun t _ => Confined mmapBase t := by
  refine Prog.wp_seq (chooseAddr_wp addr len) ?_ (fun _ _ _ h => h.1 ▸ confined_nil)
    fun _ h => h.2.elim
  rintro _ target s ⟨rfl,rfl,hch⟩
  have hin : Grantable mmapBase target len := chosen_inApp hb hs ⟨rfl,hch⟩ fun _ => hex
  refine Prog.wp_seq (mapKind_confined prot flags fd offset hin) ?_ (fun _ _ _ h => h) fun _ h => h
  intro t v s ht
  split_ifs
  · simpa using ht
  · simpa [adjustMmapLen,Prog.wp_bind,Prog.thenPost] using ht

theorem shmat_then_guest_confined (hb : Based mmapBase) {shmid shmflg : CInt} {target segsz : Word}
    (perm : Perm) (adjust : Bool) (h : Grantable mmapBase target segsz) {mem : Reply}
    (hmem : HostOk (.shmat shmid target shmflg segsz) mem) :
    Prog.wp HostOk (if mem.ret ≠ target then .fail (-mem.errno) else do
        let r ← Prog.call (.vmMapPhys target segsz perm)
        if r.ret ≠ 0 then
          let _ ← Prog.call (.shmdt target)
          .fail r.ret
        else
          adjustMmapLen adjust segsz
          pure target : Code Word) s
      fun t _ => Confined mmapBase ((.shmat shmid target shmflg segsz,mem)::t) := by
  have hat := shmat_touched hb h hmem
  by_cases hne : mem.ret ≠ target
  · rw [if_pos hne]
    exact (confined_cons _ _).mpr ⟨hat,confined_nil⟩
  · rw [if_neg hne]
    have hin := h (shmat_granted hmem (not_not.mp hne))
    simp only [Prog.wp_bind,Prog.wp_call,Prog.thenPost]
    intro r _
    split_ifs
    · simp only [Prog.wp_bind,Prog.wp_call,Prog.thenPost]
      intro r' _
      simpa [touched,hin] using hat
    · simpa [touched,hin,adjustMmapLen,Prog.wp_bind,Prog.thenPost] using hat

theorem ummShmat_confined (hb : Based mmapBase) (hs : s.Balanced) (shmid : CInt) (addr : Word)
    (shmflg : CInt) :
    Prog.wp HostOk (ummShmat mmapBase shmid addr shmflg) s fun t _ =>
      (Op.shmat shmid addr shmflg).Exact t → Confined mmapBase t := by
  simp only [ummShmat,Prog.wp_bind,Prog.wp_call,Prog.thenPost]
  intro shm _
  by_cases hshm : shm.ret = -1
  · rw [if_pos hshm]
    intro _
    simp [touched]
  rw [if_neg hshm]
  refine Prog.wp_seq (chooseAddr_wp addr shm.segsz) ?_ (fun _ _ _ h _ => ?_) fun _ h => h.2.elim
  · rintro _ target s ⟨rfl,rfl,hch⟩
    simp only [Prog.wp_bind,Prog.wp_call,Prog.thenPost]
    intro mem hmem
    rw [Prog.wp_iff]
    intro t o hexec hex
    have hin : Grantable mmapBase target shm.segsz :=
      chosen_inApp hb hs ⟨rfl,hch⟩ fun _ => hex _ rfl
    have hrest := (Prog.wp_iff _ _ _ _).mp (shmat_then_guest_confined hb _ _ hin hmem) t o hexec
    exact (confined_cons _ _).mpr ⟨by simp [touched],hrest⟩
  · rw [h.1]
    simp [touched]

theorem ummMremap_confined (hb : Based mmapBase) (hs : s.Balanced)
    {oldAddress oldSize newSize : Word} {flags : CInt} {newAddress : Word}
    (hex : (Op.mremap oldAddress oldSize newSize flags newAddress).Exact []) :
    Prog.wp HostOk (ummMremap mmapBase oldAddress oldSize newSize flags newAddress) s
      fun t _ => Confined mmapBase t := by
  unfold ummMremap
  cases hsafe : memRefIsSafe mmapBase oldAddress oldSize
  · exact confined_nil
  have hold : InApp mmapBase (Span.outward 4096 ⟨oldAddress.toNat,oldSize.toNat⟩) :=
    (inApp_outward_iff hb _).mpr (inApp_of_memRefIsSafe hb.placed hsafe hex.1)
  refine Prog.wp_seq (mremapAddr_wp newSize flags newAddress) ?_
    (fun _ _ _ h => h.1 ▸ confined_nil) fun _ h => h.2.elim
  rintro _ target s ⟨rfl,rfl,hch⟩
  have hnew : Grantable mmapBase target newSize :=
    chosen_inApp hb hs ⟨rfl,hch⟩ fun hauto => hex.2 (by simpa using hauto)
  by_cases hmove : flags &&& MREMAP_MAYMOVE = 0
  · rw [if_pos hmove]
    exact confined_nil
  rw [if_neg hmove]
  simp only [Prog.wp_bind,Prog.wp_call,Prog.thenPost]
  intro r hr
  have hmoved := mremap_touched hold hnew hr
  by_cases hne : r.ret ≠ target
  · rw [if_pos hne]
    exact (confined_cons _ _).mpr ⟨hmoved,confined_nil⟩
  rw [if_neg hne]
  have hin := hnew (mremap_granted hr (not_not.mp hne))
  simp only [adjustMmapLen,Prog.wp_bind,Prog.wp_modify,Prog.wp_call,Prog.thenPost]
  intro _ _ r' _
  split_ifs <;> simpa [touched,hin,hold] using hmoved

theorem ummMprotect_confined (hb : Based mmapBase) {addr len : Word} (prot : Word)
    (hex : addr.toNat + len.toNat < 2^64) :
    Prog.wp HostOk (ummMprotect mmapBase addr len prot) s fun t _ => Confined mmapBase t := by
  unfold ummMprotect
  cases hsafe : memRefIsSafe mmapBase addr len
  · exact confined_nil
  have hin : InApp mmapBase (Span.outward 4096 ⟨addr.toNat,len.toNat⟩) :=
    (inApp_outward_iff hb _).mpr (inApp_of_memRefIsSafe hb.placed hsafe hex)
  simp only [Bool.not_true,Bool.false_eq_true,if_false,Prog.wp_bind,Prog.wp_call,Prog.thenPost]
  intro r _
  by_cases hr : r.ret ≠ 0
  · rw [if_pos hr]
    exact (confined_cons _ _).mpr ⟨munmap_touched r hin,confined_nil⟩
  · rw [if_neg hr]
    simp only [Prog.wp_bind,Prog.wp_call,Prog.thenPost]
    intro r' _
    split_ifs <;> simp [touched,hin,not_not.mp hr]

theorem heapPart_inApp (hb : Based mmapBase) {low high : Word} (hle : low ≤ high)
    (hroom : high.toNat ≤ 0x200000000) :
    InApp mmapBase (Span.outward 4096 ⟨(mmapBase + low).toNat,(high - low).toNat⟩) := by
  rw [BitVec.le_def] at hle
  have hu := hb.upper
  have hadd : (mmapBase + low).toNat = mmapBase.toNat + low.toNat :=
    Words.add_toNat_exact (by omega)
  have hsub : (high - low).toNat = high.toNat - low.toNat := Words.sub_toNat_exact hle
  rw [inApp_outward_iff hb]
  exact .inr ⟨by simp only; omega,by simp only [Span.stop]; omega⟩

theorem stack_inApp (hb : Based mmapBase) (hs : s.Balanced)
    (hsp : ummSpaceLeft s appStackSize = true) :
    InApp mmapBase (Span.outward 4096
      ⟨(pgAddr (ummGetMapPos mmapBase s) - appStackSize + pgSize).toNat,
        (appStackSize - pgSize).toNat⟩) := by
  have hpos := mapPos_toNat hb hs
  have hu := hb.upper
  have hst := appStackSize_toNat
  rw [spaceLeft_iff hs (by omega),hst] at hsp
  have haddr := pgAddr_toNat (ummGetMapPos mmapBase s)
  have ha := hb.aligned
  have hm := hs.mmap
  have hlow : (pgAddr (ummGetMapPos mmapBase s) - appStackSize).toNat =
      (pgAddr (ummGetMapPos mmapBase s)).toNat - 0x800000 :=
    Words.sub_toNat_exact (by omega)
  have hpg : pgSize.toNat = 4096 := rfl
  have hstart : (pgAddr (ummGetMapPos mmapBase s) - appStackSize + pgSize).toNat =
      (pgAddr (ummGetMapPos mmapBase s)).toNat - 0x800000 + 4096 := by
    rw [Words.add_toNat_exact (by omega),hlow,hpg]
  have hlen : (appStackSize - pgSize).toNat = 0x7ff000 := rfl
  rw [inApp_outward_iff hb,hstart,hlen]
  exact .inr ⟨by simp only; omega,by simp only [Span.stop]; omega⟩

theorem ummBrk_confined (hb : Based mmapBase) (hs : s.Balanced) (brk : Word) :
    Prog.wp HostOk (ummBrk mmapBase brk) s fun t _ => Confined mmapBase t := by
  unfold ummBrk
  by_cases h0 : brk = 0
  · rw [if_pos h0]
    exact confined_nil
  rw [if_neg h0]
  by_cases hlow : brk < mmapBase
  · rw [if_pos hlow]
    exact confined_nil
  rw [if_neg hlow]
  simp only [Prog.wp_bind,Prog.wp_state,Prog.thenPost]
  cases hsp : ummSpaceLeft s (pgRoundUp (brk - mmapBase))
  · exact confined_nil
  obtain ⟨-,hroom⟩ := heap_room hb hs hlow hsp
  generalize pgRoundUp (brk - mmapBase) = len at hroom
  simp only [Bool.not_true,Bool.false_eq_true,if_false]
  by_cases heq : len = s.brkLen
  · rw [if_pos heq]
    exact confined_nil
  rw [if_neg heq]
  by_cases hlt : len < s.brkLen
  · rw [if_pos hlt]
    have hin := heapPart_inApp hb (BitVec.le_of_lt hlt) (by have := hs.room; omega)
    simp only [Prog.wp_bind,Prog.wp_call,Prog.thenPost]
    intro r _
    by_cases hr : r.ret ≠ 0
    · rw [if_pos hr]
      exact (confined_cons _ _).mpr ⟨munmap_touched r hin,confined_nil⟩
    · rw [if_neg hr]
      simp only [Prog.wp_bind,Prog.wp_call,Prog.wp_modify,Prog.thenPost]
      intro r' _
      exact (confined_cons _ _).mpr ⟨munmap_touched r hin,
        (confined_cons _ _).mpr ⟨vmUnmap_touched r' hin,confined_nil⟩⟩
  · rw [if_neg hlt]
    have hin := heapPart_inApp hb (BitVec.not_lt.mp hlt) (by omega)
    refine Prog.wp_seq (ummMmapAnom_confined _ _ fun _ => hin) ?_ (fun _ _ _ h => h) fun _ h => h
    intro t v s ht
    split_ifs
    · simpa using ht
    · simpa [Prog.wp_bind,Prog.thenPost] using ht

theorem ummAllocStack_confined (hb : Based mmapBase) (hs : s.Balanced) :
    Prog.wp HostOk (ummAllocStack mmapBase) s fun t _ => Confined mmapBase t := by
  simp only [ummAllocStack,Prog.wp_bind,Prog.wp_state,Prog.thenPost]
  cases hsp : ummSpaceLeft s appStackSize
  · exact confined_nil
  have hin := stack_inApp hb hs hsp
  refine Prog.wp_seq (ummMmapAnom_confined _ _ fun _ => hin) ?_ (fun _ _ _ h => h) fun _ h => h
  intro t v s ht
  split_ifs
  · simpa using ht
  · simpa [Prog.wp_bind,Prog.thenPost] using ht

/-- The second `munmap` of a trace, the one with the rounded length, succeeded. -/
def retryGranted : List (HostCall × Reply) → Bool
  | (.munmap _ _,_)::(.munmap _ _,r)::_ => r.ret == 0
  | _ => false

/-- A retried `munmap` that succeeds stays in the windows although its length was
rounded up to 2 MiB. -/
def Op.RetryFits (mmapBase : Word) (t : List (HostCall × Reply)) : Op → Prop
  | .munmap addr len => retryGranted t = true →
      InApp mmapBase ⟨addr.toNat,(len.toNat + 0x1fffff) / 0x200000 * 0x200000⟩
  | _ => True

theorem bigPgRoundUp_toNat (len : Word) (h : len.toNat < 2^47) :
    (bigPgRoundUp len).toNat = (len.toNat + 0x1fffff) / 0x200000 * 0x200000 := by
  rw [bigPgRoundUp,Words.alignUp_toNat (by omega) len (by omega)]
  norm_num

theorem ummMunmap_confined_iff (hb : Based mmapBase) {addr len : Word}
    (hex : addr.toNat + len.toNat < 2^64) :
    Prog.wp HostOk (ummMunmap mmapBase addr len) s fun t _ =>
      (Confined mmapBase t ↔ (Op.munmap addr len).RetryFits mmapBase t) := by
  unfold ummMunmap
  cases hsafe : memRefIsSafe mmapBase addr len
  · exact iff_of_true confined_nil fun h => absurd h Bool.false_ne_true
  have hin := inApp_of_memRefIsSafe hb.placed hsafe hex
  have hstop := hin.stop_lt hb.placed
  have hbig := bigPgRoundUp_toNat len (by simp only [Span.stop] at hstop; omega)
  rw [← inApp_outward_iff hb] at hin
  simp only [Bool.not_true,Bool.false_eq_true,if_false,Prog.wp_bind,Prog.wp_call,Prog.thenPost]
  intro r _
  by_cases hr : r.ret ≠ 0
  · have hfirst : touched (.munmap addr len,r) = [] := if_neg hr
    rw [if_pos hr]
    simp only [Prog.wp_bind,Prog.wp_call,Prog.thenPost]
    intro r' _
    by_cases hr' : r'.ret ≠ 0
    · have hsecond : touched (.munmap addr (bigPgRoundUp len),r') = [] := if_neg hr'
      rw [if_pos hr']
      refine iff_of_true (by simp [hfirst,hsecond]) fun h => ?_
      exact absurd (by simpa [retryGranted] using h) hr'
    · rw [if_neg hr']
      simp only [Prog.wp_bind,Prog.wp_call,Prog.thenPost]
      intro r'' _
      have hgranted : r'.ret = 0 := not_not.mp hr'
      rw [Prog.wp_pure,List.singleton_append,confined_cons,hfirst]
      simp [Op.RetryFits,retryGranted,touched,hgranted,hbig,inApp_outward_iff hb]
  · rw [if_neg hr]
    simp only [Prog.wp_bind,Prog.wp_call,Prog.thenPost]
    intro r' _
    refine iff_of_true ?_ fun h => absurd h Bool.false_ne_true
    simp [touched,hin,not_not.mp hr]

theorem code_confined_iff (hb : Based mmapBase) (hs : s.Balanced) (op : Op) :
    Prog.wp HostOk (op.code mmapBase) s fun t _ =>
      op.Exact t → (Confined mmapBase t ↔ op.RetryFits mmapBase t) := by
  rw [Prog.wp_iff]
  intro t o hexec hex
  cases op with
  | munmap addr len =>
    exact (Prog.wp_iff _ _ _ _).mp (ummMunmap_confined_iff hb hex) t o hexec
  | allocStack =>
    exact iff_of_true ((Prog.wp_iff _ _ _ _).mp (ummAllocStack_confined hb hs) t o hexec) trivial
  | brk newBrk =>
    exact iff_of_true ((Prog.wp_iff _ _ _ _).mp (ummBrk_confined hb hs newBrk) t o hexec) trivial
  | mmap =>
    exact iff_of_true ((Prog.wp_iff _ _ _ _).mp (ummMmap_confined hb hs _ _ _ _ hex) t o hexec)
      trivial
  | mprotect =>
    exact iff_of_true ((Prog.wp_iff _ _ _ _).mp (ummMprotect_confined hb _ hex) t o hexec) trivial
  | shmat =>
    exact iff_of_true ((Prog.wp_iff _ _ _ _).mp (ummShmat_confined hb hs _ _ _) t o hexec hex)
      trivial
  | mremap =>
    exact iff_of_true ((Prog.wp_iff _ _ _ _).mp (ummMremap_confined hb hs hex) t o hexec) trivial

end Calls

/-- Every call of a run was made in a balanced state. -/
theorem runs_made_balanced {mmapBase : Word} (hb : Based mmapBase) {s : Counters}
    {calls : List Call} (h : Runs (Step mmapBase) {} calls s) :
    ∀ k ∈ calls, ∃ s₀ : Counters, s₀.Balanced ∧
      Prog.Exec HostOk (k.op.code mmapBase) s₀ k.trace k.outcome := by
  induction h with
  | start => simp
  | next hrun hstep ih =>
    rw [List.forall_mem_cons]
    exact ⟨⟨_,(runs_accountedFor hb hrun).balanced,hstep.1⟩,ih⟩

/-- A run of calls followed by one more, which may also stop the process, acts in
the windows only, exactly when every granted retry of a `munmap` does. -/
theorem runs_confined_iff {mmapBase : Word} (hb : Based mmapBase) {s : Counters}
    {calls : List Call} (h : Runs (Step mmapBase) {} calls s) {c : Call}
    (hc : Prog.Exec HostOk (c.op.code mmapBase) s c.trace c.outcome)
    (hex : ∀ k ∈ c::calls, k.op.Exact k.trace) :
    (∀ k ∈ c::calls, Confined mmapBase k.trace) ↔
      ∀ k ∈ c::calls, k.op.RetryFits mmapBase k.trace := by
  have hmade : ∀ k ∈ c::calls, ∃ s₀ : Counters, s₀.Balanced ∧
      Prog.Exec HostOk (k.op.code mmapBase) s₀ k.trace k.outcome := by
    rw [List.forall_mem_cons]
    exact ⟨⟨s,(runs_accountedFor hb h).balanced,hc⟩,runs_made_balanced hb h⟩
  refine forall₂_congr fun k hk => ?_
  obtain ⟨s₀,hs₀,hexec⟩ := hmade k hk
  exact (Prog.wp_iff _ _ _ _).mp (code_confined_iff hb hs₀ k.op) k.trace k.outcome hexec (hex k hk)

/-- `munmap(addr, 4096)` refused once and granted with the rounded length. -/
def retriedMunmap (addr : Word) : Call where
  op := .munmap addr 4096
  trace := [(.munmap addr 4096,{ret := -1,errno := EINVAL}),(.munmap addr 0x200000,{}),
    (.vmUnmap addr 0x200000,{})]
  outcome := .ok 0 {}

theorem retriedMunmap_exec (mmapBase addr : Word) (h : memRefIsSafe mmapBase addr 4096 = true) :
    Prog.Exec HostOk ((retriedMunmap addr).op.code mmapBase) {} (retriedMunmap addr).trace
      (retriedMunmap addr).outcome := by
  have hcode : (retriedMunmap addr).op.code mmapBase = ummMunmap mmapBase addr 4096 := rfl
  rw [hcode,ummMunmap,h]
  refine Prog.exec_of_runWith [{ret := -1,errno := EINVAL},{},{}] rfl ?_
  simp [retriedMunmap,HostOk,EINVAL]

theorem runs_confined_iff_low_retry : Confined 0x400000000 (retriedMunmap 0x400000000).trace := by
  have hiff := runs_confined_iff ⟨by decide,by decide,by decide⟩ (.start _)
    (retriedMunmap_exec 0x400000000 0x400000000 (by decide))
    (by simp [retriedMunmap,Op.Exact])
  exact hiff.mpr (by simp only [List.mem_singleton,forall_eq]; exact fun _ => by decide) _
    List.mem_cons_self

/-- Near the window's end the retry unmaps almost 2 MiB beyond it. -/
theorem retriedMunmap_escapes :
    ¬ ∀ (mmapBase : Word) (calls : List Call) (s : Counters) (c : Call), Based mmapBase →
      Runs (Step mmapBase) {} calls s →
      Prog.Exec HostOk (c.op.code mmapBase) s c.trace c.outcome →
      (∀ k ∈ c::calls, k.op.Exact k.trace) → ∀ k ∈ c::calls, Confined mmapBase k.trace := by
  intro h
  have hbad := h 0x400000000 [] {} (retriedMunmap 0x5ffffe000) ⟨by decide,by decide,by decide⟩
    (.start _) (retriedMunmap_exec _ _ (by decide)) (by simp [retriedMunmap,Op.Exact]) _
    List.mem_cons_self (.munmap 0x5ffffe000 0x200000,{}) (by simp [retriedMunmap])
    ⟨0x5ffffe000,0x200000⟩ (by decide)
  exact absurd hbad (by decide)

end Umm
end VmplApps

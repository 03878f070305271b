import VmplApps.TwoEnded
import VmplApps.Umm

/-! Accounting of the two counters. Every call of the memory manager is a step of
the region filled from both ends: it does nothing, moves the heap's end, or
carves a block off the bottom of the placed ranges. Alignment, the space bound
and disjointness follow over whole runs. -/
namespace VmplApps
namespace Umm

open AppRegion

/-- What the host kernel promises: a mapping call made at a fixed address returns
that address or fails with `errno` set, an attachment may be rounded down to a
page on request, and no mapping of `2^47` bytes or more is ever granted. -/
def HostOk : HostCall → Reply → Prop
  | .mmap addr len _ _ _ _, r =>
    (r.ret = addr ∧ len.toNat < 2^47) ∨ (r.ret = MAP_FAILED ∧ r.errno ≠ 0)
  | .munmap _ _, r | .mprotect _ _ _, r | .shmctl _, r =>
    r.ret = 0 ∨ (r.ret = -1 ∧ r.errno ≠ 0)
  | .shmat _ addr shmflg segsz, r =>
    ((r.ret = addr ∨ (shmflg &&& SHM_RND ≠ 0 ∧ r.ret = pgAddr addr)) ∧ segsz.toNat < 2^47) ∨
      (r.ret = -1 ∧ r.errno ≠ 0)
  | .shmdt _, _ => True
  | .mremap _ _ newSize _ newAddress, r =>
    (r.ret = newAddress ∧ newSize.toNat < 2^47) ∨ (r.ret = MAP_FAILED ∧ r.errno ≠ 0)
  | .vmMapPhys _ _ _, _ | .vmUnmap _ _, _ | .vmMprotect _ _ _, _ => True

/-- Where the window lies when the memory manager runs. -/
structure Based (mmapBase : Word) : Prop where
  aligned : mmapBase.toNat % 4096 = 0
  lower : 2^34 ≤ mmapBase.toNat
  upper : mmapBase.toNat < 2^46

theorem Based.placed {mmapBase : Word} (h : Based mmapBase) : Placed mmapBase :=
  ⟨h.aligned,by have := h.upper; omega⟩

/-- Whole pages, and both areas together fit the window. -/
structure Counters.Balanced (s : Counters) : Prop where
  brk : s.brkLen.toNat % 4096 = 0
  mmap : s.mmapLen.toNat % 4096 = 0
  room : s.brkLen.toNat + s.mmapLen.toNat ≤ 0x200000000

theorem pgRoundUp_toNat (len : Word) (h : len.toNat + 4095 < 2^64) :
    (pgRoundUp len).toNat = (len.toNat + 4095) / 4096 * 4096 := by
  rw [pgRoundUp,Words.alignUp_toNat (by omega) len h]
  norm_num

theorem pgAddr_toNat (x : Word) : (pgAddr x).toNat = x.toNat / 4096 * 4096 := by
  rw [pgAddr,Words.alignDown_toNat (by omega)]
  norm_num

theorem pgOff_toNat (x : Word) : (pgOff x).toNat = x.toNat % 4096 := by
  rw [pgOff,Words.lowBits_toNat (by omega)]
  norm_num

section Arithmetic
variable {mmapBase : Word} {s : Counters}

theorem mapPos_toNat (hb : Based mmapBase) (hs : s.Balanced) :
    (ummGetMapPos mmapBase s).toNat = mmapBase.toNat + 0x200000000 - s.mmapLen.toNat := by
  have hu := hb.upper
  have hr := hs.room
  have hend : (mmapBase + appMmapBaseOff).toNat = mmapBase.toNat + 0x200000000 :=
    Words.add_toNat_exact (by simp only [appMmapBaseOff_toNat]; omega)
  rw [ummGetMapPos,Words.sub_toNat_exact (by omega),hend]

/-- The test is exact unless the length is within `2^34` of the modulus. -/
theorem spaceLeft_iff (hs : s.Balanced) {len : Word} (hl : len.toNat ≤ 2^64 - 2^34) :
    ummSpaceLeft s len = true ↔ s.brkLen.toNat + s.mmapLen.toNat + len.toNat < 0x200000000 := by
  have hr := hs.room
  have hlens : (s.brkLen + s.mmapLen).toNat = s.brkLen.toNat + s.mmapLen.toNat :=
    Words.add_toNat_exact (by omega)
  have hsum : (s.brkLen + s.mmapLen + len).toNat =
      s.brkLen.toNat + s.mmapLen.toNat + len.toNat := by
    rw [Words.add_toNat_exact (by omega),hlens]
  simp only [ummSpaceLeft,decide_eq_true_eq,BitVec.lt_def,hsum,appMmapLen_toNat]

/-- The unrounded test leaves room for the rounded length, since everything else
is a multiple of the page size. -/
theorem room_of_spaceLeft (hs : s.Balanced) {len : Word} (hl : len.toNat ≤ 2^64 - 2^34)
    (h : ummSpaceLeft s len = true) :
    s.brkLen.toNat + s.mmapLen.toNat + (pgRoundUp len).toNat ≤ 0x200000000 := by
  have h1 := hs.brk
  have h2 := hs.mmap
  rw [spaceLeft_iff hs hl] at h
  rw [pgRoundUp_toNat len (by omega)]
  omega

/-- Placed addresses are page-aligned even when the rounded length wraps. -/
theorem placed_aligned (hb : Based mmapBase) (hs : s.Balanced) (len : Word) :
    (ummGetMapPos mmapBase s - pgRoundUp len).toNat % 4096 = 0 := by
  have hpos := mapPos_toNat hb hs
  have ha := hb.aligned
  have hm := hs.mmap
  have hr := hs.room
  have hround : (pgRoundUp len).toNat % 4096 = 0 := by
    have h := pgAddr_toNat (len + BitVec.ofNat 64 (2^12-1))
    change (pgRoundUp len).toNat = _ at h
    omega
  have hlt := (pgRoundUp len).isLt
  rw [BitVec.toNat_sub,hpos]
  omega

end Arithmetic

def Counters.region (s : Counters) : TwoEnded.State := ⟨s.brkLen.toNat,s.mmapLen.toNat⟩

/-- A change of the counters, together with the range handed out, is a step of
the window seen as a region filled from both ends. -/
def Effect (mmapBase : Word) (s s' : Counters) (g : Option Span) : Prop :=
  TwoEnded.Step mmapBase.toNat 0x200000000 4096 s.region g s'.region

theorem Effect.same {mmapBase : Word} {s : Counters} : Effect mmapBase s s none :=
  TwoEnded.Step.same

theorem Effect.heap {mmapBase : Word} {s : Counters} {len : Word} (hlen : len.toNat % 4096 = 0)
    (hroom : len.toNat + s.mmapLen.toNat ≤ 0x200000000) :
    Effect mmapBase s {s with brkLen := len} none :=
  .move len.toNat (Nat.dvd_of_mod_eq_zero hlen) hroom

theorem Effect.carve {mmapBase : Word} {s : Counters} {n : Word} {g : Span}
    (hn : n.toNat % 4096 = 0)
    (hroom : s.brkLen.toNat + s.mmapLen.toNat + n.toNat ≤ 0x200000000)
    (hstart : g.start = mmapBase.toNat + 0x200000000 - s.mmapLen.toNat - n.toNat)
    (hstop : g.stop ≤ mmapBase.toNat + 0x200000000 - s.mmapLen.toNat) :
    Effect mmapBase s {s with mmapLen := s.mmapLen + n} (some g) := by
  have hsum : (s.mmapLen + n).toNat = s.mmapLen.toNat + n.toNat :=
    Words.add_toNat_exact (by omega)
  have hstep := TwoEnded.Step.carve (s := s.region) n.toNat g (Nat.dvd_of_mod_eq_zero hn) hroom
    hstart hstop
  simpa only [Effect,Counters.region,hsum] using hstep

/-- The range that the manager placed for a call that succeeded with value `ret`; there is
none where the caller gave the address. For the stack this includes the unmapped guard
page. -/
def Op.grant (t : List (HostCall × Reply)) (ret : Word) : Op → Option Span
  | .allocStack => some ⟨ret.toNat - 0x800000,0x800000⟩
  | .mmap addr len _ _ _ _ => if addr == 0 then some ⟨ret.toNat,len.toNat⟩ else none
  | .shmat _ addr _ =>
    if addr == 0 then t.head?.map fun e => ⟨ret.toNat,e.2.segsz.toNat⟩ else none
  | .mremap _ _ newSize flags _ =>
    if flags &&& MREMAP_FIXED == 0 then some ⟨ret.toNat,newSize.toNat⟩ else none
  | .brk _ | .munmap _ _ | .mprotect _ _ _ => none

def Accounted (mmapBase : Word) (op : Op) (s : Counters) (t : List (HostCall × Reply)) :
    Outcome Counters Word Word → Prop
  | .ok ret s' => Effect mmapBase s s' (op.grant t ret)
  | .err _ s' => s' = s
  | .halted => True

section Calls
variable {mmapBase : Word} {s : Counters}

/-- Mapping helpers never touch the counters, and report success only after the
host granted the range. -/
def MapsOnly (s : Counters) (addr len : Word) : Outcome Counters Word Word → Prop
  | .ok v s' => s' = s ∧ (v = 0 → len.toNat < 2^47 ∨ addr = MAP_FAILED)
  | .err _ s' => s' = s
  | .halted => False

theorem mapGuest_wp (addr len : Word) (perm : Perm) (h : len.toNat < 2^47 ∨ addr = MAP_FAILED) :
    Prog.wp HostOk (mapGuest addr len perm) s fun _ => MapsOnly s addr len := by
  simp only [mapGuest,Prog.wp_bind,Prog.wp_call,Prog.thenPost]
  intro r _
  split_ifs
  · simp only [Prog.wp_bind,Prog.wp_call,Prog.thenPost]
    exact fun _ _ => ⟨rfl,fun _ => h⟩
  · exact ⟨rfl,fun _ => h⟩

theorem neg_ne_zero_of {x : Word} (h : x ≠ 0) : -x ≠ 0 := by
  intro hx
  apply h
  rw [← BitVec.neg_neg (x := x),hx]
  rfl

theorem mmap_granted {addr len : Word} {prot flags fd : CInt} {offset : Word} {r : Reply}
    (h : HostOk (.mmap addr len prot flags fd offset) r) :
    (r.ret ≠ addr → r.errno ≠ 0) ∧ (r.ret = addr → len.toNat < 2^47 ∨ addr = MAP_FAILED) := by
  rcases h with ⟨he,hl⟩ | ⟨he,hn⟩
  · exact ⟨fun hne => absurd he hne,fun _ => .inl hl⟩
  · exact ⟨fun _ => hn,fun ha => .inr (ha.symm.trans he)⟩

theorem shmat_granted {shmid shmflg : CInt} {addr segsz : Word} {r : Reply}
    (h : HostOk (.shmat shmid addr shmflg segsz) r) (hr : r.ret = addr) :
    segsz.toNat < 2^47 ∨ addr = MAP_FAILED := by
  rcases h with ⟨-,hl⟩ | ⟨hm,-⟩
  · exact .inl hl
  · exact .inr (hr.symm.trans hm)

theorem mremap_granted {oldAddress oldSize newSize newAddress : Word} {flags : CInt} {r : Reply}
    (h : HostOk (.mremap oldAddress oldSize newSize flags newAddress) r) (hr : r.ret = newAddress) :
    newSize.toNat < 2^47 ∨ newAddress = MAP_FAILED := by
  rcases h with ⟨-,hl⟩ | ⟨hm,-⟩
  · exact .inl hl
  · exact .inr (hr.symm.trans hm)

theorem ummMmapAnom_wp (addr len : Word) (prot : CInt) (big : Bool) :
    Prog.wp HostOk (ummMmapAnom addr len prot big) s fun _ => MapsOnly s addr len := by
  simp only [ummMmapAnom,Prog.wp_bind,Prog.wp_call,Prog.thenPost]
  intro r hr
  obtain ⟨hfail,hok⟩ := mmap_granted hr
  by_cases hne : r.ret ≠ addr
  · rw [if_pos hne]
    exact ⟨rfl,fun h0 => absurd h0 (neg_ne_zero_of (hfail hne))⟩
  · rw [if_neg hne]
    exact mapGuest_wp _ _ _ (hok (not_not.mp hne))

theorem ummMmapFile_wp (addr len : Word) (prot flags fd : CInt) (offset : Word) :
    Prog.wp HostOk (ummMmapFile addr len prot flags fd offset) s fun _ => MapsOnly s addr len := by
  simp only [ummMmapFile,Prog.wp_bind,Prog.wp_call,Prog.thenPost]
  intro r hr
  obtain ⟨hfail,hok⟩ := mmap_granted hr
  by_cases hne : r.ret ≠ addr
  · rw [if_pos hne]
    exact ⟨rfl,fun h0 => absurd h0 (neg_ne_zero_of (hfail hne))⟩
  · rw [if_neg hne]
    exact mapGuest_wp _ _ _ (hok (not_not.mp hne))

/-- The address chosen for a request, with the test it passed: placed below the
others when `auto`, the caller's otherwise. -/
def Chosen (mmapBase : Word) (auto : Bool) (addr len : Word) (s : Counters) :
    Outcome Counters Word Word → Prop
  | .ok target s' => s' = s ∧
      ((auto = true ∧ ummSpaceLeft s len = true ∧
          target = ummGetMapPos mmapBase s - pgRoundUp len) ∨
        (auto = false ∧ memRefIsSafe mmapBase addr len = true ∧ target = addr))
  | .err _ s' => s' = s
  | .halted => False

theorem placeBelow_wp (addr len : Word) :
    Prog.wp HostOk (placeBelow mmapBase len) s
      fun t o => t = [] ∧ Chosen mmapBase true addr len s o := by
  simp only [placeBelow,Prog.wp_bind,Prog.wp_state,Prog.thenPost]
  cases hsp : ummSpaceLeft s len
  · exact ⟨rfl,rfl⟩
  · exact ⟨rfl,rfl,.inl ⟨rfl,hsp,rfl⟩⟩

theorem chooseAddr_wp (addr len : Word) :
    Prog.wp HostOk (chooseAddr mmapBase addr len) s
      fun t o => t = [] ∧ Chosen mmapBase (addr == 0) addr len s o := by
  unfold chooseAddr
  by_cases h0 : addr = 0
  · subst h0
    exact placeBelow_wp 0 len
  · have hauto : (addr == 0) = false := by simpa using h0
    rw [if_neg h0,hauto]
    cases hsafe : memRefIsSafe mmapBase addr len
    · exact ⟨rfl,rfl⟩
    · exact ⟨rfl,rfl,.inr ⟨rfl,hsafe,rfl⟩⟩

theorem mremapAddr_wp (newSize : Word) (flags : CInt) (newAddress : Word) :
    Prog.wp HostOk (mremapAddr mmapBase newSize flags newAddress) s fun t o =>
      t = [] ∧ Chosen mmapBase (flags &&& MREMAP_FIXED == 0) newAddress newSize s o := by
  unfold mremapAddr
  by_cases hf : flags &&& MREMAP_FIXED ≠ 0
  · have hauto : (flags &&& MREMAP_FIXED == 0) = false := by simpa using hf
    rw [if_pos hf,hauto]
    cases hsafe : memRefIsSafe mmapBase newAddress newSize
    · exact ⟨rfl,rfl⟩
    · exact ⟨rfl,rfl,.inr ⟨rfl,hsafe,rfl⟩⟩
  · have hauto : (flags &&& MREMAP_FIXED == 0) = true := by simpa using hf
    rw [if_neg hf,hauto]
    exact placeBelow_wp newAddress newSize

theorem effect_of_placed (hb : Based mmapBase) (hs : s.Balanced) {len target : Word}
    (hsp : ummSpaceLeft s len = true) (ht : target = ummGetMapPos mmapBase s - pgRoundUp len)
    (hgrant : len.toNat < 2^47 ∨ target = MAP_FAILED) :
    Effect mmapBase s {s with mmapLen := s.mmapLen + pgRoundUp len}
      (some ⟨target.toNat,len.toNat⟩) := by
  have hal := placed_aligned hb hs len
  rw [← ht] at hal
  have hl : len.toNat < 2^47 := by
    rcases hgrant with hl | hm
    · exact hl
    · rw [hm] at hal
      exact absurd hal (by decide)
  have hroom := room_of_spaceLeft hs (by omega) hsp
  have hpos := mapPos_toNat hb hs
  have hround := pgRoundUp_toNat len (by omega)
  have hlow := hb.lower
  have htn : target.toNat =
      mmapBase.toNat + 0x200000000 - s.mmapLen.toNat - (pgRoundUp len).toNat := by
    rw [ht,Words.sub_toNat_exact (by omega),hpos]
  refine Effect.carve (by omega) hroom htn ?_
  simp only [Span.stop]
  omega

/-- The stack's block; its position is already page-aligned, so nothing is lost
to alignment. -/
theorem stack_effect (hb : Based mmapBase) (hs : s.Balanced)
    (hsp : ummSpaceLeft s appStackSize = true) :
    Effect mmapBase s
      {s with mmapLen := s.mmapLen + (appStackSize + pgOff (ummGetMapPos mmapBase s))}
      (some ⟨(pgAddr (ummGetMapPos mmapBase s)).toNat - 0x800000,0x800000⟩) := by
  have hpos := mapPos_toNat hb hs
  have ha := hb.aligned
  have hm := hs.mmap
  have hr := hs.room
  have hlow := hb.lower
  have hst := appStackSize_toNat
  rw [spaceLeft_iff hs (by omega),hst] at hsp
  have hmod : (ummGetMapPos mmapBase s).toNat % 4096 = 0 := by omega
  have hoff : pgOff (ummGetMapPos mmapBase s) = 0 :=
    BitVec.eq_of_toNat_eq ((pgOff_toNat _).trans hmod)
  have haddr := pgAddr_toNat (ummGetMapPos mmapBase s)
  have hz : appStackSize + 0 = appStackSize := by decide
  rw [hoff,hz]
  refine Effect.carve (by rw [hst]) (by omega) ?_ ?_
  · change _ - 0x800000 = _
    omega
  · simp only [Span.stop]
    omega

theorem heap_room (hb : Based mmapBase) (hs : s.Balanced) {brk : Word} (hlow : ¬brk < mmapBase)
    (hsp : ummSpaceLeft s (pgRoundUp (brk - mmapBase)) = true) :
    (pgRoundUp (brk - mmapBase)).toNat % 4096 = 0 ∧
      (pgRoundUp (brk - mmapBase)).toNat + s.mmapLen.toNat ≤ 0x200000000 := by
  rw [BitVec.lt_def] at hlow
  have hbase := hb.lower
  have hlt := brk.isLt
  have hsub : (brk - mmapBase).toNat = brk.toNat - mmapBase.toNat :=
    Words.sub_toNat_exact (by omega)
  have hround := pgRoundUp_toNat (brk - mmapBase) (by omega)
  rw [spaceLeft_iff hs (by omega)] at hsp
  omega

theorem mapKind_wp (target len : Word) (prot flags fd : CInt) (offset : Word) :
    Prog.wp HostOk (mapKind target len prot flags fd offset) s fun _ => MapsOnly s target len := by
  unfold mapKind
  split_ifs
  · exact ummMmapAnom_wp _ _ _ _
  · exact ummMmapFile_wp _ _ _ _ _ _
  · exact rfl

theorem effect_adjust (hb : Based mmapBase) (hs : s.Balanced) {auto : Bool}
    {addr len target : Word} (hch : Chosen mmapBase auto addr len s (.ok target s))
    (hgrant : len.toNat < 2^47 ∨ target = MAP_FAILED) :
    Effect mmapBase s (if auto then {s with mmapLen := s.mmapLen + pgRoundUp len} else s)
      (if auto then some ⟨target.toNat,len.toNat⟩ else none) := by
  rcases hch with ⟨-,⟨rfl,hsp,ht⟩ | ⟨rfl,-,-⟩⟩
  · exact effect_of_placed hb hs hsp ht hgrant
  · exact Effect.same

theorem ummMmap_accounted (hb : Based mmapBase) (hs : s.Balanced) (addr len : Word)
    (prot flags fd : CInt) (offset : Word) :
    Prog.wp HostOk (ummMmap mmapBase addr len prot flags fd offset) s
      (Accounted mmapBase (.mmap addr len prot flags fd offset) s) := by
  refine Prog.wp_seq (chooseAddr_wp addr len) ?_ (fun _ _ _ h => h.2) fun _ h => h.2.elim
  rintro _ target s ⟨rfl,rfl,hch⟩
  refine Prog.wp_seq (mapKind_wp _ _ _ _ _ _) ?_ (fun _ _ _ h => h) fun _ h => h.elim
  rintro t v s ⟨rfl,hv⟩
  by_cases hv0 : v ≠ 0
  · rw [if_pos hv0]
    exact rfl
  · rw [if_neg hv0]
    exact effect_adjust hb hs ⟨rfl,hch⟩ (hv (not_not.mp hv0))

theorem ummShmat_accounted (hb : Based mmapBase) (hs : s.Balanced) (shmid : CInt) (addr : Word)
    (shmflg : CInt) :
    Prog.wp HostOk (ummShmat mmapBase shmid addr shmflg) s
      (Accounted mmapBase (.shmat shmid addr shmflg) s) := by
  simp only [ummShmat,Prog.wp_bind,Prog.wp_call,Prog.thenPost]
  intro shm _
  by_cases hshm : shm.ret = -1
  · rw [if_pos hshm]
    exact rfl
  rw [if_neg hshm]
  refine Prog.wp_seq (chooseAddr_wp addr shm.segsz) ?_ (fun _ _ _ h => h.2) fun _ h => h.2.elim
  rintro _ target s ⟨rfl,rfl,hch⟩
  simp only [Prog.wp_bind,Prog.wp_call,Prog.thenPost]
  intro mem hmem
  by_cases hne : mem.ret ≠ target
  · rw [if_pos hne]
    exact rfl
  rw [if_neg hne]
  simp only [Prog.wp_bind,Prog.wp_call,Prog.thenPost]
  intro r _
  by_cases hr : r.ret ≠ 0
  · rw [if_pos hr]
    exact fun _ _ => rfl
  · rw [if_neg hr]
    exact effect_adjust hb hs ⟨rfl,hch⟩ (shmat_granted hmem (not_not.mp hne))

theorem ummMremap_accounted (hb : Based mmapBase) (hs : s.Balanced)
    (oldAddress oldSize newSize : Word) (flags : CInt) (newAddress : Word) :
    Prog.wp HostOk (ummMremap mmapBase oldAddress oldSize newSize flags newAddress) s
      (Accounted mmapBase (.mremap oldAddress oldSize newSize flags newAddress) s) := by
  unfold ummMremap
  cases memRefIsSafe mmapBase oldAddress oldSize
  · exact rfl
  refine Prog.wp_seq (mremapAddr_wp newSize flags newAddress) ?_ (fun _ _ _ h => h.2)
    fun _ h => h.2.elim
  rintro _ target s ⟨rfl,rfl,hch⟩
  by_cases hmove : flags &&& MREMAP_MAYMOVE = 0
  · rw [if_pos hmove]
    exact rfl
  rw [if_neg hmove]
  simp only [Prog.wp_bind,Prog.wp_call,Prog.thenPost]
  intro r hr
  by_cases hne : r.ret ≠ target
  · rw [if_pos hne]
    exact rfl
  rw [if_neg hne]
  have heff := effect_adjust hb hs ⟨rfl,hch⟩ (mremap_granted hr (not_not.mp hne))
  simp only [adjustMmapLen,Prog.wp_bind,Prog.wp_modify,Prog.wp_call,Prog.thenPost]
  intro _ _ r _
  by_cases hr0 : r.ret ≠ 0
  · rw [if_pos hr0]
    exact trivial
  · rw [if_neg hr0]
    exact heff

theorem ummAllocStack_accounted (hb : Based mmapBase) (hs : s.Balanced) :
    Prog.wp HostOk (ummAllocStack mmapBase) s (Accounted mmapBase .allocStack s) := by
  simp only [ummAllocStack,Prog.wp_bind,Prog.wp_state,Prog.thenPost]
  cases hsp : ummSpaceLeft s appStackSize
  · exact rfl
  refine Prog.wp_seq (ummMmapAnom_wp _ _ _ _) ?_ (fun _ _ _ h => h) fun _ h => h.elim
  rintro t v s ⟨rfl,-⟩
  by_cases hv0 : v ≠ 0
  · rw [if_pos hv0]
    exact rfl
  rw [if_neg hv0]
  exact stack_effect hb hs hsp

theorem ummBrk_accounted (hb : Based mmapBase) (hs : s.Balanced) (brk : Word) :
    Prog.wp HostOk (ummBrk mmapBase brk) s (Accounted mmapBase (.brk brk) s) := by
  unfold ummBrk
  by_cases h0 : brk = 0
  · rw [if_pos h0]
    exact Effect.same
  rw [if_neg h0]
  by_cases hlow : brk < mmapBase
  · rw [if_pos hlow]
    exact rfl
  rw [if_neg hlow]
  simp only [Prog.wp_bind,Prog.wp_state,Prog.thenPost]
  cases hsp : ummSpaceLeft s (pgRoundUp (brk - mmapBase))
  · exact rfl
  obtain ⟨hal,hroom⟩ := heap_room hb hs hlow hsp
  have heff : Effect mmapBase s {s with brkLen := pgRoundUp (brk - mmapBase)} none :=
    Effect.heap hal hroom
  simp only [Bool.not_true,Bool.false_eq_true,if_false]
  by_cases heq : pgRoundUp (brk - mmapBase) = s.brkLen
  · rw [if_pos heq]
    exact Effect.same
  rw [if_neg heq]
  by_cases hlt : pgRoundUp (brk - mmapBase) < s.brkLen
  · rw [if_pos hlt]
    simp only [Prog.wp_bind,Prog.wp_call,Prog.thenPost]
    intro r _
    by_cases hr : r.ret ≠ 0
    · rw [if_pos hr]
      exact rfl
    · rw [if_neg hr]
      exact fun _ _ => heff
  · rw [if_neg hlt]
    refine Prog.wp_seq (ummMmapAnom_wp _ _ _ _) ?_ (fun _ _ _ h => h) fun _ h => h.elim
    rintro t v s ⟨rfl,-⟩
    by_cases hv0 : v ≠ 0
    · rw [if_pos hv0]
      exact rfl
    · rw [if_neg hv0]
      exact heff

theorem ummMunmap_accounted (addr len : Word) :
    Prog.wp HostOk (ummMunmap mmapBase addr len) s (Accounted mmapBase (.munmap addr len) s) := by
  unfold ummMunmap
  cases memRefIsSafe mmapBase addr len
  · exact rfl
  simp only [Bool.not_true,Bool.false_eq_true,if_false,Prog.wp_bind,Prog.wp_call,Prog.thenPost]
  intro r _
  split_ifs
  · simp only [Prog.wp_bind,Prog.wp_call,Prog.thenPost]
    intro r _
    split_ifs
    · exact rfl
    · exact fun _ _ => Effect.same
  · exact fun _ _ => Effect.same

theorem ummMprotect_accounted (addr len prot : Word) :
    Prog.wp HostOk (ummMprotect mmapBase addr len prot) s
      (Accounted mmapBase (.mprotect addr len prot) s) := by
  unfold ummMprotect
  cases memRefIsSafe mmapBase addr len
  · exact rfl
  simp only [Bool.not_true,Bool.false_eq_true,if_false,Prog.wp_bind,Prog.wp_call,Prog.thenPost]
  intro r _
  split_ifs
  · exact rfl
  · simp only [Prog.wp_bind,Prog.wp_call,Prog.thenPost]
    intro r _
    split_ifs
    · exact trivial
    · exact Effect.same

end Calls

theorem code_accounted {mmapBase : Word} (hb : Based mmapBase) {s : Counters} (hs : s.Balanced)
    (op : Op) : Prog.wp HostOk (op.code mmapBase) s (Accounted mmapBase op s) := by
  cases op with
  | allocStack => exact ummAllocStack_accounted hb hs
  | brk newBrk => exact ummBrk_accounted hb hs newBrk
  | mmap => exact ummMmap_accounted hb hs _ _ _ _ _ _
  | munmap => exact ummMunmap_accounted _ _
  | mprotect => exact ummMprotect_accounted _ _ _
  | shmat => exact ummShmat_accounted hb hs _ _ _
  | mremap => exact ummMremap_accounted hb hs _ _ _ _ _

/-- A finished call as seen from outside: what was asked, the host calls made on
the way, and the end. -/
structure Call where
  op : Op
  trace : List (HostCall × Reply)
  outcome : Outcome Counters Word Word
  deriving DecidableEq, Repr

/-- One call that returns; a call that stops the process has no successor. -/
def Step (mmapBase : Word) (s : Counters) (c : Call) (s' : Counters) : Prop :=
  Prog.Exec HostOk (c.op.code mmapBase) s c.trace c.outcome ∧ c.outcome.final = some s'

def Call.granted (c : Call) : Option Span :=
  match c.outcome with
  | .ok ret _ => c.op.grant c.trace ret
  | _ => none

/-- The ranges placed so far, most recent first. -/
def grants (calls : List Call) : List Span := calls.filterMap Call.granted

theorem step_effect {mmapBase : Word} (hb : Based mmapBase) {s s' : Counters} (hs : s.Balanced)
    {c : Call} (h : Step mmapBase s c s') : Effect mmapBase s s' c.granted := by
  obtain ⟨op,t,o⟩ := c
  obtain ⟨hexec,hfinal⟩ := h
  have hacc := (Prog.wp_iff _ _ _ _).mp (code_accounted hb hs op) t o hexec
  cases o with
  | ok v s₁ =>
    obtain rfl := Option.some.inj hfinal
    exact hacc
  | err e s₁ =>
    obtain rfl := Option.some.inj hfinal
    obtain rfl : s₁ = s := hacc
    exact Effect.same
  | halted => cases hfinal

def AccountedFor (mmapBase : Word) (s : Counters) (calls : List Call) : Prop :=
  TwoEnded.Sound mmapBase.toNat 0x200000000 4096 s.region (grants calls)

theorem AccountedFor.balanced {mmapBase : Word} {s : Counters} {calls : List Call}
    (h : AccountedFor mmapBase s calls) : s.Balanced :=
  ⟨Nat.mod_eq_zero_of_dvd h.low,Nat.mod_eq_zero_of_dvd h.high,h.room⟩

theorem runs_accountedFor {mmapBase : Word} (hb : Based mmapBase) {s : Counters}
    {calls : List Call} (h : Runs (Step mmapBase) {} calls s) : AccountedFor mmapBase s calls := by
  refine h.invariant (I := AccountedFor mmapBase) TwoEnded.sound_start ?_
  intro s calls c s' hi hstep
  have heff := step_effect hb hi.balanced hstep
  have hnext := TwoEnded.Sound.step (by omega) (Nat.dvd_of_mod_eq_zero hb.aligned) (by omega) hi heff
  have hgrants : grants (c::calls) = c.granted.toList ++ grants calls := by
    simp only [grants,List.filterMap_cons]
    cases c.granted <;> rfl
  rw [AccountedFor,hgrants]
  exact hnext

instance : (c : HostCall) → (r : Reply) → Decidable (HostOk c r)
  | .mmap .., _ | .munmap .., _ | .mprotect .., _ | .shmctl .., _ | .shmat .., _ | .mremap .., _ =>
    inferInstanceAs (Decidable (_ ∨ _))
  | .shmdt .., _ | .vmMapPhys .., _ | .vmUnmap .., _ | .vmMprotect .., _ =>
    inferInstanceAs (Decidable True)

def serve (mmapBase : Word) (s : Counters) (op : Op) (rs : List Reply) :
    Option (Call × Counters) := do
  let (t,o) ← (op.code mmapBase).runWith s rs
  let s' ← o.final
  if ∀ e ∈ t, HostOk e.1 e.2 then some (⟨op,t,o⟩,s') else none

def session (mmapBase : Word) : List (Op × List Reply) → Option (List Call × Counters)
  | [] => some ([],{})
  | (op,rs)::script => do
    let (calls,s) ← session mmapBase script
    let (c,s') ← serve mmapBase s op rs
    some (c::calls,s')

theorem step_of_serve {mmapBase : Word} {s s' : Counters} {op : Op} {rs : List Reply} {c : Call}
    (h : serve mmapBase s op rs = some (c,s')) : Step mmapBase s c s' := by
  simp only [serve,Option.bind_eq_bind,Option.bind_eq_some_iff] at h
  obtain ⟨⟨t,o⟩,hrun,s₁,hfin,h⟩ := h
  split_ifs at h with henv
  obtain ⟨rfl,rfl⟩ := Prod.mk.inj (Option.some.inj h)
  exact ⟨Prog.exec_of_runWith _ hrun henv,hfin⟩

theorem runs_of_session {mmapBase : Word} {script : List (Op × List Reply)} {calls : List Call}
    {s : Counters} (h : session mmapBase script = some (calls,s)) :
    Runs (Step mmapBase) {} calls s := by
  induction script generalizing calls s with
  | nil =>
    obtain ⟨rfl,rfl⟩ := Prod.mk.inj (Option.some.inj h)
    exact .start _
  | cons x script ih =>
    simp only [session,Option.bind_eq_bind,Option.bind_eq_some_iff] at h
    obtain ⟨⟨calls₁,s₁⟩,hrest,⟨c,s'⟩,hserve,h⟩ := h
    obtain ⟨rfl,rfl⟩ := Prod.mk.inj (Option.some.inj h)
    exact .next (ih hrest) (step_of_serve hserve)

/-- In every state reached by any calls with any arguments and any replies, the
counters are whole pages within the window, and each range placed so far is
aligned, inside the window, apart from the heap and apart from the others. -/
theorem runs_accounted {mmapBase : Word} (hb : Based mmapBase) {s : Counters} {calls : List Call}
    (h : Runs (Step mmapBase) {} calls s) :
    s.Balanced ∧
    (∀ g ∈ grants calls, g.start % 4096 = 0 ∧
      (g.outward 4096).Inside mmapBase.toNat (mmapBase.toNat + 0x200000000) ∧
      (g.outward 4096).Apart ⟨mmapBase.toNat,s.brkLen.toNat⟩) ∧
    (grants calls).Pairwise fun g k => (g.outward 4096).Apart (k.outward 4096) := by
  have hi := runs_accountedFor hb h
  refine ⟨hi.balanced,fun g hg => ?_,hi.apart⟩
  have hin := hi.above g hg
  have hroom := hi.room
  exact ⟨Nat.mod_eq_zero_of_dvd (hi.aligned g hg),⟨by have := hin.1; omega,hin.2⟩,hi.apart_low hg⟩

theorem runs_accounted_heap_and_mapping :
    (⟨4096,4096⟩ : Counters).Balanced ∧
      (Span.outward 4096 ⟨0x5fffff000,100⟩).Apart ⟨0x400000000,4096⟩ := by
  have hsession : (session 0x400000000 [
      (.brk 0x400000001,[{ret := 0x400000000},{}]),
      (.mmap 0 100 3 0x22 (-1) 0,[{ret := 0x5fffff000},{}])]).map (fun x => (grants x.1,x.2)) =
      some ([⟨0x5fffff000,100⟩],⟨4096,4096⟩) := by decide
  obtain ⟨⟨calls,s⟩,hcalls,heq⟩ := Option.map_eq_some_iff.mp hsession
  obtain ⟨hg,rfl⟩ := Prod.mk.inj heq
  obtain ⟨hs,hranges,-⟩ :=
    runs_accounted ⟨by decide,by decide,by decide⟩ (runs_of_session hcalls)
  exact ⟨hs,(hranges ⟨0x5fffff000,100⟩ (by simp only [hg,List.mem_singleton])).2.2⟩

end Umm
end VmplApps

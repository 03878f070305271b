import VmplApps.SharedPrograms
import VmplApps.UmmAccounting

/-! The memory manager under concurrent system calls. `syscall_do` takes a lock for
three of the calls only, while all of them read and write the two counters. As long
as no other placement is counted between the moment a call computes its address and
the moment it counts it, the placed ranges stay apart and none is lost. -/
namespace VmplApps
namespace Umm

open AppRegion Shared

def Op.needLock : Op → Bool
  | .mmap .. | .mprotect .. | .munmap .. => true
  | _ => false

def Op.places : Op → Bool
  | .allocStack => true
  | .mmap addr _ _ _ _ _ => addr == 0
  | .shmat _ addr _ => addr == 0
  | .mremap _ _ _ flags _ => flags &&& MREMAP_FIXED == 0
  | .brk _ | .munmap _ _ | .mprotect _ _ _ => false

/-- An assignment to one counter leaves the other as the other threads have made it. -/
def writeBack (seen new current : Counters) : Counters where
  brkLen := if new.brkLen = seen.brkLen then current.brkLen else new.brkLen
  mmapLen := if new.mmapLen = seen.mmapLen then current.mmapLen else new.mmapLen

def workload (mmapBase : Word) : Workload Op Counters Word HostCall Reply Word where
  code := Op.code mmapBase
  locked := Op.needLock
  env := HostOk
  store := writeBack

/-- When a placement is counted, the placed ranges are still what they were at every
earlier look of the same call. -/
def Undisturbed (op : Op) (reads : List Counters) (current : Counters) : Prop :=
  op.places = true → ∀ r ∈ reads, r.mmapLen = current.mmapLen

def pageSize (g : Span) : ℕ := (g.len + 4095) / 4096 * 4096

/-- The counter of placed ranges tallies with the ranges. -/
structure Tally (mmapBase : Word) (s : Counters) (gs : List Span) : Prop where
  sound : TwoEnded.Sound mmapBase.toNat 0x200000000 4096 ⟨0,s.mmapLen.toNat⟩ gs
  heap : s.brkLen.toNat < 0x200000000
  sum : s.mmapLen.toNat = (gs.map pageSize).sum

structure Plausible (s : Counters) : Prop where
  heap : s.brkLen.toNat < 0x200000000
  placed : Counters.Balanced ⟨0,s.mmapLen⟩

/-- A write that leaves the counter of placed ranges alone. -/
structure Plain (seen new : Counters) : Prop where
  placed : new.mmapLen = seen.mmapLen
  heap : new.brkLen.toNat < 0x200000000

/-- A write that counts the range `g`. The range is right if all that the call has
read of the counter agrees. -/
structure Counts (mmapBase : Word) (op : Op) (reads : List Counters) (new : Counters) (g : Span) :
    Prop where
  places : op.places = true
  counted : ∀ seen, reads.head? = some seen → new.brkLen = seen.brkLen ∧
    ∃ n : Word, new.mmapLen = seen.mmapLen + n ∧ n.toNat = pageSize g ∧ n.toNat ≤ 0x200000000 ∧
      ((∀ r ∈ reads, r.mmapLen = seen.mmapLen) →
        Effect mmapBase ⟨0,seen.mmapLen⟩ ⟨0,seen.mmapLen + n⟩ (some g))

section Tally
variable {mmapBase : Word} {s : Counters} {gs : List Span}

theorem Tally.plausible (h : Tally mmapBase s gs) : Plausible s where
  heap := h.heap
  placed := ⟨rfl,Nat.mod_eq_zero_of_dvd h.sound.high,by simpa using h.sound.room⟩

theorem Tally.perm {gs' : List Span} (h : Tally mmapBase s gs) (hp : gs.Perm gs') :
    Tally mmapBase s gs' where
  sound := by
    have hsymm : ∀ g k : Span, (g.outward 4096).Apart (k.outward 4096) →
        (k.outward 4096).Apart (g.outward 4096) := fun _ _ hgk => hgk.symm
    exact ⟨h.sound.low,h.sound.high,h.sound.room,fun g hg => h.sound.aligned g (hp.mem_iff.mpr hg),
      fun g hg => h.sound.above g (hp.mem_iff.mpr hg),(hp.pairwise_iff (hsymm _ _)).mp h.sound.apart⟩
  heap := h.heap
  sum := h.sum.trans (hp.map _).sum_eq

theorem tally_start : Tally mmapBase {} [] := ⟨TwoEnded.sound_start,by decide,rfl⟩

theorem Tally.plain (h : Tally mmapBase s gs) {seen new : Counters} (hw : Plain seen new) :
    Tally mmapBase (writeBack seen new s) gs := by
  have hm : (writeBack seen new s).mmapLen = s.mmapLen := if_pos hw.placed
  refine ⟨hm ▸ h.sound,?_,hm ▸ h.sum⟩
  change (if _ then s.brkLen else new.brkLen).toNat < _
  split_ifs
  · exact h.heap
  · exact hw.heap

theorem Tally.counts (hb : Based mmapBase) (h : Tally mmapBase s gs) {op : Op}
    {reads : List Counters} {seen new : Counters} {g : Span} (hseen : reads.head? = some seen)
    (hw : Counts mmapBase op reads new g) (hok : Undisturbed op reads s) :
    Tally mmapBase (writeBack seen new s) (g::gs) := by
  obtain ⟨hbrk,n,hnew,hn,hle,heff⟩ := hw.counted seen hseen
  have hagree := hok hw.places
  have hseen' : seen.mmapLen = s.mmapLen := hagree seen (List.mem_of_head? hseen)
  rw [hseen'] at hnew heff
  have hm : (writeBack seen new s).mmapLen = s.mmapLen + n := by
    unfold writeBack
    split_ifs with heq
    · rw [← hnew,heq,hseen']
    · exact hnew
  have hroom := h.plausible.placed.room
  have hsum : (s.mmapLen + n).toNat = s.mmapLen.toNat + n.toNat :=
    Words.add_toNat_exact (by simp only at hroom; omega)
  refine ⟨?_,?_,?_⟩
  · rw [hm]
    exact TwoEnded.Sound.step (by omega) (Nat.dvd_of_mod_eq_zero hb.aligned) (by omega) h.sound
      (heff hagree)
  · rw [writeBack,if_pos hbrk]
    exact h.heap
  · rw [hm,hsum,List.map_cons,List.sum_cons,← hn,h.sum,Nat.add_comm]

end Tally

section Programs
variable {mmapBase : Word} {op : Op}
  {idle : List Counters → List (HostCall × Reply) → Word → Prop}
  {post : Span → List (HostCall × Reply) → Word → Prop} {rs : List Counters}
  {t : List (HostCall × Reply)}

abbrev Follows (mmapBase : Word) (op : Op) {α : Type}
    (idle : List Counters → List (HostCall × Reply) → α → Prop)
    (post : Span → List (HostCall × Reply) → α → Prop) (p : Code α) (rs : List Counters)
    (t : List (HostCall × Reply)) : Prop :=
  Before HostOk Plausible Plain (Counts mmapBase op) idle post p rs t

theorem follows_seq {α β : Type} {idle : List Counters → List (HostCall × Reply) → β → Prop}
    {post : Span → List (HostCall × Reply) → β → Prop}
    {K : List Counters → List (HostCall × Reply) → α → Prop} {p : Code α} {f : α → Code β}
    (hp : ∀ post, Follows mmapBase op K post p rs t)
    (hf : ∀ rs t a, K rs t a → Follows mmapBase op idle post (f a) rs t) :
    Follows mmapBase op idle post (p >>= f) rs t :=
  before_bind (before_mono (hp _) hf)

/-- Mapping helpers leave the counters alone and report success only after the host
granted the range. -/
theorem follows_map {addr len : Word} {prot flags fd : CInt} {offset : Word} {perm : Perm}
    (post : Span → List (HostCall × Reply) → Word → Prop) :
    Follows mmapBase op (fun rs' _ v => rs' = rs ∧ (v = 0 → len.toNat < 2^47 ∨ addr = MAP_FAILED))
      post (Prog.call (.mmap addr len prot flags fd offset) >>= fun mem =>
        if mem.ret ≠ addr then pure (-mem.errno) else mapGuest addr len perm) rs t := by
  intro r hr
  change Follows mmapBase op _ post (if r.ret ≠ addr then _ else _) rs _
  by_cases hne : r.ret ≠ addr
  · rw [if_pos hne]
    exact ⟨rfl,fun h0 => absurd h0 (neg_ne_zero_of ((mmap_granted hr).1 hne))⟩
  · rw [if_neg hne]
    have hgrant := (mmap_granted hr).2 (not_not.mp hne)
    intro g _
    change Follows mmapBase op _ post (if g.ret ≠ 0 then _ else _) rs _
    split_ifs
    · exact fun _ _ => ⟨rfl,fun _ => hgrant⟩
    · exact ⟨rfl,fun _ => hgrant⟩

theorem ummMmapAnom_follows (addr len : Word) (prot : CInt)
    (post : Span → List (HostCall × Reply) → Word → Prop) :
    Follows mmapBase op (fun rs' _ v => rs' = rs ∧ (v = 0 → len.toNat < 2^47 ∨ addr = MAP_FAILED))
      post (ummMmapAnom addr len prot false) rs t :=
  follows_map post

inductive ChosenFrom (mmapBase : Word) (auto : Bool) (len : Word) : List Counters → Word → Prop
  | placed (c : Counters) : auto = true → Plausible c → ummSpaceLeft c len = true →
      ChosenFrom mmapBase auto len [c] (ummGetMapPos mmapBase c - pgRoundUp len)
  | given (addr : Word) : auto = false → ChosenFrom mmapBase auto len [] addr

theorem placeBelow_follows {auto : Bool} (len : Word) (hauto : auto = true)
    (post : Span → List (HostCall × Reply) → Word → Prop) :
    Follows mmapBase op (fun rs' t' target => t' = t ∧ ChosenFrom mmapBase auto len rs' target) post
      (placeBelow mmapBase len) [] t := by
  intro c hc
  change Follows mmapBase op _ post (if !ummSpaceLeft c len then _ else _) _ _
  cases hsp : ummSpaceLeft c len
  · trivial
  · exact ⟨rfl,.placed c hauto hc hsp⟩

theorem chooseAddr_follows (addr len : Word)
    (post : Span → List (HostCall × Reply) → Word → Prop) :
    Follows mmapBase op (fun rs' t' target => t' = t ∧ ChosenFrom mmapBase (addr == 0) len rs' target)
      post (chooseAddr mmapBase addr len) [] t := by
  unfold chooseAddr
  by_cases h0 : addr = 0
  · rw [if_pos h0]
    exact placeBelow_follows len (beq_iff_eq.mpr h0) post
  · rw [if_neg h0]
    cases memRefIsSafe mmapBase addr len
    · trivial
    · exact ⟨rfl,.given addr (beq_eq_false_iff_ne.mpr h0)⟩

theorem mremapAddr_follows (newSize : Word) (flags : CInt) (newAddress : Word)
    (post : Span → List (HostCall × Reply) → Word → Prop) :
    Follows mmapBase op (fun rs' t' target => t' = t ∧
        ChosenFrom mmapBase (flags &&& MREMAP_FIXED == 0) newSize rs' target)
      post (mremapAddr mmapBase newSize flags newAddress) [] t := by
  unfold mremapAddr
  by_cases hf : flags &&& MREMAP_FIXED ≠ 0
  · rw [if_pos hf]
    cases memRefIsSafe mmapBase newAddress newSize
    · trivial
    · exact ⟨rfl,.given newAddress (beq_eq_false_iff_ne.mpr hf)⟩
  · rw [if_neg hf]
    exact placeBelow_follows newSize (beq_iff_eq.mpr (not_not.mp hf)) post

theorem spaceLeft_placed {c : Counters} (hc : Plausible c) {len : Word} (hl : len.toNat < 2^47)
    (h : ummSpaceLeft c len = true) : ummSpaceLeft ⟨0,c.mmapLen⟩ len = true := by
  have hheap := hc.heap
  have hroom := hc.placed.room
  simp only at hroom
  have hlens : (c.brkLen + c.mmapLen).toNat = c.brkLen.toNat + c.mmapLen.toNat :=
    Words.add_toNat_exact (by omega)
  have hsum : (c.brkLen + c.mmapLen + len).toNat =
      c.brkLen.toNat + c.mmapLen.toNat + len.toNat := by
    rw [Words.add_toNat_exact (by omega),hlens]
  simp only [ummSpaceLeft,decide_eq_true_eq,BitVec.lt_def,hsum,appMmapLen_toNat] at h
  have h0 : (0 : Word).toNat = 0 := rfl
  rw [spaceLeft_iff hc.placed (by omega)]
  simp only
  omega

theorem counts_placed (hb : Based mmapBase) (hop : op.places = true) {c seen : Counters}
    (hc : Plausible c) {len : Word} (hsp : ummSpaceLeft c len = true)
    (hgrant : len.toNat < 2^47 ∨ ummGetMapPos mmapBase c - pgRoundUp len = MAP_FAILED) :
    Counts mmapBase op [seen,c] {seen with mmapLen := seen.mmapLen + pgRoundUp len}
      ⟨(ummGetMapPos mmapBase c - pgRoundUp len).toNat,len.toNat⟩ := by
  have hpos : ummGetMapPos mmapBase c = ummGetMapPos mmapBase ⟨0,c.mmapLen⟩ := rfl
  have hl : len.toNat < 2^47 := by
    refine hgrant.resolve_right fun hm => ?_
    have hal := placed_aligned hb hc.placed len
    rw [← hpos,hm] at hal
    exact absurd hal (by decide)
  have hsp' := spaceLeft_placed hc hl hsp
  have hround := pgRoundUp_toNat len (by omega)
  have hroom := room_of_spaceLeft hc.placed (by omega) hsp'
  simp only at hroom
  refine ⟨hop,?_⟩
  rintro _ ⟨rfl⟩
  refine ⟨rfl,pgRoundUp len,rfl,hround,by omega,fun hagree => ?_⟩
  have hm : c.mmapLen = seen.mmapLen := hagree c (by simp)
  rw [← hm]
  exact effect_of_placed hb hc.placed hsp' (by rw [hpos]) (.inl hl)

theorem counts_stack (hb : Based mmapBase) {c seen : Counters} (hc : Plausible c)
    (hsp : ummSpaceLeft c appStackSize = true) :
    Counts mmapBase .allocStack [seen,c]
      {seen with mmapLen := seen.mmapLen + (appStackSize + pgOff (ummGetMapPos mmapBase c))}
      ⟨(pgAddr (ummGetMapPos mmapBase c)).toNat - 0x800000,0x800000⟩ := by
  have hsp' := spaceLeft_placed hc (by decide) hsp
  have hpos := mapPos_toNat hb hc.placed
  have ha := hb.aligned
  have hm := hc.placed.mmap
  have hroom := hc.placed.room
  simp only at hpos hm hroom
  have hoff : pgOff (ummGetMapPos mmapBase c) = 0 := by
    refine BitVec.eq_of_toNat_eq ((pgOff_toNat _).trans ?_)
    change (ummGetMapPos mmapBase ⟨0,c.mmapLen⟩).toNat % 4096 = 0
    omega
  refine ⟨rfl,?_⟩
  rintro _ ⟨rfl⟩
  have hsize : (appStackSize + pgOff (ummGetMapPos mmapBase c)).toNat = 0x800000 := by
    have hz : appStackSize + 0 = appStackSize := by decide
    rw [hoff,hz,appStackSize_toNat]
  refine ⟨rfl,appStackSize + pgOff (ummGetMapPos mmapBase c),rfl,?_,by omega,fun hagree => ?_⟩
  · rw [hsize,pageSize]
    norm_num
  · have hm : c.mmapLen = seen.mmapLen := hagree c (by simp)
    rw [← hm]
    exact stack_effect hb hc.placed hsp'

theorem adjust_follows (hb : Based mmapBase) {auto : Bool} {len target : Word}
    (hchosen : ChosenFrom mmapBase auto len rs target) (hop : op.places = auto)
    (hgrant : len.toNat < 2^47 ∨ target = MAP_FAILED) {q : Code Word}
    (hidle : auto = false → ∀ rs', Follows mmapBase op idle post q rs' t)
    (hpost : auto = true → After HostOk (post ⟨target.toNat,len.toNat⟩) q t) :
    Follows mmapBase op idle post (adjustMmapLen auto len >>= fun _ => q) rs t := by
  intro seen hseen
  cases hchosen with
  | placed c hauto hc hsp =>
    rw [hauto] at hop ⊢
    exact .inr ⟨_,counts_placed hb hop hc hsp hgrant,hpost hauto⟩
  | given addr hauto =>
    rw [hauto]
    exact .inl ⟨seen,rfl,⟨rfl,hseen.heap⟩,hidle hauto _⟩

/-- A call that the program logic covers from its first step on. -/
def OpFollows (mmapBase : Word) (op : Op) : Prop :=
  Follows mmapBase op (fun _ t a => op.grant t a = none) (fun g t a => op.grant t a = some g)
    (op.code mmapBase) [] []

theorem mapKind_follows (target len : Word) (prot flags fd : CInt) (offset : Word)
    (post : Span → List (HostCall × Reply) → Word → Prop) :
    Follows mmapBase op
      (fun rs' _ v => rs' = rs ∧ (v = 0 → len.toNat < 2^47 ∨ target = MAP_FAILED)) post
      (mapKind target len prot flags fd offset) rs t := by
  unfold mapKind
  split_ifs
  · exact ummMmapAnom_follows target len prot post
  · exact follows_map post
  · trivial

theorem mmap_follows (hb : Based mmapBase) (addr len : Word) (prot flags fd : CInt)
    (offset : Word) : OpFollows mmapBase (.mmap addr len prot flags fd offset) := by
  refine follows_seq (chooseAddr_follows addr len) ?_
  rintro rs t target ⟨-,hchosen⟩
  refine follows_seq (mapKind_follows target len prot flags fd offset) ?_
  rintro _ t v ⟨rfl,hv⟩
  by_cases h0 : v ≠ 0
  · rw [if_pos h0]
    trivial
  · rw [if_neg h0]
    refine adjust_follows hb hchosen rfl (hv (not_not.mp h0)) (fun hauto _ => ?_) fun hauto => ?_
    · exact if_neg (Bool.eq_false_iff.mp hauto)
    · exact if_pos hauto

theorem shmat_follows (hb : Based mmapBase) (shmid : CInt) (addr : Word) (shmflg : CInt) :
    OpFollows mmapBase (.shmat shmid addr shmflg) := by
  intro shm _
  change Follows mmapBase _ _ _ (if shm.ret = -1 then _ else _) _ _
  by_cases hshm : shm.ret = -1
  · rw [if_pos hshm]
    trivial
  rw [if_neg hshm]
  refine follows_seq (chooseAddr_follows addr shm.segsz) ?_
  rintro rs _ target ⟨rfl,hchosen⟩
  intro mem hmem
  change Follows mmapBase _ _ _ (if mem.ret ≠ target then _ else _) _ _
  by_cases hne : mem.ret ≠ target
  · rw [if_pos hne]
    trivial
  rw [if_neg hne]
  intro g _
  change Follows mmapBase _ _ _ (if g.ret ≠ 0 then _ else _) _ _
  by_cases hg : g.ret ≠ 0
  · rw [if_pos hg]
    exact fun _ _ => trivial
  rw [if_neg hg]
  have hgrant := shmat_granted hmem (not_not.mp hne)
  refine adjust_follows hb hchosen rfl hgrant (fun hauto _ => ?_) fun hauto => ?_
  · exact if_neg (Bool.eq_false_iff.mp hauto)
  · exact if_pos hauto

theorem mremap_follows (hb : Based mmapBase) (oldAddress oldSize newSize : Word) (flags : CInt)
    (newAddress : Word) : OpFollows mmapBase (.mremap oldAddress oldSize newSize flags newAddress) := by
  change Follows mmapBase _ _ _ (ummMremap mmapBase oldAddress oldSize newSize flags newAddress) _ _
  unfold ummMremap
  cases memRefIsSafe mmapBase oldAddress oldSize
  · trivial
  refine follows_seq (mremapAddr_follows newSize flags newAddress) ?_
  rintro rs t target ⟨-,hchosen⟩
  by_cases hmove : flags &&& MREMAP_MAYMOVE = 0
  · rw [if_pos hmove]
    trivial
  rw [if_neg hmove]
  intro r hr
  change Follows mmapBase _ _ _ (if r.ret ≠ target then _ else _) _ _
  by_cases hne : r.ret ≠ target
  · rw [if_pos hne]
    trivial
  rw [if_neg hne]
  have hgrant := mremap_granted hr (not_not.mp hne)
  refine adjust_follows hb hchosen rfl hgrant (fun hauto _ => ?_) fun hauto => ?_
  · intro _ _ g _
    change Follows mmapBase _ _ _ (if g.ret ≠ 0 then _ else _) _ _
    split_ifs
    · trivial
    · exact if_neg (Bool.eq_false_iff.mp hauto)
  · intro _ _ g _
    change After HostOk _ (if g.ret ≠ 0 then _ else _) _
    split_ifs
    · trivial
    · exact if_pos hauto

theorem heap_length (hb : Based mmapBase) {c : Counters} (hc : Plausible c) {brk : Word}
    (hlow : ¬brk < mmapBase) (hsp : ummSpaceLeft c (pgRoundUp (brk - mmapBase)) = true) :
    (pgRoundUp (brk - mmapBase)).toNat < 0x200000000 := by
  have hheap := hc.heap
  have hroom := hc.placed.room
  have hbase := hb.lower
  have hlt := brk.isLt
  simp only at hroom
  rw [BitVec.lt_def] at hlow
  have hsub : (brk - mmapBase).toNat = brk.toNat - mmapBase.toNat :=
    Words.sub_toNat_exact (by omega)
  have hround := pgRoundUp_toNat (brk - mmapBase) (by omega)
  have hlens : (c.brkLen + c.mmapLen).toNat = c.brkLen.toNat + c.mmapLen.toNat :=
    Words.add_toNat_exact (by omega)
  have hsum : (c.brkLen + c.mmapLen + pgRoundUp (brk - mmapBase)).toNat =
      c.brkLen.toNat + c.mmapLen.toNat + (pgRoundUp (brk - mmapBase)).toNat := by
    rw [Words.add_toNat_exact (by omega),hlens]
  simp only [ummSpaceLeft,decide_eq_true_eq,BitVec.lt_def,hsum,appMmapLen_toNat] at hsp
  omega

theorem brk_follows (hb : Based mmapBase) (brk : Word) : OpFollows mmapBase (.brk brk) := by
  change Follows mmapBase _ _ _ (ummBrk mmapBase brk) _ _
  unfold ummBrk
  by_cases h0 : brk = 0
  · rw [if_pos h0]
    rfl
  rw [if_neg h0]
  by_cases hlow : brk < mmapBase
  · rw [if_pos hlow]
    trivial
  rw [if_neg hlow]
  intro c hc
  change Follows mmapBase _ _ _ (if !ummSpaceLeft c (pgRoundUp (brk - mmapBase)) then _ else _) _ _
  cases hsp : ummSpaceLeft c (pgRoundUp (brk - mmapBase))
  · trivial
  have hlen := heap_length hb hc hlow hsp
  change Follows mmapBase _ _ _ (if pgRoundUp (brk - mmapBase) = c.brkLen then _ else _) _ _
  split_ifs
  · rfl
  · intro r _
    change Follows mmapBase _ _ _ (if r.ret ≠ 0 then _ else _) _ _
    split_ifs
    · trivial
    · intro _ _ seen _
      exact .inl ⟨seen,rfl,⟨rfl,hlen⟩,rfl⟩
  · refine follows_seq (ummMmapAnom_follows _ _ _) ?_
    rintro rs t v -
    by_cases hv : v ≠ 0
    · rw [if_pos hv]
      trivial
    · rw [if_neg hv]
      intro seen _
      exact .inl ⟨seen,rfl,⟨rfl,hlen⟩,rfl⟩

theorem munmap_follows (addr len : Word) : OpFollows mmapBase (.munmap addr len) := by
  change Follows mmapBase _ _ _ (ummMunmap mmapBase addr len) _ _
  unfold ummMunmap
  cases memRefIsSafe mmapBase addr len
  · trivial
  intro r _
  change Follows mmapBase _ _ _ (if r.ret ≠ 0 then _ else _) _ _
  split_ifs
  · intro r' _
    change Follows mmapBase _ _ _ (if r'.ret ≠ 0 then _ else _) _ _
    split_ifs
    · trivial
    · exact fun _ _ => rfl
  · exact fun _ _ => rfl

theorem mprotect_follows (addr len prot : Word) : OpFollows mmapBase (.mprotect addr len prot) := by
  change Follows mmapBase _ _ _ (ummMprotect mmapBase addr len prot) _ _
  unfold ummMprotect
  cases memRefIsSafe mmapBase addr len
  · trivial
  intro r _
  change Follows mmapBase _ _ _ (if r.ret ≠ 0 then _ else _) _ _
  split_ifs
  · trivial
  · intro g _
    change Follows mmapBase _ _ _ (if g.ret ≠ 0 then _ else _) _ _
    split_ifs
    · trivial
    · rfl

theorem ummAllocStack_follows (hb : Based mmapBase)
    (hpost : ∀ t v, post ⟨v.toNat - 0x800000,0x800000⟩ t v) :
    Follows mmapBase .allocStack idle post (ummAllocStack mmapBase) [] [] := by
  unfold ummAllocStack
  rw [Follows,before_state]
  intro c hc
  dsimp only
  cases hsp : ummSpaceLeft c appStackSize
  · trivial
  refine follows_seq (ummMmapAnom_follows _ _ _) ?_
  rintro _ t v ⟨rfl,-⟩
  by_cases hv : v ≠ 0
  · rw [if_pos hv]
    trivial
  rw [if_neg hv]
  intro seen _
  exact .inr ⟨_,counts_stack hb hc hsp,hpost _ _⟩

theorem op_follows (hb : Based mmapBase) (op : Op) : OpFollows mmapBase op := by
  cases op with
  | allocStack => exact ummAllocStack_follows hb fun _ _ => rfl
  | brk newBrk => exact brk_follows hb newBrk
  | mmap => exact mmap_follows hb _ _ _ _ _ _
  | munmap => exact munmap_follows _ _
  | mprotect => exact mprotect_follows _ _ _
  | shmat => exact shmat_follows hb _ _ _
  | mremap => exact mremap_follows hb _ _ _ _ _

end Programs

section Interleavings
variable {T : Type} [DecidableEq T]

abbrev Calls (T : Type) := System T Op Counters Word HostCall Reply Word

/-- The ranges of all finished calls that placed one, most recent first. -/
def placedRanges (ls : List (Action T Op Word HostCall Reply Word)) : List Span :=
  finished (fun op t v => op.grant t v) ls

/-- However the calls of any number of threads are interleaved, as long as no
placement is counted while another one is between choosing its address and being
counted: the placed ranges of finished calls are apart, and when no call is running
the counter is the sum of their sizes in whole pages. -/
theorem interleaved_placements_apart {mmapBase : Word} (hb : Based mmapBase)
    {ls : List (Action T Op Word HostCall Reply Word)} {x : Calls T}
    (h : Runs (fun x l y => Shared.Step (workload mmapBase) x l y ∧ StoresOk Undisturbed x l)
      {state := {}} ls x) :
    ((placedRanges ls).Pairwise fun g k => (g.outward 4096).Apart (k.outward 4096)) ∧
    ((∀ i, x.threads i = none) →
      x.state.mmapLen.toNat = ((placedRanges ls).map pageSize).sum) := by
  have hcounts : ∀ s gs op rs seen s' g, Tally mmapBase s gs → rs.head? = some seen →
      Counts mmapBase op rs s' g → Undisturbed op rs s → Tally mmapBase (writeBack seen s' s) (g::gs) :=
    fun s gs op rs seen s' g hJ hseen hw hok => hJ.counts hb hseen hw hok
  obtain ⟨held,hx⟩ := runs_committed (w := workload mmapBase) (J := Tally mmapBase) (op_follows hb)
    (fun s gs gs' hJ hp => hJ.perm hp) (fun s gs hJ => hJ.plausible)
    (fun s gs seen s' hJ hw => hJ.plain hw) hcounts tally_start h
  refine ⟨?_,fun hidle => ?_⟩
  · exact hx.values.sound.apart.sublist (List.sublist_append_right _ _)
  · have hnone : held = [] := by
      cases held with
      | nil => rfl
      | cons p held => exact absurd (hidle p.1) (hx.running p.1 (by simp))
    have hsum := hx.values.sum
    rwa [hnone] at hsum

end Interleavings

section Schedules

def permitted (cautious : Bool) (x : Calls Bool) : Action Bool Op Word HostCall Reply Word → Bool
  | .call _ c r => decide (HostOk c r)
  | .store i =>
    !cautious || (x.threads i).all fun th =>
      !th.op.places || th.reads.all fun r => r.mmapLen == x.state.mmapLen
  | _ => true

theorem answered_of_permitted {cautious : Bool} {x : Calls Bool}
    {l : Action Bool Op Word HostCall Reply Word} (h : permitted cautious x l = true) :
    l.Answered HostOk := by
  cases l with
  | call i c r =>
    have hr : HostOk c r := of_decide_eq_true h
    exact hr
  | start | read | store | finish => trivial

theorem storesOk_of_permitted {x : Calls Bool} {l : Action Bool Op Word HostCall Reply Word}
    (h : permitted true x l = true) : StoresOk Undisturbed x l := by
  cases l with
  | store i =>
    intro th hth hplaces r hr
    simp only [permitted,hth,Option.all_some,hplaces,Bool.not_true,Bool.false_or,
      List.all_eq_true,beq_iff_eq] at h
    exact h r hr
  | start | read | call | finish => trivial

def go (i : Bool) (v : Word := 0) : Move Bool Op Reply := .next i {ret := v}

def heapOfTwoPages : List (Move Bool Op Reply) :=
  [.start true (.brk 0x400002000),go true,go true 0x400000000,go true,go true,go true,go true]

/-- Move a page of the heap to a place of the manager's choice. -/
def moveAway (oldAddress : Word) : Op := .mremap oldAddress 4096 4096 MREMAP_MAYMOVE 0

def movesInTurn : List (Move Bool Op Reply) :=
  [.start true (moveAway 0x400000000),go true,go true 0x5fffff000,go true,go true,go true,go true,
    go true,.start false (moveAway 0x400001000),go false,go false 0x5ffffe000,go false,go false,
    go false,go false,go false]

/-- Two threads move a page each, in step with each other. -/
def movesInStep : List (Move Bool Op Reply) :=
  [.start true (moveAway 0x400000000),.start false (moveAway 0x400001000),go true,go false,
    go true 0x5fffff000,go false 0x5fffff000,go true,go false,go true,go false,go true,go false,
    go true,go false,go true,go false]

def endsWith (gs : List Span)
    (r : List (Action Bool Op Word HostCall Reply Word) × Calls Bool) : Bool :=
  decide (placedRanges r.1 = gs) && ((r.2.threads false).isNone && (r.2.threads true).isNone)

theorem endsWith_iff {gs : List Span} {ls : List (Action Bool Op Word HostCall Reply Word)}
    {x : Calls Bool} :
    endsWith gs (ls,x) = true ↔ placedRanges ls = gs ∧ ∀ i, x.threads i = none := by
  simp [endsWith]

theorem interleaved_placements_apart_in_turn :
    ∃ ls x, Runs (fun x l y => Shared.Step (workload 0x400000000) x l y ∧ StoresOk Undisturbed x l)
        ({state := {}} : Calls Bool) ls x ∧
      placedRanges ls = [⟨0x5ffffe000,4096⟩,⟨0x5fffff000,4096⟩] ∧
      ((placedRanges ls).Pairwise fun g k => (g.outward 4096).Apart (k.outward 4096)) ∧
      x.state.mmapLen.toNat = ((placedRanges ls).map pageSize).sum := by
  obtain ⟨ls,x,hrun,hend⟩ := exists_of_schedule
    (P := fun x l y => Shared.Step (workload 0x400000000) x l y ∧ StoresOk Undisturbed x l)
    (p := endsWith [⟨0x5ffffe000,4096⟩,⟨0x5fffff000,4096⟩])
    (fun x l y hstep hl => ⟨hstep (answered_of_permitted hl),storesOk_of_permitted hl⟩)
    (show (schedule (workload 0x400000000) (permitted true) {state := {}}
      (heapOfTwoPages ++ movesInTurn).reverse).any _ = true by decide +kernel)
  obtain ⟨hgs,hidle⟩ := endsWith_iff.mp hend
  have hb : Based 0x400000000 := ⟨by decide,by decide,by decide⟩
  have hapart := interleaved_placements_apart hb hrun
  exact ⟨ls,x,hrun,hgs,hapart.1,hapart.2 hidle⟩

/-- `mremap` takes no lock: both threads get the same page, and one of the two is
not counted. -/
theorem movesInStep_overlap :
    ∃ ls x, Runs (Shared.Step (workload 0x400000000)) ({state := {}} : Calls Bool) ls x ∧
      (∀ i, x.threads i = none) ∧
      (¬(placedRanges ls).Pairwise fun g k => (g.outward 4096).Apart (k.outward 4096)) ∧
      x.state.mmapLen.toNat ≠ ((placedRanges ls).map pageSize).sum := by
  obtain ⟨ls,x,hrun,hend⟩ := exists_of_schedule
    (P := Shared.Step (workload 0x400000000))
    (p := fun r => endsWith [⟨0x5fffff000,4096⟩,⟨0x5fffff000,4096⟩] r && r.2.state.mmapLen == 4096)
    (fun x l y hstep hl => hstep (answered_of_permitted hl))
    (show (schedule (workload 0x400000000) (permitted false) {state := {}}
      (heapOfTwoPages ++ movesInStep).reverse).any _ = true by decide +kernel)
  obtain ⟨hends,hlen⟩ := Bool.and_eq_true_iff.mp hend
  obtain ⟨hgs,hidle⟩ := endsWith_iff.mp hends
  refine ⟨ls,x,hrun,hidle,?_,?_⟩
  · rw [hgs]
    decide
  · rw [hgs,beq_iff_eq.mp hlen]
    decide

end Schedules

end Umm
end VmplApps

import VmplApps.SthreadSteps

/-! Allocation from tags. A tag hands out its buffer from the bottom, and `smalloc` tests
the room left in wrapping arithmetic: as long as no request wraps, blocks lie inside their
tags and apart from each other. -/
namespace VmplApps
namespace Sthreads

def Tag.range (t : Tag) : Span := ⟨t.tBuf.toNat,TAG_SIZE.toNat⟩

/-- What `smalloc` has returned, with the buffer of the tag it was asked for. -/
structure Block where
  buf : Word
  span : Span
  deriving DecidableEq, Repr

inductive TagCall
  | tagNew (addr : Word)
  | smalloc (tid : CInt) (sz : Word)
  deriving DecidableEq, Repr

structure Pool where
  kernel : Kernel
  blocks : List Block := []

def Pool.step (x : Pool) : TagCall → Except Fault Pool
  | .tagNew addr => do
    let r ← tagNew x.kernel addr
    .ok {x with kernel := r.2}
  | .smalloc tid sz =>
    let r := smalloc x.kernel tid sz
    match findTag x.kernel.tags tid with
    | none => .ok {x with kernel := r.2}
    | some t =>
      if r.1 = 0 then .ok {x with kernel := r.2}
      else .ok ⟨r.2,⟨t.tBuf,⟨r.1.toNat,sz.toNat⟩⟩::x.blocks⟩

/-- The host maps whole pages that no tag has, neither at address zero nor at the end of
the address space. -/
def Pool.fresh (x : Pool) : TagCall → Bool
  | .tagNew addr => addr.toNat % 4096 = 0 ∧ 0 < addr.toNat ∧ addr.toNat + TAG_SIZE.toNat < 2^64 ∧
      ∀ t ∈ x.kernel.tags, Span.Apart ⟨addr.toNat,TAG_SIZE.toNat⟩ t.range
  | .smalloc _ _ => true

/-- The sum that `smalloc` tests does not wrap. -/
def Pool.unwrapped (x : Pool) : TagCall → Bool
  | .tagNew _ => true
  | .smalloc tid sz =>
    match findTag x.kernel.tags tid with
    | none => true
    | some t => (t.tP - t.tBuf).toNat + sz.toNat < 2^64

/-- Every block lies in the buffer of its tag, and no two overlap. -/
structure Disjoined (x : Pool) : Prop where
  inside : ∀ b ∈ x.blocks, ∃ t ∈ x.kernel.tags, t.tBuf = b.buf ∧
    b.span.Inside t.range.start t.range.stop
  apart : x.blocks.Pairwise fun b c => b.span.Apart c.span

structure Tag.Sound (t : Tag) : Prop where
  len : t.tLen = 40960
  start : 0 < t.tBuf.toNat
  low : t.tBuf.toNat ≤ t.tP.toNat
  high : t.tP.toNat ≤ t.tBuf.toNat + 40960
  fits : t.tBuf.toNat + 40960 < 2^64

/-- Buffers are apart, and every block is below the pointer of its tag. -/
structure Packed (x : Pool) : Prop where
  sound : ∀ t ∈ x.kernel.tags, t.Sound
  ranges : x.kernel.tags.Pairwise fun t u => t.range.Apart u.range
  below : ∀ b ∈ x.blocks, ∃ t ∈ x.kernel.tags, t.tBuf = b.buf ∧
    b.span.Inside t.tBuf.toNat t.tP.toNat
  apart : x.blocks.Pairwise fun b c => b.span.Apart c.span

section Requests
variable {t : Tag} {sz : Word}

theorem Tag.Sound.used (h : t.Sound) : (t.tP - t.tBuf).toNat = t.tP.toNat - t.tBuf.toNat :=
  Words.sub_toNat_exact h.low

theorem Tag.Sound.ne_zero (h : t.Sound) : t.tP ≠ 0 := by
  intro hzero
  have hp : t.tP.toNat = 0 := congrArg BitVec.toNat hzero
  have hstart := h.start
  have hlow := h.low
  omega

theorem Tag.Sound.exhausted_iff (h : t.Sound) (hsz : (t.tP - t.tBuf).toNat + sz.toNat < 2^64) :
    t.exhausted sz = false ↔ t.tP.toNat + sz.toNat ≤ t.tBuf.toNat + 40960 := by
  have hlow := h.low
  rw [Tag.exhausted,h.len,decide_eq_false_iff_not,gt_iff_lt,BitVec.lt_def,not_lt,
    Words.add_toNat_exact hsz,h.used]
  have hlen : ((40960 : CInt).signExtend 64).toNat = 40960 := rfl
  rw [hlen]
  omega

theorem Tag.Sound.exhausted_wraps (h : t.Sound)
    (hsz : 2^64 ≤ (t.tP - t.tBuf).toNat + sz.toNat) : t.exhausted sz = false := by
  have hhigh := h.high
  have hsz' := sz.isLt
  have hlen : ((40960 : CInt).signExtend 64).toNat = 40960 := rfl
  rw [Tag.exhausted,h.len,decide_eq_false_iff_not,gt_iff_lt,BitVec.lt_def,not_lt,hlen,
    BitVec.toNat_add]
  rw [h.used] at hsz ⊢
  omega

theorem Tag.Sound.bump (h : t.Sound) (hsz : t.tP.toNat + sz.toNat ≤ t.tBuf.toNat + 40960) :
    (t.tP + sz).toNat = t.tP.toNat + sz.toNat ∧ {t with tP := t.tP + sz}.Sound := by
  have hfits := h.fits
  have hadd : (t.tP + sz).toNat = t.tP.toNat + sz.toNat := Words.add_toNat_exact (by omega)
  refine ⟨hadd,h.len,h.start,?_,?_,h.fits⟩
  · exact hadd ▸ le_trans h.low (Nat.le_add_right _ _)
  · exact hadd ▸ hsz

theorem findTag_mem {tags : List Tag} {tid : CInt} (h : findTag tags tid = some t) : t ∈ tags :=
  List.mem_of_find?_eq_some h

theorem bumpTag_split {tags : List Tag} {tid : CInt} (h : findTag tags tid = some t) (sz : Word) :
    ∃ before behind, tags = before ++ t::behind ∧
      bumpTag tid sz tags = before ++ {t with tP := t.tP + sz}::behind := by
  induction tags with
  | nil => cases h
  | cons u rest ih =>
    by_cases hu : u.tId = tid
    · have htu : u = t := by simpa [findTag,hu] using h
      subst htu
      exact ⟨[],rest,rfl,by rw [bumpTag,if_pos hu]; rfl⟩
    · have hrest : findTag rest tid = some t := by simpa [findTag,hu] using h
      obtain ⟨before,behind,htags,hbump⟩ := ih hrest
      exact ⟨u::before,behind,by rw [htags]; rfl,by rw [bumpTag,if_neg hu,hbump]; rfl⟩

end Requests

section Steps
variable {x y : Pool} {c : TagCall} {t : Tag} {tid : CInt} {sz : Word}

theorem disjoined_of_packed (hx : Packed x) : Disjoined x := by
  refine ⟨fun b hb => ?_,hx.apart⟩
  obtain ⟨t,ht,hbuf,hlow,hhigh⟩ := hx.below b hb
  exact ⟨t,ht,hbuf,hlow,le_trans hhigh (hx.sound t ht).high⟩

theorem Packed.other (hx : Packed x) {u : Tag} (ht : t ∈ x.kernel.tags) (hu : u ∈ x.kernel.tags)
    (hne : u ≠ t) : u.range.Apart t.range := by
  have hsymm : Std.Symm fun t u : Tag => t.range.Apart u.range := ⟨fun _ _ h => h.symm⟩
  exact hx.ranges.forall hu ht hne

theorem packed_tagNew {addr : Word} {id : CInt} {k : Kernel} (hx : Packed x)
    (hfresh : x.fresh (.tagNew addr) = true) (h : tagNew x.kernel addr = .ok (id,k)) :
    Packed {x with kernel := k} := by
  obtain ⟨mem,-,h⟩ := bind_ok.mp h
  cases h
  obtain ⟨-,hpos,hfits,hapart⟩ := of_decide_eq_true hfresh
  refine ⟨?_,List.pairwise_cons.mpr ⟨hapart,hx.ranges⟩,fun b hb => ?_,hx.apart⟩
  · intro t ht
    rcases List.mem_cons.mp ht with rfl | ht
    · exact ⟨rfl,hpos,le_rfl,Nat.le_add_right _ _,hfits⟩
    · exact hx.sound t ht
  · obtain ⟨t,ht,hb⟩ := hx.below b hb
    exact ⟨t,List.mem_cons_of_mem _ ht,hb⟩

theorem Packed.apart_new (hx : Packed x) (ht : t ∈ x.kernel.tags)
    (hsz : t.tP.toNat + sz.toNat ≤ t.tBuf.toNat + 40960) {b : Block} (hb : b ∈ x.blocks) :
    Span.Apart ⟨t.tP.toNat,sz.toNat⟩ b.span := by
  -- an older block is below the pointer of its own tag, and other tags are elsewhere
  obtain ⟨u,hu,-,hlow,hhigh⟩ := hx.below b hb
  by_cases hut : u = t
  · subst hut
    exact .inr hhigh
  · have hrange := hx.other ht hu hut
    have htlow := (hx.sound t ht).low
    have huhigh := (hx.sound u hu).high
    have hsize : TAG_SIZE.toNat = 40960 := rfl
    simp only [Span.Apart,Span.stop,Tag.range,hsize] at hrange hhigh hlow ⊢
    omega

theorem packed_smalloc (hx : Packed x) (hf : findTag x.kernel.tags tid = some t)
    (hsz : t.tP.toNat + sz.toNat ≤ t.tBuf.toNat + 40960) :
    Packed ⟨{x.kernel with tags := bumpTag tid sz x.kernel.tags},
      ⟨t.tBuf,⟨t.tP.toNat,sz.toNat⟩⟩::x.blocks⟩ := by
  have ht := findTag_mem hf
  obtain ⟨hadd,hsound⟩ := (hx.sound t ht).bump hsz
  obtain ⟨before,behind,htags,hbump⟩ := bumpTag_split hf sz
  set t' : Tag := {t with tP := t.tP + sz}
  have hmem {u : Tag} (hu : u ∈ x.kernel.tags) : u = t ∨ u ∈ before ++ t'::behind := by
    rw [htags] at hu
    simp only [List.mem_append,List.mem_cons] at hu ⊢
    tauto
  have ht' : t' ∈ before ++ t'::behind := by simp
  rw [hbump]
  refine ⟨fun u hu => ?_,?_,fun b hb => ?_,?_⟩
  · have hold : u = t' ∨ u ∈ x.kernel.tags := by
      rw [htags]
      simp only [List.mem_append,List.mem_cons] at hu ⊢
      tauto
    rcases hold with rfl | hold
    · exact hsound
    · exact hx.sound u hold
  · have hranges := hx.ranges
    rw [htags] at hranges
    have hmap (l : List Tag) : l.Pairwise (fun t u => t.range.Apart u.range) ↔
        (l.map Tag.range).Pairwise Span.Apart := (List.pairwise_map).symm
    rw [hmap] at hranges ⊢
    have hrange : t'.range = t.range := rfl
    simpa [hrange] using hranges
  · rcases List.mem_cons.mp hb with rfl | hb
    · exact ⟨t',ht',rfl,(hx.sound t ht).low,hadd.ge⟩
    · obtain ⟨u,hu,hbuf,hlow,hhigh⟩ := hx.below b hb
      rcases hmem hu with rfl | hu
      · exact ⟨t',ht',hbuf,hlow,by rw [hadd]; exact le_trans hhigh (Nat.le_add_right _ _)⟩
      · exact ⟨u,hu,hbuf,hlow,hhigh⟩
  · exact List.pairwise_cons.mpr ⟨fun b hb => hx.apart_new ht hsz hb,hx.apart⟩

theorem smalloc_null (hx : Packed x) (h : (smalloc x.kernel tid sz).1 = 0) :
    (smalloc x.kernel tid sz).2.tags = x.kernel.tags := by
  rcases smalloc_cases x.kernel tid sz with hs | ⟨t,hf,-,hs⟩
  · rw [hs]
  · rw [hs] at h
    exact absurd h (hx.sound t (findTag_mem hf)).ne_zero

/-- Every transition of the pool, with what was tested on the way. -/
theorem pool_step_cases (hx : Packed x) (h : x.step c = .ok y) :
    (∃ addr id k, c = .tagNew addr ∧ tagNew x.kernel addr = .ok (id,k) ∧ y = {x with kernel := k}) ∨
    (∃ tid sz, c = .smalloc tid sz ∧ y = x ∧
      ∀ t, findTag x.kernel.tags tid = some t → t.exhausted sz = true) ∨
    ∃ tid sz t, c = .smalloc tid sz ∧ findTag x.kernel.tags tid = some t ∧
      t.exhausted sz = false ∧
      y = ⟨{x.kernel with tags := bumpTag tid sz x.kernel.tags},
        ⟨t.tBuf,⟨t.tP.toNat,sz.toNat⟩⟩::x.blocks⟩ := by
  cases c with
  | tagNew addr =>
    obtain ⟨⟨id,k⟩,hk,h⟩ := bind_ok.mp h
    cases h
    exact .inl ⟨addr,id,k,rfl,hk,rfl⟩
  | smalloc tid sz =>
    unfold Pool.step smalloc at h
    cases hf : findTag x.kernel.tags tid with
    | none =>
      simp only [hf] at h
      cases h
      exact .inr (.inl ⟨tid,sz,rfl,rfl,by simp [hf]⟩)
    | some t =>
      simp only [hf] at h
      cases hroom : t.exhausted sz with
      | true =>
        simp only [hroom,if_true] at h
        cases h
        refine .inr (.inl ⟨tid,sz,rfl,rfl,fun u hu => ?_⟩)
        rwa [← Option.some.inj (hf.symm.trans hu)]
      | false =>
        have hne : t.tP ≠ 0 := (hx.sound t (findTag_mem hf)).ne_zero
        simp only [hroom,Bool.false_eq_true,if_false,hne] at h
        cases h
        exact .inr (.inr ⟨tid,sz,t,rfl,hf,hroom,rfl⟩)

theorem Packed.step (hx : Packed x) (hfresh : x.fresh c = true) (hsz : x.unwrapped c = true)
    (h : x.step c = .ok y) : Packed y := by
  rcases pool_step_cases hx h with ⟨addr,id,k,rfl,hk,rfl⟩ | ⟨tid,sz,rfl,rfl,-⟩ |
    ⟨tid,sz,t,rfl,hf,hroom,rfl⟩
  · exact packed_tagNew hx hfresh hk
  · exact hx
  · have hlt : (t.tP - t.tBuf).toNat + sz.toNat < 2^64 := by simpa [Pool.unwrapped,hf] using hsz
    exact packed_smalloc hx hf (((hx.sound t (findTag_mem hf)).exhausted_iff hlt).mp hroom)

/-- A request that wraps is granted, and its block leaves the buffer. -/
theorem not_disjoined_of_wraps (hx : Packed x) (hsz : x.unwrapped c = false)
    (h : x.step c = .ok y) : ¬Disjoined y := by
  intro hy
  rcases pool_step_cases hx h with ⟨addr,id,k,rfl,-⟩ | ⟨tid,sz,rfl,-,hfull⟩ |
    ⟨tid,sz,t,rfl,hf,-,rfl⟩
  · cases hsz
  · cases hf : findTag x.kernel.tags tid with
    | none => simp [Pool.unwrapped,hf] at hsz
    | some t =>
      have hwrap : 2^64 ≤ (t.tP - t.tBuf).toNat + sz.toNat := by simpa [Pool.unwrapped,hf] using hsz
      have hroom := (hx.sound t (findTag_mem hf)).exhausted_wraps hwrap
      rw [hfull t hf] at hroom
      cases hroom
  · -- the new block is as long as the request says, which no buffer is
    have hwrap : 2^64 ≤ (t.tP - t.tBuf).toNat + sz.toNat := by simpa [Pool.unwrapped,hf] using hsz
    obtain ⟨u,hu,hbuf,-,hhigh⟩ := hy.inside _ List.mem_cons_self
    have hsound := hx.sound t (findTag_mem hf)
    have hbuf' : u.tBuf.toNat = t.tBuf.toNat := congrArg BitVec.toNat hbuf
    have hfits := hsound.fits
    have hsize : TAG_SIZE.toNat = 40960 := rfl
    rw [hsound.used] at hwrap
    simp only [Span.stop,Tag.range,hsize,hbuf'] at hhigh
    omega

end Steps

/-- In every run in which no request wraps, blocks lie in their tags and apart from each
other and a call that returns `NULL` changes no tag; and the first request that wraps breaks
this. -/
theorem runs_disjoined {k : Kernel} {calls : List TagCall} {x : Pool} (hempty : k.tags = [])
    (hruns : Runs (fun a c b => (a.fresh c && a.unwrapped c) = true ∧ a.step c = .ok b) ⟨k,[]⟩ calls x) :
    Disjoined x ∧
      (∀ tid sz, (smalloc x.kernel tid sz).1 = 0 →
        (smalloc x.kernel tid sz).2.tags = x.kernel.tags) ∧
      ∀ c y, x.fresh c = true → x.step c = .ok y → (Disjoined y ↔ x.unwrapped c = true) := by
  have hx : Packed x := by
    refine hruns.invariant (I := fun a _ => Packed a) ?_ ?_
    · exact ⟨by simp [hempty],by simp [hempty],by simp,List.Pairwise.nil⟩
    · rintro a calls c b ha ⟨hc,hstep⟩
      obtain ⟨hfresh,hsz⟩ := Bool.and_eq_true_iff.mp hc
      exact ha.step hfresh hsz hstep
  refine ⟨disjoined_of_packed hx,fun tid sz => smalloc_null hx,fun c y hfresh hstep => ⟨?_,?_⟩⟩
  · intro hy
    by_contra hsz
    exact not_disjoined_of_wraps hx (Bool.eq_false_iff.mpr hsz) hstep hy
  · intro hsz
    exact disjoined_of_packed (hx.step hfresh hsz hstep)

def bareKernel : Kernel := {
  sthreads := [],ksCurrent := none,sthreadId := 0,tags := [],tagId := 0,cr3 := 0
  entry := {},pgroot := ⟨[],List.Pairwise.nil⟩,mem := fun _ => 0}

def twoBlocks : List TagCall := [.smalloc 0 32,.smalloc 0 16,.tagNew 0x10000]

theorem runs_disjoined_twoBlocks : ∃ x : Pool,
    Runs (fun a c b => (a.fresh c && a.unwrapped c) = true ∧ a.step c = .ok b) ⟨bareKernel,[]⟩
      twoBlocks x ∧
    x.blocks = [⟨0x10000,⟨0x10010,32⟩⟩,⟨0x10000,⟨0x10000,16⟩⟩] ∧ Disjoined x := by
  have hend : (follow Pool.step (fun a c => a.fresh c && a.unwrapped c) ⟨bareKernel,[]⟩ twoBlocks).any
      (fun x => x.blocks == [⟨0x10000,⟨0x10010,32⟩⟩,⟨0x10000,⟨0x10000,16⟩⟩]) = true := by
    decide +kernel
  obtain ⟨x,hruns,hp⟩ := exists_of_follow hend
  exact ⟨x,hruns,beq_iff_eq.mp hp,(runs_disjoined rfl hruns).1⟩

def wrappedRequest : List TagCall :=
  [.smalloc 0 8,.smalloc 0 (-8),.smalloc 0 16,.tagNew 0x10000]

/-- After 16 bytes a request for `2^64 - 8` bytes is granted and moves the pointer back by
eight, so that the next block overlaps the first. -/
theorem wrapped_request_overlaps : ∃ x : Pool,
    Runs (fun a c b => a.fresh c = true ∧ a.step c = .ok b) ⟨bareKernel,[]⟩ wrappedRequest x ∧
    x.blocks = [⟨0x10000,⟨0x10008,8⟩⟩,⟨0x10000,⟨0x10010,2^64 - 8⟩⟩,⟨0x10000,⟨0x10000,16⟩⟩] ∧
    ¬Disjoined x := by
  have hend : (follow Pool.step Pool.fresh ⟨bareKernel,[]⟩ wrappedRequest).any (fun x => x.blocks ==
      [⟨0x10000,⟨0x10008,8⟩⟩,⟨0x10000,⟨0x10010,2^64 - 8⟩⟩,⟨0x10000,⟨0x10000,16⟩⟩]) = true := by
    decide +kernel
  obtain ⟨x,hruns,hp⟩ := exists_of_follow hend
  have hblocks := beq_iff_eq.mp hp
  refine ⟨x,hruns,hblocks,fun hx => ?_⟩
  have hapart := hx.apart
  rw [hblocks] at hapart
  exact absurd hapart (by decide)

end Sthreads
end VmplApps

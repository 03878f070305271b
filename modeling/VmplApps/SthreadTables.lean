import VmplApps.SthreadSteps

/-! What a thread's page table grants. Creation walks the clone of the master's
table twice: the first pass denies everything the policy does not list, the second
maps the pages of the writable segments to the private copy. Each present entry
of the result is traced back to a segment, the stack, the copy or a listed tag. -/
namespace VmplApps
namespace Sthreads

def page (p : ℕ) : Span := ⟨p*4096,4096⟩

def PageIn (p : ℕ) (s : Span) : Prop := (page p).Inside s.start s.stop

instance (p : ℕ) (s : Span) : Decidable (PageIn p s) := inferInstanceAs (Decidable (Span.Inside _ _ _))

def Segment.span (seg : Segment) : Span := ⟨seg.sStart.toNat,seg.sEnd.toNat - seg.sStart.toNat⟩

def Tag.span (t : Tag) : Span := ⟨t.tBuf.toNat,40960⟩

def Sthread.stackSpan (s : Sthread) : Span := ⟨s.stStack.toNat,40960⟩

def Sthread.writableSpan (boot : Boot) (s : Sthread) : Span := ⟨s.stWritable.toNat,boot.copySize⟩

/-- A line of the memory map: whole pages, not empty. -/
structure Segment.WellFormed (seg : Segment) : Prop where
  start : seg.sStart.toNat % 4096 = 0
  stop : seg.sEnd.toNat % 4096 = 0
  lt : seg.sStart.toNat < seg.sEnd.toNat
  len : seg.sLen.toNat = seg.sEnd.toNat - seg.sStart.toNat

def Sc.Lists (sc : Sc) (t : Tag) : Prop :=
  ∃ w ∈ sc.scMem.toList, w ≠ 0 ∧ w &&& 0xfffffffffffffff0 = t.tBuf

def Sc.ListsWritable (sc : Sc) (t : Tag) : Prop :=
  ∃ w ∈ sc.scMem.toList, w ≠ 0 ∧ w &&& 0xfffffffffffffff0 = t.tBuf ∧
    w &&& PROT_WRITE.setWidth 64 ≠ 0

/-- The entry holds the frame that the runtime library has for a page of the span. -/
def MapsPage (boot : Boot) (e : Word) (s : Span) : Prop :=
  ∃ a : Word, a.toNat % 4096 = 0 ∧ (⟨a.toNat,4096⟩ : Span).Inside s.start s.stop ∧
    pteAddr e = pteAddr (boot.vaToPa a)

/-- The frame of the entry is in the host at a page of the span. -/
def HoldsPage (boot : Boot) (e : Word) (s : Span) : Prop :=
  (hostOf boot e).toNat % 4096 = 0 ∧ (⟨(hostOf boot e).toNat,4096⟩ : Span).Inside s.start s.stop

/-- The frame of the entry is the one at the page's own address, as in the master's
table. -/
def HoldsOwn (boot : Boot) (p : ℕ) (e : Word) : Prop := (hostOf boot e).toNat = p*4096

/-- Every present entry has the frame that another table has for the page, or maps a page
of the thread's copy. -/
def Sthread.Cloned (boot : Boot) (pg : LeafTable Word) (s : Sthread) : Prop :=
  ∀ p e, (p,e) ∈ s.table.leaves → e &&& PTE_P ≠ 0 → MapsPage boot e (s.writableSpan boot) ∨
    ∃ e₀, (p,e₀) ∈ pg.leaves ∧ e₀ &&& PTE_P ≠ 0 ∧ pteAddr e = pteAddr e₀

/-- What a present entry of a thread's table may grant. -/
structure Granted (boot : Boot) (tags : List Tag) (s : Sthread) (p : ℕ) (e : Word) : Prop where
  user : e &&& PTE_U ≠ 0 → (∃ seg ∈ boot.segments, PageIn p seg.span) ∨ PageIn p s.stackSpan ∨
    ∃ t ∈ tags, s.stSc.Lists t ∧ PageIn p t.span
  write : e &&& PTE_U ≠ 0 → e &&& PTE_W ≠ 0 → MapsPage boot e (s.writableSpan boot) ∨
    PageIn p s.stackSpan ∨ ∃ t ∈ tags, s.stSc.ListsWritable t ∧ PageIn p t.span

section Pages
variable {p : ℕ}

theorem hostOf_dirtyOnly {boot : Boot} {e e' : Word} (h : DirtyOnly e e') :
    hostOf boot e' = hostOf boot e := by
  have hframe : pteAddr e' = pteAddr e := h.and_eq rfl
  rw [hostOf,hostOf,hframe]

theorem pageVa_toNat (hp : p < 2^52) : (pageVa p).toNat = p*4096 := by
  rw [pageVa,BitVec.toNat_ofNat,Nat.mod_eq_of_lt (by omega)]

theorem pageIn_of_addr {a n : ℕ} (ha : a % 4096 = 0) (hn : n % 4096 = 0) (hlo : a ≤ p*4096)
    (hhi : p*4096 < a+n) : PageIn p ⟨a,n⟩ := by
  constructor <;> simp only [page,Span.stop] <;> omega

/-- The range test of the code, whose upper bound may wrap, puts an aligned page
into the range. -/
theorem pageIn_of_test {a : Word} {n : Word} (hp : p < 2^52) (ha : a.toNat % 4096 = 0)
    (hn : n.toNat % 4096 = 0) (h : pageVa p ≥ a ∧ pageVa p < a + n) :
    PageIn p ⟨a.toNat,n.toNat⟩ := by
  obtain ⟨hlo,hhi⟩ := h
  rw [ge_iff_le,BitVec.le_def,pageVa_toNat hp] at hlo
  rw [BitVec.lt_def,pageVa_toNat hp] at hhi
  refine pageIn_of_addr ha hn hlo ?_
  rcases Words.add_toNat_cases a n with ⟨-,he⟩ | ⟨-,he⟩ <;> omega

end Pages

section Segments
variable {seg : Segment}

theorem Segment.WellFormed.last_toNat (h : seg.WellFormed) :
    (seg.sEnd - 4096).toNat = seg.sEnd.toNat - 4096 := by
  have := h.start
  have := h.stop
  have := h.lt
  exact Words.sub_toNat_exact (by simp; omega)

theorem Segment.WellFormed.pageIn_of_addr {p : ℕ} (h : seg.WellFormed) (hp : p < 2^52)
    (hlo : pageVa p ≥ seg.sStart) (hhi : pageVa p < seg.sEnd) : PageIn p seg.span := by
  rw [ge_iff_le,BitVec.le_def,pageVa_toNat hp] at hlo
  rw [BitVec.lt_def,pageVa_toNat hp] at hhi
  have := h.start
  have := h.stop
  exact Sthreads.pageIn_of_addr h.start (by omega) hlo (by omega)

theorem Segment.WellFormed.inWalk_pages {p : ℕ} {e : Word} (h : seg.WellFormed)
    (hw : inWalk seg.sStart (seg.sEnd - 4096) p e = true) :
    seg.sStart.toNat / 4096 ≤ p ∧ p < seg.sEnd.toNat / 4096 := by
  simp only [inWalk,Bool.and_eq_true,decide_eq_true_eq,h.last_toNat] at hw
  have := h.start
  have := h.stop
  have := h.lt
  omega

theorem Segment.WellFormed.pageIn_of_inWalk {p : ℕ} {e : Word} (h : seg.WellFormed)
    (hw : inWalk seg.sStart (seg.sEnd - 4096) p e = true) : PageIn p seg.span := by
  have hp := h.inWalk_pages hw
  have := h.start
  have := h.stop
  exact Sthreads.pageIn_of_addr h.start (by omega) (by omega) (by omega)

end Segments

section Protect
variable {boot : Boot} {s : Sthread} {p : ℕ}

theorem setU_and_W (e : Word) : (e ||| PTE_U) &&& PTE_W = e &&& PTE_W :=
  Words.or_and_of_disjoint rfl

/-- The tag loop grants nothing but what an entry of the policy lists. -/
theorem protectTags_granted (addr e : Word) (ws : List Word)
    (hu : protectTags addr e ws &&& PTE_U ≠ 0) :
    e &&& PTE_U ≠ 0 ∨ ∃ w ∈ ws, w ≠ 0 ∧
      (addr ≥ w &&& 0xfffffffffffffff0 ∧ addr < (w &&& 0xfffffffffffffff0) + TAG_SIZE) ∧
      (protectTags addr e ws &&& PTE_W ≠ 0 → w &&& PROT_WRITE.setWidth 64 ≠ 0) := by
  induction ws with
  | nil => exact .inl hu
  | cons w rest ih =>
    simp only [protectTags] at hu ⊢
    split_ifs at hu ⊢ with h0 hin hro
    · exact .inl hu
    · refine .inr ⟨w,List.mem_cons_self,h0,hin,fun hw => absurd ?_ hw⟩
      exact Words.and_not_and_self _ _
    · exact .inr ⟨w,List.mem_cons_self,h0,hin,fun _ => hro⟩
    · rcases ih hu with hu | ⟨v,hv,hrest⟩
      · exact .inl hu
      · exact .inr ⟨v,List.mem_cons_of_mem _ hv,hrest⟩

/-- The entry that the first pass leaves: a page of a segment that is not writable
keeps its write bit, and any other page is in the stack or in a listed range. -/
theorem protectEntry_granted (e : Word) (hu : protectEntry boot s p e &&& PTE_U ≠ 0) :
    (∃ seg ∈ boot.segments, seg.writable = false ∧ pageVa p ≥ seg.sStart ∧ pageVa p < seg.sEnd ∧
      protectEntry boot s p e &&& PTE_W = e &&& PTE_W) ∨
    (pageVa p ≥ s.stStack ∧ pageVa p < s.stStack + STACK_SIZE) ∨
    ∃ w ∈ s.stSc.scMem.toList, w ≠ 0 ∧
      (pageVa p ≥ w &&& 0xfffffffffffffff0 ∧ pageVa p < (w &&& 0xfffffffffffffff0) + TAG_SIZE) ∧
      (protectEntry boot s p e &&& PTE_W ≠ 0 → w &&& PROT_WRITE.setWidth 64 ≠ 0) := by
  have hclear : e &&& ~~~PTE_U &&& PTE_U = 0 := Words.and_not_and_self e PTE_U
  have hkeep : e &&& ~~~PTE_U &&& PTE_W = e &&& PTE_W := Words.and_not_and_of_disjoint rfl
  unfold protectEntry at hu ⊢
  dsimp only at hu ⊢
  split at hu
  · rename_i seg hseg
    have hmem := List.mem_of_find?_eq_some hseg
    have hin := List.find?_some hseg
    simp only [Bool.and_eq_true,decide_eq_true_eq] at hin
    split_ifs at hu with hw
    · exact absurd hclear hu
    · refine .inl ⟨seg,hmem,by simpa using hw,hin.1,hin.2,?_⟩
      simp only [hw,if_false,Bool.false_eq_true]
      rw [setU_and_W,hkeep]
  · rcases protectTags_granted _ _ _ hu with hu | h
    · split_ifs at hu with hstack
      · exact .inr (.inl hstack)
      · exact absurd hclear hu
    · exact .inr (.inr h)

theorem protectTags_and {mask : Word} (hU : PTE_U &&& mask = 0) (hW : PTE_W &&& mask = 0)
    (addr e : Word) (ws : List Word) : protectTags addr e ws &&& mask = e &&& mask := by
  induction ws with
  | nil => rfl
  | cons w rest ih =>
    simp only [protectTags]
    split_ifs
    · rfl
    · rw [Words.and_not_and_of_disjoint hW,Words.or_and_of_disjoint hU]
    · rw [Words.or_and_of_disjoint hU]
    · exact ih

theorem protectEntry_and {mask : Word} (hU : PTE_U &&& mask = 0) (hW : PTE_W &&& mask = 0)
    (e : Word) : protectEntry boot s p e &&& mask = e &&& mask := by
  have hclear : e &&& ~~~PTE_U &&& mask = e &&& mask := Words.and_not_and_of_disjoint hU
  unfold protectEntry
  dsimp only
  split
  · split_ifs
    · exact hclear
    · rw [Words.or_and_of_disjoint hU,hclear]
  · rw [protectTags_and hU hW]
    split_ifs
    · rw [Words.or_and_of_disjoint hU,hclear]
    · exact hclear

theorem protect_leaf {t : LeafTable Word} {start stop : Word} {e' : Word}
    (h : (p,e') ∈ (pageWalk t start stop (walkProtect boot s) ()).2.1.leaves) :
    ∃ e, (p,e) ∈ t.leaves ∧ e' = if inWalk start stop p e then protectEntry boot s p e else e := by
  rw [pageWalk,LeafTable.walk_leaves,LeafTable.visit_map (f := protectEntry boot s)
    (fun _ _ _ => rfl) (fun _ _ _ => rfl)] at h
  obtain ⟨⟨q,e⟩,he,heq⟩ := List.mem_map.mp h
  obtain ⟨rfl,rfl⟩ := Prod.mk.inj heq
  exact ⟨e,he,rfl⟩

end Protect

/-- The frame of a user address is found at that address in the host. -/
def Boot.RoundTrip (boot : Boot) : Prop :=
  ∀ a : Word, a.toNat % 4096 = 0 → a.toNat < 2^47 → hostOf boot (boot.vaToPa a) = a

theorem pteAddr_page {a : Word} (ha : a.toNat % 4096 = 0) (hlow : a.toNat < 2^52) :
    pteAddr a = a := by
  have hsplit : pteAddr a = Words.alignDown 12 (Words.lowBits 52 a) := by
    rw [Words.alignDown,Words.lowBits,BitVec.and_assoc]
    rfl
  refine BitVec.eq_of_toNat_eq ?_
  rw [hsplit,Words.alignDown_toNat (by omega),Words.lowBits_toNat (by omega)]
  omega

theorem roundTrip_of_flat {boot : Boot} (hid : boot.vaToPa = id) (hflat : boot.duneBoot = false) :
    boot.RoundTrip := by
  intro a ha hlow
  have hframe : pteAddr (boot.vaToPa a) = a := by
    rw [hid]
    exact pteAddr_page (a := a) ha (by omega)
  rw [hostOf,hframe,hostAddr,hflat]
  exact if_neg (by simp)

section Remap
variable {boot : Boot} {s : Sthread}

def segmentPages (segs : List Segment) : ℕ := (segs.map fun seg => seg.sLen.toNat / 4096).sum

theorem segmentPages_cons (seg : Segment) (rest : List Segment) :
    segmentPages (seg::rest) = seg.sLen.toNat / 4096 + segmentPages rest := List.sum_cons

/-- The entry for page number `o` of the private copy. -/
def remapEntry (boot : Boot) (s : Sthread) (o : ℕ) : Word :=
  boot.vaToPa (s.stWritable + BitVec.ofNat 64 (4096*o)) ||| PTE_P ||| PTE_W ||| PTE_U

def nextPage (w : Word) : Word := w + 4096

theorem walkRemap_rc (w : Word) (p : ℕ) (e : Word) : (walkRemap boot s w p e).1 = 0 := rfl

theorem walkRemap_entry (w : Word) (p : ℕ) (e : Word) : (walkRemap boot s w p e).2.1 =
    boot.vaToPa (s.stWritable + w) ||| PTE_P ||| PTE_W ||| PTE_U := rfl

theorem walkRemap_next (w : Word) (p : ℕ) (e : Word) :
    (walkRemap boot s w p e).2.2 = nextPage w := rfl

theorem iterate_page (n : ℕ) (w : Word) :
    nextPage^[n] w = w + BitVec.ofNat 64 (4096*n) := by
  induction n with
  | zero => simp
  | succ n ih =>
    rw [Function.iterate_succ_apply',ih,nextPage,Nat.mul_succ,BitVec.ofNat_add,BitVec.add_assoc]
    rfl

theorem ofNat_page_add (m n : ℕ) : BitVec.ofNat 64 (4096*m) + BitVec.ofNat 64 (4096*n) =
    BitVec.ofNat 64 (4096*(m+n)) := by
  rw [← BitVec.ofNat_add,Nat.mul_add]

theorem remap_segment_state (boot : Boot) (s : Sthread) (seg : Segment) (t : LeafTable Word) (n : ℕ) :
    (pageWalk t seg.sStart (seg.sEnd - 4096) (walkRemap boot s) (BitVec.ofNat 64 (4096*n))).2.2 =
      BitVec.ofNat 64 (4096*(n +
        (LeafTable.selected (inWalk seg.sStart (seg.sEnd - 4096)) t.leaves).length)) := by
  rw [pageWalk,LeafTable.walk_state,LeafTable.visit_counter walkRemap_rc walkRemap_next,
    iterate_page,ofNat_page_add]

theorem Segment.WellFormed.selected_le {seg : Segment} (hwf : seg.WellFormed) (t : LeafTable Word) :
    (LeafTable.selected (inWalk seg.sStart (seg.sEnd - 4096)) t.leaves).length ≤
      seg.sLen.toNat / 4096 := by
  refine (LeafTable.length_selected_le t.sorted fun p e => hwf.inWalk_pages).trans ?_
  have := hwf.start
  have := hwf.stop
  have := hwf.len
  omega

/-- The second pass over one segment, entered with `n` pages already placed, maps
its pages to pages of the copy and leaves the others alone. -/
theorem remap_segment_leaf (seg : Segment) (t : LeafTable Word) (n : ℕ) {p : ℕ} {e' : Word}
    (h : (p,e') ∈ (pageWalk t seg.sStart (seg.sEnd - 4096) (walkRemap boot s)
      (BitVec.ofNat 64 (4096*n))).2.1.leaves) :
    ∃ e, (p,e) ∈ t.leaves ∧ ((inWalk seg.sStart (seg.sEnd - 4096) p e = false ∧ e' = e) ∨
      (inWalk seg.sStart (seg.sEnd - 4096) p e = true ∧ e' = remapEntry boot s
        (n + LeafTable.rank (inWalk seg.sStart (seg.sEnd - 4096)) t.leaves p))) := by
  obtain ⟨e,he,heq⟩ := LeafTable.mem_visit_counter walkRemap_rc walkRemap_entry
    walkRemap_next _ t.sorted h
  refine ⟨e,he,?_⟩
  cases hw : inWalk seg.sStart (seg.sEnd - 4096) p e with
  | false =>
    rw [hw] at heq
    exact .inl ⟨rfl,heq⟩
  | true => exact .inr ⟨rfl,heq.trans (by rw [if_pos hw,iterate_page,ofNat_page_add]; rfl)⟩

theorem segment_rank_lt {seg : Segment} (hwf : seg.WellFormed) (t : LeafTable Word) {p : ℕ} {e : Word}
    (hw : inWalk seg.sStart (seg.sEnd - 4096) p e = true) :
    LeafTable.rank (inWalk seg.sStart (seg.sEnd - 4096)) t.leaves p < seg.sLen.toNat / 4096 := by
  have hrank : LeafTable.rank (inWalk seg.sStart (seg.sEnd - 4096)) t.leaves p ≤
      p - seg.sStart.toNat / 4096 := LeafTable.rank_le t.sorted fun p e => hwf.inWalk_pages
  have hp := hwf.inWalk_pages hw
  have := hwf.start
  have := hwf.stop
  have := hwf.len
  omega

/-- The second pass over all writable segments. A leaf is either outside every
segment and unchanged, or maps a page of the copy. -/
theorem remap_leaf {segs : List Segment} (hwf : ∀ seg ∈ segs, seg.WellFormed) (t : LeafTable Word)
    (n : ℕ) {p : ℕ} {e' : Word}
    (h : (p,e') ∈ (segs.foldl (fun x seg => (pageWalk x.1 seg.sStart (seg.sEnd - 4096)
      (walkRemap boot s) x.2).2) (t,BitVec.ofNat 64 (4096*n))).1.leaves) :
    ∃ e, (p,e) ∈ t.leaves ∧
      ((e' = e ∧ ∀ seg ∈ segs, inWalk seg.sStart (seg.sEnd - 4096) p e = false) ∨
      ((∃ seg ∈ segs, PageIn p seg.span) ∧
        ∃ o, o < n + segmentPages segs ∧ e' = remapEntry boot s o)) := by
  induction segs generalizing t n with
  | nil => exact ⟨e',h,.inl ⟨rfl,by simp⟩⟩
  | cons seg rest ih =>
    have hseg := hwf seg List.mem_cons_self
    have hpages := segmentPages_cons seg rest
    have hk := hseg.selected_le t
    have hstate := remap_segment_state boot s seg t n
    rw [List.foldl_cons,← Prod.mk.eta (p := (pageWalk _ _ _ _ _).2),hstate] at h
    obtain ⟨e₁,he₁,hrest⟩ := ih (fun x hx => hwf x (List.mem_cons_of_mem _ hx)) _ _ h
    obtain ⟨e,he,hfirst⟩ := remap_segment_leaf seg t n he₁
    refine ⟨e,he,?_⟩
    rcases hrest with ⟨rfl,hout⟩ | ⟨⟨x,hx,hin⟩,o,ho,hmap⟩
    · rcases hfirst with ⟨hw,rfl⟩ | ⟨hw,hmap⟩
      · refine .inl ⟨rfl,fun x hx => ?_⟩
        rcases List.mem_cons.mp hx with rfl | hx
        · exact hw
        · exact hout x hx
      · have hlt := segment_rank_lt hseg t hw
        exact .inr ⟨⟨seg,List.mem_cons_self,hseg.pageIn_of_inWalk hw⟩,_,by omega,hmap⟩
    · exact .inr ⟨⟨x,List.mem_cons_of_mem _ hx,hin⟩,o,by omega,hmap⟩

theorem segmentPages_le (segs : List Segment) :
    4096 * segmentPages segs ≤ (segs.map fun seg => seg.sLen.toNat).sum := by
  induction segs with
  | nil => exact le_rfl
  | cons seg rest ih =>
    simp only [segmentPages,List.map_cons,List.sum_cons] at ih ⊢
    omega

theorem remapEntry_pteAddr (o : ℕ) : pteAddr (remapEntry boot s o) =
    pteAddr (boot.vaToPa (s.stWritable + BitVec.ofNat 64 (4096*o))) := by
  unfold pteAddr remapEntry
  rw [Words.or_and_of_disjoint rfl,Words.or_and_of_disjoint rfl,Words.or_and_of_disjoint rfl]

theorem remapEntry_mapsPage {o : ℕ} (halign : s.stWritable.toNat % 4096 = 0)
    (hroom : s.stWritable.toNat + boot.copySize ≤ 2^64) (ho : 4096*(o+1) ≤ boot.copySize) :
    MapsPage boot (remapEntry boot s o) (s.writableSpan boot) := by
  have hsmall : (BitVec.ofNat 64 (4096*o)).toNat = 4096*o := by
    rw [BitVec.toNat_ofNat,Nat.mod_eq_of_lt (by omega)]
  have haddr : (s.stWritable + BitVec.ofNat 64 (4096*o)).toNat = s.stWritable.toNat + 4096*o := by
    rw [Words.add_toNat_exact (by omega),hsmall]
  refine ⟨s.stWritable + BitVec.ofNat 64 (4096*o),by omega,?_,remapEntry_pteAddr o⟩
  simp only [Span.Inside,Span.stop,Sthread.writableSpan,haddr]
  omega

theorem MapsPage.holds {e : Word} {x : Span} (h : MapsPage boot e x) (hround : boot.RoundTrip)
    (hlow : x.stop ≤ 2^47) : HoldsPage boot e x := by
  obtain ⟨a,halign,hin,hframe⟩ := h
  have hstop : a.toNat + 4096 ≤ x.stop := hin.2
  have hhost : hostOf boot e = a := by
    rw [hostOf,hframe]
    exact hround a halign (by omega)
  rw [HoldsPage,hhost]
  exact ⟨halign,hin⟩

end Remap

/-- The master's table as creation needs it: the full walk covers it, and pages of
segments that are not writable have the write bit clear. -/
def masterTable (boot : Boot) (pgroot : LeafTable Word) : Bool :=
  pgroot.leaves.all fun x => boot.vaStart.toNat / 4096 ≤ x.1 && x.1 ≤ boot.vaEnd.toNat / 4096 &&
    boot.segments.all fun seg => seg.writable || !(PageIn x.1 seg.span) || x.2 &&& PTE_W == 0

/-- Present pages of the table are mapped to themselves. -/
def mirrored (boot : Boot) (t : LeafTable Word) : Bool :=
  t.leaves.all fun x => x.2 &&& PTE_P == 0 || hostOf boot x.2 == pageVa x.1

def Sc.Known (tags : List Tag) (sc : Sc) : Prop :=
  ∀ w ∈ sc.scMem.toList, w ≠ 0 → ∃ t ∈ tags, w &&& 0xfffffffffffffff0 = t.tBuf

section Fresh
variable {boot : Boot} {k : Kernel} {sc : Sc} {r : CreateReply} {id : CInt}

theorem masterTable_leaf {pg : LeafTable Word} (h : masterTable boot pg = true) {p : ℕ} {e : Word}
    (he : (p,e) ∈ pg.leaves) :
    boot.vaStart.toNat / 4096 ≤ p ∧ p ≤ boot.vaEnd.toNat / 4096 ∧
      ∀ seg ∈ boot.segments, seg.writable = false → PageIn p seg.span → e &&& PTE_W = 0 := by
  have hx := List.all_eq_true.mp h _ he
  simp only [Bool.and_eq_true,decide_eq_true_eq,List.all_eq_true,Bool.or_eq_true,
    Bool.not_eq_true',decide_eq_false_iff_not,beq_iff_eq] at hx
  obtain ⟨⟨hlo,hhi⟩,hsegs⟩ := hx
  refine ⟨hlo,hhi,fun seg hseg hro hin => ?_⟩
  rcases hsegs seg hseg with (hw | hout) | hclear
  · rw [hro] at hw
    cases hw
  · exact absurd hin hout
  · exact hclear

/-- The record before its table is built. -/
def blankSthread (k : Kernel) (sc : Sc) (r : CreateReply) (id : CInt) : Sthread where
  stId := id
  stState := .running
  stRet := 0
  stStack := r.stack
  stPgroot := r.pgroot
  table := k.pgroot
  stTf := {}
  stSc := sc
  stWritable := r.writable
  stWalk := 0

/-- Where a present leaf of a fresh table comes from. -/
theorem newSthread_leaf (hwf : ∀ seg ∈ boot.segments, seg.WellFormed)
    (hmaster : masterTable boot k.pgroot = true) {p : ℕ} {e : Word}
    (h : (p,e) ∈ (newSthread boot k sc r id).table.leaves) (hpresent : e &&& PTE_P ≠ 0) :
    (∃ e₀, (p,e₀) ∈ k.pgroot.leaves ∧ e = protectEntry boot (blankSthread k sc r id) p e₀) ∨
    ((∃ seg ∈ boot.segments.filter Segment.writable, PageIn p seg.span) ∧
      ∃ o, 4096*(o+1) ≤ checkpointTotal boot.segments ∧
        e = remapEntry boot (blankSthread k sc r id) o) := by
  have hwf' (seg : Segment) (hseg : seg ∈ boot.segments.filter Segment.writable) :
      seg.WellFormed := hwf seg (List.mem_filter.mp hseg).1
  obtain ⟨e₁,he₁,hcase⟩ := remap_leaf hwf' _ 0 h
  rcases hcase with ⟨rfl,-⟩ | ⟨⟨seg,hseg,hin⟩,o,ho,rfl⟩
  · obtain ⟨e₀,he₀,rfl⟩ := protect_leaf he₁
    obtain ⟨hlo,hhi,-⟩ := masterTable_leaf hmaster he₀
    refine .inl ⟨e₀,he₀,if_pos ?_⟩
    by_contra hout
    rw [if_neg hout] at hpresent
    simp only [inWalk,hlo,hhi,decide_true,Bool.true_and,bne_iff_ne,ne_eq,not_not] at hout
    exact hpresent hout
  · refine .inr ⟨⟨seg,hseg,hin⟩,o,?_,rfl⟩
    have hpages := segmentPages_le (boot.segments.filter Segment.writable)
    have htotal : checkpointTotal boot.segments =
      ((boot.segments.filter Segment.writable).map fun seg => seg.sLen.toNat).sum := rfl
    omega

/-- The table of a fresh thread grants what its policy allows. -/
theorem newSthread_granted (hwf : ∀ seg ∈ boot.segments, seg.WellFormed)
    (hsize : checkpointTotal boot.segments ≤ boot.copySize) (hmaster : masterTable boot k.pgroot = true)
    (hknown : sc.Known k.tags) (htags : ∀ t ∈ k.tags, t.tBuf.toNat % 4096 = 0)
    (hstack : r.stack.toNat % 4096 = 0) (hcopy : r.writable.toNat % 4096 = 0)
    (hroom : r.writable.toNat + boot.copySize ≤ 2^64) {p : ℕ} {e : Word}
    (h : (p,e) ∈ (newSthread boot k sc r id).table.leaves) (hpresent : e &&& PTE_P ≠ 0) :
    Granted boot k.tags (newSthread boot k sc r id) p e := by
  rcases newSthread_leaf hwf hmaster h hpresent with ⟨e₀,he₀,rfl⟩ | ⟨⟨seg,hseg,hin⟩,o,ho,rfl⟩
  · obtain ⟨-,hhi,hclear⟩ := masterTable_leaf hmaster he₀
    have hp : p < 2^52 := by
      have := boot.vaEnd.isLt
      omega
    have htag {w : Word} (hw : w ∈ sc.scMem.toList) (h0 : w ≠ 0)
        (hin : pageVa p ≥ w &&& 0xfffffffffffffff0 ∧
          pageVa p < (w &&& 0xfffffffffffffff0) + TAG_SIZE) :
        ∃ t ∈ k.tags, w &&& 0xfffffffffffffff0 = t.tBuf ∧ PageIn p t.span := by
      obtain ⟨t,ht,hbuf⟩ := hknown w hw h0
      rw [hbuf] at hin
      exact ⟨t,ht,hbuf,pageIn_of_test hp (htags t ht) rfl hin⟩
    refine ⟨fun hu => ?_,fun hu hwrite => ?_⟩
    · rcases protectEntry_granted e₀ hu with ⟨seg,hseg,-,hlo,hhi',-⟩ | hin | ⟨w,hw,h0,hin,-⟩
      · exact .inl ⟨seg,hseg,(hwf seg hseg).pageIn_of_addr hp hlo hhi'⟩
      · exact .inr (.inl (pageIn_of_test hp hstack rfl hin))
      · obtain ⟨t,ht,hbuf,hpage⟩ := htag hw h0 hin
        exact .inr (.inr ⟨t,ht,⟨w,hw,h0,hbuf⟩,hpage⟩)
    · rcases protectEntry_granted e₀ hu with ⟨seg,hseg,hro,hlo,hhi',hkeep⟩ | hin | ⟨w,hw,h0,hin,hprot⟩
      · rw [hkeep] at hwrite
        exact absurd (hclear seg hseg hro ((hwf seg hseg).pageIn_of_addr hp hlo hhi')) hwrite
      · exact .inr (.inl (pageIn_of_test hp hstack rfl hin))
      · obtain ⟨t,ht,hbuf,hpage⟩ := htag hw h0 hin
        exact .inr (.inr ⟨t,ht,⟨w,hw,h0,hbuf,hprot hwrite⟩,hpage⟩)
  · exact ⟨fun _ => .inl ⟨seg,(List.mem_filter.mp hseg).1,hin⟩,
      fun _ _ => .inl (remapEntry_mapsPage hcopy hroom (by omega))⟩

theorem newSthread_cloned (hwf : ∀ seg ∈ boot.segments, seg.WellFormed)
    (hsize : checkpointTotal boot.segments ≤ boot.copySize) (hmaster : masterTable boot k.pgroot = true)
    (hcopy : r.writable.toNat % 4096 = 0) (hroom : r.writable.toNat + boot.copySize ≤ 2^64) :
    (newSthread boot k sc r id).Cloned boot k.pgroot := by
  intro p e he hpresent
  rcases newSthread_leaf hwf hmaster he hpresent with ⟨e₀,he₀,rfl⟩ | ⟨-,o,ho,rfl⟩
  · have hkeep : protectEntry boot (blankSthread k sc r id) p e₀ &&& PTE_P = e₀ &&& PTE_P :=
      protectEntry_and rfl rfl e₀
    exact .inr ⟨e₀,he₀,hkeep ▸ hpresent,protectEntry_and rfl rfl e₀⟩
  · have hmaps : MapsPage boot (remapEntry boot (blankSthread k sc r id) o)
        ((blankSthread k sc r id).writableSpan boot) :=
      remapEntry_mapsPage hcopy hroom (by omega)
    exact .inl hmaps

/-- Where the table that was cloned maps pages to themselves, so does the thread's, but for
the pages of its copy. -/
theorem Sthread.Cloned.framed {s : Sthread} {pg : LeafTable Word} (h : s.Cloned boot pg)
    (hround : boot.RoundTrip) (hmaster : masterTable boot pg = true) (hmirror : mirrored boot pg = true)
    (hlow : s.stWritable.toNat + boot.copySize ≤ 2^47) {p : ℕ} {e : Word}
    (he : (p,e) ∈ s.table.leaves) (hpresent : e &&& PTE_P ≠ 0) :
    HoldsPage boot e (s.writableSpan boot) ∨ HoldsOwn boot p e := by
  rcases h p e he hpresent with hmaps | ⟨e₀,he₀,hp₀,hframe⟩
  · exact .inl (hmaps.holds hround hlow)
  · obtain ⟨-,hhi,-⟩ := masterTable_leaf hmaster he₀
    have := boot.vaEnd.isLt
    have hself := List.all_eq_true.mp hmirror _ he₀
    simp only [Bool.or_eq_true,beq_iff_eq] at hself
    have hhost : hostOf boot e = pageVa p := by
      rw [hostOf,hframe]
      exact hself.resolve_left hp₀
    exact .inr (by rw [HoldsOwn,hhost,pageVa_toNat (by omega)])

end Fresh

end Sthreads
end VmplApps

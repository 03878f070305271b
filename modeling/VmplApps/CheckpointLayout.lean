import VmplApps.CheckpointSize

/-! One layout for the checkpoint and the private copies. `checkpoint_do` goes by a pointer
that moves on by the length of a segment, `walk_remap` and `walk_recycle` by a counter that
moves on by a page with every callback. Where all pages are mapped, the three name the same
offset for a page: its position among the pages of the writable segments. -/
namespace VmplApps
namespace Sthreads

open ByteMemory

def Boot.WritablePage (boot : Boot) (p : ℕ) : Prop := ∃ seg ∈ boot.writableSegments, PageIn p seg.span

/-- The checkpoint, the table of a new thread and the recycling of a thread place the writable
pages at the same offsets, and these fill the buffers. -/
structure LayoutAgrees (boot : Boot) (k : Kernel) (sc : Sc) (r : CreateReply) (id : CInt)
    (s : Sthread) (m : Mem) (off : ℕ → ℕ) : Prop where
  copied : ∀ p, boot.WritablePage p → (∃ x ∈ checkpointCopies 0 boot.segments, PageIn p x.2.span) ∧
    ∀ x ∈ checkpointCopies 0 boot.segments, PageIn p x.2.span →
      x.1 + (p*4096 - x.2.sStart.toNat) = off p
  stored : (∀ seg ∈ boot.writableSegments, boot.checkpointSpan.Apart seg.span) → ∀ p,
    boot.WritablePage p → ∀ i < 4096, checkpointDo boot.segments boot.checkpointedMem.toNat m
      (boot.checkpointedMem.toNat + off p + i) = m (p*4096 + i)
  mapped : ∀ p, boot.WritablePage p → (newSthread boot k sc r id).table.get? p =
    some (boot.vaToPa (r.writable + BitVec.ofNat 64 (off p)) ||| PTE_P ||| PTE_W ||| PTE_U)
  restored : ∀ p, boot.WritablePage p → ∀ w,
    (p,w) ∈ recycleLog boot s m ↔ w = BitVec.ofNat 64 (off p)
  recycled : s.stWritable.toNat + boot.copySize ≤ 2^64 →
    boot.checkpointedMem.toNat + boot.copySize ≤ 2^64 →
    (s.writableSpan boot).Apart boot.checkpointSpan → ∀ p e, boot.WritablePage p →
    s.table.get? p = some e → e &&& PTE_D ≠ 0 → ∀ i < 4096,
      (walkWritable boot (walkRecycle boot s) s.table (0,m)).2.2 (s.stWritable.toNat + off p + i) =
        m (boot.checkpointedMem.toNat + off p + i)
  distinct : ∀ p q, boot.WritablePage p → boot.WritablePage q → off p = off q → p = q
  cover : ∀ o, o < boot.copySize ↔ ∃ p, boot.WritablePage p ∧ off p ≤ o ∧ o < off p + 4096

section Pages
variable {segs : List Segment} {p n i : ℕ}

theorem Segment.WellFormed.mem_walkedPages {seg : Segment} (h : seg.WellFormed) :
    p ∈ seg.walkedPages ↔ PageIn p seg.span := by
  rw [h.pageIn_iff,Segment.walkedPages,walked_wellFormed h,List.mem_range'_1]

theorem Segment.WellFormed.length_walkedPages {seg : Segment} (h : seg.WellFormed) :
    seg.walkedPages.length = seg.pages := by
  rw [Segment.walkedPages,List.length_range',walked_wellFormed h]

theorem mem_pages (hwf : ∀ seg ∈ segs, seg.WellFormed) :
    p ∈ segs.flatMap Segment.walkedPages ↔ ∃ seg ∈ segs, PageIn p seg.span := by
  rw [List.mem_flatMap]
  exact exists_congr fun seg => and_congr_right fun h => (hwf seg h).mem_walkedPages

theorem nodup_pages (hwf : ∀ seg ∈ segs, seg.WellFormed)
    (hapart : segs.Pairwise fun x y => x.span.Apart y.span) :
    (segs.flatMap Segment.walkedPages).Nodup := by
  refine List.nodup_flatMap.mpr ⟨fun seg _ => List.nodup_range',?_⟩
  refine hapart.imp_of_mem fun {x y} hx hy hxy p hpx hpy => ?_
  exact not_pageIn_of_apart hxy ((hwf x hx).mem_walkedPages.mp hpx) ((hwf y hy).mem_walkedPages.mp hpy)

theorem length_pages (hwf : ∀ seg ∈ segs, seg.WellFormed) :
    (segs.flatMap Segment.walkedPages).length = segmentPages segs := by
  rw [List.length_flatMap,segmentPages]
  refine congrArg List.sum (List.map_congr_left fun seg h => ?_)
  exact (hwf seg h).length_walkedPages

theorem slotOf_of_getElem? (hwf : ∀ seg ∈ segs, seg.WellFormed)
    (h : (segs.flatMap Segment.walkedPages)[i]? = some p) : SlotOf segs n p (n+i) := by
  induction segs generalizing n i with
  | nil => cases h
  | cons seg rest ih =>
    have hlen := (hwf seg List.mem_cons_self).length_walkedPages
    rw [List.flatMap_cons] at h
    by_cases hi : i < seg.pages
    · rw [List.getElem?_append_left (hlen ▸ hi)] at h
      obtain ⟨hlt,hp⟩ := List.getElem?_eq_some_iff.mp h
      simp only [Segment.walkedPages,List.getElem_range'] at hp
      exact .inl ⟨by omega,by omega,by omega⟩
    · rw [List.getElem?_append_right (by omega),hlen] at h
      have hslot := ih (n := n + seg.pages) (fun x hx => hwf x (List.mem_cons_of_mem _ hx)) h
      rw [Nat.add_assoc,Nat.add_sub_cancel' (by omega : seg.pages ≤ i)] at hslot
      exact .inr hslot

end Pages

section Copies
variable {segs : List Segment} {p o : ℕ} {x : ℕ × Segment}

theorem copied_at (hwf : ∀ seg ∈ segs, seg.WellFormed) (hx : x ∈ checkpointCopies o segs)
    (hin : PageIn p x.2.span) : ∃ i,
      ((segs.filter Segment.writable).flatMap Segment.walkedPages)[i]? = some p ∧
      x.1 + (p*4096 - x.2.sStart.toNat) = o + 4096*i := by
  induction segs generalizing o with
  | nil => cases hx
  | cons seg rest ih =>
    have hseg := hwf seg List.mem_cons_self
    have hrest (y : Segment) (hy : y ∈ rest) := hwf y (List.mem_cons_of_mem _ hy)
    rw [checkpointCopies] at hx
    split_ifs at hx with hw
    · have hlen := hseg.length_walkedPages
      rw [List.filter_cons_of_pos hw,List.flatMap_cons]
      have hstart := hseg.start
      rcases List.mem_cons.mp hx with rfl | hx
      · obtain ⟨hlo,hhi⟩ := hseg.pageIn_iff.mp hin
        refine ⟨p - seg.firstPage,?_,?_⟩
        · rw [List.getElem?_append_left (by omega),Segment.walkedPages,
            List.getElem?_range' (by rw [walked_wellFormed hseg]; omega)]
          exact congrArg some (by omega)
        · simp only [Segment.firstPage] at hlo ⊢
          omega
      · obtain ⟨i,hi,hoff⟩ := ih hrest hx
        refine ⟨seg.pages + i,?_,?_⟩
        · rw [List.getElem?_append_right (by omega),hlen,Nat.add_sub_cancel_left]
          exact hi
        · rw [hoff,← hseg.pages_mul,Nat.mul_add,Nat.add_assoc]
    · rw [List.filter_cons_of_neg hw]
      exact ih hrest hx

theorem checkpointCopies_segments (o : ℕ) (segs : List Segment) :
    (checkpointCopies o segs).map Prod.snd = segs.filter Segment.writable := by
  induction segs generalizing o with
  | nil => rfl
  | cons seg rest ih =>
    rw [checkpointCopies]
    split_ifs with hw
    · rw [List.map_cons,ih,List.filter_cons_of_pos hw]
    · rw [ih,List.filter_cons_of_neg hw]

theorem mem_of_checkpointCopies (h : x ∈ checkpointCopies o segs) :
    x.2 ∈ segs.filter Segment.writable :=
  checkpointCopies_segments o segs ▸ List.mem_map_of_mem h

theorem checkpointDo_before (segs : List Segment) {c a : ℕ} (h : a < c) (m : Mem) :
    checkpointDo segs c m a = m a := by
  induction segs generalizing c m with
  | nil => rfl
  | cons seg rest ih =>
    rw [checkpointDo_cons]
    split_ifs
    · rw [ih (by omega),copy_out (by omega)]
    · exact ih h m

/-- Every copy has the bytes that its segment had before the first of them, since none writes
to a segment. -/
theorem checkpointDo_stored {c : ℕ} (hwf : ∀ seg ∈ segs, seg.WellFormed) (m : Mem)
    (hapart : ∀ seg ∈ segs.filter Segment.writable, Span.Apart ⟨c+o,checkpointTotal segs⟩ seg.span)
    (hx : x ∈ checkpointCopies o segs) {j : ℕ} (hj : j < x.2.sLen.toNat) :
    checkpointDo segs (c+o) m (c + x.1 + j) = m (x.2.sStart.toNat + j) := by
  induction segs generalizing o m with
  | nil => cases hx
  | cons seg rest ih =>
    have hrest (y : Segment) (hy : y ∈ rest) := hwf y (List.mem_cons_of_mem _ hy)
    rw [checkpointDo_cons]
    rw [checkpointCopies] at hx
    rw [checkpointTotal_cons] at hapart
    split_ifs at hx hapart ⊢ with hw
    · rw [List.filter_cons_of_pos hw] at hapart
      rcases List.mem_cons.mp hx with rfl | hx
      · rw [checkpointDo_before rest (by dsimp only at hj ⊢; omega),copy,if_pos (by dsimp only at hj ⊢; omega)]
        exact congrArg m (by dsimp only; omega)
      · have hmem := mem_of_checkpointCopies hx
        have haway := hapart x.2 (List.mem_cons_of_mem _ hmem)
        have hlen := (hrest x.2 (List.mem_filter.mp hmem).1).len
        rw [Nat.add_assoc c,ih hrest _ (fun y hy => ?_) hx,copy_out]
        · simp only [Span.Apart,Span.stop,Segment.span] at haway
          omega
        · have hy := hapart y (List.mem_cons_of_mem _ hy)
          simp only [Span.Apart,Span.stop] at hy ⊢
          omega
    · rw [List.filter_cons_of_neg hw] at hapart
      exact ih hrest m hapart hx

theorem page_stored {c : ℕ} (hwf : ∀ seg ∈ segs, seg.WellFormed) (m : Mem)
    (hapart : ∀ seg ∈ segs.filter Segment.writable, Span.Apart ⟨c,checkpointTotal segs⟩ seg.span)
    (hx : x ∈ checkpointCopies 0 segs) (hin : PageIn p x.2.span) {i : ℕ} (hi : i < 4096) :
    checkpointDo segs c m (c + (x.1 + (p*4096 - x.2.sStart.toNat)) + i) = m (p*4096 + i) := by
  have hlen := (hwf x.2 (List.mem_filter.mp (mem_of_checkpointCopies hx)).1).len
  simp only [PageIn,Span.Inside,page,Span.stop,Segment.span] at hin
  have hbyte := checkpointDo_stored (o := 0) (c := c) hwf m hapart hx
    (by omega : p*4096 - x.2.sStart.toNat + i < x.2.sLen.toNat)
  rw [Nat.add_zero] at hbyte
  rw [← Nat.add_assoc c,Nat.add_assoc _ _ i,hbyte]
  exact congrArg m (by omega)

end Copies

section Agrees
variable {boot : Boot} {k : Kernel} {sc : Sc} {r : CreateReply} {id : CInt} {s : Sthread} {p i : ℕ}

def Boot.writablePages (boot : Boot) : List ℕ := boot.writableSegments.flatMap Segment.walkedPages

/-- The offset of a page: its position among the pages of the writable segments. -/
def Boot.pageOff (boot : Boot) (p : ℕ) : ℕ := 4096 * boot.writablePages.idxOf p

theorem pageOff_eq (hnodup : boot.writablePages.Nodup) (h : boot.writablePages[i]? = some p) :
    boot.pageOff p = 4096*i := by
  obtain ⟨hi,rfl⟩ := List.getElem?_eq_some_iff.mp h
  rw [Boot.pageOff,hnodup.idxOf_getElem i hi]

theorem copySize_of_total (hsize : boot.checkpointedSize = checkpointSize boot.segments)
    (htotal : checkpointTotal boot.segments < 2^31) :
    boot.copySize = checkpointTotal boot.segments := by
  rw [Boot.copySize,hsize]
  exact (widened_eq_iff (by omega)).mpr (.inl htotal)

theorem exists_copied (hp : boot.WritablePage p) :
    ∃ x ∈ checkpointCopies 0 boot.segments, PageIn p x.2.span := by
  obtain ⟨seg,hseg,hin⟩ := hp
  rw [Boot.writableSegments,← checkpointCopies_segments 0] at hseg
  obtain ⟨x,hx,rfl⟩ := List.mem_map.mp hseg
  exact ⟨x,hx,hin⟩

section Writable
variable (hwf : ∀ seg ∈ boot.writableSegments, seg.WellFormed)
include hwf

theorem getElem?_writablePages (hp : boot.WritablePage p) :
    boot.writablePages[boot.writablePages.idxOf p]? = some p :=
  List.getElem?_idxOf ((mem_pages hwf).mpr hp)

theorem writablePage_of_getElem? (h : boot.writablePages[i]? = some p) : boot.WritablePage p :=
  (mem_pages hwf).mp (List.mem_of_getElem? h)

theorem slotOf_of_position (h : boot.writablePages[i]? = some p) :
    SlotOf boot.writableSegments 0 p i := by
  have hslot := slotOf_of_getElem? (n := 0) hwf h
  rwa [Nat.zero_add] at hslot

theorem length_writablePages : 4096 * boot.writablePages.length = checkpointTotal boot.segments := by
  rw [Boot.writablePages,length_pages hwf,segmentPages_mul _ hwf]
  rfl

theorem pageOff_inj {q : ℕ} (hp : boot.WritablePage p) (h : boot.pageOff p = boot.pageOff q) : p = q := by
  have hidx : boot.writablePages.idxOf p = boot.writablePages.idxOf q :=
    Nat.eq_of_mul_eq_mul_left (by decide) h
  exact (List.idxOf_inj ((mem_pages hwf).mpr hp)).mp hidx

theorem newSthread_get? (hapart : boot.writableSegments.Pairwise fun x y => x.span.Apart y.span)
    (hcov : ∀ seg ∈ boot.writableSegments, Covers k.pgroot seg.firstPage seg.pages)
    (h : boot.writablePages[i]? = some p) :
    (newSthread boot k sc r id).table.get? p = some (remapEntry boot (blankSthread k sc r id) i) := by
  obtain ⟨seg,hseg,hin⟩ := writablePage_of_getElem? hwf h
  obtain ⟨hlo,hhi⟩ := (hwf seg hseg).pageIn_iff.mp hin
  obtain ⟨e,he,-⟩ := newSthread_covers (hcov seg hseg) p hlo hhi
  have hmap : e = remapEntry boot (blankSthread k sc r id) i :=
    remap_slot hwf hapart (fun seg hseg => protect_covers (hcov seg hseg)) (slotOf_of_position hwf h) he
  exact hmap ▸ LeafTable.mem_leaves.mp he

/-- `walk_recycle` is called for every page, in the order of the positions. -/
theorem recycleLog_covered (htable : ∀ seg ∈ boot.writableSegments,
    Covers s.table seg.firstPage seg.pages) (m : Mem) :
    recycleLog boot s m = numbered boot.writablePages := by
  obtain ⟨ps,hlog,-,hall⟩ := recycleLog_eq boot s m
  rw [hlog,hall fun seg hseg => (walked_wellFormed (hwf seg hseg)).symm ▸ htable seg hseg]
  rfl

theorem page_restored (hapart : boot.writableSegments.Pairwise fun x y => x.span.Apart y.span)
    (htable : ∀ seg ∈ boot.writableSegments, Covers s.table seg.firstPage seg.pages)
    (hsize : 4096 * segmentPages boot.writableSegments = boot.copySize)
    (hw : s.stWritable.toNat + boot.copySize ≤ 2^64)
    (hc : boot.checkpointedMem.toNat + boot.copySize ≤ 2^64)
    (hck : (s.writableSpan boot).Apart boot.checkpointSpan) (m : Mem) {e : Word}
    (h : boot.writablePages[i]? = some p) (he : s.table.get? p = some e) (hd : e &&& PTE_D ≠ 0)
    {j : ℕ} (hj : j < 4096) :
    (walkWritable boot (walkRecycle boot s) s.table (0,m)).2.2 (s.stWritable.toNat + 4096*i + j) =
      m (boot.checkpointedMem.toNat + 4096*i + j) := by
  obtain ⟨-,-,hdone⟩ := fold_restores hwf hapart walkRecycle_rc walkRecycle_dirtyOnly
    (walkRecycle_restores m hw hc hsize.le hck) htable (Nat.zero_add _).le (x := (0,m))
    ⟨rfl,fun _ _ => rfl,fun _ _ => .inl rfl⟩
  have hbyte := hdone p i e (slotOf_of_position hwf h) (LeafTable.mem_leaves.mpr he) hd (4096*i + j)
    (by omega) (by omega)
  rw [Nat.add_assoc,Nat.add_assoc]
  exact hbyte

theorem numbered_iff (hnodup : boot.writablePages.Nodup) (hp : boot.WritablePage p) {w : Word} :
    (p,w) ∈ numbered boot.writablePages ↔ w = BitVec.ofNat 64 (boot.pageOff p) := by
  rw [mem_numbered]
  constructor
  · rintro ⟨i,hi,rfl⟩
    rw [pageOff_eq hnodup hi]
    rfl
  · rintro rfl
    exact ⟨_,getElem?_writablePages hwf hp,rfl⟩

theorem pageOff_cover (hnodup : boot.writablePages.Nodup) (o : ℕ) :
    o < checkpointTotal boot.segments ↔
      ∃ p, boot.WritablePage p ∧ boot.pageOff p ≤ o ∧ o < boot.pageOff p + 4096 := by
  rw [← length_writablePages hwf]
  constructor
  · intro ho
    have hi := List.getElem?_eq_getElem (by omega : o / 4096 < boot.writablePages.length)
    refine ⟨_,writablePage_of_getElem? hwf hi,?_⟩
    rw [pageOff_eq hnodup hi]
    omega
  · rintro ⟨p,hp,hlo,hhi⟩
    have hlt : boot.writablePages.idxOf p < boot.writablePages.length :=
      List.idxOf_lt_length_iff.mpr ((mem_pages hwf).mpr hp)
    rw [Boot.pageOff] at hhi
    omega

end Writable

/-- The checkpoint, the tables and the recycling of threads agree on the layout. -/
theorem layout_agrees (hsize : boot.checkpointedSize = checkpointSize boot.segments)
    (hwf : ∀ seg ∈ boot.segments, seg.WellFormed)
    (hapart : boot.segments.Pairwise fun x y => x.span.Apart y.span)
    (htotal : checkpointTotal boot.segments < 2^31)
    (hpgroot : ∀ seg ∈ boot.writableSegments, Covers k.pgroot seg.firstPage seg.pages)
    (htable : ∀ seg ∈ boot.writableSegments, Covers s.table seg.firstPage seg.pages) (m : Mem) :
    LayoutAgrees boot k sc r id s m boot.pageOff := by
  have hcopy := copySize_of_total hsize htotal
  have hwritable (seg : Segment) (h : seg ∈ boot.writableSegments) : seg.WellFormed :=
    hwf seg (List.mem_filter.mp h).1
  have hnodup : boot.writablePages.Nodup := nodup_pages hwritable (hapart.filter _)
  have hcopied (p : ℕ) (x : ℕ × Segment) (hx : x ∈ checkpointCopies 0 boot.segments)
      (hin : PageIn p x.2.span) : x.1 + (p*4096 - x.2.sStart.toNat) = boot.pageOff p := by
    obtain ⟨i,hi,hoff⟩ := copied_at hwf hx hin
    rw [hoff,pageOff_eq hnodup hi,Nat.zero_add]
  constructor
  case copied => exact fun p hp => ⟨exists_copied hp,hcopied p⟩
  case stored =>
    intro haway p hp i hi
    obtain ⟨x,hx,hin⟩ := exists_copied hp
    rw [Boot.checkpointSpan,hcopy] at haway
    rw [← hcopied p x hx hin]
    exact page_stored hwf m haway hx hin hi
  case mapped =>
    intro p hp
    exact newSthread_get? hwritable (hapart.filter _) hpgroot (getElem?_writablePages hwritable hp)
  case restored =>
    intro p hp w
    rw [recycleLog_covered hwritable htable m]
    exact numbered_iff hwritable hnodup hp
  case recycled =>
    intro hw hc hck p e hp he hd i hi
    refine page_restored hwritable (hapart.filter _) htable ?_ hw hc hck m
      (getElem?_writablePages hwritable hp) he hd hi
    rw [hcopy]
    exact segmentPages_mul _ hwritable
  case distinct => exact fun p q hp _ heq => pageOff_inj hwritable hp heq
  case cover =>
    rw [hcopy]
    exact pageOff_cover hwritable hnodup

end Agrees

section Interleaved

def interleavedBoot : Boot := {flatBoot with segments := mixedSegments,checkpointedSize := 0x3000}

def interleavedKernel : Kernel where
  sthreads := []
  ksCurrent := none
  sthreadId := 0
  tags := []
  tagId := 0
  cr3 := 0x1000000
  entry := {}
  pgroot := ⟨[(0x400,0x400007),(0x401,0x401007),(0x402,0x402005),(0x500,0x500007)],by simp⟩
  mem := fun _ => 0

/-- The page of the second writable segment follows those of the first. -/
theorem layout_agrees_interleaved :
    let r : CreateReply := ⟨0x22000000,0x23000000,0x2000000⟩
    let s := newSthread interleavedBoot interleavedKernel scInit r 1
    LayoutAgrees interleavedBoot interleavedKernel scInit r 1 s (fun _ => 0) interleavedBoot.pageOff ∧
    interleavedBoot.pageOff 0x401 = 0x1000 ∧ interleavedBoot.pageOff 0x500 = 0x2000 := by
  have hcov : ∀ seg ∈ interleavedBoot.writableSegments,
      Covers interleavedKernel.pgroot seg.firstPage seg.pages := by
    have hlist : interleavedBoot.writableSegments =
      [⟨0x400000,0x402000,0x2000,3⟩,⟨0x500000,0x501000,0x1000,3⟩] := by decide
    intro seg hseg p hlo hhi
    simp only [hlist,List.mem_cons,List.not_mem_nil,or_false] at hseg
    rcases hseg with rfl | rfl <;>
      simp only [Segment.firstPage,Segment.pages,BitVec.reduceToNat,Nat.reduceDiv,Nat.reduceAdd] at hlo hhi
    · obtain rfl | rfl : p = 0x400 ∨ p = 0x401 := by omega
      · exact ⟨0x400007,by decide,by decide⟩
      · exact ⟨0x401007,by decide,by decide⟩
    · obtain rfl : p = 0x500 := by omega
      exact ⟨0x500007,by decide,by decide⟩
  refine ⟨layout_agrees (by decide) mixedSegments_wellFormed ?_ (by decide) hcov
    (fun seg hseg => newSthread_covers (hcov seg hseg)) _,by decide,by decide⟩
  simp [interleavedBoot,mixedSegments,Span.Apart,Span.stop,Segment.span]

end Interleaved

end Sthreads
end VmplApps

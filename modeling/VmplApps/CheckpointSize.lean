import VmplApps.MemoryMaps
import VmplApps.SthreadRecycle

/-! The buffers that hold the checkpoint: `_checkpointed_mem` and the `st_writable` of each
thread. Their length is the sum of the writable lengths in a signed `int`, widened again where
it is passed on, while the copies and the page walks go by the lengths and addresses of the
segments. Both agree exactly when the sum does not leave the `int`. -/
namespace VmplApps
namespace Sthreads

open ByteMemory

/-- The calls of `memcpy` in `checkpoint_do`: the offset in the checkpoint and the segment. -/
def checkpointCopies : ℕ → List Segment → List (ℕ × Segment)
  | _, [] => []
  | o, seg::rest =>
    if seg.writable then (o,seg)::checkpointCopies (o + seg.sLen.toNat) rest
    else checkpointCopies o rest

/-- The calls of a callback in the walks over the writable segments: the page, and `st_walk`
when the callback is entered. -/
def walkLog {σ : Type} (boot : Boot) (stWalk : σ → Word) (cb : σ → ℕ → Word → ℤ × Word × σ)
    (t : LeafTable Word) (s : σ) : List (ℕ × Word) :=
  (walkWritable boot (LeafTable.noted stWalk cb) t (s,[])).2.2

def remapLog (boot : Boot) (s : Sthread) (t : LeafTable Word) : List (ℕ × Word) :=
  walkLog boot id (walkRemap boot s) t 0

def recycleLog (boot : Boot) (s : Sthread) (m : Mem) : List (ℕ × Word) :=
  walkLog boot Prod.fst (walkRecycle boot s) s.table (0,m)

/-- How many pages the walk over a segment has, from the page of its start to that of its
last address, both included. -/
def Segment.walked (seg : Segment) : ℕ :=
  (seg.sEnd - 4096).toNat / 4096 + 1 - seg.sStart.toNat / 4096

def Segment.walkedPages (seg : Segment) : List ℕ := List.range' seg.firstPage seg.walked

/-- The lengths that are passed to `mmap` and `memcpy` are the exact sum, and neither the
copies of `checkpoint_do` nor the callbacks of the page walks go past it, whatever the page
tables map. -/
structure BufferHolds (boot : Boot) : Prop where
  prepared : ((checkpointSize boot.segments).signExtend 64).toNat = checkpointTotal boot.segments
  mapped : boot.copySize = checkpointTotal boot.segments
  copies : ∀ x ∈ checkpointCopies 0 boot.segments, x.1 + x.2.sLen.toNat ≤ boot.copySize
  remaps : ∀ s t, ∀ x ∈ remapLog boot s t, x.2.toNat + 4096 ≤ boot.copySize
  recycles : ∀ s m, ∀ x ∈ recycleLog boot s m, x.2.toNat + 4096 ≤ boot.copySize

/-- The sum is that of the `int`, or so close to `2^64` that it reads as a negative one, and
the pages that the walks can meet are not more than the bytes of the segments. -/
def CheckpointFits (segs : List Segment) : Prop :=
  (checkpointTotal segs < 2^31 ∨ 2^64 - 2^31 ≤ checkpointTotal segs) ∧
    4096 * ((segs.filter Segment.writable).map Segment.walked).sum ≤ checkpointTotal segs

section Copies
variable {segs : List Segment}

theorem checkpointTotal_cons (seg : Segment) (rest : List Segment) : checkpointTotal (seg::rest) =
    if seg.writable then seg.sLen.toNat + checkpointTotal rest else checkpointTotal rest := by
  simp only [checkpointTotal]
  cases hw : seg.writable <;> simp [hw]

theorem checkpointDo_cons (seg : Segment) (rest : List Segment) (c : ℕ) (m : Mem) :
    checkpointDo (seg::rest) c m = if seg.writable then
      checkpointDo rest (c + seg.sLen.toNat) (copy m c seg.sStart.toNat seg.sLen.toNat)
    else checkpointDo rest c m := by
  simp only [checkpointDo]
  cases hw : seg.writable <;> simp [hw]

/-- `checkpoint_do` makes these copies, one after the other. -/
theorem checkpointDo_eq (segs : List Segment) (c o : ℕ) (m : Mem) :
    checkpointDo segs (c+o) m = (checkpointCopies o segs).foldl
      (fun m x => copy m (c + x.1) x.2.sStart.toNat x.2.sLen.toNat) m := by
  induction segs generalizing o m with
  | nil => rfl
  | cons seg rest ih =>
    rw [checkpointCopies,checkpointDo_cons]
    split_ifs with hw
    · rw [List.foldl_cons,← ih,Nat.add_assoc]
    · exact ih o m

theorem checkpointCopies_le {o : ℕ} {x : ℕ × Segment} (h : x ∈ checkpointCopies o segs) :
    x.1 + x.2.sLen.toNat ≤ o + checkpointTotal segs := by
  induction segs generalizing o with
  | nil => cases h
  | cons seg rest ih =>
    rw [checkpointCopies] at h
    rw [checkpointTotal_cons]
    split_ifs at h ⊢ with hw
    · rcases List.mem_cons.mp h with rfl | h
      · dsimp only
        omega
      · have := ih h
        omega
    · exact ih h

theorem checkpointSize_toNat (segs : List Segment) :
    (checkpointSize segs).toNat = checkpointTotal segs % 2^32 := by
  rw [checkpointSize,checkpointSum_toNat,checkpointTotal]
  simp

theorem widened_eq_iff (htotal : checkpointTotal segs < 2^64) :
    ((checkpointSize segs).signExtend 64).toNat = checkpointTotal segs ↔
      checkpointTotal segs < 2^31 ∨ 2^64 - 2^31 ≤ checkpointTotal segs := by
  have hsize := checkpointSize_toNat segs
  rcases Words.signExtend_toNat_cases (checkpointSize segs) with ⟨hsmall,heq⟩ | ⟨hlarge,heq⟩ <;>
    omega

end Copies

def walkSegments {σ : Type} (cb : σ → ℕ → Word → ℤ × Word × σ) (segs : List Segment)
    (x : LeafTable Word × σ) : LeafTable Word × σ :=
  segs.foldl (fun x seg => (pageWalk x.1 seg.sStart (seg.sEnd - 4096) cb x.2).2) x

def pageOffset (k : ℕ) : Word := BitVec.ofNat 64 (4096*k)

section Walks
variable {σ : Type} (stWalk : σ → Word) (cb : σ → ℕ → Word → ℤ × Word × σ)

theorem walkSegments_cons (seg : Segment) (rest : List Segment) (t : LeafTable Word) (s : σ) :
    walkSegments cb (seg::rest) (t,s) =
      walkSegments cb rest (pageWalk t seg.sStart (seg.sEnd - 4096) cb s).2 := rfl

theorem pageWalk_noted (t : LeafTable Word) (start stop : Word) (s : σ) (log : List (ℕ × Word)) :
    (pageWalk t start stop (LeafTable.noted stWalk cb) (s,log)).2 =
      ((pageWalk t start stop cb s).2.1,(pageWalk t start stop cb s).2.2,
        (pageWalk t start stop (LeafTable.noted stWalk cb) (s,log)).2.2.2) := by
  obtain ⟨-,hleaves,hstate⟩ := LeafTable.visit_noted (inWalk start stop) stWalk cb s log t.leaves
  exact Prod.ext (LeafTable.ext hleaves) (Prod.ext hstate rfl)

theorem walkSegments_noted (segs : List Segment) (t : LeafTable Word) (s : σ)
    (log : List (ℕ × Word)) :
    (walkSegments (LeafTable.noted stWalk cb) segs (t,s,log)).1 = (walkSegments cb segs (t,s)).1 ∧
    (walkSegments (LeafTable.noted stWalk cb) segs (t,s,log)).2.1 = (walkSegments cb segs (t,s)).2 := by
  induction segs generalizing t s log with
  | nil => exact ⟨rfl,rfl⟩
  | cons seg rest ih =>
    rw [walkSegments_cons,walkSegments_cons,pageWalk_noted]
    apply ih

theorem Segment.selected_walked (seg : Segment) (t : LeafTable Word) :
    (LeafTable.selected (inWalk seg.sStart (seg.sEnd - 4096)) t.leaves).length ≤ seg.walked :=
  LeafTable.length_selected_le t.sorted fun _ _ hw => (inWalk_iff.mp hw).1

theorem Segment.selected_walkedPages {seg : Segment} {t : LeafTable Word}
    (h : Covers t seg.firstPage seg.walked) :
    (LeafTable.selected (inWalk seg.sStart (seg.sEnd - 4096)) t.leaves).map Prod.fst =
      seg.walkedPages := by
  refine LeafTable.selected_pages_eq t.sorted (fun _ _ hw => (inWalk_iff.mp hw).1)
    fun p hlo hhi => ?_
  obtain ⟨e,he,hp⟩ := h p hlo (by rw [Segment.firstPage,Segment.walked]; omega)
  exact ⟨e,he,inWalk_iff.mpr ⟨⟨hlo,hhi⟩,hp⟩⟩

variable {stWalk cb}

/-- A walk over segments calls its callback with one offset after the other, for no more pages
than the segments have, and for all of them when they are present. -/
theorem walkSegments_log (h0 : ∀ s p e, (cb s p e).1 = 0)
    (hnext : ∀ s p e, stWalk (cb s p e).2.2 = stWalk s + 4096)
    (hkeep : ∀ s p e, e &&& PTE_P ≠ 0 → (cb s p e).2.1 &&& PTE_P ≠ 0) (segs : List Segment)
    (t : LeafTable Word) {n : ℕ} {s : σ} (hs : stWalk s = pageOffset n) (log : List (ℕ × Word)) :
    ∃ ps, (walkSegments (LeafTable.noted stWalk cb) segs (t,s,log)).2.2 =
        log ++ (ps.zipIdx n).map (fun x => (x.1,pageOffset x.2)) ∧
      ps.length ≤ (segs.map Segment.walked).sum ∧
      ((∀ seg ∈ segs, Covers t seg.firstPage seg.walked) → ps = segs.flatMap Segment.walkedPages) := by
  induction segs generalizing t n s log with
  | nil => exact ⟨[],by simp [walkSegments],Nat.zero_le _,fun _ => rfl⟩
  | cons seg rest ih =>
    have hf (n : ℕ) (s : σ) (p : ℕ) (e : Word) (h : stWalk s = pageOffset n) :
        stWalk (cb s p e).2.2 = pageOffset (n+1) := by
      rw [hnext,h]
      exact next_offset n
    obtain ⟨hlog,hstate⟩ := LeafTable.visit_noted_log (inWalk seg.sStart (seg.sEnd - 4096)) h0 hf hs
      log t.leaves
    have hle := seg.selected_walked t
    obtain ⟨ps,hrest,hcount,hall⟩ := ih (pageWalk t seg.sStart (seg.sEnd - 4096)
      (LeafTable.noted stWalk cb) (s,log)).2.1 hstate (LeafTable.visit
        (inWalk seg.sStart (seg.sEnd - 4096)) (LeafTable.noted stWalk cb) (s,log) t.leaves).2.2.2
    refine ⟨(LeafTable.selected (inWalk seg.sStart (seg.sEnd - 4096)) t.leaves).map Prod.fst ++ ps,
      ?_,?_,fun hcov => ?_⟩
    · rw [walkSegments_cons]
      refine hrest.trans ?_
      rw [hlog,List.zipIdx_append,List.map_append,List.append_assoc,
        List.length_map]
    · rw [List.length_append,List.length_map,List.map_cons,List.sum_cons]
      omega
    · rw [List.flatMap_cons,Segment.selected_walkedPages (hcov seg List.mem_cons_self),hall]
      intro x hx
      refine (hcov x (List.mem_cons_of_mem _ hx)).related
        (LeafTable.related_walk (fun _ h => h) (fun y p e h => ?_) t _) fun _ _ h => h
      exact hkeep y.1 p e h

end Walks

def numbered (ps : List ℕ) : List (ℕ × Word) := ps.zipIdx.map fun x => (x.1,pageOffset x.2)

section Logs
variable {ps : List ℕ} {size : ℕ}

theorem mem_numbered {x : ℕ × Word} : x ∈ numbered ps ↔ ∃ i, ps[i]? = some x.1 ∧ x.2 = pageOffset i := by
  rw [numbered,List.mem_map]
  constructor
  · rintro ⟨⟨p,i⟩,hmem,rfl⟩
    exact ⟨i,List.mk_mem_zipIdx_iff_getElem?.mp hmem,rfl⟩
  · rintro ⟨i,hp,hoff⟩
    exact ⟨(x.1,i),List.mk_mem_zipIdx_iff_getElem?.mpr hp,Prod.ext rfl hoff.symm⟩

theorem pageOffset_toNat {k : ℕ} (h : 4096*k < 2^64) : (pageOffset k).toNat = 4096*k := by
  rw [pageOffset,BitVec.toNat_ofNat,Nat.mod_eq_of_lt h]

theorem numbered_within_iff (hsize : size < 2^64) :
    (∀ x ∈ numbered ps, x.2.toNat + 4096 ≤ size) ↔ 4096*ps.length ≤ size := by
  constructor
  · intro h
    by_contra hlong
    -- the call for the page at the end of the buffer
    have hlt : size / 4096 < ps.length := by omega
    have hin := h (ps[size / 4096],pageOffset (size / 4096))
      (mem_numbered.mpr ⟨size / 4096,List.getElem?_eq_getElem hlt,rfl⟩)
    rw [pageOffset_toNat (by omega)] at hin
    omega
  · intro h x hx
    obtain ⟨i,hi,hoff⟩ := mem_numbered.mp hx
    have hlt := (List.getElem?_eq_some_iff.mp hi).1
    rw [hoff,pageOffset_toNat (by omega)]
    omega

end Logs

section Holds
variable {boot : Boot}

theorem remapLog_eq (boot : Boot) (s : Sthread) (t : LeafTable Word) :
    ∃ ps, remapLog boot s t = numbered ps ∧
      ps.length ≤ (boot.writableSegments.map Segment.walked).sum ∧
      ((∀ seg ∈ boot.writableSegments, Covers t seg.firstPage seg.walked) →
        ps = boot.writableSegments.flatMap Segment.walkedPages) :=
  walkSegments_log walkRemap_rc walkRemap_next (fun w p e _ => walkRemap_present boot s w p e)
    boot.writableSegments t rfl []

theorem recycleLog_eq (boot : Boot) (s : Sthread) (m : Mem) :
    ∃ ps, recycleLog boot s m = numbered ps ∧
      ps.length ≤ (boot.writableSegments.map Segment.walked).sum ∧
      ((∀ seg ∈ boot.writableSegments, Covers s.table seg.firstPage seg.walked) →
        ps = boot.writableSegments.flatMap Segment.walkedPages) := by
  refine walkSegments_log walkRecycle_rc (fun x p e => ?_) (fun x p e hp => ?_)
    boot.writableSegments s.table rfl []
  · obtain ⟨w,m⟩ := x
    simp only [walkRecycle]
    split_ifs <;> rfl
  · have hP : (walkRecycle boot s x p e).2.1 &&& PTE_P = e &&& PTE_P :=
      (walkRecycle_dirtyOnly x p e).and_eq rfl
    rwa [hP]

theorem exists_covers (n : ℕ) : ∃ t : LeafTable Word, ∀ lo k, lo + k ≤ n → Covers t lo k := by
  refine ⟨⟨(List.range n).map fun p => (p,PTE_P),?_⟩,fun lo k hle p hlo hhi => ?_⟩
  · rw [List.map_map]
    exact (List.map_id _).symm ▸ List.pairwise_lt_range
  · exact ⟨PTE_P,List.mem_map.mpr ⟨p,List.mem_range.mpr (by omega),rfl⟩,by decide⟩

theorem Segment.walked_le (seg : Segment) : seg.firstPage + seg.walked ≤ 2^52 := by
  have hstart := seg.sStart.isLt
  have hend := (seg.sEnd - 4096).isLt
  rw [Segment.firstPage,Segment.walked]
  omega

/-- With a table that maps everything, the walks meet all pages of the segments. -/
theorem exists_remapLog (boot : Boot) (s : Sthread) : ∃ t ps, remapLog boot s t = numbered ps ∧
    ps.length = (boot.writableSegments.map Segment.walked).sum := by
  obtain ⟨t,ht⟩ := exists_covers (2^52)
  obtain ⟨ps,hlog,-,hall⟩ := remapLog_eq boot s t
  refine ⟨t,ps,hlog,?_⟩
  rw [hall fun seg _ => ht _ _ seg.walked_le,List.length_flatMap]
  simp only [Segment.walkedPages,List.length_range']

/-- The buffers hold the checkpoint exactly when the sum of the lengths keeps its value in an
`int` and the segments are as long as the pages that the walks meet. -/
theorem buffer_holds_iff (hsize : boot.checkpointedSize = checkpointSize boot.segments)
    (htotal : checkpointTotal boot.segments < 2^64) :
    BufferHolds boot ↔ CheckpointFits boot.segments := by
  have hcopy : boot.copySize = ((checkpointSize boot.segments).signExtend 64).toNat := by
    rw [Boot.copySize,hsize]
  have hlt : boot.copySize < 2^64 := BitVec.isLt _
  constructor
  · intro h
    refine ⟨(widened_eq_iff htotal).mp h.prepared,?_⟩
    let s : Sthread := ⟨0,.dead,0,0,0,⟨[],.nil⟩,{},scInit,0,0⟩
    obtain ⟨t,ps,hlog,hcount⟩ := exists_remapLog boot s
    have hwithin := h.remaps s t
    rw [hlog,numbered_within_iff hlt,hcount,h.mapped] at hwithin
    exact hwithin
  · rintro ⟨hint,hwalks⟩
    have hprepared := (widened_eq_iff htotal).mpr hint
    rw [← hcopy.trans hprepared] at hwalks
    refine ⟨hprepared,hcopy.trans hprepared,fun x hx => ?_,fun s t => ?_,fun s m => ?_⟩
    · rw [hcopy,hprepared]
      exact (checkpointCopies_le hx).trans (Nat.zero_add _).le
    · obtain ⟨ps,hlog,hle,-⟩ := remapLog_eq boot s t
      rw [hlog,numbered_within_iff hlt]
      exact (Nat.mul_le_mul_left _ hle).trans hwalks
    · obtain ⟨ps,hlog,hle,-⟩ := recycleLog_eq boot s m
      rw [hlog,numbered_within_iff hlt]
      exact (Nat.mul_le_mul_left _ hle).trans hwalks

theorem walked_wellFormed {seg : Segment} (h : seg.WellFormed) : seg.walked = seg.pages := by
  have hstop := h.walk_stop
  rw [Segment.walked]
  omega

/-- For the segments of a memory map, only the sum is in question. -/
theorem fits_iff_of_wellFormed {segs : List Segment} (hwf : ∀ seg ∈ segs, seg.WellFormed) :
    CheckpointFits segs ↔ checkpointTotal segs < 2^31 ∨ 2^64 - 2^31 ≤ checkpointTotal segs := by
  have hwritable (seg : Segment) (h : seg ∈ segs.filter Segment.writable) : seg.WellFormed :=
    hwf seg (List.mem_filter.mp h).1
  have hwalked : (segs.filter Segment.writable).map Segment.walked =
      (segs.filter Segment.writable).map fun seg => seg.sLen.toNat / 4096 :=
    List.map_congr_left fun seg h => walked_wellFormed (hwritable seg h)
  have hbytes := segmentPages_mul _ hwritable
  rw [CheckpointFits,hwalked]
  exact and_iff_left hbytes.le

end Holds

section Large

/-- A segment of one page and more than four GiB. -/
def largeSegment : Segment := ⟨0x10000000,0x110001000,0x100001000,3⟩

def largeMaps : List Char := "10000000-110001000 rw-p 00000000 00:00 0 \n".toList

/-- What is left of it in the `int` is one page. -/
def largeBoot : Boot := {flatBoot with
  segments := [largeSegment],checkpointedMem := 0x200000000,checkpointedSize := 0x1000}

/-- Two writable segments with one between them that is only read. -/
def mixedSegments : List Segment :=
  [⟨0x400000,0x402000,0x2000,3⟩,⟨0x402000,0x403000,0x1000,1⟩,⟨0x500000,0x501000,0x1000,3⟩]

theorem mixedSegments_wellFormed : ∀ seg ∈ mixedSegments, seg.WellFormed := by
  intro seg hseg
  simp only [mixedSegments,List.mem_cons,List.not_mem_nil,or_false] at hseg
  rcases hseg with rfl | rfl | rfl <;> exact ⟨by decide,by decide,by decide,by decide⟩

/-- The buffers hold the three pages that are written. -/
theorem buffer_holds_iff_mixedSegments :
    BufferHolds {flatBoot with segments := mixedSegments,checkpointedSize := 0x3000} :=
  (buffer_holds_iff (by decide) (by decide)).mpr
    ((fits_iff_of_wellFormed mixedSegments_wellFormed).mpr (.inl (by decide)))

/-- A line of the memory map is recorded, one page is mapped for it, and `checkpoint_do`
copies the four GiB there. -/
theorem large_overruns :
    checkpointPrepare (fun _ => ' ') (fun _ => 0x200000000) 8191 (some largeMaps) =
      .returned largeBoot.segments largeBoot.checkpointedMem largeBoot.checkpointedSize ∧
    largeSegment.WellFormed ∧ checkpointTotal largeBoot.segments < 2^47 ∧
    checkpointCopies 0 largeBoot.segments = [(0,largeSegment)] ∧
    largeBoot.copySize < largeSegment.sLen.toNat ∧ ¬BufferHolds largeBoot := by
  refine ⟨by decide +kernel,⟨by decide,by decide,by decide,by decide⟩,by decide,by decide,by decide,
    fun h => ?_⟩
  exact absurd h.mapped (by decide)

end Large

end Sthreads
end VmplApps

import VmplApps.SthreadBuffers
import VmplApps.SthreadIsolation

/-! Positions in the private memory. When every page of the walked ranges has a
present leaf, a walk meets page after page, so the offset it has reached names
the page: creation maps page `k` of the writable segments to page `k` of the copy,
and recycling finds that page again. -/
namespace VmplApps
namespace Sthreads

open ByteMemory

/-- Each of `n` pages from `lo` on has a present leaf. -/
def Covers (t : LeafTable Word) (lo n : ℕ) : Prop :=
  ∀ p, lo ≤ p → p < lo + n → ∃ e, (p,e) ∈ t.leaves ∧ e &&& PTE_P ≠ 0

def Segment.firstPage (seg : Segment) : ℕ := seg.sStart.toNat / 4096

def Segment.pages (seg : Segment) : ℕ := seg.sLen.toNat / 4096

/-- Page `p` of the segments has number `k` when counting starts at `n`. -/
def SlotOf : List Segment → ℕ → ℕ → ℕ → Prop
  | [], _, _, _ => False
  | seg::rest, n, p, k =>
    (seg.firstPage ≤ p ∧ p < seg.firstPage + seg.pages ∧ k = n + (p - seg.firstPage)) ∨
      SlotOf rest (n + seg.pages) p k

section Walks
variable {t t' : LeafTable Word} {start stop : Word} {p : ℕ} {e : Word}

theorem inWalk_iff : inWalk start stop p e = true ↔
    (start.toNat / 4096 ≤ p ∧ p < stop.toNat / 4096 + 1) ∧ e &&& PTE_P ≠ 0 := by
  simp only [inWalk,Bool.and_eq_true,decide_eq_true_eq,bne_iff_ne,Nat.lt_succ_iff]

theorem Covers.related {R : Word → Word → Prop} {lo n : ℕ} (h : Covers t lo n)
    (hr : LeafTable.Related R t t') (hR : ∀ e e', R e e' → e &&& PTE_P ≠ 0 → e' &&& PTE_P ≠ 0) :
    Covers t' lo n := by
  intro p hlo hhi
  obtain ⟨e,he,hp⟩ := h p hlo hhi
  obtain ⟨e',he',hee⟩ := hr.mem_left he
  exact ⟨e',he',hR e e' hee hp⟩

theorem Covers.dirtyOnly {lo n : ℕ} (h : Covers t lo n) (hr : LeafTable.Related DirtyOnly t t') :
    Covers t' lo n := by
  refine h.related hr fun e e' hd hp => ?_
  have hP : e' &&& PTE_P = e &&& PTE_P := hd.and_eq rfl
  rwa [hP]

theorem Covers.present {lo n : ℕ} (h : Covers t lo n) (hlo : lo ≤ p) (hhi : p < lo + n)
    (he : (p,e) ∈ t.leaves) : e &&& PTE_P ≠ 0 := by
  obtain ⟨e₁,he₁,hp⟩ := h p hlo hhi
  obtain rfl := Option.some.inj ((LeafTable.mem_leaves.mp he).symm.trans (LeafTable.mem_leaves.mp he₁))
  exact hp

theorem walk_all {n : ℕ} (hcov : Covers t (start.toNat / 4096) n)
    (hstop : stop.toNat / 4096 + 1 = start.toNat / 4096 + n) (p : ℕ) (hlo : start.toNat / 4096 ≤ p)
    (hhi : p < start.toNat / 4096 + n) : ∃ e, (p,e) ∈ t.leaves ∧ inWalk start stop p e = true := by
  obtain ⟨e,he,hp⟩ := hcov p hlo hhi
  exact ⟨e,he,inWalk_iff.mpr ⟨⟨hlo,hstop ▸ hhi⟩,hp⟩⟩

theorem walk_count {n : ℕ} (hcov : Covers t (start.toNat / 4096) n)
    (hstop : stop.toNat / 4096 + 1 = start.toNat / 4096 + n) :
    (LeafTable.selected (inWalk start stop) t.leaves).length = n := by
  have h := LeafTable.length_selected_eq t.sorted
    (fun _ _ hw => hstop ▸ (inWalk_iff.mp hw).1) (walk_all hcov hstop)
  rw [h,Nat.add_sub_cancel_left]

theorem walk_rank {n : ℕ} (hcov : Covers t (start.toNat / 4096) n)
    (hstop : stop.toNat / 4096 + 1 = start.toNat / 4096 + n) (hhi : p ≤ start.toNat / 4096 + n) :
    LeafTable.rank (inWalk start stop) t.leaves p = p - start.toNat / 4096 :=
  LeafTable.rank_eq t.sorted (fun _ _ hw => hstop ▸ (inWalk_iff.mp hw).1) (walk_all hcov hstop) hhi

theorem Segment.WellFormed.walk_stop {seg : Segment} (h : seg.WellFormed) :
    (seg.sEnd - 4096).toNat / 4096 + 1 = seg.sStart.toNat / 4096 + seg.pages := by
  rw [h.last_toNat,Segment.pages]
  have := h.start
  have := h.stop
  have := h.lt
  have := h.len
  omega

theorem Segment.WellFormed.pageIn_iff {seg : Segment} (h : seg.WellFormed) :
    PageIn p seg.span ↔ seg.firstPage ≤ p ∧ p < seg.firstPage + seg.pages := by
  have := h.start
  have := h.stop
  have := h.lt
  have := h.len
  simp only [PageIn,Span.Inside,page,Segment.span,Span.stop,Segment.firstPage,Segment.pages]
  omega

theorem Segment.WellFormed.pages_mul {seg : Segment} (h : seg.WellFormed) :
    4096 * seg.pages = seg.sLen.toNat := by
  have := h.start
  have := h.stop
  have := h.len
  rw [Segment.pages]
  omega

end Walks

section Slots
variable {segs : List Segment} {n p k : ℕ}

theorem SlotOf.bounds (h : SlotOf segs n p k) : n ≤ k ∧ k < n + segmentPages segs := by
  induction segs generalizing n with
  | nil => cases h
  | cons seg rest ih =>
    have hpages : segmentPages (seg::rest) = seg.pages + segmentPages rest := segmentPages_cons seg rest
    rcases h with ⟨hlo,hhi,rfl⟩ | h
    · omega
    · have := ih h
      omega

theorem SlotOf.pageIn (hwf : ∀ seg ∈ segs, seg.WellFormed) (h : SlotOf segs n p k) :
    ∃ seg ∈ segs, PageIn p seg.span := by
  induction segs generalizing n with
  | nil => cases h
  | cons seg rest ih =>
    rcases h with ⟨hlo,hhi,-⟩ | h
    · exact ⟨seg,List.mem_cons_self,(hwf seg List.mem_cons_self).pageIn_iff.mpr ⟨hlo,hhi⟩⟩
    · obtain ⟨x,hx,hin⟩ := ih (fun x hx => hwf x (List.mem_cons_of_mem _ hx)) h
      exact ⟨x,List.mem_cons_of_mem _ hx,hin⟩

theorem exists_slotOf (hwf : ∀ seg ∈ segs, seg.WellFormed) {seg : Segment} (hseg : seg ∈ segs)
    (hin : PageIn p seg.span) : ∃ k, SlotOf segs n p k := by
  induction segs generalizing n with
  | nil => cases hseg
  | cons x rest ih =>
    rcases List.mem_cons.mp hseg with rfl | hseg
    · obtain ⟨hlo,hhi⟩ := (hwf seg List.mem_cons_self).pageIn_iff.mp hin
      exact ⟨_,.inl ⟨hlo,hhi,rfl⟩⟩
    · obtain ⟨k,hk⟩ := ih (fun x hx => hwf x (List.mem_cons_of_mem _ hx)) hseg
      exact ⟨k,.inr hk⟩

theorem not_pageIn_of_apart {x y : Span} (h : x.Apart y) (hx : PageIn p x) : ¬PageIn p y := by
  intro hy
  simp only [PageIn,Span.Inside,page,Span.stop] at hx hy
  rcases h with h | h <;> simp only [Span.stop] at h <;> omega

theorem inWalk_of_slotOf_rest {seg : Segment} {rest : List Segment} {e : Word}
    (hwf : ∀ x ∈ seg::rest, x.WellFormed) (hapart : ∀ x ∈ rest, seg.span.Apart x.span)
    (h : SlotOf rest n p k) : inWalk seg.sStart (seg.sEnd - 4096) p e = false := by
  obtain ⟨x,hx,hin⟩ := h.pageIn fun x hx => hwf x (List.mem_cons_of_mem _ hx)
  by_contra hw
  have hseg := (hwf seg List.mem_cons_self).pageIn_of_inWalk (Bool.not_eq_false _ ▸ hw)
  exact not_pageIn_of_apart (hapart x hx) hseg hin

theorem walkRemap_present (boot : Boot) (s : Sthread) (w : Word) (p : ℕ) (e : Word) :
    (walkRemap boot s w p e).2.1 &&& PTE_P ≠ 0 := by
  have hP : (walkRemap boot s w p e).2.1 &&& PTE_P = PTE_P := by
    rw [walkRemap_entry,Words.or_and_of_disjoint rfl,Words.or_and_of_disjoint rfl]
    ext i
    simp only [BitVec.getElem_and,BitVec.getElem_or]
    cases PTE_P[i] <;> simp
  rw [hP]
  decide

/-- The second pass maps page number `k` of the segments to page `k` of the copy. -/
theorem remap_slot {boot : Boot} {s : Sthread} (hwf : ∀ seg ∈ segs, seg.WellFormed)
    (hapart : segs.Pairwise fun x y => x.span.Apart y.span) {t : LeafTable Word}
    (hcov : ∀ seg ∈ segs, Covers t seg.firstPage seg.pages) (hslot : SlotOf segs n p k) {e' : Word}
    (h : (p,e') ∈ (segs.foldl (fun x seg => (pageWalk x.1 seg.sStart (seg.sEnd - 4096)
      (walkRemap boot s) x.2).2) (t,BitVec.ofNat 64 (4096*n))).1.leaves) :
    e' = remapEntry boot s k := by
  induction segs generalizing t n with
  | nil => cases hslot
  | cons seg rest ih =>
    rw [List.pairwise_cons] at hapart
    have hseg := hwf seg List.mem_cons_self
    have hrest (x : Segment) (hx : x ∈ rest) := hwf x (List.mem_cons_of_mem _ hx)
    have hc := hcov seg List.mem_cons_self
    have hcount : (pageWalk t seg.sStart (seg.sEnd - 4096) (walkRemap boot s)
        (BitVec.ofNat 64 (4096*n))).2.2 = BitVec.ofNat 64 (4096*(n + seg.pages)) := by
      rw [remap_segment_state,walk_count hc hseg.walk_stop]
    rw [List.foldl_cons,← Prod.mk.eta (p := (pageWalk _ _ _ _ _).2),hcount] at h
    rcases hslot with ⟨hlo,hhi,rfl⟩ | hslot
    · obtain ⟨e₁,he₁,hlater⟩ := remap_leaf hrest _ _ h
      obtain ⟨e,he,hfirst⟩ := remap_segment_leaf seg t n he₁
      have hin := hseg.pageIn_iff.mpr ⟨hlo,hhi⟩
      have hw : inWalk seg.sStart (seg.sEnd - 4096) p e = true :=
        inWalk_iff.mpr ⟨⟨hlo,hseg.walk_stop ▸ hhi⟩,hc.present hlo hhi he⟩
      rcases hlater with ⟨rfl,-⟩ | ⟨⟨x,hx,hin'⟩,-⟩
      · rcases hfirst with ⟨hout,-⟩ | ⟨-,hmap⟩
        · rw [hw] at hout
          cases hout
        · rw [hmap,walk_rank hc hseg.walk_stop hhi.le]
          rfl
      · exact absurd hin' (not_pageIn_of_apart (hapart.1 x hx) hin)
    · refine ih hrest hapart.2 (fun x hx => ?_) hslot h
      exact (hcov x (List.mem_cons_of_mem _ hx)).related (LeafTable.related_walk (fun _ h => h)
        (fun w p e _ => walkRemap_present boot s w p e) t _) (fun _ _ h => h)

end Slots

def restorePage (base : ℕ) (ref : ℕ → Byte) (k : ℕ) (m : Mem) : Mem :=
  fun a => if base + 4096*k ≤ a ∧ a < base + 4096*k + 4096 then ref (a-base) else m a

def PageDone (base : ℕ) (ref : ℕ → Byte) (k : ℕ) (m : Mem) : Prop :=
  ∀ o, 4096*k ≤ o → o < 4096*(k+1) → m (base+o) = ref o

/-- The state of a restoring walk after `k` pages of a range of `pages` pages. -/
structure Restoring (base pages : ℕ) (ref : ℕ → Byte) (m₀ : Mem) (k : ℕ) (x : Word × Mem) : Prop where
  offset : x.1 = BitVec.ofNat 64 (4096*k)
  frame : ∀ a, a < base ∨ base + 4096*pages ≤ a → x.2 a = m₀ a
  bytes : ∀ o < 4096*pages, x.2 (base+o) = m₀ (base+o) ∨ x.2 (base+o) = ref o

/-- The callback restores the page it has reached when its entry is dirty. -/
def Restores (base pages : ℕ) (ref : ℕ → Byte) (m₀ : Mem)
    (cb : Word × Mem → ℕ → Word → ℤ × Word × (Word × Mem)) : Prop :=
  ∀ k x p e, k < pages → Restoring base pages ref m₀ k x →
    (cb x p e).2.2 = (BitVec.ofNat 64 (4096*(k+1)),
      if e &&& PTE_D = 0 then x.2 else restorePage base ref k x.2)

section Restoring
variable {base pages : ℕ} {ref : ℕ → Byte} {m₀ : Mem}
  {cb : Word × Mem → ℕ → Word → ℤ × Word × (Word × Mem)} {x : Word × Mem} {k j p : ℕ} {e : Word}

theorem restorePage_out {m : Mem} {a : ℕ} (h : a < base + 4096*k ∨ base + 4096*(k+1) ≤ a) :
    restorePage base ref k m a = m a := if_neg (by omega)

theorem restorePage_in {m : Mem} {o : ℕ} (hlo : 4096*k ≤ o) (hhi : o < 4096*(k+1)) :
    restorePage base ref k m (base+o) = ref o := by
  rw [restorePage,if_pos (by omega),Nat.add_sub_cancel_left]

theorem Restores.step (hcb : Restores base pages ref m₀ cb) (hk : k < pages)
    (h : Restoring base pages ref m₀ k x) (p : ℕ) (e : Word) :
    Restoring base pages ref m₀ (k+1) (cb x p e).2.2 := by
  rw [hcb k x p e hk h]
  refine ⟨rfl,fun a ha => ?_,fun o ho => ?_⟩
  · dsimp only
    split_ifs
    · exact h.frame a ha
    · rw [restorePage_out (by omega)]
      exact h.frame a ha
  · dsimp only
    split_ifs
    · exact h.bytes o ho
    · by_cases hin : 4096*k ≤ o ∧ o < 4096*(k+1)
      · exact .inr (restorePage_in hin.1 hin.2)
      · rw [restorePage_out (by omega)]
        exact h.bytes o ho

theorem Restores.keep (hcb : Restores base pages ref m₀ cb) (hk : k < pages)
    (h : Restoring base pages ref m₀ k x) (p : ℕ) (e : Word) (hd : PageDone base ref j x.2) :
    PageDone base ref j (cb x p e).2.2.2 := by
  rw [hcb k x p e hk h]
  intro o hlo hhi
  dsimp only
  split_ifs
  · exact hd o hlo hhi
  · by_cases hin : 4096*k ≤ o ∧ o < 4096*(k+1)
    · exact restorePage_in hin.1 hin.2
    · rw [restorePage_out (by omega)]
      exact hd o hlo hhi

theorem Restores.done (hcb : Restores base pages ref m₀ cb) (hk : k < pages)
    (h : Restoring base pages ref m₀ k x) (p : ℕ) (hdirty : e &&& PTE_D ≠ 0) :
    PageDone base ref k (cb x p e).2.2.2 := by
  rw [hcb k x p e hk h]
  intro o hlo hhi
  dsimp only
  rw [if_neg hdirty]
  exact restorePage_in hlo hhi

theorem walk_restores {t : LeafTable Word} {start stop : Word} {n : ℕ}
    (h0 : ∀ x p e, (cb x p e).1 = 0) (hcb : Restores base pages ref m₀ cb)
    (hcov : Covers t (start.toNat / 4096) n)
    (hstop : stop.toNat / 4096 + 1 = start.toNat / 4096 + n) (hroom : k + n ≤ pages)
    (h : Restoring base pages ref m₀ k x) :
    Restoring base pages ref m₀ (k+n) (pageWalk t start stop cb x).2.2 ∧
    (∀ j, PageDone base ref j x.2 → PageDone base ref j (pageWalk t start stop cb x).2.2.2) ∧
    ∀ p e, start.toNat / 4096 ≤ p → p < start.toNat / 4096 + n → (p,e) ∈ t.leaves →
      e &&& PTE_D ≠ 0 →
      PageDone base ref (k + (p - start.toNat / 4096)) (pageWalk t start stop cb x).2.2.2 := by
  have hcount := walk_count hcov hstop
  have hN : k + (LeafTable.selected (inWalk start stop) t.leaves).length ≤ pages := by omega
  refine ⟨?_,fun j hj => ?_,fun p e hlo hhi he hdirty => ?_⟩
  · have hrun := LeafTable.visit_counted (J := Restoring base pages ref m₀) h0
      (fun n x p e hn _ hx => hcb.step hn hx p e) hN h
    rwa [hcount] at hrun
  · exact (LeafTable.visit_counted
      (J := fun n x => Restoring base pages ref m₀ n x ∧ PageDone base ref j x.2) h0
      (fun n x p e hn _ hx => ⟨hcb.step hn hx.1 p e,hcb.keep hn hx.1 p e hx.2⟩) hN ⟨h,hj⟩).2
  · have hw : inWalk start stop p e = true :=
      inWalk_iff.mpr ⟨⟨hlo,hstop ▸ hhi⟩,hcov.present hlo hhi he⟩
    refine LeafTable.visit_reaches (J := Restoring base pages ref m₀)
      (Q := fun x => PageDone base ref (k + (p - start.toNat / 4096)) x.2) h0
      (fun n x p e hn _ hx => hcb.step hn hx p e) (fun n x p e hn _ hx hq => hcb.keep hn hx p e hq)
      t.sorted hN he hw (fun y hy => ?_) h
    rw [walk_rank hcov hstop hhi.le] at hy
    exact hcb.done (by omega) hy p hdirty

theorem fold_restores {segs : List Segment} {n : ℕ} {t : LeafTable Word}
    (hwf : ∀ seg ∈ segs, seg.WellFormed) (hapart : segs.Pairwise fun x y => x.span.Apart y.span)
    (h0 : ∀ x p e, (cb x p e).1 = 0) (hdirty : ∀ x p e, DirtyOnly e (cb x p e).2.1)
    (hcb : Restores base pages ref m₀ cb) (hcov : ∀ seg ∈ segs, Covers t seg.firstPage seg.pages)
    (hroom : n + segmentPages segs ≤ pages) (h : Restoring base pages ref m₀ n x) :
    let r := segs.foldl (fun y seg => (pageWalk y.1 seg.sStart (seg.sEnd - 4096) cb y.2).2) (t,x)
    Restoring base pages ref m₀ (n + segmentPages segs) r.2 ∧
    (∀ j, PageDone base ref j x.2 → PageDone base ref j r.2.2) ∧
    ∀ p k e, SlotOf segs n p k → (p,e) ∈ t.leaves → e &&& PTE_D ≠ 0 → PageDone base ref k r.2.2 := by
  induction segs generalizing t n x with
  | nil => exact ⟨h,fun j hj => hj,fun p k e hslot => False.elim hslot⟩
  | cons seg rest ih =>
    rw [List.pairwise_cons] at hapart
    have hseg := hwf seg List.mem_cons_self
    have hpages : n + segmentPages (seg::rest) = n + seg.pages + segmentPages rest := by
      rw [segmentPages_cons,← Nat.add_assoc]
      rfl
    rw [hpages] at hroom ⊢
    obtain ⟨hrun,hkeep,hdone⟩ := walk_restores h0 hcb (hcov seg List.mem_cons_self) hseg.walk_stop
      (by omega) h
    have hcov' (y : Segment) (hy : y ∈ rest) := (hcov y (List.mem_cons_of_mem _ hy)).dirtyOnly
      (pageWalk_related hdirty t seg.sStart (seg.sEnd - 4096) x)
    obtain ⟨hrun',hkeep',hdone'⟩ := ih (fun y hy => hwf y (List.mem_cons_of_mem _ hy)) hapart.2
      hcov' hroom hrun
    refine ⟨hrun',fun j hj => hkeep' j (hkeep j hj),fun p k e hslot he hd => ?_⟩
    rcases hslot with ⟨hlo,hhi,rfl⟩ | hslot
    · exact hkeep' _ (hdone p e hlo hhi he hd)
    · refine hdone' p k e hslot ?_ hd
      exact LeafTable.mem_visit_other (inWalk_of_slotOf_rest hwf hapart.1 hslot) x he

end Restoring

section Recycle
variable {boot : Boot} {s : Sthread}

theorem walkRecycle_rc (x : Word × Mem) (p : ℕ) (e : Word) : (walkRecycle boot s x p e).1 = 0 := by
  obtain ⟨w,m⟩ := x
  simp only [walkRecycle]
  split_ifs <;> rfl

theorem walkRecycleStack_rc (x : Word × Mem) (p : ℕ) (e : Word) :
    (walkRecycleStack s x p e).1 = 0 := by
  obtain ⟨w,m⟩ := x
  simp only [walkRecycleStack]
  split_ifs <;> rfl

theorem next_offset (k : ℕ) : BitVec.ofNat 64 (4096*k) + 4096 = BitVec.ofNat 64 (4096*(k+1)) := by
  rw [Nat.mul_succ,BitVec.ofNat_add]
  rfl

theorem offset_toNat {a : Word} {k size : ℕ} (ha : a.toNat + size ≤ 2^64) (hk : 4096*(k+1) ≤ size) :
    (a + BitVec.ofNat 64 (4096*k)).toNat = a.toNat + 4096*k := by
  have hsmall : (BitVec.ofNat 64 (4096*k)).toNat = 4096*k := by
    rw [BitVec.toNat_ofNat,Nat.mod_eq_of_lt (by omega)]
  rw [Words.add_toNat_exact (by omega),hsmall]

theorem walkRecycle_restores {pages : ℕ} (m : Mem) (hw : s.stWritable.toNat + boot.copySize ≤ 2^64)
    (hc : boot.checkpointedMem.toNat + boot.copySize ≤ 2^64) (hpages : 4096*pages ≤ boot.copySize)
    (hapart : (s.writableSpan boot).Apart boot.checkpointSpan) :
    Restores s.stWritable.toNat pages (fun o => m (boot.checkpointedMem.toNat + o)) m
      (walkRecycle boot s) := by
  rintro k ⟨w,m'⟩ p e hk ⟨hoff,hframe,-⟩
  obtain rfl : w = BitVec.ofNat 64 (4096*k) := hoff
  simp only [walkRecycle,next_offset]
  split_ifs with hd
  · rfl
  · refine Prod.ext rfl (funext fun a => ?_)
    simp only [copy,restorePage,offset_toNat hw (by omega : 4096*(k+1) ≤ boot.copySize),
      offset_toNat hc (by omega : 4096*(k+1) ≤ boot.copySize)]
    refine ite_congr rfl (fun hin => ?_) fun _ => rfl
    have haddr : boot.checkpointedMem.toNat + 4096*k + (a - (s.stWritable.toNat + 4096*k)) =
        boot.checkpointedMem.toNat + (a - s.stWritable.toNat) := by omega
    rw [haddr]
    refine hframe _ ?_
    simp only [Span.Apart,Span.stop,Sthread.writableSpan,Boot.checkpointSpan] at hapart
    omega

theorem walkRecycleStack_restores (m : Mem) (hs : s.stStack.toNat + 40960 ≤ 2^64) :
    Restores s.stStack.toNat 10 (fun _ => 0) m (walkRecycleStack s) := by
  rintro k ⟨w,m'⟩ p e hk ⟨hoff,-,-⟩
  obtain rfl : w = BitVec.ofNat 64 (4096*k) := hoff
  simp only [walkRecycleStack,next_offset]
  split_ifs with hd
  · rfl
  · refine Prod.ext rfl (funext fun a => ?_)
    simp only [fill,restorePage,offset_toNat hs (by omega : 4096*(k+1) ≤ 40960)]

end Recycle

def Boot.writableSegments (boot : Boot) : List Segment := boot.segments.filter Segment.writable

/-- What the memory map and the runtime library provide for recycling: segments do
not overlap, the checkpoint has exactly their writable pages, and the frame of a
user address leads the host back to it. -/
structure Boot.Sound (boot : Boot) : Prop where
  wellFormed : ∀ seg ∈ boot.segments, seg.WellFormed
  apart : boot.segments.Pairwise fun x y => x.span.Apart y.span
  size : boot.copySize = 4096 * segmentPages boot.writableSegments
  room : boot.checkpointedMem.toNat + boot.copySize ≤ 2^64
  roundTrip : boot.RoundTrip

/-- What each page of a thread's table maps: pages of the writable segments the
copy, page by page, and all others themselves. -/
structure Shape (boot : Boot) (s : Sthread) : Prop where
  segments : ∀ seg ∈ boot.writableSegments, Covers s.table seg.firstPage seg.pages
  stack : Covers s.table (s.stStack.toNat / 4096) 10
  copy : ∀ p k e, SlotOf boot.writableSegments 0 p k → (p,e) ∈ s.table.leaves →
    (hostOf boot e).toNat = s.stWritable.toNat + 4096*k
  other : ∀ p e, (∀ k, ¬SlotOf boot.writableSegments 0 p k) → (p,e) ∈ s.table.leaves →
    e &&& PTE_P ≠ 0 → (hostOf boot e).toNat = p*4096

/-- The memory after recycling: dirty pages have their first content again, and
nothing else has changed except towards it. -/
structure Recycled (boot : Boot) (s : Sthread) (m m' : Mem) : Prop where
  frame : ∀ a, a ∉ s.stackSpan.bytes → a ∉ (s.writableSpan boot).bytes → m' a = m a
  copy : ∀ o < boot.copySize, m' (s.stWritable.toNat + o) = m (s.stWritable.toNat + o) ∨
    m' (s.stWritable.toNat + o) = m (boot.checkpointedMem.toNat + o)
  copyDone : ∀ p k e, SlotOf boot.writableSegments 0 p k → (p,e) ∈ s.table.leaves →
    e &&& PTE_D ≠ 0 → PageDone s.stWritable.toNat (fun o => m (boot.checkpointedMem.toNat + o)) k m'
  stack : ∀ o < 40960, m' (s.stStack.toNat + o) = m (s.stStack.toNat + o) ∨
    m' (s.stStack.toNat + o) = 0
  stackDone : ∀ p e, PageIn p s.stackSpan → (p,e) ∈ s.table.leaves → e &&& PTE_D ≠ 0 →
    PageDone s.stStack.toNat (fun _ => 0) (p - s.stStack.toNat / 4096) m'

section RecycleMemory
variable {boot : Boot} {s : Sthread}

theorem mem_fold_other {σ : Type} {cb : σ → ℕ → Word → ℤ × Word × σ} {segs : List Segment}
    {t : LeafTable Word} {x : σ} {p : ℕ} {e : Word} (hwf : ∀ seg ∈ segs, seg.WellFormed)
    (hout : ∀ seg ∈ segs, ¬PageIn p seg.span) (h : (p,e) ∈ t.leaves) :
    (p,e) ∈ (segs.foldl (fun y seg => (pageWalk y.1 seg.sStart (seg.sEnd - 4096) cb y.2).2)
      (t,x)).1.leaves := by
  induction segs generalizing t x with
  | nil => exact h
  | cons seg rest ih =>
    refine ih (fun y hy => hwf y (List.mem_cons_of_mem _ hy))
      (fun y hy => hout y (List.mem_cons_of_mem _ hy)) (LeafTable.mem_visit_other ?_ x h)
    by_contra hw
    exact hout seg List.mem_cons_self
      ((hwf seg List.mem_cons_self).pageIn_of_inWalk (Bool.not_eq_false _ ▸ hw))

theorem stack_stop (hroom : s.stStack.toNat + 40960 ≤ 2^64) (halign : s.stStack.toNat % 4096 = 0) :
    (s.stStack + STACK_SIZE - 4096).toNat / 4096 + 1 = s.stStack.toNat / 4096 + 10 := by
  have hsum : s.stStack + STACK_SIZE - 4096 = s.stStack + 36864 := by
    rw [BitVec.sub_eq_add_neg,BitVec.add_assoc]
    rfl
  rw [hsum,Words.add_toNat_exact (by simp; omega)]
  simp
  omega

section Placed
variable {tags : List Tag} {sthreads : List Sthread}

theorem recycle_copy (hb : boot.Sound) (hs : Shape boot s) (hp : s.Placed boot tags sthreads)
    (m : Mem) :
    Restoring s.stWritable.toNat (segmentPages boot.writableSegments)
      (fun o => m (boot.checkpointedMem.toNat + o)) m (segmentPages boot.writableSegments)
      (walkWritable boot (walkRecycle boot s) s.table (0,m)).2 ∧
    ∀ p k e, SlotOf boot.writableSegments 0 p k → (p,e) ∈ s.table.leaves → e &&& PTE_D ≠ 0 →
      PageDone s.stWritable.toNat (fun o => m (boot.checkpointedMem.toNat + o)) k
        (walkWritable boot (walkRecycle boot s) s.table (0,m)).2.2 := by
  have hck : (s.writableSpan boot).Apart boot.checkpointSpan :=
    hp.shared _ (by simp [Sthread.privateSpans]) _ List.mem_cons_self
  obtain ⟨hrun,-,hdone⟩ := fold_restores
    (fun seg h => hb.wellFormed seg (List.mem_filter.mp h).1) (hb.apart.filter _) walkRecycle_rc
    walkRecycle_dirtyOnly (walkRecycle_restores m hp.writable.2 hb.room hb.size.ge hck) hs.segments
    (by omega : 0 + segmentPages boot.writableSegments ≤ segmentPages boot.writableSegments)
    (x := (0,m)) ⟨rfl,fun _ _ => rfl,fun _ _ => .inl rfl⟩
  rw [Nat.zero_add] at hrun
  exact ⟨hrun,hdone⟩

/-- The second part clears the stack, whose dirty bits the first part has left. -/
theorem recycle_stack (hb : boot.Sound) (hs : Shape boot s) (hp : s.Placed boot tags sthreads)
    (m m₁ : Mem) :
    let r := pageWalk (walkWritable boot (walkRecycle boot s) s.table (0,m)).1 s.stStack
      (s.stStack + STACK_SIZE - 4096) (walkRecycleStack s) (0,m₁)
    Restoring s.stStack.toNat 10 (fun _ => 0) m₁ 10 r.2.2 ∧
    ∀ p e, PageIn p s.stackSpan → (p,e) ∈ s.table.leaves → e &&& PTE_D ≠ 0 →
      PageDone s.stStack.toNat (fun _ => 0) (p - s.stStack.toNat / 4096) r.2.2.2 := by
  have hcov : Covers (walkWritable boot (walkRecycle boot s) s.table (0,m)).1
      (s.stStack.toNat / 4096) 10 :=
    hs.stack.dirtyOnly (walkWritable_related walkRecycle_dirtyOnly s.table (0,m))
  obtain ⟨hrun,-,hdone⟩ := walk_restores walkRecycleStack_rc
    (walkRecycleStack_restores m₁ hp.stack.2) hcov (stack_stop hp.stack.2 hp.stack.1)
    (by omega : 0 + 10 ≤ 10) (x := (0,m₁)) ⟨rfl,fun _ _ => rfl,fun _ _ => .inl rfl⟩
  refine ⟨hrun,fun p e hin he hd => ?_⟩
  have hstay : (p,e) ∈ (walkWritable boot (walkRecycle boot s) s.table (0,m)).1.leaves := by
    refine mem_fold_other (fun seg h => hb.wellFormed seg (List.mem_filter.mp h).1)
      (fun seg hseg => ?_) he
    have hmem : seg.span ∈ boot.segments.map Segment.span :=
      List.mem_map_of_mem (List.mem_filter.mp hseg).1
    exact not_pageIn_of_apart (hp.shared _ List.mem_cons_self _ (List.mem_cons_of_mem _
      (List.mem_append_left _ hmem))) hin
  simp only [PageIn,Span.Inside,page,Sthread.stackSpan,Span.stop] at hin
  have hpage := hdone p e (by omega) (by omega) hstay hd
  rwa [Nat.zero_add] at hpage

theorem recycle_recycled (hb : boot.Sound) (hs : Shape boot s) (hp : s.Placed boot tags sthreads)
    (m : Mem) : Recycled boot s m (recycle boot s m).2 := by
  obtain ⟨hcopy,hcopyDone⟩ := recycle_copy hb hs hp m
  obtain ⟨hstack,hstackDone⟩ := recycle_stack hb hs hp m
    (walkWritable boot (walkRecycle boot s) s.table (0,m)).2.2
  have hfinal : (recycle boot s m).2 = (pageWalk (walkWritable boot (walkRecycle boot s) s.table
      (0,m)).1 s.stStack (s.stStack + STACK_SIZE - 4096) (walkRecycleStack s)
      (0,(walkWritable boot (walkRecycle boot s) s.table (0,m)).2.2)).2.2.2 := rfl
  rw [← hfinal] at hstackDone
  have hsize := hb.size
  have hown := hp.own
  simp only [Span.Apart,Span.stop,Sthread.stackSpan,Sthread.writableSpan] at hown
  -- neither walk reaches the other's range
  have hkeep (o : ℕ) (ho : o < boot.copySize) : (recycle boot s m).2 (s.stWritable.toNat + o) =
      (walkWritable boot (walkRecycle boot s) s.table (0,m)).2.2 (s.stWritable.toNat + o) := by
    rw [hfinal]
    exact hstack.frame _ (by omega)
  refine ⟨fun a ha hb' => ?_,fun o ho => ?_,fun p k e hslot he hd o hlo hhi => ?_,fun o ho => ?_,
    hstackDone⟩
  · simp only [Span.bytes,Span.stop,Sthread.stackSpan,Sthread.writableSpan,Set.mem_Ico] at ha hb'
    rw [hfinal]
    exact (hstack.frame a (by omega)).trans (hcopy.frame a (by omega))
  · rw [hkeep o ho]
    exact hcopy.bytes o (by omega)
  · have hbound := hslot.bounds
    rw [hkeep o (by omega)]
    exact hcopyDone p k e hslot he hd o hlo hhi
  · have hbefore := hcopy.frame (s.stStack.toNat + o) (by omega)
    rw [hfinal,← hbefore]
    exact hstack.bytes o ho

end Placed

end RecycleMemory

section FreshShape
variable {boot : Boot} {k : Kernel} {sc : Sc} {r : CreateReply} {id : CInt}

theorem protect_covers {s : Sthread} {lo n : ℕ} (h : Covers k.pgroot lo n) :
    Covers (pageWalk k.pgroot boot.vaStart boot.vaEnd (walkProtect boot s) ()).2.1 lo n := by
  refine h.related (LeafTable.related_walk (fun _ h => h) (fun _ p e hp => ?_) _ _) fun _ _ h => h
  have hP : protectEntry boot s p e &&& PTE_P = e &&& PTE_P := protectEntry_and rfl rfl e
  exact hP ▸ hp

theorem newSthread_covers {lo n : ℕ} (h : Covers k.pgroot lo n) :
    Covers (newSthread boot k sc r id).table lo n :=
  (protect_covers (s := blankSthread k sc r id) h).related
    (walkWritable_relates (fun _ h => h) (fun _ _ _ h h' hp => h' (h hp))
      (fun w p e _ => walkRemap_present boot (blankSthread k sc r id) w p e) _ 0) fun _ _ h => h

/-- The table of a fresh thread maps the copy page by page and the rest to itself. -/
theorem newSthread_shape (hb : boot.Sound) (hmaster : masterTable boot k.pgroot = true)
    (hmirror : ∀ p e, (p,e) ∈ k.pgroot.leaves → e &&& PTE_P ≠ 0 → hostOf boot e = pageVa p)
    (hcov : ∀ seg ∈ boot.writableSegments, Covers k.pgroot seg.firstPage seg.pages)
    (hstack : Covers k.pgroot (r.stack.toNat / 4096) 10) (halign : r.writable.toNat % 4096 = 0)
    (hlow : r.writable.toNat + boot.copySize ≤ 2^47) :
    Shape boot (newSthread boot k sc r id) := by
  have hwf (seg : Segment) (h : seg ∈ boot.writableSegments) :=
    hb.wellFormed seg (List.mem_filter.mp h).1
  refine ⟨fun seg hseg => newSthread_covers (hcov seg hseg),newSthread_covers hstack,
    fun p j e hslot he => ?_,fun p e hno he hpresent => ?_⟩
  · have hmap : e = remapEntry boot (blankSthread k sc r id) j :=
      remap_slot hwf (hb.apart.filter _) (fun seg hseg => protect_covers (hcov seg hseg)) hslot he
    have hbound := hslot.bounds
    have hsize := hb.size
    have haddr : (r.writable + BitVec.ofNat 64 (4096*j)).toNat = r.writable.toNat + 4096*j :=
      offset_toNat (by omega : r.writable.toNat + boot.copySize ≤ 2^64) (by omega)
    have hhost : hostOf boot e = r.writable + BitVec.ofNat 64 (4096*j) := by
      rw [hmap,hostOf,remapEntry_pteAddr]
      exact hb.roundTrip (r.writable + BitVec.ofNat 64 (4096*j)) (by omega) (by omega)
    rw [hhost,haddr]
    rfl
  · rcases newSthread_leaf hb.wellFormed hmaster he hpresent with ⟨e₀,he₀,rfl⟩ | ⟨⟨seg,hseg,hin⟩,-⟩
    · have hP : protectEntry boot (blankSthread k sc r id) p e₀ &&& PTE_P = e₀ &&& PTE_P :=
        protectEntry_and rfl rfl e₀
      have hframe : pteAddr (protectEntry boot (blankSthread k sc r id) p e₀) = pteAddr e₀ :=
        protectEntry_and rfl rfl e₀
      obtain ⟨-,hhi,-⟩ := masterTable_leaf hmaster he₀
      have hp : p < 2^52 := by
        have := boot.vaEnd.isLt
        omega
      rw [hostOf,hframe]
      exact (congrArg BitVec.toNat (hmirror p e₀ he₀ (hP ▸ hpresent))).trans (pageVa_toNat hp)
    · obtain ⟨j,hj⟩ := exists_slotOf hwf hseg hin
      exact absurd hj (hno j)

end FreshShape

end Sthreads
end VmplApps

import VmplApps.SthreadSlots

/-! Recycling against creation. Outside of the pages that a running thread has marked
dirty through its own table, private memory is as creation left it. Recycling
restores the dirty pages, so a dead thread is as good as a fresh one, provided that
the host stores only into pages that are dirty already. It finds them by variables that
it reads from the thread's own copy; these stay as they are when no store falls on the
kernel's data. -/
namespace VmplApps
namespace Sthreads

open ByteMemory

/-- What creation puts into a byte of private memory; `ck` is the checkpoint. -/
def Sthread.firstByte (ck : ℕ → Byte) (s : Sthread) (a : ℕ) : Byte :=
  if a ∈ s.stackSpan.bytes then 0 else ck (a - s.stWritable.toNat)

/-- The thread is running, and an entry of its own table that user code may use has
the page of the address marked dirty. -/
def dirtyPage (boot : Boot) (s : Sthread) (a : ℕ) : Bool :=
  s.stState == .running && s.table.leaves.any fun x => x.2 &&& PTE_P != 0 && x.2 &&& PTE_U != 0 &&
    x.2 &&& PTE_D != 0 && (hostOf boot x.2).toNat == a / 4096 * 4096

/-- The byte may differ from that of a fresh thread: its page is dirty, and it is none of
the kernel's variables. -/
def mayDiffer (boot : Boot) (s : Sthread) (a : ℕ) : Bool :=
  dirtyPage boot s a && !kernelVar boot s.table a

def Clean (boot : Boot) (ck : ℕ → Byte) (mem : Mem) (s : Sthread) : Prop :=
  ∀ x ∈ s.privateSpans boot, ∀ a ∈ x.bytes, mem a = s.firstByte ck a

/-- Every byte is that of a fresh thread unless it may differ. -/
def Tracked (boot : Boot) (ck : ℕ → Byte) (mem : Mem) (s : Sthread) : Prop :=
  ∀ x ∈ s.privateSpans boot, ∀ a ∈ x.bytes, mem a = s.firstByte ck a ∨ mayDiffer boot s a = true

/-- The checkpoint is intact, and dirty bits tell what has to be restored from it. -/
structure Remembered (boot : Boot) (ck : ℕ → Byte) (sthreads : List Sthread) (mem : Mem) : Prop where
  checkpoint : ∀ o < boot.copySize, mem (boot.checkpointedMem.toNat + o) = ck o
  shape : ∀ s ∈ sthreads, Shape boot s
  tracked : ∀ s ∈ sthreads, Tracked boot ck mem s

section Dirty
variable {boot : Boot} {s s' : Sthread} {a : ℕ} {e e' : Word}

theorem dirtyPage_iff : dirtyPage boot s a = true ↔ s.stState = .running ∧
    ∃ p e, (p,e) ∈ s.table.leaves ∧ e &&& PTE_P ≠ 0 ∧ e &&& PTE_U ≠ 0 ∧ e &&& PTE_D ≠ 0 ∧
      (hostOf boot e).toNat = a / 4096 * 4096 := by
  simp [dirtyPage,and_assoc]

theorem mayDiffer_iff : mayDiffer boot s a = true ↔
    dirtyPage boot s a = true ∧ kernelVar boot s.table a = false := by
  simp [mayDiffer]

theorem mayDiffer_same (ht : s'.table = s.table) (hs : s'.stState = s.stState) :
    mayDiffer boot s' a = mayDiffer boot s a := by
  rw [mayDiffer,mayDiffer,dirtyPage,dirtyPage,ht,hs]

/-- Dirty bits do not move a byte. -/
theorem translate_related {t t' : LeafTable Word} (h : LeafTable.Related DirtyOnly t t') (va : ℕ) :
    translate boot t' va = translate boot t va := by
  cases hget : t.get? (va / 4096) with
  | none =>
    have hnone : t'.get? (va / 4096) = none := by
      by_contra hsome
      obtain ⟨e',he'⟩ := Option.ne_none_iff_exists'.mp hsome
      obtain ⟨e,he,-⟩ := h.mem (LeafTable.mem_leaves.mpr he')
      cases hget.symm.trans (LeafTable.mem_leaves.mp he)
    simp only [translate,hget,hnone]
  | some e =>
    obtain ⟨e',he',hd⟩ := h.mem_left (LeafTable.mem_leaves.mpr hget)
    have hP : e' &&& PTE_P = e &&& PTE_P := hd.and_eq rfl
    have hframe : pteAddr e' = pteAddr e := hd.and_eq rfl
    simp only [translate,hget,LeafTable.mem_leaves.mp he',hP,hframe]

theorem kernelVar_related {t t' : LeafTable Word} (h : LeafTable.Related DirtyOnly t t') :
    kernelVar boot t' a = kernelVar boot t a := by
  simp only [kernelVar,translate_related h]

theorem translate_present {t : LeafTable Word} {va : ℕ} (he : (va / 4096,e) ∈ t.leaves)
    (hp : e &&& PTE_P ≠ 0) :
    translate boot t va = some ((hostOf boot e).toNat + va % 4096) := by
  simp only [translate,LeafTable.mem_leaves.mp he,if_neg hp]
  rfl

theorem kernelVar_of_spared {k : Kernel} (h : kernelByte boot k a = false) (hs : s ∈ k.sthreads) :
    kernelVar boot s.table a = false := by
  simp only [kernelByte,Bool.or_eq_false_iff,List.any_eq_false] at h
  exact Bool.not_eq_true _ ▸ h.1.1.2 s hs

theorem mayDiffer_of_stopped (hs : s.stState ≠ .running) : mayDiffer boot s a = false := by
  rw [mayDiffer,dirtyPage,beq_eq_false_iff_ne.mpr hs]
  rfl

theorem setD_and_D (e : Word) : (e ||| PTE_D) &&& PTE_D ≠ 0 := by
  have hD : (e ||| PTE_D) &&& PTE_D = PTE_D := by
    ext i
    simp only [BitVec.getElem_and,BitVec.getElem_or]
    cases PTE_D[i] <;> simp
  rw [hD]
  decide

theorem dirtyPage_of_set {p : ℕ} (hrun : s.stState = .running)
    (he : (p,e ||| PTE_D) ∈ s.table.leaves) (hp : e &&& PTE_P ≠ 0) (hu : e &&& PTE_U ≠ 0)
    (ha : (hostOf boot e).toNat = a / 4096 * 4096) : dirtyPage boot s a = true := by
  have hd := dirtyOnly_set e
  have hP : (e ||| PTE_D) &&& PTE_P = e &&& PTE_P := hd.and_eq rfl
  have hU : (e ||| PTE_D) &&& PTE_U = e &&& PTE_U := hd.and_eq rfl
  exact dirtyPage_iff.mpr ⟨hrun,p,_,he,hP ▸ hp,hU ▸ hu,setD_and_D e,by rw [hostOf_dirtyOnly hd,ha]⟩

theorem mayDiffer_grows {t : LeafTable Word}
    (ht : LeafTable.Related (fun e e' => e' = e ∨ e' = e ||| PTE_D) s.table t)
    (h : mayDiffer boot s a = true) : mayDiffer boot {s with table := t} a = true := by
  obtain ⟨hdirty,hvar⟩ := mayDiffer_iff.mp h
  obtain ⟨hrun,p,e,he,hp,hu,hd,ha⟩ := dirtyPage_iff.mp hdirty
  have hrelated : LeafTable.Related DirtyOnly s.table t := by
    refine ht.mono ?_
    rintro e e' (rfl | rfl)
    · exact DirtyOnly.refl _
    · exact dirtyOnly_set e
  refine mayDiffer_iff.mpr ⟨?_,(kernelVar_related hrelated).trans hvar⟩
  obtain ⟨e',he',rfl | rfl⟩ := ht.mem_left he
  · exact dirtyPage_iff.mpr ⟨hrun,p,e',he',hp,hu,hd,ha⟩
  · exact dirtyPage_of_set hrun he' hp hu ha

theorem Tracked.clean {ck : ℕ → Byte} {mem : Mem} (h : Tracked boot ck mem s)
    (hs : s.stState ≠ .running) : Clean boot ck mem s := by
  intro x hx a ha
  rcases h x hx a ha with heq | hd
  · exact heq
  · rw [mayDiffer_of_stopped hs] at hd
    cases hd

theorem Shape.evolves (h : Shape boot s) (hev : s.Evolves s') : Shape boot s' := by
  refine ⟨fun seg hseg => (h.segments seg hseg).dirtyOnly hev.table,?_,fun p k e' hslot he' => ?_,
    fun p e' hno he' hp => ?_⟩
  · rw [hev.stack]
    exact h.stack.dirtyOnly hev.table
  · obtain ⟨e,he,hd⟩ := hev.table.mem he'
    rw [hostOf_dirtyOnly hd,hev.writable]
    exact h.copy p k e hslot he
  · obtain ⟨e,he,hd⟩ := hev.table.mem he'
    have hP : e' &&& PTE_P = e &&& PTE_P := hd.and_eq rfl
    rw [hostOf_dirtyOnly hd]
    exact h.other p e hno he (hP ▸ hp)

theorem Sthread.Evolves.firstByte (hev : s.Evolves s') (ck : ℕ → Byte) :
    s'.firstByte ck a = s.firstByte ck a := by
  have hstack : s'.stackSpan = s.stackSpan := by rw [Sthread.stackSpan,Sthread.stackSpan,hev.stack]
  rw [Sthread.firstByte,Sthread.firstByte,hstack,hev.writable]

end Dirty

section Reach
variable {boot : Boot} {k : Kernel} {s t : Sthread} {p : ℕ} {e : Word} {x y : Span} {a : ℕ}

/-- Where user code of a thread can get: a page of its copy, or a page of its stack,
of a segment or of a tag at its own address. -/
theorem reach (hg : Guarded boot k) (hs : s ∈ k.sthreads) (hshape : Shape boot s)
    (he : (p,e) ∈ s.table.leaves) (hp : e &&& PTE_P ≠ 0) (hu : e &&& PTE_U ≠ 0) :
    (∃ j, SlotOf boot.writableSegments 0 p j ∧ (hostOf boot e).toNat = s.stWritable.toNat + 4096*j) ∨
    (hostOf boot e).toNat = p*4096 ∧ ∃ y ∈ s.stackSpan::(boot.segments.map Segment.span ++
      k.tags.map Tag.span), PageIn p y := by
  by_cases hslot : ∃ j, SlotOf boot.writableSegments 0 p j
  · obtain ⟨j,hj⟩ := hslot
    exact .inl ⟨j,hj,hshape.copy p j e hj he⟩
  · refine .inr ⟨hshape.other p e (not_exists.mp hslot) he hp,?_⟩
    rcases (hg.granted s hs p e he hp).user hu with ⟨seg,hseg,hin⟩ | hin | ⟨tag,htag,-,hin⟩
    · exact ⟨seg.span,List.mem_cons_of_mem _ (List.mem_append_left _ (List.mem_map_of_mem hseg)),hin⟩
    · exact ⟨_,List.mem_cons_self,hin⟩
    · exact ⟨tag.span,List.mem_cons_of_mem _ (List.mem_append_right _ (List.mem_map_of_mem htag)),hin⟩

theorem mem_of_pageIn (h : PageIn p y) (ha : a / 4096 = p) : a ∈ y.bytes := by
  simp only [PageIn,Span.Inside,page,Span.stop] at h
  rw [Span.mem_bytes,Span.stop]
  omega

theorem mem_writable_of_slot (hb : boot.Sound) {j : ℕ} (h : SlotOf boot.writableSegments 0 p j)
    (hlo : s.stWritable.toNat + 4096*j ≤ a) (hhi : a < s.stWritable.toNat + 4096*(j+1)) :
    a ∈ (s.writableSpan boot).bytes := by
  have hsize := hb.size
  have hbound := h.bounds
  simp only [Span.mem_bytes,Sthread.writableSpan,Span.stop]
  omega

theorem reach_bytes (hb : boot.Sound) (hg : Guarded boot k) (hs : s ∈ k.sthreads)
    (hshape : Shape boot s) (he : (p,e) ∈ s.table.leaves) (hp : e &&& PTE_P ≠ 0)
    (hu : e &&& PTE_U ≠ 0) :
    (hostOf boot e).toNat % 4096 = 0 ∧ ∃ y ∈ s.privateSpans boot ++ (boot.segments.map Segment.span ++
      k.tags.map Tag.span), ∀ i < 4096, (hostOf boot e).toNat + i ∈ y.bytes := by
  have hplaced := hg.layout.placed s hs
  rcases reach hg hs hshape he hp hu with ⟨j,hj,heq⟩ | ⟨heq,y,hy,hin⟩
  · refine ⟨by have := hplaced.writable.1; omega,s.writableSpan boot,?_,fun i hi => ?_⟩
    · exact List.mem_append_left _ (by simp [Sthread.privateSpans])
    · exact mem_writable_of_slot hb hj (by omega) (by omega)
  · refine ⟨by omega,y,?_,fun i hi => mem_of_pageIn hin (by omega)⟩
    rcases List.mem_cons.mp hy with rfl | hy
    · exact List.mem_append_left _ List.mem_cons_self
    · exact List.mem_append_right _ hy

theorem reach_apart_checkpoint (hg : Guarded boot k) (hs : s ∈ k.sthreads)
    (hy : y ∈ s.privateSpans boot ++ (boot.segments.map Segment.span ++ k.tags.map Tag.span)) :
    y.Apart boot.checkpointSpan := by
  rcases List.mem_append.mp hy with hy | hy
  · exact (hg.layout.placed s hs).shared y hy _ List.mem_cons_self
  · exact (hg.layout.checkpoint y hy).symm

theorem reach_apart_other (hg : Guarded boot k) (hs : s ∈ k.sthreads) (ht : t ∈ k.sthreads)
    (hne : t.stId ≠ s.stId) (hx : x ∈ t.privateSpans boot)
    (hy : y ∈ s.privateSpans boot ++ (boot.segments.map Segment.span ++ k.tags.map Tag.span)) :
    y.Apart x := by
  rcases List.mem_append.mp hy with hy | hy
  · exact (hg.layout.placed s hs).others t ht hne y hy x hx
  · exact ((hg.layout.placed t ht).shared x hx y (List.mem_cons_of_mem _ hy)).symm

/-- A dirty page of the copy has a number under which recycling finds it. -/
theorem dirty_copy (hg : Guarded boot k) (hs : s ∈ k.sthreads) (hshape : Shape boot s)
    (hd : dirtyPage boot s a = true) (ha : a ∈ (s.writableSpan boot).bytes) :
    ∃ p j e, SlotOf boot.writableSegments 0 p j ∧ (p,e) ∈ s.table.leaves ∧ e &&& PTE_D ≠ 0 ∧
      4096*j ≤ a - s.stWritable.toNat ∧ a - s.stWritable.toNat < 4096*(j+1) := by
  obtain ⟨-,p,e,he,hp,hu,hdirty,hpage⟩ := dirtyPage_iff.mp hd
  have hplaced := hg.layout.placed s hs
  rcases reach hg hs hshape he hp hu with ⟨j,hj,heq⟩ | ⟨heq,y,hy,hin⟩
  · have := hplaced.writable.1
    exact ⟨p,j,e,hj,he,hdirty,by omega,by omega⟩
  · have hay : a ∈ y.bytes := mem_of_pageIn hin (by omega)
    have hapart : (s.writableSpan boot).Apart y := by
      rcases List.mem_cons.mp hy with rfl | hy
      · exact hplaced.own.symm
      · exact hplaced.shared _ (by simp [Sthread.privateSpans]) y (List.mem_cons_of_mem _ hy)
    exact absurd hay (hapart.not_mem ha)

theorem dirty_stack (hb : boot.Sound) (hg : Guarded boot k) (hs : s ∈ k.sthreads)
    (hshape : Shape boot s) (hd : dirtyPage boot s a = true) (ha : a ∈ s.stackSpan.bytes) :
    ∃ p e, PageIn p s.stackSpan ∧ (p,e) ∈ s.table.leaves ∧ e &&& PTE_D ≠ 0 ∧ a / 4096 = p := by
  obtain ⟨-,p,e,he,hp,hu,hdirty,hpage⟩ := dirtyPage_iff.mp hd
  have hplaced := hg.layout.placed s hs
  rcases reach hg hs hshape he hp hu with ⟨j,hj,heq⟩ | ⟨heq,-⟩
  · have hin := mem_writable_of_slot (s := s) (a := a) hb hj (by omega) (by omega)
    exact absurd hin (hplaced.own.not_mem ha)
  · refine ⟨p,e,?_,he,hdirty,by omega⟩
    have := hplaced.stack.1
    simp only [Span.mem_bytes,Span.stop,Sthread.stackSpan] at ha
    simp only [PageIn,Span.Inside,page,Span.stop,Sthread.stackSpan]
    omega

end Reach

section Remembered
variable {boot : Boot} {ck : ℕ → Byte} {k : Kernel} {sthreads : List Sthread} {mem mem' : Mem}
  {s s' : Sthread}

theorem Remembered.remember (h : Remembered boot ck sthreads mem)
    (hck : ∀ a ∈ boot.checkpointSpan.bytes, mem' a = mem a)
    (hprivate : ∀ s ∈ sthreads, ∀ x ∈ s.privateSpans boot, ∀ a ∈ x.bytes,
      mem' a = mem a ∨ mem' a = s.firstByte ck a ∨ mayDiffer boot s a = true) :
    Remembered boot ck sthreads mem' := by
  refine ⟨fun o ho => ?_,h.shape,fun s hs x hx a ha => ?_⟩
  · have hin : boot.checkpointedMem.toNat + o ∈ boot.checkpointSpan.bytes :=
      Span.mem_bytes.mpr ⟨Nat.le_add_right _ _,Nat.add_lt_add_left ho _⟩
    rw [hck _ hin]
    exact h.checkpoint o ho
  · rcases hprivate s hs x hx a ha with heq | hrest
    · rw [heq]
      exact h.tracked s hs x hx a ha
    · exact hrest

theorem Remembered.replace (h : Remembered boot ck k.sthreads mem) (hs : s ∈ k.sthreads)
    (hev : s.Evolves s') (hd : ∀ x ∈ s.privateSpans boot, ∀ a ∈ x.bytes, mayDiffer boot s a = true →
      mem a = s.firstByte ck a ∨ mayDiffer boot s' a = true) :
    Remembered boot ck (k.update s').sthreads mem := by
  refine ⟨h.checkpoint,fun t ht => ?_,fun t ht => ?_⟩
  · obtain ⟨t₀,ht₀,rfl⟩ := List.mem_map.mp ht
    by_cases heq : t₀.stId = s'.stId
    · rw [if_pos heq]
      exact (h.shape s hs).evolves hev
    · rw [if_neg heq]
      exact h.shape t₀ ht₀
  · obtain ⟨t₀,ht₀,rfl⟩ := List.mem_map.mp ht
    by_cases heq : t₀.stId = s'.stId
    · rw [if_pos heq]
      intro x hx a ha
      rw [hev.privateSpans] at hx
      rw [hev.firstByte]
      rcases h.tracked s hs x hx a ha with hfirst | hdirty
      · exact .inl hfirst
      · exact hd x hx a ha hdirty
    · rw [if_neg heq]
      exact h.tracked t₀ ht₀

theorem Remembered.relabel (h : Remembered boot ck k.sthreads mem) (hs : s ∈ k.sthreads)
    (hev : s.Evolves s') (hsame : s'.table = s.table ∧ s'.stState = s.stState) :
    Remembered boot ck (k.update s').sthreads mem :=
  h.replace hs hev fun _ _ _ _ hd => .inr ((mayDiffer_same hsame.1 hsame.2).trans hd)

theorem Remembered.restate (h : Remembered boot ck k.sthreads mem) (hs : s ∈ k.sthreads)
    (hev : s.Evolves s') (hstop : s.stState ≠ .running) :
    Remembered boot ck (k.update s').sthreads mem := by
  refine h.replace hs hev fun _ _ _ _ hd => ?_
  rw [mayDiffer_of_stopped hstop] at hd
  cases hd

theorem Remembered.cons (h : Remembered boot ck sthreads mem) (hshape : Shape boot s)
    (hclean : Clean boot ck mem s) : Remembered boot ck (s::sthreads) mem :=
  ⟨h.checkpoint,List.forall_mem_cons.mpr ⟨hshape,h.shape⟩,
    List.forall_mem_cons.mpr ⟨fun x hx a ha => .inl (hclean x hx a ha),h.tracked⟩⟩

theorem Remembered.outside {addr : Word} {len : ℕ} (h : Remembered boot ck k.sthreads mem)
    (hfresh : freshRange (taken boot k) addr len = true)
    (hout : ∀ a, ¬(addr.toNat ≤ a ∧ a < addr.toNat + len) → mem' a = mem a) :
    Remembered boot ck k.sthreads mem' := by
  obtain ⟨-,hapart⟩ := freshRange_iff.mp hfresh
  have hkeep (y : Span) (hy : y ∈ taken boot k) (a : ℕ) (ha : a ∈ y.bytes) : mem' a = mem a :=
    hout a ((hapart y hy).symm.not_mem ha)
  refine h.remember (hkeep _ List.mem_cons_self) fun s hs x hx a ha => .inl (hkeep x ?_ a ha)
  exact List.mem_cons_of_mem _ (List.mem_append_right _ (List.mem_flatMap.mpr ⟨s,hs,hx⟩))

end Remembered

/-- A byte stored by the host is undone by recycling: it is not in the checkpoint,
and in private memory only on a page that is dirty already. -/
def undone (boot : Boot) (k : Kernel) (a : ℕ) : Bool :=
  !decide (a ∈ boot.checkpointSpan.bytes) && k.sthreads.all fun s =>
    dirtyPage boot s a || (s.privateSpans boot).all fun x => !decide (a ∈ x.bytes)

/-- Every byte that the host stores for a system call is undone by recycling. -/
def hostStores (boot : Boot) (m : Machine) : Label → Bool
  | .poll r | .syscall _ r => r.stores.all fun x => undone boot m.kernel x.1
  | _ => true

/-- User code that stores belongs to a running thread whose own table is loaded. -/
def storesOwn (m : Machine) : Label → Bool
  | .store _ _ =>
    match m.mode with
    | .user u => (m.kernel.find u).any fun s => s.stState == .running && m.kernel.cr3 == s.cr3
    | _ => false
  | _ => true

def covered (t : LeafTable Word) (lo n : ℕ) : Bool :=
  (List.range n).all fun i => t.leaves.any fun x => x.1 == lo + i && x.2 &&& PTE_P != 0

/-- What is assumed of the table that is cloned for a fresh thread: pages are mapped to
themselves, and the writable segments and the new stack are mapped. -/
def clonable (boot : Boot) (m : Machine) : Label → Bool
  | .create i cb arg r => mirrors boot m (.create i cb arg r) &&
      ((recyclable m.kernel (m.policies i)).isSome ||
      (boot.writableSegments.all fun seg => covered m.kernel.pgroot seg.firstPage seg.pages) &&
      covered m.kernel.pgroot (r.stack.toNat / 4096) 10)
  | _ => true

section Steps
variable {boot : Boot} {ck : ℕ → Byte} {k k' : Kernel} {mem : Mem} {s s' : Sthread} {m m' : Machine}
  {l : Label}

theorem undone_iff {a : ℕ} : undone boot k a = true ↔ a ∉ boot.checkpointSpan.bytes ∧
    ∀ s ∈ k.sthreads, dirtyPage boot s a = true ∨ ∀ x ∈ s.privateSpans boot, a ∉ x.bytes := by
  simp [undone]

theorem covers_of_covered {t : LeafTable Word} {lo n : ℕ} (h : covered t lo n = true) :
    Covers t lo n := by
  intro p hlo hhi
  have hp := List.all_eq_true.mp h (p-lo) (List.mem_range.mpr (by omega))
  obtain ⟨⟨q,e⟩,he,hq⟩ := List.any_eq_true.mp hp
  simp only [Bool.and_eq_true,beq_iff_eq,bne_iff_ne] at hq
  obtain rfl : q = p := by omega
  exact ⟨e,he,hq.2⟩

theorem Remembered.stores {bs : List (ℕ × Byte)} (h : Remembered boot ck k.sthreads mem)
    (hbs : bs.all (fun x => undone boot k x.1) = true)
    (hspare : bs.all (fun x => !kernelByte boot k x.1) = true) :
    Remembered boot ck k.sthreads (storeBytes mem bs) := by
  have hone (x : ℕ × Byte) (hx : x ∈ bs) := undone_iff.mp (List.all_eq_true.mp hbs x hx)
  refine h.remember (fun a ha => ?_) fun s hs x hx a ha => ?_
  · rcases storeBytes_cases mem bs a with heq | ⟨y,hy,rfl⟩
    · exact heq
    · exact absurd ha (hone y hy).1
  · rcases storeBytes_cases mem bs a with heq | ⟨y,hy,rfl⟩
    · exact .inl heq
    · rcases (hone y hy).2 s hs with hd | hout
      · have hfree : kernelByte boot k y.1 = false := by simpa using List.all_eq_true.mp hspare y hy
        exact .inr (.inr (mayDiffer_iff.mpr ⟨hd,kernelVar_of_spared hfree hs⟩))
      · exact absurd ha (hout x hx)

theorem remembered_unwind (h : Remembered boot ck m.kernel.sthreads m.kernel.mem)
    (hu : unwind boot m = .ok m') : Remembered boot ck m'.kernel.sthreads m'.kernel.mem := by
  obtain ⟨f,fs,-,rfl⟩ := unwind_ok hu
  exact h

theorem remembered_schedule {caller : Caller} {r : HostReply}
    (h : Remembered boot ck m.kernel.sthreads m.kernel.mem)
    (h' : Remembered boot ck m.kernel.sthreads (storeBytes m.kernel.mem r.stores))
    (hs : schedule boot m caller r = .ok m') :
    Remembered boot ck m'.kernel.sthreads m'.kernel.mem := by
  rcases schedule_cases hs with ⟨s,hnext,rfl⟩ | ⟨-,-,hu⟩
  · exact h'.relabel (find_nextRunnable hnext) (s.evolves_with _ _ _ _) ⟨rfl,rfl⟩
  · exact remembered_unwind h hu

/-- A store through the thread's own table lands on a page that is dirty afterwards,
and nowhere in another thread's memory. -/
theorem remembered_store {u : CInt} {va : Word} {b : Byte} (hb : boot.Sound) (hg : Guarded boot k)
    (h : Remembered boot ck k.sthreads k.mem) (hf : k.find u = some s) (hrun : s.stState = .running)
    (hcr3 : k.cr3 = s.cr3)
    (hspare : ∀ a, translate boot s.table va.toNat = some a → kernelByte boot k a = false)
    (hstore : userStore boot k u va b = .ok k') :
    Remembered boot ck k'.sthreads k'.mem := by
  have hs := (Kernel.find_mem hf).1
  simp only [userStore,hf,hcr3,if_true] at hstore
  split at hstore
  · cases hstore
  · rename_i t mem hvia
    cases hstore
    have hrelated := storeVia_related hvia
    obtain ⟨e,he,⟨hp,hu,-⟩,rfl,rfl⟩ := storeVia_some hvia
    obtain ⟨halign,y,hy,hbytes⟩ := reach_bytes hb hg hs (h.shape s hs) he hp hu
    have hin := hbytes (va.toNat % 4096) (Nat.mod_lt _ (by omega))
    have hmarked : Remembered boot ck (k.update {s with
        table := s.table.modify (va.toNat / 4096) (· ||| PTE_D)}).sthreads k.mem :=
      h.replace hs ⟨rfl,rfl,rfl,rfl,rfl,hrelated⟩ fun x _ a _ hd => .inr (mayDiffer_grows
        (LeafTable.related_modify (fun _ => .inl rfl) (fun _ => .inr rfl) s.table _) hd)
    refine hmarked.remember (fun a ha => ?_) fun t' ht' x hx a ha => ?_
    · have hne : a ≠ (hostOf boot e).toNat + va.toNat % 4096 := by
        rintro rfl
        exact (reach_apart_checkpoint hg hs hy).not_mem hin ha
      exact Function.update_of_ne hne _ _
    · by_cases heq : a = (hostOf boot e).toNat + va.toNat % 4096
      · by_cases hid : t'.stId = s.stId
        · obtain rfl := Kernel.mem_update_same ht' hid
          have hvar := kernelVar_of_spared (hspare _ (translate_present he hp)) hs
          refine .inr (.inr (mayDiffer_iff.mpr ⟨?_,?_⟩))
          · exact dirtyPage_of_set hrun (LeafTable.mem_modify he _) hp hu (by omega)
          · rw [heq]
            exact (kernelVar_related hrelated).trans hvar
        · obtain ⟨t₀,ht₀,rfl⟩ := List.mem_map.mp ht'
          split_ifs at hid hx with hsame
          · exact absurd rfl hid
          · exact absurd (heq ▸ ha) ((reach_apart_other hg hs ht₀ hid hx hy).not_mem hin)
      · exact .inl (Function.update_of_ne heq _ _)

/-- The bytes of private memory after recycling. -/
theorem recycled_bytes (hb : boot.Sound) (hg : Guarded boot k)
    (h : Remembered boot ck k.sthreads k.mem) (hs : s ∈ k.sthreads) {x : Span}
    (hx : x ∈ s.privateSpans boot) {a : ℕ} (ha : a ∈ x.bytes) :
    ((recycle boot s k.mem).2 a = k.mem a ∨ (recycle boot s k.mem).2 a = s.firstByte ck a) ∧
    (dirtyPage boot s a = true → (recycle boot s k.mem).2 a = s.firstByte ck a) := by
  have hplaced := hg.layout.placed s hs
  have hshape := h.shape s hs
  have hrec := recycle_recycled hb hshape hplaced k.mem
  simp only [Sthread.privateSpans,List.mem_cons,List.not_mem_nil,or_false] at hx
  rcases hx with rfl | rfl
  · have hfirst : s.firstByte ck a = 0 := if_pos ha
    rw [hfirst]
    obtain ⟨hlo,hhi⟩ := Span.mem_bytes.mp ha
    simp only [Span.stop,Sthread.stackSpan] at hlo hhi
    obtain ⟨o,rfl⟩ := Nat.exists_eq_add_of_le hlo
    refine ⟨hrec.stack o (by omega),fun hd => ?_⟩
    obtain ⟨p,e,hin,he,hdirty,hp⟩ := dirty_stack hb hg hs hshape hd ha
    have := hplaced.stack.1
    exact hrec.stackDone p e hin he hdirty o (by omega) (by omega)
  · have hfirst : s.firstByte ck a = ck (a - s.stWritable.toNat) :=
      if_neg (hplaced.own.symm.not_mem ha)
    rw [hfirst]
    obtain ⟨hlo,hhi⟩ := Span.mem_bytes.mp ha
    simp only [Span.stop,Sthread.writableSpan] at hlo hhi
    obtain ⟨o,rfl⟩ := Nat.exists_eq_add_of_le hlo
    have ho : o < boot.copySize := by omega
    rw [Nat.add_sub_cancel_left,← h.checkpoint o ho]
    refine ⟨hrec.copy o ho,fun hd => ?_⟩
    obtain ⟨p,j,e,hslot,he,hdirty,hlow,hhigh⟩ := dirty_copy hg hs hshape hd ha
    rw [Nat.add_sub_cancel_left] at hlow hhigh
    exact hrec.copyDone p j e hslot he hdirty o hlow hhigh

/-- Recycling leaves a thread that is as good as a fresh one. -/
theorem remembered_recycle (hb : boot.Sound) (hg : Guarded boot k)
    (h : Remembered boot ck k.sthreads k.mem) (hs : s ∈ k.sthreads) :
    Remembered boot ck (k.update {(recycle boot s k.mem).1 with stState := .zombie}).sthreads
      (recycle boot s k.mem).2 := by
  have hplaced := hg.layout.placed s hs
  have hrec := recycle_recycled hb (h.shape s hs) hplaced k.mem
  have hframe {y : Span} (hy : ∀ x ∈ s.privateSpans boot, x.Apart y) {a : ℕ} (ha : a ∈ y.bytes) :
      (recycle boot s k.mem).2 a = k.mem a :=
    hrec.frame a ((hy _ List.mem_cons_self).symm.not_mem ha)
      ((hy (s.writableSpan boot) (by simp [Sthread.privateSpans])).symm.not_mem ha)
  have hmem : Remembered boot ck k.sthreads (recycle boot s k.mem).2 := by
    refine h.remember (fun a ha => ?_) fun t ht x hx a ha => ?_
    · exact hframe (fun x hx => hplaced.shared x hx _ List.mem_cons_self) ha
    · by_cases hid : t.stId = s.stId
      · obtain rfl := List.inj_on_of_nodup_map hg.layout.numbered.ids ht hs hid
        rcases (recycled_bytes hb hg h hs hx ha).1 with heq | hfirst
        · exact .inl heq
        · exact .inr (.inl hfirst)
      · exact .inl (hframe (fun y hy => hplaced.others t ht hid y hy x hx) ha)
  have hev : s.Evolves {(recycle boot s k.mem).1 with stState := .zombie} :=
    (recycle_evolves s k.mem).trans (Sthread.evolves_with _ _ _ _ _)
  exact hmem.replace hs hev fun x hx a ha hd =>
    .inl ((recycled_bytes hb hg h hs hx ha).2 (mayDiffer_iff.mp hd).1)

theorem remembered_exit {ret : Word} (hb : boot.Sound) (hg : Guarded boot k)
    (h : Remembered boot ck k.sthreads k.mem) (hs : s ∈ k.sthreads) (hev : s.Evolves s')
    (hsame : s'.table = s.table ∧ s'.stState = s.stState) :
    Remembered boot ck (exitKernel boot k s' ret).sthreads (exitKernel boot k s' ret).mem := by
  -- recycling sees the record with the result stored
  have hret : s.Evolves {s' with stRet := ret} :=
    hev.trans (s'.evolves_with s'.stState ret s'.stTf s'.stWalk)
  have hg' : Guarded boot (k.update {s' with stRet := ret}) :=
    hg.evolves (Kernel.evolves_update hs hret rfl)
  have hrec := remembered_recycle hb hg' (h.relabel hs hret hsame)
    (Kernel.mem_update_self hs hret.id)
  rw [Kernel.update_update] at hrec
  · exact hrec
  · rfl

theorem freshRange_of_cons {y : Span} {used : List Span} {addr : Word} {len : ℕ}
    (h : freshRange (y::used) addr len = true) : freshRange used addr len = true := by
  obtain ⟨hroom,hapart⟩ := freshRange_iff.mp h
  exact freshRange_iff.mpr ⟨hroom,fun x hx => hapart x (List.mem_cons_of_mem _ hx)⟩

theorem remembered_freshMem {r : CreateReply} (h : Remembered boot ck k.sthreads k.mem)
    (hstack : freshRange (taken boot k) r.stack 40960 = true)
    (hcopy : freshRange (⟨r.stack.toNat,40960⟩::taken boot k) r.writable boot.copySize = true)
    (hs : s.stStack = r.stack) (hw : s.stWritable = r.writable) :
    Remembered boot ck k.sthreads (freshMem boot k.mem r) ∧
      Clean boot ck (freshMem boot k.mem r) s := by
  have hfilled : Remembered boot ck k.sthreads (fill k.mem r.stack.toNat 40960 0) :=
    h.outside hstack fun a ha => fill_out ha
  refine ⟨hfilled.outside (freshRange_of_cons hcopy) fun a ha => ?_,fun x hx a ha => ?_⟩
  · exact (copy_out ha).trans (fill_out ha)
  · obtain ⟨-,hapart⟩ := freshRange_iff.mp hstack
    obtain ⟨-,hapart'⟩ := freshRange_iff.mp hcopy
    have hown := hapart' _ List.mem_cons_self
    have hck := hapart boot.checkpointSpan List.mem_cons_self
    have hck' := hapart' boot.checkpointSpan (List.mem_cons_of_mem _ List.mem_cons_self)
    simp only [Span.Apart,Span.stop,Boot.checkpointSpan] at hown hck hck'
    simp only [Sthread.privateSpans,List.mem_cons,List.not_mem_nil,or_false] at hx
    rcases hx with rfl | rfl
    · have hfirst : s.firstByte ck a = 0 := if_pos ha
      simp only [Span.mem_bytes,Span.stop,Sthread.stackSpan,hs] at ha
      rw [hfirst,freshMem,copy_out (by omega),fill_out (by omega)]
      exact if_pos ha
    · have hout : a ∉ s.stackSpan.bytes := by
        simp only [Span.mem_bytes,Span.stop,Sthread.stackSpan,Sthread.writableSpan,hs,hw] at ha ⊢
        omega
      have hfirst : s.firstByte ck a = ck (a - r.writable.toNat) := by
        rw [Sthread.firstByte,if_neg hout,hw]
      simp only [Span.mem_bytes,Span.stop,Sthread.writableSpan,hw] at ha
      rw [hfirst,← h.checkpoint _ (by omega),freshMem,copy,if_pos ha,fill_out (by omega),
        fill_out (by omega)]

theorem remembered_relaunch {sc : Sc} {cb arg : Word} (h : Remembered boot ck k.sthreads k.mem)
    (hfound : recyclable k sc = some s) :
    Remembered boot ck (launchSthread boot k {s with stSc := sc} cb arg).sthreads k.mem ∧
      ∀ t ∈ (launchSthread boot k {s with stSc := sc} cb arg).sthreads, t.stId = s.stId →
        Clean boot ck k.mem t := by
  have hs := List.mem_of_find?_eq_some hfound
  have hmatch := List.find?_some hfound
  simp only [Bool.and_eq_true,beq_iff_eq] at hmatch
  have hstop : s.stState ≠ .running := by simp [hmatch.1]
  have hev : s.Evolves {s with stSc := sc,stState := .running} :=
    ⟨rfl,rfl,rfl,rfl,hmatch.2.symm,LeafTable.Related.refl DirtyOnly.refl _⟩
  refine ⟨h.restate hs hev hstop,fun t ht hid => ?_⟩
  obtain rfl := Kernel.mem_update_same ht hid
  exact (h.tracked s hs).clean hstop

theorem shape_of_clonable {i : ℕ} {cb arg : Word} {r : CreateReply} (id : CInt) (hb : boot.Sound)
    (hmaster : masterTable boot k.pgroot = true) (hpg : k.pgroot = m.kernel.pgroot)
    (hnone : recyclable m.kernel (m.policies i) = none)
    (hclone : clonable boot m (.create i cb arg r) = true) (halign : r.writable.toNat % 4096 = 0) :
    Shape boot (newSthread boot k (m.policies i) r id) := by
  simp only [clonable,mirrors,mirrored,hnone,Option.isSome_none,Bool.false_or,Bool.and_eq_true,
    List.all_eq_true,Bool.or_eq_true,beq_iff_eq,decide_eq_true_eq] at hclone
  rw [← hpg] at hclone
  obtain ⟨⟨hmirror,hlow⟩,hsegs,hstack⟩ := hclone
  exact newSthread_shape hb hmaster (fun p e he hp => (hmirror (p,e) he).resolve_left hp)
    (fun seg hseg => covers_of_covered (hsegs seg hseg)) (covers_of_covered hstack) halign hlow

/-- The thread that `sthread_create` enters is clean, fresh or recycled. -/
theorem remembered_create {i : ℕ} {cb arg : Word} {r : CreateReply} {id : CInt} (hb : boot.Sound)
    (hg : Guarded boot m.kernel) (h : Remembered boot ck m.kernel.sthreads m.kernel.mem)
    (hhost : hostFresh boot m (.create i cb arg r) = true)
    (hclone : clonable boot m (.create i cb arg r) = true)
    (hc : sthreadCreate boot m.kernel (m.policies i) cb arg r = .ok (id,k')) :
    Remembered boot ck k'.sthreads k'.mem ∧
      ∀ s ∈ k'.sthreads, s.stId = id → Clean boot ck k'.mem s := by
  unfold sthreadCreate at hc
  split at hc
  · rename_i s hfound
    cases hc
    exact remembered_relaunch h hfound
  · rename_i hnone
    obtain ⟨⟨s,k₂⟩,hnew,hc⟩ := bind_ok.mp hc
    cases hc
    obtain ⟨k₁,hk₁,-,rfl,rfl⟩ := createNewSthread_ok hnew
    have heq := kmalloc_eq hk₁
    have hpg : k₁.pgroot = m.kernel.pgroot := by rw [heq]
    have hmem : k₁.mem = m.kernel.mem := by rw [heq]
    have hrecs : k₁.sthreads = m.kernel.sthreads := by rw [heq]
    simp only [hostFresh,hnone,Option.isSome_none,Bool.false_or,Bool.and_eq_true] at hhost
    obtain ⟨hstack,hcopy⟩ := hhost
    obtain ⟨⟨halign,-⟩,-⟩ := freshRange_iff.mp hcopy
    have hshape := shape_of_clonable (k₁.sthreadId + 1) hb (hpg ▸ hg.master) hpg hnone hclone halign
    obtain ⟨hold,hclean⟩ := remembered_freshMem
      (s := newSthread boot k₁ (m.policies i) r (k₁.sthreadId + 1)) h hstack hcopy rfl rfl
    rw [← hmem] at hold hclean
    rw [← hrecs] at hold
    refine ⟨Remembered.relabel (k := {k₁ with
        sthreads := newSthread boot k₁ (m.policies i) r (k₁.sthreadId + 1)::k₁.sthreads})
      (hold.cons hshape hclean) List.mem_cons_self
      (Sthread.evolves_with _ .running _ _ _) ⟨rfl,rfl⟩,fun t ht hid => ?_⟩
    obtain rfl := Kernel.mem_update_same ht hid
    exact hclean

theorem remembered_tagNew {addr : Word} {id : CInt} (h : Remembered boot ck k.sthreads k.mem)
    (hhost : freshRange (taken boot k) addr 40960 = true) (ht : tagNew k addr = .ok (id,k')) :
    Remembered boot ck k'.sthreads k'.mem := by
  obtain ⟨mem,hmem,ht⟩ := bind_ok.mp ht
  cases ht
  obtain ⟨-,rfl⟩ := mmapAnon_ok hmem
  exact h.outside hhost fun a ha => fill_out ha

/-- Every step keeps the checkpoint, the shape of tables and the meaning of dirty bits. -/
theorem remembered_step (hb : boot.Sound) (hg : Guarded boot m.kernel)
    (h : Remembered boot ck m.kernel.sthreads m.kernel.mem) (hhost : hostFresh boot m l = true)
    (hclone : clonable boot m l = true) (hown : storesOwn m l = true)
    (hstores : hostStores boot m l = true) (hspare : sparesKernel boot m l = true)
    (hstep : step boot m l = .ok m') :
    Remembered boot ck m'.kernel.sthreads m'.kernel.mem := by
  cases stepped_of_step hstep with
  | remap | scInit | scMemAdd | scFdAdd | scSysAdd | joinNone | joinSome | user => exact h
  | tagNew _ hk => exact remembered_tagNew h hhost hk
  | smalloc tid sz _ =>
    rw [smalloc_eq]
    exact h
  | create _ hk => exact (remembered_create hb hg h hhost hclone hk).1
  | @collect st s r _ hf hz =>
    exact h.restate (Kernel.find_mem hf).1 (s.evolves_with _ _ _ _) (by simp [hz])
  | wait _ _ _ hs => exact remembered_schedule h (h.stores hstores hspare) hs
  | store hm hk =>
    simp only [storesOwn,hm,Option.any_eq_true,Bool.and_eq_true,beq_iff_eq] at hown
    obtain ⟨s,hf,hrun,hcr3⟩ := hown
    refine remembered_store hb hg h hf hrun hcr3 (fun a ha => ?_) hk
    simpa [sparesKernel,hm,hf,loadedTable,hcr3,ha] using hspare
  | blocked _ _ _ hf hc | openFailed _ _ _ hf hc =>
    exact h.relabel (Kernel.find_mem hf).1 (syscallCheck_evolves hc) (syscallCheck_table hc)
  | passed _ _ _ hf hc =>
    exact (h.stores hstores hspare).relabel (Kernel.find_mem hf).1 (syscallCheck_evolves hc)
      (syscallCheck_table hc)
  | opened _ _ _ hf hc _ hsc =>
    have hsame := syscallCheck_table hc
    refine h.relabel (Kernel.find_mem hf).1 ((syscallCheck_evolves hc).trans ?_) hsame
    exact ⟨rfl,rfl,rfl,rfl,scFdAdd_scMem hsc,LeafTable.Related.refl DirtyOnly.refl _⟩
  | exited _ _ hf hc _ hu =>
    exact remembered_unwind (remembered_exit hb hg h (Kernel.find_mem hf).1 (syscallCheck_evolves hc)
      (syscallCheck_table hc)) hu
  | @read u c s s' tf tf' _ _ _ _ hf hc _ hs =>
    have hs' := (Kernel.find_mem hf).1
    have hev := (syscallCheck_evolves hc).trans (s'.evolves_with s'.stState s'.stRet tf' s'.stWalk)
    have hsame := syscallCheck_table hc
    exact remembered_schedule (h.relabel hs' hev hsame) ((h.stores hstores hspare).relabel hs' hev hsame) hs

end Steps

section Size

theorem checkpointSum_toNat (segs : List Segment) (n : CInt) :
    (segs.foldl (fun n seg => n + seg.sLen.setWidth 32) n).toNat =
      (n.toNat + (segs.map fun seg => seg.sLen.toNat).sum) % 2^32 := by
  induction segs generalizing n with
  | nil => exact (Nat.mod_eq_of_lt n.isLt).symm
  | cons seg rest ih =>
    rw [List.foldl_cons,ih,BitVec.toNat_add,BitVec.toNat_setWidth,List.map_cons,List.sum_cons]
    omega

theorem segmentPages_mul (segs : List Segment) (hwf : ∀ seg ∈ segs, seg.WellFormed) :
    4096 * segmentPages segs = (segs.map fun seg => seg.sLen.toNat).sum := by
  induction segs with
  | nil => rfl
  | cons seg rest ih =>
    have hseg : 4096 * (seg.sLen.toNat / 4096) = seg.sLen.toNat :=
      (hwf seg List.mem_cons_self).pages_mul
    have hrest := ih fun x hx => hwf x (List.mem_cons_of_mem _ hx)
    rw [segmentPages_cons,List.map_cons,List.sum_cons,Nat.mul_add,hseg,hrest]

end Size

section Runs
variable {rt : Runtime} {segments : List Segment} {pgroot : LeafTable Word} {mem : Mem}
  {r : InitReply} {boot : Boot} {m₀ m : Machine}

/-- An accepted checkpoint has exactly the writable bytes: the sum kept in an `int`
has not wrapped. -/
theorem copySize_eq (hinit : sthreadInit rt segments pgroot mem r = .ok (boot,m₀))
    (hwf : ∀ seg ∈ segments, seg.WellFormed) (hlow : boot.copySize ≤ 2^47) :
    boot.copySize = 4096 * segmentPages boot.writableSegments := by
  obtain ⟨hboot,htotal,-⟩ := sthreadInit_ok hinit
  have hsum := checkpointSum_toNat (segments.filter Segment.writable) 0
  have hpages := segmentPages_mul (segments.filter Segment.writable)
    fun seg hseg => hwf seg (List.mem_filter.mp hseg).1
  have hsize : boot.copySize = ((checkpointSize segments).signExtend 64).toNat := by
    rw [Boot.copySize,hboot]
  have hsegs : boot.writableSegments = segments.filter Segment.writable := by
    rw [Boot.writableSegments,hboot]
  have hcount : (checkpointSize segments).toNat = checkpointTotal segments % 2^32 := by
    rw [checkpointSize,hsum,checkpointTotal]
    simp
  rw [hsegs,hpages]
  change boot.copySize = checkpointTotal segments
  rw [hsize,BitVec.toNat_signExtend,BitVec.toNat_setWidth] at hlow htotal ⊢
  split_ifs at hlow htotal ⊢ <;> omega

theorem sound_init (hinit : sthreadInit rt segments pgroot mem r = .ok (boot,m₀))
    (hwf : ∀ seg ∈ segments, seg.WellFormed)
    (hapart : segments.Pairwise fun x y => x.span.Apart y.span)
    (hlow : r.checkpoint.toNat + boot.copySize ≤ 2^47)
    (hround : boot.RoundTrip) : boot.Sound := by
  have hsize := copySize_eq hinit hwf (by omega)
  obtain ⟨hboot,-,-⟩ := sthreadInit_ok hinit
  have hsegs : boot.segments = segments := by rw [hboot]
  have hck : boot.checkpointedMem = r.checkpoint := by rw [hboot]
  exact ⟨by rwa [hsegs],by rwa [hsegs],hsize,by rw [hck]; omega,hround⟩

/-- What is assumed of the host, the runtime library and user code in a run. -/
def recycles (boot : Boot) (m : Machine) (l : Label) : Bool :=
  hostFresh boot m l && clonable boot m l && storesOwn m l

theorem hostFresh_of_recycles {a : Machine} {l : Label}
    (h : (recycles boot a l && hostStores boot a l && sparesKernel boot a l) = true) :
    hostFresh boot a l = true := by
  simp only [recycles,Bool.and_eq_true] at h
  exact h.1.1.1.1

theorem runs_remembered {ls : List Label}
    (hinit : sthreadInit rt segments pgroot mem r = .ok (boot,m₀)) (hb : boot.Sound)
    (hfresh : initFresh segments r = true) (hmaster : masterTable boot pgroot = true)
    (hruns : Runs (fun a l b => (recycles boot a l && hostStores boot a l && sparesKernel boot a l) =
      true ∧ step boot a l = .ok b) m₀ ls m) :
    Guarded boot m.kernel ∧
    Remembered boot (fun o => m₀.kernel.mem (boot.checkpointedMem.toNat + o)) m.kernel.sthreads
      m.kernel.mem := by
  obtain ⟨hboot,-,hstart⟩ := sthreadInit_ok hinit
  have hsegs : boot.segments = segments := by rw [hboot]
  have hnone : m₀.kernel.sthreads = [] := by rw [hstart]
  have hwf := hb.wellFormed
  rw [hsegs] at hwf
  induction hruns with
  | start =>
    refine ⟨(runs_guarded hinit hwf hfresh hmaster (.start _)).1,fun o _ => rfl,?_,?_⟩
    · simp [hnone]
    · simp [hnone]
  | next hpast hlast ih =>
    obtain ⟨hcond,hstep⟩ := hlast
    have hfreshly := (hpast.next ⟨hcond,hstep⟩).mono fun a l b h =>
      And.intro (hostFresh_of_recycles h.1) h.2
    simp only [recycles,Bool.and_eq_true] at hcond
    obtain ⟨⟨⟨⟨hhost,hclone⟩,hown⟩,hstores⟩,hspare⟩ := hcond
    exact ⟨(runs_guarded hinit hwf hfresh hmaster hfreshly).1,
      remembered_step hb ih.1 ih.2 hhost hclone hown hstores hspare hstep⟩

theorem Clean.contents {ck : ℕ → Byte} {s : Sthread} (h : Clean boot ck mem s)
    (hown : s.stackSpan.Apart (s.writableSpan boot)) :
    (∀ o < boot.copySize, mem (s.stWritable.toNat + o) = ck o) ∧
      ∀ o < 40960, mem (s.stStack.toNat + o) = 0 := by
  refine ⟨fun o ho => ?_,fun o ho => ?_⟩
  · have hin : s.stWritable.toNat + o ∈ (s.writableSpan boot).bytes :=
      Span.mem_bytes.mpr ⟨Nat.le_add_right _ _,Nat.add_lt_add_left ho _⟩
    rw [h _ (by simp [Sthread.privateSpans]) _ hin,Sthread.firstByte,
      if_neg (hown.symm.not_mem hin),Nat.add_sub_cancel_left]
  · have hin : s.stStack.toNat + o ∈ s.stackSpan.bytes :=
      Span.mem_bytes.mpr ⟨Nat.le_add_right _ _,Nat.add_lt_add_left ho _⟩
    rw [h _ List.mem_cons_self _ hin,Sthread.firstByte,if_pos hin]

/-- As long as no store falls on the kernel's data, the kernel reads its variables from a
thread's copy as the checkpoint has them, so recycling goes by the segments and the
checkpoint that initialisation recorded. -/
theorem runs_keep_kernelVars {ls : List Label}
    (hinit : sthreadInit rt segments pgroot mem r = .ok (boot,m₀)) (hb : boot.Sound)
    (hfresh : initFresh segments r = true) (hmaster : masterTable boot pgroot = true)
    (hruns : Runs (fun a l b => (recycles boot a l && hostStores boot a l && sparesKernel boot a l) =
      true ∧ step boot a l = .ok b) m₀ ls m) :
    ∀ s ∈ m.kernel.sthreads, ∀ o < boot.copySize,
      kernelVar boot s.table (s.stWritable.toNat + o) = true →
      m.kernel.mem (s.stWritable.toNat + o) = m₀.kernel.mem (boot.checkpointedMem.toNat + o) := by
  obtain ⟨hg,h⟩ := runs_remembered hinit hb hfresh hmaster hruns
  intro s hs o ho hvar
  have hin : s.stWritable.toNat + o ∈ (s.writableSpan boot).bytes :=
    Span.mem_bytes.mpr ⟨Nat.le_add_right _ _,Nat.add_lt_add_left ho _⟩
  have hout := (hg.layout.placed s hs).own.symm.not_mem hin
  rcases h.tracked s hs _ (by simp [Sthread.privateSpans]) _ hin with heq | hdiffers
  · rw [heq,Sthread.firstByte,if_neg hout,Nat.add_sub_cancel_left]
  · rw [(mayDiffer_iff.mp hdiffers).2] at hvar
    cases hvar

/-- In every run that spares the kernel's data and in which the host stores only into
dirty pages, each thread starts with the checkpoint in its copy and an empty stack,
whether fresh or recycled. -/
theorem runs_start_fresh {ls : List Label} {i : ℕ} {cb arg : Word} {cr : CreateReply}
    (hinit : sthreadInit rt segments pgroot mem r = .ok (boot,m₀))
    (hwf : ∀ seg ∈ segments, seg.WellFormed)
    (hapart : segments.Pairwise fun x y => x.span.Apart y.span)
    (hfresh : initFresh segments r = true) (hlow : r.checkpoint.toNat + boot.copySize ≤ 2^47)
    (hmaster : masterTable boot pgroot = true)
    (hround : boot.RoundTrip)
    (hruns : Runs (fun a l b => (recycles boot a l && hostStores boot a l && sparesKernel boot a l) =
      true ∧ step boot a l = .ok b) m₀ (.create i cb arg cr::ls) m) :
    ∀ u s, m.mode = .user u → m.kernel.find u = some s →
      (∀ o < boot.copySize, m.kernel.mem (s.stWritable.toNat + o) =
        m₀.kernel.mem (boot.checkpointedMem.toNat + o)) ∧
      ∀ o < 40960, m.kernel.mem (s.stStack.toNat + o) = 0 := by
  have hb := sound_init hinit hwf hapart hlow hround
  have hafter := (runs_remembered hinit hb hfresh hmaster hruns).1
  intro u s hu hf
  obtain ⟨hs,hid⟩ := Kernel.find_mem hf
  have hown := (hafter.layout.placed s hs).own
  cases hruns with
  | next hpast hlast =>
    obtain ⟨hcond,hstep⟩ := hlast
    obtain ⟨hg,h⟩ := runs_remembered hinit hb hfresh hmaster hpast
    simp only [recycles,Bool.and_eq_true] at hcond
    obtain ⟨⟨⟨⟨hhost,hclone⟩,-⟩,-⟩,-⟩ := hcond
    cases stepped_of_step hstep with
    | create _ hk =>
      obtain rfl := Mode.user.inj hu
      exact ((remembered_create hb hg h hhost hclone hk).2 s hs hid).contents hown

end Runs

section ReadIntoCopy

def stackPages : LeafTable Word :=
  ⟨(0x400,0x400007)::(List.range 10).map fun i => (0x23000 + i,BitVec.ofNat 64 (0x23000007 + 0x1000*i)),
    by decide⟩

/-- A thread reads four bytes into its writable memory while the master waits in
`sthread_join`, exits, and is created again. -/
def readAndExit : List Label := [
  .create 0 0 0 ⟨0x23000000,0x24000000,0x2000000⟩,
  .poll {},
  .syscall exitCall {},
  .poll {ret := 4,stores := [(0x24000000,0x43)]},
  .join 1,
  .syscall readFour {}]

def createReader : List Label := [
  .create 0 0 0 ⟨0x23000000,0x24000000,0x2000000⟩,
  .scFdAdd 0 3 PROT_READ]

/-- A thread that has stored into the page before it reads is recycled completely. -/
theorem runs_start_fresh_readAndExit : ∃ boot m₀ m,
    sthreadInit flatRuntime oneSegment stackPages (fun _ => 0) flatInit = .ok (boot,m₀) ∧
    Runs (fun a l b => (recycles boot a l && hostStores boot a l && sparesKernel boot a l) = true ∧
      step boot a l = .ok b) m₀ (readAndExit ++ .store 0x400000 0x41::createReader) m ∧
    m.mode = .user 1 ∧ m.kernel.sthreads.length = 1 ∧ ∃ s, m.kernel.find 1 = some s ∧
      (∀ o < boot.copySize, m.kernel.mem (s.stWritable.toNat + o) =
        m₀.kernel.mem (boot.checkpointedMem.toNat + o)) ∧
      ∀ o < 40960, m.kernel.mem (s.stStack.toNat + o) = 0 := by
  obtain ⟨boot,m₀,m,hinit,hruns,hp⟩ := exists_of_play flatRuntime oneSegment stackPages
    (fun _ => 0) flatInit (fun boot a l => recycles boot a l && hostStores boot a l &&
      sparesKernel boot a l) (readAndExit ++ .store 0x400000 0x41::createReader)
    (fun m => m.mode == .user 1 && m.kernel.sthreads.length == 1 && (m.kernel.find 1).isSome)
    (by decide +kernel)
  simp only [Bool.and_eq_true,beq_iff_eq] at hp
  obtain ⟨⟨hmode,hone⟩,hfind⟩ := hp
  obtain ⟨s,hs⟩ := Option.isSome_iff_exists.mp hfind
  obtain ⟨hboot,-,-⟩ := sthreadInit_ok hinit
  have hwf : ∀ seg ∈ oneSegment, seg.WellFormed := by
    intro seg hseg
    obtain rfl := List.mem_singleton.mp hseg
    exact ⟨by decide,by decide,by decide,by decide⟩
  have hround : boot.RoundTrip := by
    rw [hboot]
    exact roundTrip_of_flat rfl rfl
  exact ⟨boot,m₀,m,hinit,hruns,hmode,hone,s,hs,runs_start_fresh hinit hwf (by decide)
    (by decide +kernel) (by rw [hboot]; decide) (by rw [hboot]; decide +kernel) hround hruns 1 s hmode hs⟩

/-- Without that store the page is not dirty, and the recycled thread starts with the
bytes its predecessor read. -/
theorem recycled_copy_not_restored : ∃ boot m₀ m s,
    sthreadInit flatRuntime oneSegment stackPages (fun _ => 0) flatInit = .ok (boot,m₀) ∧
    Runs (fun a l b => (recycles boot a l && sparesKernel boot a l) = true ∧ step boot a l = .ok b) m₀
      (readAndExit ++ createReader) m ∧
    m.mode = .user 1 ∧ m.kernel.sthreads.length = 1 ∧ m.kernel.find 1 = some s ∧
    m.kernel.mem s.stWritable.toNat = 0x43 ∧ m₀.kernel.mem boot.checkpointedMem.toNat = 0 := by
  obtain ⟨boot,m₀,m,hinit,hruns,hp⟩ := exists_of_play flatRuntime oneSegment stackPages
    (fun _ => 0) flatInit (fun boot a l => recycles boot a l && sparesKernel boot a l)
    (readAndExit ++ createReader) (fun m => m.mode == .user 1 && m.kernel.sthreads.length == 1 &&
      (m.kernel.find 1).any fun s => m.kernel.mem s.stWritable.toNat == 0x43) (by decide +kernel)
  simp only [Bool.and_eq_true,beq_iff_eq,Option.any_eq_true] at hp
  obtain ⟨⟨hmode,hone⟩,s,hs,hbyte⟩ := hp
  obtain ⟨hboot,-,hstart⟩ := sthreadInit_ok hinit
  refine ⟨boot,m₀,m,s,hinit,hruns,hmode,hone,hs,hbyte,?_⟩
  rw [hstart,hboot]
  decide +kernel

end ReadIntoCopy

end Sthreads
end VmplApps

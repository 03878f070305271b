import VmplApps.SthreadEvents
import VmplApps.SthreadTables

/-! Memory isolation over whole runs. The host hands out ranges that are apart from
everything in use; threads, tags and policies come from the library's calls. Then
every present entry of every thread's table grants what its current policy allows,
also after recycling, and neither addresses nor frames of private memory are shared. -/
namespace VmplApps
namespace Sthreads

def Sthread.privateSpans (boot : Boot) (s : Sthread) : List Span := [s.stackSpan,s.writableSpan boot]

def Boot.checkpointSpan (boot : Boot) : Span := ⟨boot.checkpointedMem.toNat,boot.copySize⟩

/-- Ranges in use: the recorded segments and all that the host returned. -/
def taken (boot : Boot) (k : Kernel) : List Span :=
  boot.checkpointSpan::(boot.segments.map Segment.span ++ k.tags.map Tag.span ++
    k.sthreads.flatMap (Sthread.privateSpans boot))

/-- A reply of `mmap`: whole pages, apart from everything in use. -/
def freshRange (used : List Span) (addr : Word) (len : ℕ) : Bool :=
  addr.toNat % 4096 == 0 && decide (addr.toNat + len ≤ 2^64) &&
    used.all fun s => decide (Span.Apart ⟨addr.toNat,len⟩ s)

/-- What is assumed of the host and of the runtime library at a step. -/
def hostFresh (boot : Boot) (m : Machine) : Label → Bool
  | .tagNew addr => freshRange (taken boot m.kernel) addr 40960
  | .create i _ _ r => (recyclable m.kernel (m.policies i)).isSome ||
      freshRange (taken boot m.kernel) r.stack 40960 &&
      freshRange (⟨r.stack.toNat,40960⟩::taken boot m.kernel) r.writable boot.copySize
  | .remap pg => masterTable boot pg
  | _ => true

/-- The table that is cloned for a fresh thread maps pages to themselves, and the thread's
copy has a user address. -/
def mirrors (boot : Boot) (m : Machine) : Label → Bool
  | .create i _ _ r => (recyclable m.kernel (m.policies i)).isSome ||
      mirrored boot m.kernel.pgroot && decide (r.writable.toNat + boot.copySize ≤ 2^47)
  | _ => true

def initFresh (segments : List Segment) (r : InitReply) : Bool :=
  freshRange (segments.map Segment.span) r.checkpoint ((checkpointSize segments).signExtend 64).toNat &&
    freshRange (⟨r.checkpoint.toNat,((checkpointSize segments).signExtend 64).toNat⟩::
      segments.map Segment.span) r.kernelTag 40960

structure Sthread.Placed (boot : Boot) (tags : List Tag) (sthreads : List Sthread) (s : Sthread) :
    Prop where
  stack : s.stStack.toNat % 4096 = 0 ∧ s.stStack.toNat + 40960 ≤ 2^64
  writable : s.stWritable.toNat % 4096 = 0 ∧ s.stWritable.toNat + boot.copySize ≤ 2^64
  own : s.stackSpan.Apart (s.writableSpan boot)
  shared : ∀ x ∈ s.privateSpans boot, ∀ y ∈ boot.checkpointSpan::
    (boot.segments.map Segment.span ++ tags.map Tag.span), x.Apart y
  others : ∀ t ∈ sthreads, t.stId ≠ s.stId →
    ∀ x ∈ s.privateSpans boot, ∀ y ∈ t.privateSpans boot, x.Apart y

/-- Ids name threads, tags are whole pages, and private memory is apart. -/
structure Layout (boot : Boot) (k : Kernel) : Prop where
  numbered : Numbered k
  tags : ∀ t ∈ k.tags, t.tBuf.toNat % 4096 = 0
  checkpoint : ∀ y ∈ boot.segments.map Segment.span ++ k.tags.map Tag.span,
    boot.checkpointSpan.Apart y
  placed : ∀ s ∈ k.sthreads, s.Placed boot k.tags k.sthreads

section Layout
variable {boot : Boot} {k k' : Kernel} {m m' : Machine} {l : Label}

theorem freshRange_iff {used : List Span} {addr : Word} {len : ℕ} :
    freshRange used addr len = true ↔ (addr.toNat % 4096 = 0 ∧ addr.toNat + len ≤ 2^64) ∧
      ∀ y ∈ used, Span.Apart ⟨addr.toNat,len⟩ y := by
  simp [freshRange,and_assoc]

theorem Sthread.Evolves.privateSpans {s s' : Sthread} (h : s.Evolves s') :
    s'.privateSpans boot = s.privateSpans boot := by
  simp only [Sthread.privateSpans,Sthread.stackSpan,Sthread.writableSpan,h.stack,h.writable]

theorem Sthread.Placed.evolves {tags : List Tag} {ss ss' : List Sthread} {s s' : Sthread}
    (h : s.Placed boot tags ss) (hev : s.Evolves s')
    (hss : ∀ t' ∈ ss', ∃ t ∈ ss, t.Evolves t') : s'.Placed boot tags ss' := by
  refine ⟨by rw [hev.stack]; exact h.stack,by rw [hev.writable]; exact h.writable,?_,?_,?_⟩
  · simpa only [Sthread.stackSpan,Sthread.writableSpan,hev.stack,hev.writable] using h.own
  · rw [hev.privateSpans]
    exact h.shared
  · intro t' ht' hne
    obtain ⟨t,ht,hte⟩ := hss t' ht'
    rw [hev.privateSpans,hte.privateSpans]
    exact h.others t ht (by rwa [← hte.id,← hev.id])

theorem Layout.evolves (h : Layout boot k) (hev : k.Evolves k') : Layout boot k' := by
  refine ⟨h.numbered.evolves hev,by rw [hev.tags]; exact h.tags,by rw [hev.tags]; exact h.checkpoint,
    fun s' hs' => ?_⟩
  obtain ⟨s,hs,hse⟩ := hev.records s' hs'
  rw [hev.tags]
  exact (h.placed s hs).evolves hse hev.records

theorem bumpTag_tBuf (tid : CInt) (sz : Word) (tags : List Tag) :
    (bumpTag tid sz tags).map Tag.tBuf = tags.map Tag.tBuf := by
  induction tags with
  | nil => rfl
  | cons t rest ih =>
    unfold bumpTag
    split_ifs <;> simp [ih]

theorem smalloc_tBuf (k : Kernel) (tid : CInt) (sz : Word) :
    (smalloc k tid sz).2.tags.map Tag.tBuf = k.tags.map Tag.tBuf := by
  rcases smalloc_cases k tid sz with hs | ⟨t,-,-,hs⟩ <;> rw [hs]
  exact bumpTag_tBuf tid sz k.tags

theorem kmalloc_tBuf {sz : CInt} (h : kmalloc boot k sz = .ok k') :
    k'.tags.map Tag.tBuf = k.tags.map Tag.tBuf := by
  rw [(kmalloc_ok h).1,smalloc_tBuf]

theorem span_of_tBuf {tags tags' : List Tag} (h : tags'.map Tag.tBuf = tags.map Tag.tBuf) :
    tags'.map Tag.span = tags.map Tag.span := by
  have hspan (l : List Tag) : l.map Tag.span = (l.map Tag.tBuf).map fun b => ⟨b.toNat,40960⟩ := by
    rw [List.map_map]
    rfl
  rw [hspan,hspan,h]

theorem Layout.retag {tags : List Tag} (h : Layout boot k)
    (htags : tags.map Tag.tBuf = k.tags.map Tag.tBuf) : Layout boot {k with tags := tags} := by
  refine ⟨h.numbered.same rfl rfl,fun t ht => ?_,by rw [span_of_tBuf htags]; exact h.checkpoint,
    fun s hs => ?_⟩
  · have hmem : t.tBuf ∈ k.tags.map Tag.tBuf := htags ▸ List.mem_map_of_mem ht
    obtain ⟨t₀,ht₀,heq⟩ := List.mem_map.mp hmem
    rw [← heq]
    exact h.tags t₀ ht₀
  · obtain ⟨hstack,hwritable,hown,hshared,hothers⟩ := h.placed s hs
    exact ⟨hstack,hwritable,hown,by rw [span_of_tBuf htags]; exact hshared,hothers⟩

theorem Layout.tag {addr : Word} {id : CInt} (h : Layout boot k)
    (hf : freshRange (taken boot k) addr 40960 = true) :
    Layout boot {k with tags := ⟨k.tagId,addr,addr,TAG_SIZE.setWidth 32⟩::k.tags,tagId := id} := by
  obtain ⟨⟨halign,-⟩,hapart⟩ := freshRange_iff.mp hf
  refine ⟨h.numbered.same rfl rfl,fun t ht => ?_,fun y hy => ?_,fun s hs => ?_⟩
  · rcases List.mem_cons.mp ht with rfl | ht
    · exact halign
    · exact h.tags t ht
  · simp only [List.map_cons,List.mem_append,List.mem_cons] at hy
    rcases hy with hy | rfl | hy
    · exact h.checkpoint y (List.mem_append_left _ hy)
    · exact (hapart _ List.mem_cons_self).symm
    · exact h.checkpoint y (List.mem_append_right _ hy)
  · obtain ⟨hstack,hwritable,hown,hshared,hothers⟩ := h.placed s hs
    refine ⟨hstack,hwritable,hown,fun x hx y hy => ?_,hothers⟩
    have hnew : x.Apart ⟨addr.toNat,40960⟩ := by
      refine (hapart x ?_).symm
      exact List.mem_cons_of_mem _ (List.mem_append_right _ (List.mem_flatMap.mpr ⟨s,hs,hx⟩))
    simp only [List.map_cons,List.mem_cons,List.mem_append] at hy
    rcases hy with rfl | hy | rfl | hy
    · exact hshared x hx _ List.mem_cons_self
    · exact hshared x hx y (List.mem_cons_of_mem _ (List.mem_append_left _ hy))
    · exact hnew
    · exact hshared x hx y (List.mem_cons_of_mem _ (List.mem_append_right _ hy))

theorem Layout.fresh {s : Sthread} (h : Layout boot k) (h0 : 0 ≤ (k.sthreadId + 1).toInt)
    (hid : s.stId = k.sthreadId + 1) (hstack : freshRange (taken boot k) s.stStack 40960 = true)
    (hwritable : freshRange (s.stackSpan::taken boot k) s.stWritable boot.copySize = true) :
    Layout boot {k with sthreads := s::k.sthreads,sthreadId := k.sthreadId + 1} := by
  obtain ⟨hs,hapart⟩ := freshRange_iff.mp hstack
  obtain ⟨hw,hapart'⟩ := freshRange_iff.mp hwritable
  have hnew : ∀ x ∈ s.privateSpans boot, ∀ y ∈ taken boot k, x.Apart y := by
    intro x hx y hy
    simp only [Sthread.privateSpans,List.mem_cons,List.not_mem_nil,or_false] at hx
    rcases hx with rfl | rfl
    · exact hapart y hy
    · exact hapart' y (List.mem_cons_of_mem _ hy)
  have hmem {t : Sthread} (ht : t ∈ k.sthreads) {y : Span} (hy : y ∈ t.privateSpans boot) :
      y ∈ taken boot k :=
    List.mem_cons_of_mem _ (List.mem_append_right _ (List.mem_flatMap.mpr ⟨t,ht,hy⟩))
  refine ⟨h.numbered.fresh h0 hid,h.tags,h.checkpoint,fun t ht => ?_⟩
  rcases List.mem_cons.mp ht with rfl | hold
  · refine ⟨hs,hw,(hapart' _ List.mem_cons_self).symm,fun x hx y hy => hnew x hx y ?_,?_⟩
    · rcases List.mem_cons.mp hy with rfl | hy
      · exact List.mem_cons_self
      · exact List.mem_cons_of_mem _ (List.mem_append_left _ hy)
    · intro t' ht' hne x hx y hy
      rcases List.mem_cons.mp ht' with rfl | ht'
      · exact absurd rfl hne
      · exact hnew x hx y (hmem ht' hy)
  · obtain ⟨hstack',hwritable',hown,hshared,hothers⟩ := h.placed t hold
    refine ⟨hstack',hwritable',hown,hshared,fun t' ht' hne x hx y hy => ?_⟩
    rcases List.mem_cons.mp ht' with rfl | ht'
    · exact (hnew y hy x (hmem hold hx)).symm
    · exact hothers t' ht' hne x hx y hy

end Layout

section Policies
variable {boot : Boot} {m m' : Machine} {l : Label}

theorem Sc.Known.mono {tags tags' : List Tag} {sc : Sc}
    (h : sc.Known tags) (hsub : ∀ t ∈ tags, ∃ t' ∈ tags', t'.tBuf = t.tBuf) : sc.Known tags' := by
  intro w hw h0
  obtain ⟨t,ht,hbuf⟩ := h w hw h0
  obtain ⟨t',ht',heq⟩ := hsub t ht
  exact ⟨t',ht',hbuf.trans heq.symm⟩

theorem known_scInit (tags : List Tag) : scInit.Known tags := by
  intro w hw h0
  simp only [scInit,Vector.toList_replicate,List.mem_replicate] at hw
  exact absurd hw.2 h0

theorem tag_entry {addr : Word} {prot : CInt} (halign : addr &&& 0xfffffffffffffff0 = addr)
    (hprot : prot &&& 0xf = prot) :
    (addr ||| prot.signExtend 64) &&& 0xfffffffffffffff0 = addr := by
  have hsmall : prot.toNat ≤ 15 := by
    rw [← hprot,BitVec.toNat_and]
    exact Nat.and_le_right
  have hclear : prot.signExtend 64 &&& 0xfffffffffffffff0 = 0 := by
    refine BitVec.eq_of_toNat_eq ?_
    have hdown := Words.alignDown_toNat (by omega : 4 ≤ 64) (prot.signExtend 64)
    rw [Words.signExtend_toNat (by omega)] at hdown
    exact hdown.trans (by simp; omega)
  rw [Words.or_and_of_disjoint hclear,halign]

theorem known_scMemAdd {tags : List Tag} {sc sc' : Sc} {tid prot : CInt} (h : sc.Known tags)
    (hadd : scMemAdd tags sc tid prot = .ok sc') : sc'.Known tags := by
  unfold scMemAdd at hadd
  split at hadd
  · cases hadd
  · rename_i t ht
    obtain ⟨mem,hmem,hadd⟩ := bind_ok.mp hadd
    split_ifs at hadd with hok
    cases hadd
    unfold setFirstZero at hmem
    split at hmem
    · cases hmem
    · cases hmem
      intro w hw h0
      rw [Vector.toList_setIfInBounds] at hw
      rcases List.mem_or_eq_of_mem_set hw with hw | rfl
      · exact h w hw h0
      · exact ⟨t,List.mem_of_find?_eq_some ht,by rw [tag_entry (by rw [hok.1]; exact hok.1) hok.2]; exact hok.1⟩

theorem schedule_policies {caller : Caller} {r : HostReply}
    (h : schedule boot m caller r = .ok m') : m'.policies = m.policies := by
  rcases schedule_cases h with ⟨s,-,rfl⟩ | ⟨-,-,h⟩
  · rfl
  · obtain ⟨f,fs,-,rfl⟩ := unwind_ok h
    rfl

theorem known_setPolicy {i : ℕ} {sc : Sc} (hk : ∀ j, (m.policies j).Known m.kernel.tags)
    (hsc : sc.Known m.kernel.tags) (j : ℕ) : ((setPolicy m i sc).policies j).Known m.kernel.tags := by
  by_cases hj : j = i
  · subst hj
    simpa [setPolicy] using hsc
  · simpa [setPolicy,hj] using hk j

theorem known_step (hk : ∀ i, (m.policies i).Known m.kernel.tags) (h : step boot m l = .ok m')
    (i : ℕ) : (m'.policies i).Known m.kernel.tags := by
  cases stepped_of_step h with
  | scInit j _ => exact known_setPolicy hk (known_scInit _) i
  | @scMemAdd j _ _ _ _ hadd => exact known_setPolicy hk (known_scMemAdd (hk j) hadd) i
  | @scFdAdd j _ _ sc _ hadd =>
    refine known_setPolicy hk ?_ i
    rw [Sc.Known,scFdAdd_scMem hadd]
    exact hk j
  | @scSysAdd j _ sc _ hadd =>
    refine known_setPolicy hk ?_ i
    unfold Sthreads.scSysAdd at hadd
    dsimp only at hadd
    split_ifs at hadd
    cases hadd
    exact hk j
  | wait _ _ _ hs | read _ _ _ _ _ hs =>
    rw [schedule_policies hs]
    exact hk i
  | exited _ _ _ _ _ hu =>
    obtain ⟨f,fs,-,rfl⟩ := unwind_ok hu
    exact hk i
  | _ => exact hk i

theorem prepared_tags {k : Kernel} (h : Prepared boot m l k) :
    ∀ t ∈ m.kernel.tags, ∃ t' ∈ k.tags, t'.tBuf = t.tBuf := by
  have hbump (tid : CInt) (sz : Word) (t : Tag) (ht : t ∈ m.kernel.tags) :
      ∃ t' ∈ (smalloc m.kernel tid sz).2.tags, t'.tBuf = t.tBuf := by
    have hmem : t.tBuf ∈ (smalloc m.kernel tid sz).2.tags.map Tag.tBuf := by
      rw [smalloc_tBuf]
      exact List.mem_map_of_mem ht
    exact List.mem_map.mp hmem
  intro t ht
  cases h with
  | same | remap => exact ⟨t,ht,rfl⟩
  | tag => exact ⟨t,List.mem_cons_of_mem _ ht,rfl⟩
  | bump tid sz => exact hbump tid sz t ht
  | fresh _ hk _ =>
    obtain ⟨rfl,-⟩ := kmalloc_ok hk
    exact hbump _ _ t ht

end Policies

structure Guarded (boot : Boot) (k : Kernel) : Prop where
  layout : Layout boot k
  master : masterTable boot k.pgroot = true
  granted : ∀ s ∈ k.sthreads, ∀ p e, (p,e) ∈ s.table.leaves → e &&& PTE_P ≠ 0 →
    Granted boot k.tags s p e

section Guarded
variable {boot : Boot} {k k' : Kernel} {m m' : Machine} {l : Label}

theorem Granted.mono {tags tags' : List Tag} {s : Sthread} {p : ℕ} {e : Word}
    (h : Granted boot tags s p e) (hsub : ∀ t ∈ tags, ∃ t' ∈ tags', t'.tBuf = t.tBuf) :
    Granted boot tags' s p e := by
  have hspan {t t' : Tag} (heq : t'.tBuf = t.tBuf) : t'.span = t.span := by rw [Tag.span,Tag.span,heq]
  refine ⟨fun hu => ?_,fun hu hw => ?_⟩
  · rcases h.user hu with hseg | hstack | ⟨t,ht,⟨w,hw,h0,hbuf⟩,hin⟩
    · exact .inl hseg
    · exact .inr (.inl hstack)
    · obtain ⟨t',ht',heq⟩ := hsub t ht
      exact .inr (.inr ⟨t',ht',⟨w,hw,h0,hbuf.trans heq.symm⟩,hspan heq ▸ hin⟩)
  · rcases h.write hu hw with hcopy | hstack | ⟨t,ht,⟨w,hw,h0,hbuf,hprot⟩,hin⟩
    · exact .inl hcopy
    · exact .inr (.inl hstack)
    · obtain ⟨t',ht',heq⟩ := hsub t ht
      exact .inr (.inr ⟨t',ht',⟨w,hw,h0,hbuf.trans heq.symm,hprot⟩,hspan heq ▸ hin⟩)

theorem Granted.evolves {tags : List Tag} {s s' : Sthread} {p : ℕ} {e e' : Word}
    (h : Granted boot tags s p e) (hev : s.Evolves s') (hd : DirtyOnly e e') :
    Granted boot tags s' p e' := by
  have hu' : e' &&& PTE_U = e &&& PTE_U := hd.and_eq rfl
  have hw' : e' &&& PTE_W = e &&& PTE_W := hd.and_eq rfl
  have hframe : pteAddr e' = pteAddr e := hd.and_eq rfl
  have hstack : s'.stackSpan = s.stackSpan := by rw [Sthread.stackSpan,Sthread.stackSpan,hev.stack]
  have hcopy : s'.writableSpan boot = s.writableSpan boot := by
    rw [Sthread.writableSpan,Sthread.writableSpan,hev.writable]
  refine ⟨fun hu => ?_,fun hu hw => ?_⟩
  · have h := h.user (hu' ▸ hu)
    simpa only [hstack,Sc.Lists,hev.tags] using h
  · have h := h.write (hu' ▸ hu) (hw' ▸ hw)
    simpa only [hstack,hcopy,Sc.ListsWritable,hev.tags,MapsPage,hframe] using h

theorem masterTable_related {t t' : LeafTable Word} (h : masterTable boot t = true)
    (hr : LeafTable.Related DirtyOnly t t') : masterTable boot t' = true := by
  refine List.all_eq_true.mpr fun x hx => ?_
  obtain ⟨e,he,hd⟩ := hr.mem hx
  have hw : x.2 &&& PTE_W = e &&& PTE_W := hd.and_eq rfl
  have hold := List.all_eq_true.mp h _ he
  rwa [hw]

theorem Guarded.evolves (h : Guarded boot k) (hev : k.Evolves k') : Guarded boot k' := by
  refine ⟨h.layout.evolves hev,masterTable_related h.master hev.pgroot,fun s' hs' p e' he' hp => ?_⟩
  obtain ⟨s,hs,hse⟩ := hev.records s' hs'
  obtain ⟨e,he,hd⟩ := hse.table.mem he'
  have hpresent : e' &&& PTE_P = e &&& PTE_P := hd.and_eq rfl
  rw [hev.tags]
  exact (h.granted s hs p e he (hpresent ▸ hp)).evolves hse hd

theorem Guarded.fresh {i : ℕ} {cb arg : Word} {r : CreateReply} (h : Guarded boot m.kernel)
    (hwf : ∀ seg ∈ boot.segments, seg.WellFormed)
    (hsize : checkpointTotal boot.segments ≤ boot.copySize)
    (hk : ∀ i, (m.policies i).Known m.kernel.tags)
    (hhost : hostFresh boot m (.create i cb arg r) = true)
    (hnone : recyclable m.kernel (m.policies i) = none)
    (hmalloc : kmalloc boot m.kernel sizeofSthread = .ok k) (hid : 0 ≤ (k.sthreadId + 1).toInt)
    (hsub : ∀ t ∈ m.kernel.tags, ∃ t' ∈ k.tags, t'.tBuf = t.tBuf) :
    Guarded boot {k with
      sthreads := newSthread boot k (m.policies i) r (k.sthreadId + 1)::k.sthreads
      sthreadId := k.sthreadId + 1} := by
  have hbufs := kmalloc_tBuf hmalloc
  have heq := kmalloc_eq hmalloc
  have hretag : Layout boot k := by
    rw [heq]
    exact h.layout.retag hbufs
  have htaken : taken boot k = taken boot m.kernel := by
    rw [taken,span_of_tBuf hbufs,heq]
    rfl
  simp only [hostFresh,hnone,Option.isSome_none,Bool.false_or,Bool.and_eq_true] at hhost
  rw [← htaken] at hhost
  obtain ⟨hstack,hcopy⟩ := hhost
  have hpg : k.pgroot = m.kernel.pgroot := by rw [heq]
  have hmaster : masterTable boot k.pgroot = true := hpg ▸ h.master
  refine ⟨hretag.fresh hid rfl hstack hcopy,hmaster,fun s hs p e he hpr => ?_⟩
  rcases List.mem_cons.mp hs with rfl | hs
  · obtain ⟨halign,-⟩ := freshRange_iff.mp hstack
    obtain ⟨halign',-⟩ := freshRange_iff.mp hcopy
    exact newSthread_granted hwf hsize hmaster ((hk i).mono hsub) hretag.tags halign.1 halign'.1
      halign'.2 he hpr
  · rw [heq] at hs
    exact (h.granted s hs p e he hpr).mono hsub

theorem Guarded.prepared (h : Guarded boot m.kernel)
    (hwf : ∀ seg ∈ boot.segments, seg.WellFormed) (hsize : checkpointTotal boot.segments ≤ boot.copySize)
    (hk : ∀ i, (m.policies i).Known m.kernel.tags) (hhost : hostFresh boot m l = true)
    (hp : Prepared boot m l k) : Guarded boot k := by
  have hsub := prepared_tags hp
  cases hp with
  | same => exact h
  | remap pg =>
    exact ⟨⟨h.layout.numbered.same rfl rfl,h.layout.tags,h.layout.checkpoint,h.layout.placed⟩,hhost,
      h.granted⟩
  | tag _ =>
    exact ⟨h.layout.tag hhost,h.master,fun s hs p e he hpr => (h.granted s hs p e he hpr).mono hsub⟩
  | bump tid sz =>
    rw [smalloc_eq] at hsub ⊢
    exact ⟨h.layout.retag (smalloc_tBuf _ _ _),h.master,
      fun s hs p e he hpr => (h.granted s hs p e he hpr).mono hsub⟩
  | fresh hnone hk₁ hid => exact h.fresh hwf hsize hk hhost hnone hk₁ hid hsub

/-- What every step keeps: layout, tables and the provenance of policies. -/
theorem guarded_step (hwf : ∀ seg ∈ boot.segments, seg.WellFormed)
    (hsize : checkpointTotal boot.segments ≤ boot.copySize) (hg : Guarded boot m.kernel)
    (hk : ∀ i, (m.policies i).Known m.kernel.tags) (hhost : hostFresh boot m l = true)
    (hstep : step boot m l = .ok m') :
    Guarded boot m'.kernel ∧ ∀ i, (m'.policies i).Known m'.kernel.tags := by
  obtain ⟨k₀,hp,hev⟩ := step_evolves hstep
  refine ⟨(hg.prepared hwf hsize hk hhost hp).evolves hev,fun i => ?_⟩
  rw [hev.tags]
  exact (known_step hk hstep i).mono (prepared_tags hp)

theorem Sthread.Cloned.evolves {pg : LeafTable Word} {s s' : Sthread} (h : s.Cloned boot pg)
    (hev : s.Evolves s') : s'.Cloned boot pg := by
  intro p e' he' hp
  obtain ⟨e,he,hd⟩ := hev.table.mem he'
  have hpresent : e' &&& PTE_P = e &&& PTE_P := hd.and_eq rfl
  have hframe : pteAddr e' = pteAddr e := hd.and_eq rfl
  have hcopy : s'.writableSpan boot = s.writableSpan boot := by
    rw [Sthread.writableSpan,Sthread.writableSpan,hev.writable]
  have hold := h p e he (hpresent ▸ hp)
  simpa only [hcopy,MapsPage,hframe] using hold

/-- A call of the run created the thread: it has the stack and the copy that the host
returned there, and its frames are those of the master's table at that time. -/
def Created (boot : Boot) (m₀ : Machine) (cond : Machine → Label → Bool) (ls : List Label)
    (s : Sthread) : Prop :=
  ∃ newer older a i cb arg r, ls = newer ++ .create i cb arg r::older ∧
    Runs (fun a l b => cond a l = true ∧ step boot a l = .ok b) m₀ older a ∧
    (cond a (.create i cb arg r) = true ∧ recyclable a.kernel (a.policies i) = none) ∧
    (s.stStack = r.stack ∧ s.stWritable = r.writable) ∧ s.Cloned boot a.kernel.pgroot

theorem Created.evolves {m₀ : Machine} {cond : Machine → Label → Bool} {ls : List Label}
    {s s' : Sthread} (h : Created boot m₀ cond ls s) (hev : s.Evolves s') :
    Created boot m₀ cond ls s' := by
  obtain ⟨newer,older,a,i,cb,arg,r,hls,hpast,hnew,⟨hstack,hcopy⟩,hcloned⟩ := h
  exact ⟨newer,older,a,i,cb,arg,r,hls,hpast,hnew,⟨hev.stack.trans hstack,hev.writable.trans hcopy⟩,
    hcloned.evolves hev⟩

theorem Created.later {m₀ : Machine} {cond : Machine → Label → Bool} {ls : List Label} {s : Sthread}
    (h : Created boot m₀ cond ls s) (l : Label) : Created boot m₀ cond (l::ls) s := by
  obtain ⟨newer,older,a,i,cb,arg,r,rfl,hrest⟩ := h
  exact ⟨l::newer,older,a,i,cb,arg,r,rfl,hrest⟩

theorem created_step {m₀ : Machine} {cond : Machine → Label → Bool} {ls : List Label}
    (hwf : ∀ seg ∈ boot.segments, seg.WellFormed)
    (hsize : checkpointTotal boot.segments ≤ boot.copySize)
    (hmaster : masterTable boot m.kernel.pgroot = true)
    (hpast : Runs (fun a l b => cond a l = true ∧ step boot a l = .ok b) m₀ ls m)
    (h : ∀ s ∈ m.kernel.sthreads, Created boot m₀ cond ls s) (hcond : cond m l = true)
    (hhost : hostFresh boot m l = true) (hstep : step boot m l = .ok m') :
    ∀ s ∈ m'.kernel.sthreads, Created boot m₀ cond (l::ls) s := by
  intro s' hs'
  obtain ⟨k₀,hp,hev⟩ := step_evolves hstep
  obtain ⟨s,hs,hse⟩ := hev.records s' hs'
  refine Created.evolves ?_ hse
  cases hp with
  | same | remap | tag => exact (h s hs).later _
  | bump tid sz =>
    rw [smalloc_eq] at hs
    exact (h s hs).later _
  | @fresh i cb arg r k₁ hnone hmalloc hid =>
    have heq := kmalloc_eq hmalloc
    have hpg : k₁.pgroot = m.kernel.pgroot := by rw [heq]
    simp only [hostFresh,hnone,Option.isSome_none,Bool.false_or,Bool.and_eq_true] at hhost
    obtain ⟨⟨halign,hroom⟩,-⟩ := freshRange_iff.mp hhost.2
    rcases List.mem_cons.mp hs with rfl | hs
    · refine ⟨[],ls,m,i,cb,arg,r,rfl,hpast,⟨hcond,hnone⟩,⟨rfl,rfl⟩,?_⟩
      rw [← hpg]
      exact newSthread_cloned hwf hsize (hpg ▸ hmaster) halign hroom
    · rw [heq] at hs
      exact (h s hs).later _

end Guarded

/-- Isolation of the threads of a kernel: what present entries grant, that private
memory is not shared, and that nobody reaches another thread's private memory at
its own address. -/
structure Isolated (boot : Boot) (k : Kernel) : Prop where
  granted : ∀ s ∈ k.sthreads, ∀ p e, (p,e) ∈ s.table.leaves → e &&& PTE_P ≠ 0 →
    Granted boot k.tags s p e
  apart : k.sthreads.Pairwise fun s t =>
    ∀ x ∈ s.privateSpans boot, ∀ y ∈ t.privateSpans boot, x.Apart y
  unreachable : ∀ s ∈ k.sthreads, ∀ t ∈ k.sthreads, t.stId ≠ s.stId → ∀ p e, (p,e) ∈ t.table.leaves →
    e &&& PTE_P ≠ 0 → e &&& PTE_U ≠ 0 → ∀ x ∈ s.privateSpans boot, (page p).Apart x

/-- Every present entry of a thread holds a page of its copy or the frame at the page's own
address. -/
def Framed (boot : Boot) (k : Kernel) : Prop :=
  ∀ s ∈ k.sthreads, ∀ p e, (p,e) ∈ s.table.leaves → e &&& PTE_P ≠ 0 →
    HoldsPage boot e (s.writableSpan boot) ∨ HoldsOwn boot p e

/-- Isolation by frames: a frame of private memory is in no other thread's reach. -/
structure FramesApart (boot : Boot) (k : Kernel) : Prop where
  held : Framed boot k
  apart : ∀ s ∈ k.sthreads, ∀ t ∈ k.sthreads, t.stId ≠ s.stId →
    ∀ p e, (p,e) ∈ s.table.leaves → (∃ x ∈ s.privateSpans boot, HoldsPage boot e x) →
    ∀ q f, (q,f) ∈ t.table.leaves → f &&& PTE_P ≠ 0 → f &&& PTE_U ≠ 0 → pteAddr f ≠ pteAddr e

section Isolation
variable {rt : Runtime} {segments : List Segment} {pgroot : LeafTable Word} {mem : Mem}
  {r : InitReply} {boot : Boot} {m₀ m : Machine}

theorem apart_of_pageIn {p : ℕ} {x y : Span} (h : PageIn p y) (hapart : x.Apart y) :
    (page p).Apart x := by
  obtain ⟨hlo,hhi⟩ := h
  rcases hapart with hle | hle
  · exact .inr (hle.trans hlo)
  · exact .inl (hhi.trans hle)

theorem Guarded.unreachable {k : Kernel} {s t : Sthread} (h : Guarded boot k) (hs : s ∈ k.sthreads)
    (ht : t ∈ k.sthreads) (hne : t.stId ≠ s.stId) {p : ℕ} {e : Word} (he : (p,e) ∈ t.table.leaves)
    (hpr : e &&& PTE_P ≠ 0) (hu : e &&& PTE_U ≠ 0) {x : Span} (hx : x ∈ s.privateSpans boot) :
    (page p).Apart x := by
  have hplaced := h.layout.placed s hs
  rcases (h.granted t ht p e he hpr).user hu with ⟨seg,hseg,hin⟩ | hin | ⟨tag,htag,-,hin⟩
  · refine apart_of_pageIn hin (hplaced.shared x hx _ (List.mem_cons_of_mem _ ?_))
    exact List.mem_append_left _ (List.mem_map_of_mem hseg)
  · exact apart_of_pageIn hin (hplaced.others t ht hne x hx _ List.mem_cons_self)
  · refine apart_of_pageIn hin (hplaced.shared x hx _ (List.mem_cons_of_mem _ ?_))
    exact List.mem_append_right _ (List.mem_map_of_mem htag)

/-- The frame behind a page that one thread may use is apart from the private memory of
another. -/
theorem Guarded.frame_apart {k : Kernel} {s t : Sthread} (h : Guarded boot k)
    (hframed : Framed boot k) (hs : s ∈ k.sthreads) (ht : t ∈ k.sthreads) (hne : t.stId ≠ s.stId)
    {p : ℕ} {e : Word} (he : (p,e) ∈ t.table.leaves)
    (hpr : e &&& PTE_P ≠ 0) (hu : e &&& PTE_U ≠ 0) {x : Span} (hx : x ∈ s.privateSpans boot) :
    (⟨(hostOf boot e).toNat,4096⟩ : Span).Apart x := by
  rcases hframed t ht p e he hpr with ⟨-,hlo,hhi⟩ | hown
  · have hmem : t.writableSpan boot ∈ t.privateSpans boot := by simp [Sthread.privateSpans]
    rcases (h.layout.placed s hs).others t ht hne x hx _ hmem with hle | hle
    · exact .inr (hle.trans hlo)
    · exact .inl (hhi.trans hle)
  · rw [hown]
    exact h.unreachable hs ht hne he hpr hu hx

theorem Guarded.isolated {k : Kernel} (h : Guarded boot k) : Isolated boot k := by
  refine ⟨h.granted,?_,fun s hs t ht hne p e he hpr hu x hx => h.unreachable hs ht hne he hpr hu hx⟩
  refine (List.pairwise_map.mp h.layout.numbered.ids).imp_of_mem fun {s t} hs ht hne => ?_
  exact (h.layout.placed s hs).others t ht (Ne.symm hne)

theorem Guarded.framesApart {k : Kernel} (h : Guarded boot k) (hframed : Framed boot k) :
    FramesApart boot k := by
  refine ⟨hframed,?_⟩
  rintro s hs t ht hne p e he ⟨x,hx,-,hlo,hhi⟩ q f hf hpr hu hsame
  have hhost : hostOf boot f = hostOf boot e := by rw [hostOf,hostOf,hsame]
  have hapart := h.frame_apart hframed hs ht hne hf hpr hu hx
  rw [hhost] at hapart
  have hstart : x.start ≤ (hostOf boot e).toNat := hlo
  simp only [Span.Apart,Span.stop] at hapart hhi
  omega

theorem guarded_init (hinit : sthreadInit rt segments pgroot mem r = .ok (boot,m₀))
    (hfresh : initFresh segments r = true) (hmaster : masterTable boot pgroot = true) :
    Guarded boot m₀.kernel := by
  obtain ⟨rfl,-,rfl⟩ := sthreadInit_ok hinit
  obtain ⟨hcheckpoint,hkernel⟩ := Bool.and_eq_true_iff.mp hfresh
  obtain ⟨-,hapart⟩ := freshRange_iff.mp hcheckpoint
  obtain ⟨⟨halign,-⟩,hapart'⟩ := freshRange_iff.mp hkernel
  refine ⟨⟨⟨List.nodup_nil,by simp,by simp⟩,fun t ht => ?_,fun y hy => ?_,by simp⟩,hmaster,by simp⟩
  · rw [List.mem_singleton.mp ht]
    exact halign
  · rcases List.mem_append.mp hy with hy | hy
    · exact hapart y hy
    · rw [List.mem_singleton.mp hy]
      exact (hapart' _ List.mem_cons_self).symm

theorem runs_guarded {ls : List Label} (hinit : sthreadInit rt segments pgroot mem r = .ok (boot,m₀))
    (hwf : ∀ seg ∈ segments, seg.WellFormed) (hfresh : initFresh segments r = true)
    (hmaster : masterTable boot pgroot = true)
    (hruns : Runs (fun a l b => hostFresh boot a l = true ∧ step boot a l = .ok b) m₀ ls m) :
    Guarded boot m.kernel ∧ ∀ i, (m.policies i).Known m.kernel.tags := by
  obtain ⟨hboot,hsize,hstart⟩ := sthreadInit_ok hinit
  have hsegs : boot.segments = segments := by rw [hboot]
  rw [← hsegs] at hwf hsize
  refine hruns.invariant
    (I := fun a _ => Guarded boot a.kernel ∧ ∀ i, (a.policies i).Known a.kernel.tags) ⟨?_,?_⟩ ?_
  · exact guarded_init hinit hfresh hmaster
  · intro i
    rw [hstart]
    exact known_scInit _
  · rintro a ls l b ⟨hg,hk⟩ ⟨hhost,hstep⟩
    exact guarded_step hwf hsize hg hk hhost hstep

theorem runs_created {ls : List Label} {cond : Machine → Label → Bool}
    (hinit : sthreadInit rt segments pgroot mem r = .ok (boot,m₀))
    (hwf : ∀ seg ∈ segments, seg.WellFormed) (hfresh : initFresh segments r = true)
    (hmaster : masterTable boot pgroot = true)
    (hcond : ∀ a l, cond a l = true → hostFresh boot a l = true)
    (hruns : Runs (fun a l b => cond a l = true ∧ step boot a l = .ok b) m₀ ls m) :
    ∀ s ∈ m.kernel.sthreads, Created boot m₀ cond ls s := by
  obtain ⟨hboot,hsize,hstart⟩ := sthreadInit_ok hinit
  have hsegs : boot.segments = segments := by rw [hboot]
  rw [← hsegs] at hsize
  induction hruns with
  | start =>
    rw [hstart]
    exact fun s hs => absurd hs List.not_mem_nil
  | next hpast hlast ih =>
    have hg := (runs_guarded hinit hwf hfresh hmaster
      (hpast.mono fun a l b h => ⟨hcond a l h.1,h.2⟩)).1
    rw [← hsegs] at hwf
    exact created_step hwf hsize hg.master hpast ih hlast.1 (hcond _ _ hlast.1) hlast.2

theorem runs_framed {ls : List Label} (hinit : sthreadInit rt segments pgroot mem r = .ok (boot,m₀))
    (hwf : ∀ seg ∈ segments, seg.WellFormed) (hfresh : initFresh segments r = true)
    (hmaster : masterTable boot pgroot = true) (hround : boot.RoundTrip)
    (hruns : Runs (fun a l b => (hostFresh boot a l && mirrors boot a l) = true ∧
      step boot a l = .ok b) m₀ ls m) : Framed boot m.kernel := by
  have hcond (a : Machine) (l : Label) (h : (hostFresh boot a l && mirrors boot a l) = true) :
      hostFresh boot a l = true := (Bool.and_eq_true_iff.mp h).1
  intro s hs p e he hp
  obtain ⟨-,older,a,i,cb,arg,cr,-,hpast,⟨hnew,hnone⟩,⟨-,hcopy⟩,hcloned⟩ :=
    runs_created hinit hwf hfresh hmaster hcond hruns s hs
  have hg := (runs_guarded hinit hwf hfresh hmaster
    (hpast.mono fun a l b h => ⟨hcond a l h.1,h.2⟩)).1
  have hmirror := (Bool.and_eq_true_iff.mp hnew).2
  simp only [mirrors,hnone,Option.isSome_none,Bool.false_or,Bool.and_eq_true,
    decide_eq_true_eq] at hmirror
  exact hcloned.framed hround hg.master hmirror.1 (hcopy ▸ hmirror.2) he hp

/-- In every run, threads are isolated: whatever the master, the threads and the
host do, as long as `mmap` returns ranges that are apart from what is in use. A thread's
entries have the frames of the master's when the thread was created, or map pages of its
copy. Where moreover the runtime library maps addresses to themselves, the frames of
private memory are isolated too. -/
theorem runs_isolated {ls : List Label} (hinit : sthreadInit rt segments pgroot mem r = .ok (boot,m₀))
    (hwf : ∀ seg ∈ segments, seg.WellFormed) (hfresh : initFresh segments r = true)
    (hmaster : masterTable boot pgroot = true)
    (hruns : Runs (fun a l b => hostFresh boot a l = true ∧ step boot a l = .ok b) m₀ ls m) :
    Isolated boot m.kernel ∧ (∀ s ∈ m.kernel.sthreads, Created boot m₀ (hostFresh boot) ls s) ∧
    (boot.RoundTrip →
      Runs (fun a l b => (hostFresh boot a l && mirrors boot a l) = true ∧ step boot a l = .ok b)
        m₀ ls m → FramesApart boot m.kernel) := by
  have hg := (runs_guarded hinit hwf hfresh hmaster hruns).1
  refine ⟨hg.isolated,runs_created hinit hwf hfresh hmaster (fun _ _ h => h) hruns,
    fun hround hmirrored => hg.framesApart ?_⟩
  exact runs_framed hinit hwf hfresh hmaster hround hmirrored

end Isolation

section RecycledReader

def twoSegments : List Segment := [⟨0x400000,0x401000,0x1000,1⟩,⟨0x600000,0x601000,0x1000,3⟩]

def fourPages : LeafTable Word :=
  ⟨[(0x400,0x400005),(0x600,0x600007),(0x22000,0x22000007),(0x23000,0x23000007)],by simp⟩

/-- A thread that may read a tag is created, exits, is joined and recycled. -/
def recycledReader : List Label := [
  .create 0 0 0 ⟨0x23000000,0x24000000,0x2000000⟩,
  .poll {},
  .join 1,
  .syscall exitCall {},
  .create 0 0 0 ⟨0x23000000,0x24000000,0x2000000⟩,
  .scMemAdd 0 1 PROT_READ,
  .tagNew 0x22000000]

theorem runs_isolated_recycledReader : ∃ boot m₀ m,
    sthreadInit flatRuntime twoSegments fourPages (fun _ => 0) flatInit = .ok (boot,m₀) ∧
    Runs (fun a l b => (hostFresh boot a l && mirrors boot a l) = true ∧ step boot a l = .ok b)
      m₀ recycledReader m ∧
    m.kernel.sthreads.map (fun s => s.table.leaves) =
      [[(0x400,0x400005),(0x600,0x24000007),(0x22000,0x22000005),(0x23000,0x23000007)]] ∧
    Isolated boot m.kernel ∧
    (∀ s ∈ m.kernel.sthreads, Created boot m₀ (hostFresh boot) recycledReader s) ∧
    FramesApart boot m.kernel := by
  obtain ⟨boot,m₀,m,hinit,hruns,hp⟩ := exists_of_play flatRuntime twoSegments fourPages
    (fun _ => 0) flatInit (fun boot a l => hostFresh boot a l && mirrors boot a l) recycledReader
    (fun m => m.kernel.sthreads.map (fun s => s.table.leaves) ==
        [[(0x400,0x400005),(0x600,0x24000007),(0x22000,0x22000005),(0x23000,0x23000007)]])
    (by decide +kernel)
  have hwf : ∀ seg ∈ twoSegments, seg.WellFormed := by
    intro seg hseg
    simp only [twoSegments,List.mem_cons,List.not_mem_nil,or_false] at hseg
    rcases hseg with rfl | rfl <;> exact ⟨by decide,by decide,by decide,by decide⟩
  have hmaster : masterTable boot fourPages = true := by
    rw [(sthreadInit_ok hinit).1]
    decide +kernel
  have hround : boot.RoundTrip := by
    rw [(sthreadInit_ok hinit).1]
    exact roundTrip_of_flat rfl rfl
  have hfresh : Runs (fun a l b => hostFresh boot a l = true ∧ step boot a l = .ok b) m₀
      recycledReader m := hruns.mono fun _ _ _ h => ⟨(Bool.and_eq_true_iff.mp h.1).1,h.2⟩
  obtain ⟨hisolated,hcreated,hframes⟩ := runs_isolated hinit hwf (by decide +kernel) hmaster hfresh
  exact ⟨boot,m₀,m,hinit,hruns,beq_iff_eq.mp hp,hisolated,hcreated,hframes hround hruns⟩

end RecycledReader

end Sthreads
end VmplApps

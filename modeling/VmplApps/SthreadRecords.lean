import VmplApps.SthreadEvents
import VmplApps.SthreadTags

/-! The kernel's own memory. A fresh record takes 368 bytes of the kernel's tag and is
never given back: `sthread_create` reuses the record of a dead thread with the same
tags. The tag is full after 110 records, so a process lives on as long as it gets by with
110 different sets of tags and joins its threads. -/
namespace VmplApps
namespace Sthreads

/-- The kernel's tag is left to the kernel: no other tag gets its id, and the master
allocates nothing from it. -/
def keepsOff (boot : Boot) (m : Machine) : Label → Bool
  | .tagNew _ => m.kernel.tagId != boot.kernelTag
  | .smalloc tid _ => tid != boot.kernelTag
  | _ => true

/-- A thread is created after all others have been joined. -/
def joinsFirst (m : Machine) : Label → Bool
  | .create _ _ _ _ => m.kernel.sthreads.all fun s => s.stState == .dead
  | _ => true

/-- The part of the kernel's tag that is handed out holds `struct kstate` and the records. -/
structure Budget (boot : Boot) (k : Kernel) : Prop where
  tag : ∃ t, findTag k.tags boot.kernelTag = some t ∧ t.Sound ∧
    t.tP.toNat = t.tBuf.toNat + 376 + 368*k.sthreads.length
  counter : k.sthreadId.toNat = k.sthreads.length

def Varied (k : Kernel) : Prop :=
  ∀ s ∈ k.sthreads, ∀ t ∈ k.sthreads, s.stSc.scMem = t.stSc.scMem → s.stId = t.stId

section Budget
variable {boot : Boot} {k k' : Kernel} {m m' : Machine} {l : Label}

theorem Kernel.Evolves.length (h : k.Evolves k') : k'.sthreads.length = k.sthreads.length := by
  simpa using congrArg List.length h.ids

theorem Budget.length_le (h : Budget boot k) : k.sthreads.length ≤ 110 := by
  obtain ⟨t,-,hsound,hused⟩ := h.tag
  have hhigh := hsound.high
  omega

theorem kmalloc_record (h : Budget boot k) : kmalloc boot k sizeofSthread =
    if k.sthreads.length < 110 then .ok {k with tags := bumpTag boot.kernelTag 368 k.tags}
    else .error .kmalloc := by
  obtain ⟨t,ht,hsound,hused⟩ := h.tag
  have hsz : sizeofSthread.signExtend 64 = (368 : Word) := rfl
  have hlen : (368 : Word).toNat = 368 := rfl
  have hhigh := hsound.high
  have hfits := hsound.fits
  have hlow := hsound.low
  have hroom : t.exhausted 368 = false ↔ k.sthreads.length < 110 := by
    rw [hsound.exhausted_iff (by rw [hsound.used,hlen]; omega),hlen]
    omega
  rw [kmalloc,hsz,smalloc,ht]
  by_cases hless : k.sthreads.length < 110
  · rw [if_pos hless]
    simp only [hroom.mpr hless,Bool.false_eq_true,if_false]
    exact if_neg hsound.ne_zero
  · have hfull : t.exhausted 368 = true := by
      rw [← Bool.not_eq_false]
      exact fun hfalse => hless (hroom.mp hfalse)
    rw [if_neg hless]
    simp only [hfull,if_true]

theorem Budget.evolves (h : Budget boot k) (hev : k.Evolves k') : Budget boot k' := by
  refine ⟨?_,by rw [hev.counter,hev.length]; exact h.counter⟩
  rw [hev.tags,hev.length]
  exact h.tag

theorem Budget.fresh (h : Budget boot k) (hk : kmalloc boot k sizeofSthread = .ok k') (s : Sthread)
    (mem : Mem) : Budget boot {k' with
      sthreads := s::k'.sthreads,sthreadId := k'.sthreadId + 1,mem := mem} := by
  rw [kmalloc_record h] at hk
  split_ifs at hk with hless
  cases hk
  obtain ⟨t,ht,hsound,hused⟩ := h.tag
  have hlen : (368 : Word).toNat = 368 := rfl
  have hfits : t.tP.toNat + (368 : Word).toNat ≤ t.tBuf.toNat + 40960 := by
    rw [hlen]
    omega
  obtain ⟨hadd,hsound'⟩ := hsound.bump hfits
  refine ⟨⟨{t with tP := t.tP + 368},by simp [findTag_bumpTag,ht],hsound',?_⟩,?_⟩
  · rw [hadd,hused,hlen,List.length_cons]
    ring
  · have hcount := h.counter
    have hone : (1 : CInt).toNat = 1 := rfl
    simp only [List.length_cons]
    rw [BitVec.toNat_add,hone,hcount,Nat.mod_eq_of_lt (by omega)]

theorem Budget.prepared (h : Budget boot m.kernel) (hoff : keepsOff boot m l = true)
    (hp : Prepared boot m l k) : Budget boot k := by
  cases hp with
  | same | remap => exact ⟨h.tag,h.counter⟩
  | tag =>
    obtain ⟨t,ht,hrest⟩ := h.tag
    have hne : (m.kernel.tagId == boot.kernelTag) = false := by simpa [keepsOff] using hoff
    exact ⟨⟨t,by rw [findTag,List.find?_cons,hne]; exact ht,hrest⟩,h.counter⟩
  | bump tid sz =>
    have hne : tid ≠ boot.kernelTag := by simpa [keepsOff] using hoff
    obtain ⟨t,ht,hrest⟩ := h.tag
    rcases smalloc_cases m.kernel tid sz with hs | ⟨u,-,-,hs⟩ <;> rw [hs]
    · exact h
    · exact ⟨⟨t,by rw [findTag_bumpTag,if_neg hne.symm,ht],hrest⟩,h.counter⟩
  | fresh _ hk => exact h.fresh hk _ _

theorem Budget.step (h : Budget boot m.kernel) (hoff : keepsOff boot m l = true)
    (hs : step boot m l = .ok m') : Budget boot m'.kernel := by
  obtain ⟨k₀,hp,hev⟩ := step_evolves hs
  exact (h.prepared hoff hp).evolves hev

/-- A thread can be created exactly if a dead one has its tags or there is room. -/
theorem create_iff (h : Budget boot m.kernel) (hm : m.mode = .master) {i : ℕ} {cb arg : Word} {r : CreateReply}
    (hstack : r.stack ≠ MAP_FAILED) (hcopy : r.writable ≠ MAP_FAILED) :
    (∃ m', step boot m (.create i cb arg r) = .ok m') ↔
      recyclable m.kernel (m.policies i) ≠ none ∨ m.kernel.sthreads.length < 110 := by
  simp only [Sthreads.step,hm,masterStep,sthreadCreate]
  cases hrec : recyclable m.kernel (m.policies i) with
  | some s => simp [bind,Except.bind]
  | none =>
    have hcount := h.counter
    have hle := h.length_le
    simp only [createNewSthread,kmalloc_record h]
    by_cases hless : m.kernel.sthreads.length < 110
    · have hid : ¬(m.kernel.sthreadId + 1).toInt < 0 := by
        have hone : (1 : CInt).toNat = 1 := rfl
        rw [BitVec.toInt_eq_toNat_cond,BitVec.toNat_add,hone]
        split_ifs <;> omega
      simp only [hless,if_true,hid,if_false,mmapAnon,hstack,hcopy,bind,Except.bind]
      exact iff_of_true ⟨_,rfl⟩ (.inr trivial)
    · simp [hless,bind,Except.bind]

end Budget

section Varied
variable {boot : Boot} {k k' : Kernel} {m m' : Machine} {l : Label}

theorem Varied.evolves (h : Varied k) (hev : k.Evolves k') : Varied k' := by
  intro s' hs' t' ht' htags
  obtain ⟨s,hs,hse⟩ := hev.records s' hs'
  obtain ⟨t,ht,hte⟩ := hev.records t' ht'
  rw [hse.id,hte.id]
  exact h s hs t ht (by rw [← hse.tags,← hte.tags,htags])

theorem Varied.step (h : Varied m.kernel) (hjoins : joinsFirst m l = true)
    (hs : step boot m l = .ok m') : Varied m'.kernel := by
  obtain ⟨k₀,hp,hev⟩ := step_evolves hs
  refine Varied.evolves ?_ hev
  cases hp with
  | same | remap | tag => exact h
  | bump tid sz =>
    rw [smalloc_eq]
    exact h
  | @fresh i cb arg r k₁ hnone hk _ =>
    have hrecords : k₁.sthreads = m.kernel.sthreads := by rw [kmalloc_eq hk]
    -- every record is dead, so one with these tags would have been reused
    have hnew (s : Sthread) (hmem : s ∈ k₁.sthreads) : s.stSc.scMem ≠ (m.policies i).scMem := by
      rw [hrecords] at hmem
      have hdead : s.stState = .dead := by
        simpa using List.all_eq_true.mp hjoins s hmem
      have hmiss := List.find?_eq_none.mp hnone s hmem
      simpa [hdead] using hmiss
    have hold : Varied k₁ := by
      rw [Varied,hrecords]
      exact h
    intro s hmem t hmem' htags
    rcases List.mem_cons.mp hmem with rfl | hmem <;> rcases List.mem_cons.mp hmem' with rfl | hmem'
    · rfl
    · exact absurd htags.symm (hnew t hmem')
    · exact absurd htags (hnew s hmem)
    · exact hold s hmem t hmem' htags

theorem Varied.nodup (h : Varied k) (hn : Numbered k) :
    (k.sthreads.map fun s => s.stSc.scMem).Nodup :=
  (List.Nodup.of_map _ hn.ids).map_on fun s hs t ht htags =>
    List.inj_on_of_nodup_map hn.ids hs ht (h s hs t ht htags)

end Varied

section Runs
variable {rt : Runtime} {segments : List Segment} {pgroot : LeafTable Word} {mem : Mem}
  {reply : InitReply} {boot : Boot} {m₀ m : Machine} {ls : List Label}

theorem budget_init (h : sthreadInit rt segments pgroot mem reply = .ok (boot,m₀))
    (hlow : 0 < reply.kernelTag.toNat) (hhigh : reply.kernelTag.toNat + 40960 < 2^64) :
    Budget boot m₀.kernel := by
  obtain ⟨rfl,-,rfl⟩ := sthreadInit_ok h
  have hlen : (376 : Word).toNat = 376 := rfl
  have hadd : (reply.kernelTag + 376).toNat = reply.kernelTag.toNat + 376 :=
    Words.add_toNat_exact (by rw [hlen]; omega)
  refine ⟨⟨⟨0,reply.kernelTag,reply.kernelTag + 376,40960⟩,rfl,⟨rfl,hlow,?_,?_,hhigh⟩,?_⟩,rfl⟩
  all_goals simp only [hadd]
  · omega
  · omega
  · rfl

theorem records_kept {m' : Machine} {l : Label} (h : step boot m l = .ok m') :
    m.kernel.sthreads.map Sthread.stId <:+ m'.kernel.sthreads.map Sthread.stId := by
  obtain ⟨k₀,hp,hev⟩ := step_evolves h
  rw [hev.ids]
  cases hp with
  | same | remap | tag => exact List.suffix_rfl
  | bump tid sz =>
    rw [smalloc_eq]
  | fresh _ hk _ =>
    rw [kmalloc_eq hk]
    exact List.suffix_cons _ _

/-- In every run that leaves the kernel's tag to the kernel there are at most 110 records,
which with `struct kstate` are all that the tag has handed out; none is ever freed, and
`sthread_create` fails for lack of memory exactly if there are 110 and no dead thread has
the tags that are asked for. If threads are joined before the next one is created, no two
records have the same tags. -/
theorem records_bounded (hinit : sthreadInit rt segments pgroot mem reply = .ok (boot,m₀))
    (hlow : 0 < reply.kernelTag.toNat) (hhigh : reply.kernelTag.toNat + 40960 < 2^64)
    (hruns : Runs (fun a l b => keepsOff boot a l = true ∧ step boot a l = .ok b) m₀ ls m) :
    m.kernel.sthreads.length ≤ 110 ∧
    (∃ t, findTag m.kernel.tags boot.kernelTag = some t ∧
      t.tP.toNat = t.tBuf.toNat + 376 + 368*m.kernel.sthreads.length) ∧
    (∀ more m', Runs (fun a l b => step boot a l = .ok b) m more m' →
      m.kernel.sthreads.map Sthread.stId <:+ m'.kernel.sthreads.map Sthread.stId) ∧
    (m.mode = .master → ∀ i cb arg r, r.stack ≠ MAP_FAILED → r.writable ≠ MAP_FAILED →
      ((∃ m', step boot m (.create i cb arg r) = .ok m') ↔
        recyclable m.kernel (m.policies i) ≠ none ∨ m.kernel.sthreads.length < 110)) ∧
    (Runs (fun a l b => joinsFirst a l = true ∧ step boot a l = .ok b) m₀ ls m →
      (m.kernel.sthreads.map fun s => s.stSc.scMem).Nodup) := by
  have hbudget : Budget boot m.kernel := by
    refine hruns.invariant (I := fun a _ => Budget boot a.kernel) (budget_init hinit hlow hhigh) ?_
    intro a ls l b ha ⟨hoff,h⟩
    exact ha.step hoff h
  refine ⟨hbudget.length_le,?_,fun more m' hmore => ?_,
    fun hm i cb arg r hstack hcopy => create_iff hbudget hm hstack hcopy,fun hjoined => ?_⟩
  · obtain ⟨t,ht,-,hused⟩ := hbudget.tag
    exact ⟨t,ht,hused⟩
  · refine hmore.invariant (I := fun a _ => m.kernel.sthreads.map Sthread.stId <:+
      a.kernel.sthreads.map Sthread.stId) List.suffix_rfl ?_
    intro a _ l b ha h
    exact ha.trans (records_kept h)
  · have hboth : Numbered m.kernel ∧ Varied m.kernel := by
      refine hjoined.invariant (I := fun a _ => Numbered a.kernel ∧ Varied a.kernel) ?_ ?_
      · obtain ⟨-,-,rfl⟩ := sthreadInit_ok hinit
        exact ⟨⟨List.nodup_nil,by simp,by simp⟩,fun s hs => absurd hs List.not_mem_nil⟩
      · intro a ls l b ⟨hn,hv⟩ ⟨hjoins,h⟩
        exact ⟨hn.step h,hv.step hjoins h⟩
    exact hboth.2.nodup hboth.1

/-- Two threads with different tags, and then a third with the tags of the first. -/
def twoTagSets : List Label := [
  .syscall exitCall {},
  .create 0 0 0 ⟨0x22000000,0x23000000,0x2000000⟩,
  .poll {},
  .join 2,
  .syscall exitCall {},
  .create 1 0 0 ⟨0x24000000,0x25000000,0x3000000⟩,
  .scMemAdd 1 1 PROT_READ,
  .tagNew 0x26000000,
  .poll {},
  .join 1,
  .syscall exitCall {},
  .create 0 0 0 ⟨0x22000000,0x23000000,0x2000000⟩]

theorem records_bounded_twoTagSets : ∃ boot m₀ m,
    sthreadInit flatRuntime oneSegment onePage (fun _ => 0) flatInit = .ok (boot,m₀) ∧
    Runs (fun a l b => keepsOff boot a l = true ∧ step boot a l = .ok b) m₀ twoTagSets m ∧
    m.kernel.sthreads.length = 2 ∧ (m.kernel.sthreads.map fun s => s.stSc.scMem).Nodup ∧
    ∀ i cb arg r, r.stack ≠ MAP_FAILED → r.writable ≠ MAP_FAILED →
      ∃ m', step boot m (.create i cb arg r) = .ok m' := by
  obtain ⟨boot,m₀,m,hinit,hruns,hp⟩ := exists_of_play flatRuntime oneSegment onePage
    (fun _ => 0) flatInit (fun boot a l => keepsOff boot a l && joinsFirst a l) twoTagSets
    (fun m => m.mode == .master && m.kernel.sthreads.length == 2) (by decide +kernel)
  simp only [Bool.and_eq_true,beq_iff_eq] at hp hruns
  have hoff : Runs (fun a l b => keepsOff boot a l = true ∧ step boot a l = .ok b) m₀ twoTagSets m :=
    hruns.mono fun a l b h => ⟨h.1.1,h.2⟩
  obtain ⟨-,-,-,hcreate,hnodup⟩ := records_bounded hinit (by decide) (by decide) hoff
  refine ⟨boot,m₀,m,hinit,hoff,hp.2,hnodup (hruns.mono fun a l b h => ⟨h.1.2,h.2⟩),?_⟩
  intro i cb arg r hstack hcopy
  exact (hcreate hp.1 i cb arg r hstack hcopy).mpr (.inr (by omega))

end Runs

end Sthreads
end VmplApps

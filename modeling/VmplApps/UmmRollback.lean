import VmplApps.UmmMaps

/-! What a failed call leaves behind. The counters move only on success, so a
failure can only show in the mappings: a fresh mapping that the guest refuses has
already replaced the pages below it, an attachment at a rounded address is never
taken back, and a request at the address that stands for failure is taken for
granted. `path_unchanged_iff` states exactly when none of this matters. -/
namespace VmplApps
namespace Umm

open AppRegion

/-- The values of `rax` that the application reads as an error number. -/
def IsError (v : Word) : Prop := 2^64 - 4096 < v.toNat

theorem not_isError_zero : ¬IsError 0 := by simp [IsError]

def ReturnsError : Outcome Counters Word Word → Prop
  | .err _ _ => True
  | .ok v _ => IsError v
  | .halted => False

/-- The pages of a range are already as `f` says. -/
def Already {α : Type} (m : ℕ → α) (r : Span) (f : ℕ → α) : Prop := ∀ p, r.OnPage 4096 p → m p = f p

section Overlays
variable {α : Type} {r q : Span} {f g m : ℕ → α}

theorem overlay_eq_iff : overlay r f m = m ↔ Already m r f := by
  constructor
  · intro h p hp
    rw [← overlay_in (f := f) (m := m) hp,h]
  · intro h
    funext p
    by_cases hp : r.OnPage 4096 p
    · rw [overlay_in hp,h p hp]
    · rw [overlay_out hp]

theorem overlay_overlay : overlay r f (overlay r g m) = overlay r f m := by
  funext p
  by_cases hp : r.OnPage 4096 p
  · rw [overlay_in hp,overlay_in hp]
  · rw [overlay_out hp,overlay_out hp,overlay_out hp]

/-- Two overlays change nothing when the upper one agrees on its range and the
lower one agrees wherever it shows. -/
theorem overlay_overlay_eq_iff : overlay r f (overlay q g m) = m ↔
    Already m r f ∧ ∀ p, q.OnPage 4096 p → ¬r.OnPage 4096 p → m p = g p := by
  constructor
  · intro h
    refine ⟨fun p hp => ?_,fun p hq hp => ?_⟩
    · rw [← overlay_in (f := f) (m := overlay q g m) hp,h]
    · have hat := congrFun h p
      rw [overlay_out hp,overlay_in hq] at hat
      exact hat.symm
  · rintro ⟨hr,hq⟩
    funext p
    by_cases hp : r.OnPage 4096 p
    · rw [overlay_in hp,hr p hp]
    · rw [overlay_out hp]
      by_cases hp' : q.OnPage 4096 p
      · rw [overlay_in hp',hq p hp' hp]
      · rw [overlay_out hp']

end Overlays

section Rollback
variable {D : Type} (b : Backing D) (m : Maps D)

/-- The calls a failed request made, with their replies, changed none of the
mappings that were there. -/
def Harmless : List (HostCall × Reply) → Prop
  -- the guest refused, and the mapping was removed or stays
  | [(.mmap addr len prot flags fd offset,r),(.vmMapPhys _ _ _,_),(.munmap _ _,u)] =>
    if u.ret = 0 then Already m.host (range addr len) fun _ => none
    else r.ret ≠ MAP_FAILED →
      Already m.host (range addr len) (freshPages b addr prot flags fd offset)
  | [(.shmctl _,_),(.shmat shmid addr shmflg segsz,r),(.vmMapPhys _ _ _,_),(.shmdt _,u)] =>
    if u.ret = 0 then
      Already m.host (range addr (if r.ret = -1 then m.attached addr else segsz)) fun _ => none
    else r.ret ≠ -1 → Already m.host (range addr segsz) (segmentPages b addr shmid shmflg)
  -- the segment was attached at another address than the requested one
  | [(.shmctl _,_),(.shmat shmid _ shmflg segsz,r)] =>
    r.ret ≠ -1 → Already m.host (range r.ret segsz) (segmentPages b r.ret shmid shmflg)
  -- the requested address is itself an error number, and the guest accepted it
  | [(.mmap addr len prot flags fd offset,r),(.vmMapPhys _ _ perm,_)] =>
    (r.ret ≠ MAP_FAILED →
      Already m.host (range addr len) (freshPages b addr prot flags fd offset)) ∧
      Already m.guest (range addr len) fun _ => some perm
  | [(.shmctl _,_),(.shmat shmid addr shmflg segsz,r),(.vmMapPhys _ _ perm,_)] =>
    (r.ret ≠ -1 → Already m.host (range addr segsz) (segmentPages b addr shmid shmflg)) ∧
      Already m.guest (range addr segsz) fun _ => some perm
  | [(.mremap oldAddress oldSize newSize _ target,r),(.vmUnmap _ _,_),(.vmMapPhys _ _ perm,_)] =>
    (r.ret ≠ MAP_FAILED →
      Already m.host (range target newSize)
        (fun p => moved b m.host oldAddress oldSize (p - pageOf target)) ∧
      ∀ p, (range oldAddress oldSize).OnPage 4096 p → ¬(range target newSize).OnPage 4096 p →
        m.host p = none) ∧
      Already m.guest (range target newSize) (fun _ => some perm) ∧
      ∀ p, (range oldAddress oldSize).OnPage 4096 p → ¬(range target newSize).OnPage 4096 p →
        m.guest p = none
  | _ => True

variable {b m} {mmapBase : Word} {s : Counters}

def Restored (b : Backing D) (m : Maps D) (t : List (HostCall × Reply)) : Prop :=
  (actAll b t m).host = m.host ∧ (actAll b t m).guest = m.guest

theorem restored_of_same {t : List (HostCall × Reply)} (h : actAll b t m = m) : Restored b m t :=
  ⟨congrArg Maps.host h,congrArg Maps.guest h⟩

theorem ite_overlay_eq_iff {P : Prop} [Decidable P] {α : Type} {r : Span} {f g : ℕ → α} :
    (if P then g else overlay r f g) = g ↔ (¬P → Already g r f) := by
  by_cases hP : P
  · simp [hP]
  · simp [hP,overlay_eq_iff]

theorem takenBack_iff (addr len : Word) (prot flags fd : CInt) (offset : Word) (perm : Perm)
    {r g : Reply} (u : Reply) (hr : r.ret = addr) (hg : g.ret ≠ 0) :
    Restored b m [(.mmap addr len prot flags fd offset,r),(.vmMapPhys addr len perm,g),
      (.munmap addr len,u)] ↔
    Harmless b m [(.mmap addr len prot flags fd offset,r),(.vmMapPhys addr len perm,g),
      (.munmap addr len,u)] := by
  have hmap := act_mmap (b := b) (m := m) addr len prot flags fd offset hr
  have hguest := act_guest b m (c := .mmap addr len prot flags fd offset) rfl r
  simp only [Restored,actAll_cons,actAll_nil,act_mapPhys_refused addr len perm hg,Harmless]
  rw [act_guest _ _ rfl,and_iff_left hguest]
  by_cases hu : u.ret = 0
  · rw [if_pos hu,← overlay_eq_iff,act_munmap addr len hu,hmap]
    split_ifs
    · rfl
    · rw [overlay_overlay]
  · rw [if_neg hu,act_munmap_refused addr len hu,hmap,ite_overlay_eq_iff]

theorem shmTakenBack_iff (shmid : CInt) (addr : Word) (shmflg : CInt) (segsz : Word) (perm : Perm)
    {r g : Reply} (shm u : Reply) (hr : r.ret = addr) (hg : g.ret ≠ 0) :
    Restored b m [(.shmctl shmid,shm),(.shmat shmid addr shmflg segsz,r),
      (.vmMapPhys addr segsz perm,g),(.shmdt addr,u)] ↔
    Harmless b m [(.shmctl shmid,shm),(.shmat shmid addr shmflg segsz,r),
      (.vmMapPhys addr segsz perm,g),(.shmdt addr,u)] := by
  have hmap := act_shmat (b := b) (m := m) shmid addr shmflg segsz (r := r)
  have hguest := act_guest b m (c := .shmat shmid addr shmflg segsz) rfl r
  have hsize := attached_shmat (b := b) (m := m) shmid shmflg segsz hr
  simp only [Restored,actAll_cons,actAll_nil,act_shmctl,act_mapPhys_refused addr segsz perm hg,
    Harmless]
  rw [hr] at hmap
  rw [act_guest _ _ rfl,and_iff_left hguest]
  by_cases hu : u.ret = 0
  · rw [if_pos hu,← overlay_eq_iff,act_shmdt addr hu,hsize,hmap,hr]
    split_ifs
    · rfl
    · rw [overlay_overlay]
  · rw [if_neg hu,act_shmdt_refused addr hu,hmap,hr,ite_overlay_eq_iff]

/-- A segment attached at another address, which stays there. -/
theorem shmElsewhere_iff (shmid : CInt) (addr : Word) (shmflg : CInt) (segsz : Word)
    (shm r : Reply) :
    Restored b m [(.shmctl shmid,shm),(.shmat shmid addr shmflg segsz,r)] ↔
      Harmless b m [(.shmctl shmid,shm),(.shmat shmid addr shmflg segsz,r)] := by
  have hguest := act_guest b m (c := .shmat shmid addr shmflg segsz) rfl r
  simp only [Restored,actAll_cons,actAll_nil,act_shmctl,Harmless]
  rw [and_iff_left hguest,act_shmat,ite_overlay_eq_iff]

theorem mapped_iff (addr len : Word) (prot flags fd : CInt) (offset : Word) (perm : Perm)
    {r g : Reply} (hr : r.ret = addr) (hg : g.ret = 0) :
    Restored b m [(.mmap addr len prot flags fd offset,r),(.vmMapPhys addr len perm,g)] ↔
      Harmless b m [(.mmap addr len prot flags fd offset,r),(.vmMapPhys addr len perm,g)] := by
  have hguest := act_guest b m (c := .mmap addr len prot flags fd offset) rfl r
  simp only [Restored,actAll_cons,actAll_nil,Harmless]
  rw [act_host _ _ rfl,act_mmap addr len prot flags fd offset hr,ite_overlay_eq_iff,
    act_mapPhys addr len perm hg,hguest,overlay_eq_iff]

theorem attached_iff (shmid : CInt) (addr : Word) (shmflg : CInt) (segsz : Word) (perm : Perm)
    {r g : Reply} (shm : Reply) (hr : r.ret = addr) (hg : g.ret = 0) :
    Restored b m [(.shmctl shmid,shm),(.shmat shmid addr shmflg segsz,r),
      (.vmMapPhys addr segsz perm,g)] ↔
    Harmless b m [(.shmctl shmid,shm),(.shmat shmid addr shmflg segsz,r),
      (.vmMapPhys addr segsz perm,g)] := by
  have hguest := act_guest b m (c := .shmat shmid addr shmflg segsz) rfl r
  simp only [Restored,actAll_cons,actAll_nil,act_shmctl,Harmless]
  rw [act_host _ _ rfl,act_shmat,ite_overlay_eq_iff,act_mapPhys addr segsz perm hg,hguest,
    overlay_eq_iff,hr]

theorem moved_iff (oldAddress oldSize newSize : Word) (flags : CInt) (target : Word) (perm : Perm)
    {r g' : Reply} (g : Reply) (hr : r.ret = target) (hg : g'.ret = 0) :
    Restored b m [(.mremap oldAddress oldSize newSize flags target,r),
      (.vmUnmap oldAddress oldSize,g),(.vmMapPhys target newSize perm,g')] ↔
    Harmless b m [(.mremap oldAddress oldSize newSize flags target,r),
      (.vmUnmap oldAddress oldSize,g),(.vmMapPhys target newSize perm,g')] := by
  have hguest := act_guest b m (c := .mremap oldAddress oldSize newSize flags target) rfl r
  simp only [Restored,actAll_cons,actAll_nil,Harmless]
  refine and_congr ?_ ?_
  · rw [act_host _ _ rfl,act_host _ _ rfl]
    simp only [act]
    by_cases hf : r.ret = MAP_FAILED
    · simp [hf]
    · simp only [if_neg hf]
      rw [overlay_overlay_eq_iff,hr]
      rw [hr] at hf
      exact ⟨fun h _ => h,fun h => h hf⟩
  · rw [act_mapPhys target newSize perm hg,← overlay_overlay_eq_iff,act_vmUnmap,hguest]

theorem not_isError_of_inside (hb : Based mmapBase) {target : Word} {len : ℕ}
    (h : Span.Inside ⟨target.toNat,len⟩ mmapBase.toNat (mmapBase.toNat + 0x200000000)) :
    ¬IsError target := by
  have hu := hb.upper
  simp only [Span.Inside,Span.stop] at h
  unfold IsError
  omega

theorem target_given (hb : Based mmapBase) (hs : s.Balanced) {auto : Bool} {addr len target : Word}
    (h : Target mmapBase s auto addr len target)
    (hgrant : len.toNat < 2^47 ∨ target = MAP_FAILED) (herr : IsError target) : auto = false := by
  cases h with
  | placed _ hsp =>
    exact absurd herr (not_isError_of_inside hb (effect_of_placed hb hs hsp rfl hgrant).inside)
  | given hauto _ => exact hauto

/-- A mapping request made the calls of `MapPath` and the application sees an
error: what the host and the guest show is as before exactly when the calls were
harmless. -/
theorem mapPath_restored_iff {addr len : Word} {prot flags fd : CInt} {offset : Word} {perm : Perm}
    {t : List (HostCall × Reply)} {v : Word}
    (h : MapPath (.mmap addr len prot flags fd offset) addr len perm t v)
    (henv : ∀ e ∈ t, HostOk e.1 e.2) : Restored b m t ↔ Harmless b m t := by
  cases h with
  | refused r hr =>
    have hf : r.ret = MAP_FAILED := mmap_refused (henv _ List.mem_cons_self) hr
    have hsame : act b m (.mmap addr len prot flags fd offset,r) = m := by
      simp only [act,if_pos hf]
    exact iff_of_true (restored_of_same hsame) trivial
  | takenBack r g u hr hg => exact takenBack_iff addr len prot flags fd offset perm u hr hg
  | mapped r g hr hg => exact mapped_iff addr len prot flags fd offset perm hr hg

theorem mapPath_granted {addr len : Word} {prot flags fd : CInt} {offset : Word} {perm : Perm}
    {t : List (HostCall × Reply)} (henv : ∀ e ∈ t, HostOk e.1 e.2)
    (h : MapPath (.mmap addr len prot flags fd offset) addr len perm t 0) :
    len.toNat < 2^47 ∨ addr = MAP_FAILED := by
  generalize hv : (0 : Word) = v at h
  cases h with
  | refused r hr =>
    have hne := (mmap_granted (henv _ List.mem_cons_self)).1 hr
    exact absurd hv.symm (neg_ne_zero_of hne)
  | takenBack r g u hr hg => exact absurd hv.symm hg
  | mapped r g hr => exact (mmap_granted (henv _ List.mem_cons_self)).2 hr

theorem BrkTested.not_isError (hb : Based mmapBase) (hs : s.Balanced) {brk : Word}
    (h : BrkTested mmapBase s brk) : ¬IsError brk := by
  have hroom := (heap_room hb hs h.above h.room).2
  have hlow := h.above
  have hbase := hb.lower
  have hu := hb.upper
  rw [BitVec.lt_def] at hlow
  have hsub : (brk - mmapBase).toNat = brk.toNat - mmapBase.toNat :=
    Words.sub_toNat_exact (by omega)
  have hlt := brk.isLt
  rw [pgRoundUp_toNat _ (by omega)] at hroom
  unfold IsError
  omega

theorem returnsError_mapEnd {s' : Counters} {ret v : Word}
    (h : ReturnsError (mapEnd s s' ret v)) :
    (mapEnd s s' ret v).final = some s ∨ (v = 0 ∧ IsError ret) := by
  unfold mapEnd at h ⊢
  split_ifs at h ⊢ with hv
  · exact .inl rfl
  · exact .inr ⟨not_not.mp hv,h⟩

theorem failed_counters (hb : Based mmapBase) (hs : s.Balanced) {op : Op}
    {t : List (HostCall × Reply)} {o : Outcome Counters Word Word} (hpath : Path mmapBase s op t o)
    (henv : ∀ e ∈ t, HostOk e.1 e.2) (herr : ReturnsError o) : o.final = some s := by
  cases hpath with
  | early | brkEarly | query | brkSame | brkKept | munmapped | munmapRefused | munmapRetried
    | mprotectRefused | shmRefused | shmElsewhere | shmTakenBack | mremapRefused => rfl
  | brkShrunk brk r g htest => exact absurd herr (htest.not_isError hb hs)
  | brkGrown brk _ v htest =>
    rcases returnsError_mapEnd herr with hfin | ⟨-,hbad⟩
    · exact hfin
    · exact absurd hbad (htest.not_isError hb hs)
  | mmap addr len prot flags fd offset target _ v htarget hmap =>
    rcases returnsError_mapEnd herr with hfin | ⟨rfl,hbad⟩
    · exact hfin
    obtain ⟨flags',fd',offset',heq⟩ := mapCall_eq target len prot flags fd offset
    rw [heq] at hmap
    have hauto := target_given hb hs htarget (mapPath_granted henv hmap) hbad
    rw [hauto]
    rfl
  | stack _ v =>
    rcases returnsError_mapEnd herr with hfin | ⟨-,hbad⟩
    · exact hfin
    · have hpos := mapPos_toNat hb hs
      have hu := hb.upper
      rw [IsError,pgAddr_toNat] at hbad
      omega
  | mprotected =>
    split_ifs at herr ⊢
    · exact herr.elim
    · rfl
  | shmAttached shmid addr shmflg target shm r g htarget hr =>
    have hgrant := shmat_granted (henv (.shmat shmid target shmflg shm.segsz,r) (by simp)) hr
    have hauto := target_given hb hs htarget hgrant herr
    rw [hauto]
    rfl
  | mremapped oldAddress oldSize newSize flags newAddress target r g g' _ htarget hr =>
    split_ifs at herr ⊢ with hg
    · exact herr.elim
    have hgrant := mremap_granted (henv _ List.mem_cons_self) hr
    have hauto := target_given hb hs htarget hgrant herr
    rw [hauto]
    rfl

/-- A failed call restores the mappings exactly when what it did was harmless. -/
theorem failed_restored_iff (hb : Based mmapBase) (hs : s.Balanced) {op : Op}
    {t : List (HostCall × Reply)} {o : Outcome Counters Word Word} (hpath : Path mmapBase s op t o)
    (henv : ∀ e ∈ t, HostOk e.1 e.2) (herr : ReturnsError o) : Restored b m t ↔ Harmless b m t := by
  cases hpath with
  | early | brkEarly | query | brkSame => exact iff_of_true (restored_of_same rfl) trivial
  | brkKept brk r _ _ hr =>
    refine iff_of_true (restored_of_same ?_) trivial
    rw [actAll_cons,act_munmap_refused _ _ hr,actAll_nil]
  | brkShrunk brk r g htest => exact absurd herr (htest.not_isError hb hs)
  | brkGrown brk _ v _ _ hmap => exact mapPath_restored_iff hmap henv
  | mmap addr len prot flags fd offset target _ v _ hmap =>
    obtain ⟨flags',fd',offset',heq⟩ := mapCall_eq target len prot flags fd offset
    rw [heq] at hmap
    exact mapPath_restored_iff hmap henv
  | stack _ v _ hmap => exact mapPath_restored_iff hmap henv
  | munmapped | munmapRetried => exact absurd herr not_isError_zero
  | munmapRefused addr len r r' _ hr hr' =>
    refine iff_of_true (restored_of_same ?_) trivial
    rw [actAll_cons,actAll_cons,act_munmap_refused _ _ hr,act_munmap_refused _ _ hr',actAll_nil]
  | mprotectRefused addr len prot r _ hr =>
    refine iff_of_true (restored_of_same ?_) trivial
    simp only [actAll_cons,actAll_nil,act,if_neg hr]
  | mprotected =>
    split_ifs at herr
    · exact herr.elim
    · exact absurd herr not_isError_zero
  | shmRefused => exact iff_of_true (restored_of_same rfl) trivial
  | shmElsewhere shmid addr shmflg target shm r => exact shmElsewhere_iff shmid target shmflg _ shm r
  | shmTakenBack shmid addr shmflg target shm r g u _ hr hg =>
    exact shmTakenBack_iff shmid target shmflg _ _ shm u hr hg
  | shmAttached shmid addr shmflg target shm r g _ hr hg =>
    exact attached_iff shmid target shmflg _ _ shm hr hg
  | mremapRefused oldAddress oldSize newSize flags newAddress target r _ _ hr =>
    have hf : r.ret = MAP_FAILED := by
      rcases henv _ List.mem_cons_self with ⟨he,-⟩ | ⟨hf,-⟩
      · exact absurd he hr
      · exact hf
    refine iff_of_true (restored_of_same ?_) trivial
    simp only [actAll_cons,actAll_nil,act,if_pos hf]
  | mremapped oldAddress oldSize newSize flags newAddress target r g g' _ _ hr =>
    split_ifs at herr with hg
    · exact herr.elim
    · exact moved_iff oldAddress oldSize newSize _ target _ g hr (not_not.mp hg)

/-- A call that shows the application an error leaves the counters, the host's
mappings and the guest page table as they were exactly when the pages it touched
were already as it left them. -/
theorem failed_unchanged_iff (hb : Based mmapBase) (hs : s.Balanced) {op : Op}
    {t : List (HostCall × Reply)} {o : Outcome Counters Word Word}
    (hexec : Prog.Exec HostOk (op.code mmapBase) s t o) (herr : ReturnsError o) :
    (o.final = some s ∧ (actAll b t m).host = m.host ∧ (actAll b t m).guest = m.guest) ↔
      Harmless b m t := by
  have hpath := path_of_exec hexec
  rw [and_iff_right (failed_counters hb hs hpath hexec.allowed herr)]
  exact failed_restored_iff hb hs hpath hexec.allowed herr

end Rollback

section Refused

/-- A mapping of one page at a chosen address; the guest answers `-ENOMEM` and the
page is taken back. -/
def refusedTrace (addr : Word) : List (HostCall × Reply) :=
  [(.mmap addr 4096 3 0x32 (-1) 0,{ret := addr}),
    (.vmMapPhys addr 4096 (protToPerm 3),{ret := -ENOMEM}),(.munmap addr 4096,{})]

theorem placedRefused_exec : Prog.Exec HostOk ((Op.mmap 0 4096 3 0x22 (-1) 0).code 0x400000000) {}
    (refusedTrace 0x5fffff000) (.err (-ENOMEM) {}) :=
  Prog.exec_of_runWith [{ret := 0x5fffff000},{ret := -ENOMEM},{}] (by decide)
    (by simp [refusedTrace,HostOk])

theorem givenRefused_exec :
    Prog.Exec HostOk ((Op.mmap 0x400000000 4096 3 0x22 (-1) 0).code 0x400000000) {}
      (refusedTrace 0x400000000) (.err (-ENOMEM) {}) :=
  Prog.exec_of_runWith [{ret := 0x400000000},{ret := -ENOMEM},{}] (by decide)
    (by simp [refusedTrace,HostOk])

/-- Where nothing was mapped, a refused request leaves nothing. -/
theorem failed_unchanged_iff_fresh :
    (actAll unitBacking (refusedTrace 0x5fffff000) blankMaps).host = blankMaps.host ∧
      (actAll unitBacking (refusedTrace 0x5fffff000) blankMaps).guest = blankMaps.guest := by
  have hharmless : Harmless unitBacking blankMaps (refusedTrace 0x5fffff000) := by
    simp only [refusedTrace,Harmless,if_true]
    intro p _
    rfl
  exact ((failed_unchanged_iff ⟨by decide,by decide,by decide⟩ ⟨by decide,by decide,by decide⟩
    placedRefused_exec trivial).mpr hharmless).2

def firstPage : Maps Unit where
  host := fun p => if p = 0x400000 then some ⟨3,()⟩ else none
  guest := fun p => if p = 0x400000 then some (protToPerm 3) else none
  attached := fun _ => 0

/-- A refused request at the address of a mapped page removes the page. -/
theorem refusedOverPage_changes :
    ¬ ∀ (mmapBase : Word) (s : Counters) (m : Maps Unit) (op : Op) (t : List (HostCall × Reply))
      (o : Outcome Counters Word Word), Based mmapBase → s.Balanced →
      Prog.Exec HostOk (op.code mmapBase) s t o → ReturnsError o →
      o.final = some s ∧ (actAll unitBacking t m).host = m.host ∧
        (actAll unitBacking t m).guest = m.guest := by
  intro h
  have hbad := (h 0x400000000 {} firstPage _ _ _ ⟨by decide,by decide,by decide⟩
    ⟨by decide,by decide,by decide⟩ givenRefused_exec trivial).2.1
  exact absurd (congrFun hbad 0x400000) (by decide)

end Refused

end Umm
end VmplApps

import VmplApps.SthreadEvents

/-! What CR3 carries. A thread's value is the address of its page table with its id
in the low twelve bits, where the processor expects the PCID. Ids come from a
counter that is never reset; the records come from the kernel's own tag, which is
full long before the counter leaves those bits. -/
namespace VmplApps
namespace Sthreads

/-- Nobody is current and the master's table is loaded, or the current thread's. -/
def Loaded (boot : Boot) (k : Kernel) : Prop :=
  match k.ksCurrent with
  | none => k.cr3 = boot.pgrootAddr ∨ k.cr3 = boot.masterCr3
  | some u => Own k u

/-- Every value for CR3 names its thread's table and its thread's id, ids are the
threads' own, and the counter that supplies them cannot run over. -/
structure Cr3Sound (boot : Boot) (m : Machine) : Prop where
  address : ∀ s ∈ m.kernel.sthreads, cr3Root s.cr3 = s.stPgroot
  pcid : ∀ s ∈ m.kernel.sthreads, (s.cr3 &&& 0xfff).toNat = s.stId.toNat
  loaded : Loaded boot m.kernel
  notMaster : ∀ s ∈ m.kernel.sthreads, s.stId ≠ 0
  distinct : (m.kernel.sthreads.map Sthread.stId).Nodup
  positive : ∀ i cb arg r, step boot m (.create i cb arg r) ≠ .error .idOverflow

section Values
variable {boot : Boot} {k : Kernel} {s : Sthread}

theorem pcid_cr3 (hroot : s.stPgroot &&& (CR3_NOFLUSH ||| 0xfff) = 0) (hid : s.stId.toNat < 4096) :
    (s.cr3 &&& 0xfff).toNat = s.stId.toNat := by
  have hmask : (CR3_NOFLUSH ||| 0xfff) &&& 0xfff = (0xfff : Word) := by decide
  have hlow : s.stPgroot &&& 0xfff = 0 := by
    rw [← hmask,← BitVec.and_assoc,hroot]
    exact BitVec.zero_and
  have hpage : (s.stPgroot ||| CR3_NOFLUSH) &&& 0xfff = 0 :=
    (Words.or_and_of_disjoint (by decide)).trans hlow
  have hpcid : s.cr3 &&& 0xfff = s.stId.signExtend 64 &&& 0xfff := by
    rw [Sthread.cr3,BitVec.or_comm]
    exact Words.or_and_of_disjoint hpage
  calc
    (s.cr3 &&& 0xfff).toNat = (s.stId.signExtend 64).toNat % 4096 := by
      rw [hpcid]
      exact Words.lowBits_toNat (by omega : 12 ≤ 64) (s.stId.signExtend 64)
    _ = s.stId.toNat := by
      rw [Words.signExtend_toNat (by omega)]
      exact Nat.mod_eq_of_lt hid

/-- The tag is full before the counter can turn negative. -/
theorem Roster.idOverflow_ne (h : Roster boot k) (sc : Sc) (cb arg : Word) (r : CreateReply) :
    sthreadCreate boot k sc cb arg r ≠ .error .idOverflow := by
  unfold sthreadCreate
  split
  · exact fun h => nomatch h
  · unfold createNewSthread
    cases hk : kmalloc boot k sizeofSthread with
    | error e =>
      unfold kmalloc at hk
      dsimp only at hk
      split_ifs at hk
      cases hk
      simp [bind,Except.bind]
    | ok k₁ =>
      have hlt := (h.room.kmalloc hk).le
      have hcount : k₁.sthreadId = k.sthreadId := by rw [kmalloc_eq hk]
      have hpos : ¬(k₁.sthreadId + 1).toInt < 0 := by
        rw [hcount,BitVec.toInt_eq_toNat_cond,BitVec.toNat_add]
        have hone : (1 : CInt).toNat = 1 := rfl
        rw [hone,Nat.mod_eq_of_lt (by omega),if_pos (by omega)]
        omega
      simp only [bind,Except.bind,if_neg hpos,mmapAnon]
      split_ifs <;> simp

end Values

section Records
variable {boot : Boot} {k k' : Kernel} {m m' : Machine} {l : Label} {s : Sthread} {u : CInt}

theorem Prepared.mem (hp : Prepared boot m l k) (hs : s ∈ m.kernel.sthreads) : s ∈ k.sthreads := by
  cases hp with
  | same | remap | tag => exact hs
  | bump tid sz =>
    rw [smalloc_eq]
    exact hs
  | fresh _ hk _ =>
    apply List.mem_cons_of_mem
    rw [kmalloc_eq hk]
    exact hs

theorem Numbered.survives (hn : Numbered k) (hev : k.Evolves k') (hs : s ∈ k.sthreads) :
    ∃ s' ∈ k'.sthreads, s.Evolves s' := by
  have hid : s.stId ∈ k'.sthreads.map Sthread.stId := by
    rw [hev.ids]
    exact List.mem_map_of_mem hs
  obtain ⟨s',hs',heq⟩ := List.mem_map.mp hid
  obtain ⟨t,ht,hts'⟩ := hev.records s' hs'
  obtain rfl := List.inj_on_of_nodup_map hn.ids ht hs (hts'.id.symm.trans heq)
  exact ⟨s',hs',hts'⟩

theorem Own.step (hown : Own m.kernel u) (hn : Numbered m.kernel) (h : step boot m l = .ok m')
    (hcur : m'.kernel.ksCurrent = m.kernel.ksCurrent) (hcr3 : m'.kernel.cr3 = m.kernel.cr3) :
    Own m'.kernel u := by
  obtain ⟨hu,s,hf,hs⟩ := hown
  obtain ⟨k₀,hp,hev⟩ := step_evolves h
  obtain ⟨hmem,hid⟩ := Kernel.find_mem hf
  obtain ⟨s',hs',hss'⟩ := (hn.prepared hp).survives hev (hp.mem hmem)
  refine ⟨hcur.trans hu,s',?_,?_⟩
  · rw [← hid,← hss'.id]
    exact (hn.step h).find_of_mem hs'
  · rw [hcr3,hs,hss'.cr3_eq]

theorem userStore_control {va : Word} {b : Byte} (h : userStore boot k u va b = .ok k') :
    k'.ksCurrent = k.ksCurrent ∧ k'.cr3 = k.cr3 := by
  unfold userStore at h
  split at h
  · cases h
  · split_ifs at h
    · split at h
      · cases h
      · cases h
        exact ⟨rfl,rfl⟩
    · split at h
      · cases h
      · cases h
        exact ⟨rfl,rfl⟩

/-- What is loaded after a step: what was, the master's table with nobody current,
or the table of the thread that is entered. -/
def Loads (boot : Boot) (k k' : Kernel) : Prop :=
  (k'.ksCurrent = k.ksCurrent ∧ k'.cr3 = k.cr3) ∨
    (k'.ksCurrent = none ∧ k'.cr3 = boot.masterCr3) ∨ ∃ u, Own k' u

theorem unwind_loads (h : unwind boot m = .ok m') : Loads boot k m'.kernel := by
  obtain ⟨f,fs,-,rfl⟩ := unwind_ok h
  exact .inr (.inl ⟨rfl,rfl⟩)

theorem schedule_loads {caller : Caller} {r : HostReply} (h : schedule boot m caller r = .ok m') :
    Loads boot k m'.kernel := by
  rcases schedule_cases h with ⟨s,hs,rfl⟩ | ⟨-,-,hunw⟩
  · exact .inr (.inr ⟨_,own_entered (find_nextRunnable hs) (s.evolves_with _ _ _ _) rfl rfl rfl⟩)
  · exact unwind_loads hunw

theorem step_loads (h : step boot m l = .ok m') : Loads boot m.kernel m'.kernel := by
  cases stepped_of_step h with
  | tagNew _ hk =>
    obtain ⟨mem,-,hk⟩ := bind_ok.mp hk
    cases hk
    exact .inl ⟨rfl,rfl⟩
  | smalloc tid sz _ =>
    rw [smalloc_eq]
    exact .inl ⟨rfl,rfl⟩
  | create _ hk => exact .inr (.inr ⟨_,own_create hk⟩)
  | wait _ _ _ hs => exact schedule_loads hs
  | store _ hk => exact .inl (userStore_control hk)
  | exited _ _ _ _ _ hu => exact unwind_loads hu
  | read _ _ _ _ _ hs => exact schedule_loads hs
  | remap | scInit | scMemAdd | scFdAdd | scSysAdd | joinNone | joinSome | collect | user | blocked |
    opened | openFailed | passed => exact .inl ⟨rfl,rfl⟩

theorem Own.loaded (h : Own k u) : Loaded boot k := by
  unfold Loaded
  rw [h.1]
  exact h

theorem Loaded.step (hl : Loaded boot m.kernel) (hn : Numbered m.kernel)
    (h : step boot m l = .ok m') : Loaded boot m'.kernel := by
  rcases step_loads h with ⟨hcur,hcr3⟩ | ⟨hcur,hcr3⟩ | ⟨u,hown⟩
  · cases hu : m.kernel.ksCurrent with
    | none =>
      unfold Loaded at hl ⊢
      rw [hu] at hl
      rw [hcur,hu,hcr3]
      exact hl
    | some u =>
      have hown : Own m.kernel u := by simpa only [Loaded,hu] using hl
      exact (hown.step hn h hcur hcr3).loaded
  · unfold Loaded
    rw [hcur]
    exact .inr hcr3
  · exact hown.loaded

theorem nonzero_step (hn : Numbered m.kernel) (h0 : ∀ s ∈ m.kernel.sthreads, s.stId ≠ 0)
    (h : step boot m l = .ok m') : ∀ s ∈ m'.kernel.sthreads, s.stId ≠ 0 := by
  intro s' hs'
  obtain ⟨k₀,hp,hev⟩ := step_evolves h
  obtain ⟨s,hs,hss'⟩ := hev.records s' hs'
  rw [hss'.id]
  cases hp with
  | same | remap | tag => exact h0 s hs
  | bump tid sz =>
    rw [smalloc_eq] at hs
    exact h0 s hs
  | fresh _ hk hpos =>
    rw [kmalloc_eq hk] at hs hpos
    rcases List.mem_cons.mp hs with rfl | hs
    · intro hzero
      have hnext := (hn.next hpos).1
      have hzero' : m.kernel.sthreadId + 1 = 0 := hzero
      rw [hzero'] at hnext
      simp at hnext
    · exact h0 s hs

end Records

structure Registered (boot : Boot) (k : Kernel) : Prop where
  roster : Roster boot k
  numbered : Numbered k
  nonzero : ∀ s ∈ k.sthreads, s.stId ≠ 0
  loaded : Loaded boot k

section Cr3
variable {rt : Runtime} {segments : List Segment} {pgroot : LeafTable Word} {mem : Mem}
  {r : InitReply} {boot : Boot} {m₀ m m' : Machine} {l : Label}

theorem registered_init (h : sthreadInit rt segments pgroot mem r = .ok (boot,m)) :
    Registered boot m.kernel := by
  have hroster := (good_init h).2
  obtain ⟨rfl,-,rfl⟩ := sthreadInit_ok h
  exact ⟨hroster,⟨List.nodup_nil,by simp,by simp⟩,by simp,.inl rfl⟩

theorem Registered.step (hr : Registered boot m.kernel) (ht : trusted boot m l = true)
    (h : step boot m l = .ok m') : Registered boot m'.kernel where
  roster := hr.roster.step ht h
  numbered := hr.numbered.step h
  nonzero := nonzero_step hr.numbered hr.nonzero h
  loaded := hr.loaded.step hr.numbered h

theorem cr3Sound_of_registered (hr : Registered boot m.kernel) : Cr3Sound boot m := by
  have hid : ∀ s ∈ m.kernel.sthreads, s.stId.toNat < 4096 := fun s hs =>
    lt_of_le_of_lt (hr.roster.ids s hs) hr.roster.room.le
  refine ⟨fun s hs => ?_,fun s hs => ?_,hr.loaded,hr.nonzero,hr.numbered.ids,fun i cb arg reply => ?_⟩
  · exact cr3Root_cr3 (hr.roster.roots s hs) (hid s hs)
  · exact pcid_cr3 (hr.roster.roots s hs) (hid s hs)
  · intro h
    unfold Sthreads.step at h
    cases hm : m.mode with
    | master =>
      simp only [hm,masterStep] at h
      cases hc : sthreadCreate boot m.kernel (m.policies i) cb arg reply with
      | error e =>
        simp only [hc,bind,Except.bind,Except.error.injEq] at h
        exact hr.roster.idOverflow_ne _ _ _ _ (hc.trans (congrArg Except.error h))
      | ok x => simp [hc,bind,Except.bind] at h
    | joining st => simp [hm] at h
    | user u => simp [hm,userStep] at h

/-- In every run whose page-table roots leave the added bits free, CR3 values name
the right table and the right thread. -/
theorem runs_cr3_sound {ls : List Label} (hinit : sthreadInit rt segments pgroot mem r = .ok (boot,m₀))
    (hruns : Runs (fun a l b => trusted boot a l = true ∧ step boot a l = .ok b) m₀ ls m) :
    Cr3Sound boot m := by
  apply cr3Sound_of_registered
  refine hruns.invariant (I := fun a _ => Registered boot a.kernel) (registered_init hinit) ?_
  rintro a ls l b hr ⟨ht,hstep⟩
  exact hr.step ht hstep

end Cr3

/-- The hypotheses hold of a run that has created two threads. -/
theorem runs_cr3_sound_twoReaders : ∃ boot m₀ m,
    sthreadInit flatRuntime oneSegment onePage (fun _ => 0) flatInit = .ok (boot,m₀) ∧
    Runs (fun a l b => trusted boot a l = true ∧ step boot a l = .ok b) m₀ twoReaders m ∧
    m.kernel.sthreads.map Sthread.cr3 = [0x8000000003000002,0x8000000002000001] ∧
    Cr3Sound boot m := by
  obtain ⟨boot,m₀,m,hinit,hruns,hp⟩ := exists_of_play flatRuntime oneSegment onePage
    (fun _ => 0) flatInit trusted twoReaders
    (fun m => m.kernel.sthreads.map Sthread.cr3 == [0x8000000003000002,0x8000000002000001])
    (by decide +kernel)
  exact ⟨boot,m₀,m,hinit,hruns,beq_iff_eq.mp hp,runs_cr3_sound hinit hruns⟩

end Sthreads
end VmplApps

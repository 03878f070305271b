import VmplApps.Umm

/-! Every way through the memory manager. `Path` lists, for each call, the host
calls it can make with their replies and how it then ends; `path_of_exec` says
that there are no others. Later modules reason about these cases and never open
the programs again. -/
namespace VmplApps
namespace Umm

open AppRegion

/-- A host mapping at a fixed address followed by its registration with the
guest, which is taken back when it fails. The value is zero on success. -/
inductive MapPath (c : HostCall) (addr len : Word) (perm : Perm) :
    List (HostCall × Reply) → Word → Prop
  | refused (r : Reply) : r.ret ≠ addr → MapPath c addr len perm [(c,r)] (-r.errno)
  | takenBack (r g u : Reply) : r.ret = addr → g.ret ≠ 0 →
      MapPath c addr len perm [(c,r),(.vmMapPhys addr len perm,g),(.munmap addr len,u)] g.ret
  | mapped (r g : Reply) : r.ret = addr → g.ret = 0 →
      MapPath c addr len perm [(c,r),(.vmMapPhys addr len perm,g)] 0

def anonCall (addr len : Word) (prot : CInt) : HostCall :=
  .mmap addr len prot (MAP_FIXED ||| MAP_PRIVATE ||| MAP_ANONYMOUS) (-1) 0

def mapCall (addr len : Word) (prot flags fd : CInt) (offset : Word) : HostCall :=
  if flags &&& MAP_ANONYMOUS ≠ 0 then anonCall addr len prot
  else .mmap addr len prot (MAP_FIXED ||| flags) fd offset

/-- The address of a request: placed below the others, or the caller's own. -/
inductive Target (mmapBase : Word) (s : Counters) (auto : Bool) (addr len : Word) : Word → Prop
  | placed : auto = true → ummSpaceLeft s len = true →
      Target mmapBase s auto addr len (ummGetMapPos mmapBase s - pgRoundUp len)
  | given : auto = false → memRefIsSafe mmapBase addr len = true →
      Target mmapBase s auto addr len addr

/-- How a mapping request ends once the host and the guest have answered `v`. -/
def mapEnd (s s' : Counters) (ret v : Word) : Outcome Counters Word Word :=
  if v ≠ 0 then .err v s else .ok ret s'

def Counters.adjusted (s : Counters) (adjust : Bool) (len : Word) : Counters :=
  if adjust then {s with mmapLen := s.mmapLen + pgRoundUp len} else s

/-- A request to move the end of the heap that passed both tests. -/
structure BrkTested (mmapBase : Word) (s : Counters) (brk : Word) : Prop where
  notQuery : brk ≠ 0
  above : ¬brk < mmapBase
  room : ummSpaceLeft s (pgRoundUp (brk - mmapBase)) = true

def shmatPerm (shmflg : CInt) : Perm :=
  protToPerm (if shmflg &&& SHM_RDONLY = 0 then PROT_READ ||| PROT_WRITE else PROT_READ)

inductive Path (mmapBase : Word) (s : Counters) :
    Op → List (HostCall × Reply) → Outcome Counters Word Word → Prop
  | early (op : Op) (e : Word) : (∀ brk, op ≠ .brk brk) → Path mmapBase s op [] (.err e s)
  | brkEarly (brk e : Word) : brk ≠ 0 → ¬BrkTested mmapBase s brk → (e = -EINVAL ∨ e = -ENOMEM) →
      Path mmapBase s (.brk brk) [] (.err e s)
  | query : Path mmapBase s (.brk 0) [] (.ok mmapBase s)
  | brkSame (brk : Word) : BrkTested mmapBase s brk → pgRoundUp (brk - mmapBase) = s.brkLen →
      Path mmapBase s (.brk brk) [] (.ok brk s)
  | brkKept (brk : Word) (r : Reply) : BrkTested mmapBase s brk →
      pgRoundUp (brk - mmapBase) < s.brkLen → r.ret ≠ 0 →
      Path mmapBase s (.brk brk)
        [(.munmap (mmapBase + pgRoundUp (brk - mmapBase)) (s.brkLen - pgRoundUp (brk - mmapBase)),r)]
        (.err (-r.errno) s)
  | brkShrunk (brk : Word) (r g : Reply) : BrkTested mmapBase s brk →
      pgRoundUp (brk - mmapBase) < s.brkLen → r.ret = 0 →
      Path mmapBase s (.brk brk)
        [(.munmap (mmapBase + pgRoundUp (brk - mmapBase)) (s.brkLen - pgRoundUp (brk - mmapBase)),r),
          (.vmUnmap (mmapBase + pgRoundUp (brk - mmapBase)) (s.brkLen - pgRoundUp (brk - mmapBase)),g)]
        (.ok brk {s with brkLen := pgRoundUp (brk - mmapBase)})
  | brkGrown (brk : Word) (t : List (HostCall × Reply)) (v : Word) : BrkTested mmapBase s brk →
      s.brkLen < pgRoundUp (brk - mmapBase) →
      MapPath (anonCall (mmapBase + s.brkLen) (pgRoundUp (brk - mmapBase) - s.brkLen)
          (PROT_READ ||| PROT_WRITE))
        (mmapBase + s.brkLen) (pgRoundUp (brk - mmapBase) - s.brkLen)
        (protToPerm (PROT_READ ||| PROT_WRITE)) t v →
      Path mmapBase s (.brk brk) t
        (mapEnd s {s with brkLen := pgRoundUp (brk - mmapBase)} brk v)
  | mmap (addr len : Word) (prot flags fd : CInt) (offset target : Word)
      (t : List (HostCall × Reply)) (v : Word) : Target mmapBase s (addr == 0) addr len target →
      MapPath (mapCall target len prot flags fd offset) target len (protToPerm prot) t v →
      Path mmapBase s (.mmap addr len prot flags fd offset) t
        (mapEnd s (s.adjusted (addr == 0) len) target v)
  | stack (t : List (HostCall × Reply)) (v : Word) : ummSpaceLeft s appStackSize = true →
      MapPath (anonCall (pgAddr (ummGetMapPos mmapBase s) - appStackSize + pgSize)
          (appStackSize - pgSize) (PROT_READ ||| PROT_WRITE))
        (pgAddr (ummGetMapPos mmapBase s) - appStackSize + pgSize) (appStackSize - pgSize)
        (protToPerm (PROT_READ ||| PROT_WRITE)) t v →
      Path mmapBase s .allocStack t
        (mapEnd s {s with mmapLen := s.mmapLen + (appStackSize + pgOff (ummGetMapPos mmapBase s))}
          (pgAddr (ummGetMapPos mmapBase s)) v)
  | munmapped (addr len : Word) (r g : Reply) : memRefIsSafe mmapBase addr len = true → r.ret = 0 →
      Path mmapBase s (.munmap addr len) [(.munmap addr len,r),(.vmUnmap addr len,g)] (.ok 0 s)
  | munmapRefused (addr len : Word) (r r' : Reply) : memRefIsSafe mmapBase addr len = true →
      r.ret ≠ 0 → r'.ret ≠ 0 →
      Path mmapBase s (.munmap addr len) [(.munmap addr len,r),(.munmap addr (bigPgRoundUp len),r')]
        (.err (-r'.errno) s)
  | munmapRetried (addr len : Word) (r r' g : Reply) : memRefIsSafe mmapBase addr len = true →
      r.ret ≠ 0 → r'.ret = 0 →
      Path mmapBase s (.munmap addr len) [(.munmap addr len,r),
        (.munmap addr (bigPgRoundUp len),r'),(.vmUnmap addr (bigPgRoundUp len),g)] (.ok 0 s)
  | mprotectRefused (addr len prot : Word) (r : Reply) : memRefIsSafe mmapBase addr len = true →
      r.ret ≠ 0 →
      Path mmapBase s (.mprotect addr len prot) [(.mprotect addr len (prot.setWidth 32),r)]
        (.err (-r.errno) s)
  | mprotected (addr len prot : Word) (r g : Reply) : memRefIsSafe mmapBase addr len = true →
      r.ret = 0 →
      Path mmapBase s (.mprotect addr len prot) [(.mprotect addr len (prot.setWidth 32),r),
        (.vmMprotect addr len (protToPerm (prot.setWidth 32)),g)]
        (if g.ret ≠ 0 then .halted else .ok 0 s)
  | shmRefused (shmid : CInt) (addr : Word) (shmflg : CInt) (shm : Reply) (e : Word) :
      Path mmapBase s (.shmat shmid addr shmflg) [(.shmctl shmid,shm)] (.err e s)
  | shmElsewhere (shmid : CInt) (addr : Word) (shmflg : CInt) (target : Word) (shm r : Reply) :
      Target mmapBase s (addr == 0) addr shm.segsz target → r.ret ≠ target →
      Path mmapBase s (.shmat shmid addr shmflg)
        [(.shmctl shmid,shm),(.shmat shmid target shmflg shm.segsz,r)] (.err (-r.errno) s)
  | shmTakenBack (shmid : CInt) (addr : Word) (shmflg : CInt) (target : Word) (shm r g u : Reply) :
      Target mmapBase s (addr == 0) addr shm.segsz target → r.ret = target → g.ret ≠ 0 →
      Path mmapBase s (.shmat shmid addr shmflg)
        [(.shmctl shmid,shm),(.shmat shmid target shmflg shm.segsz,r),
          (.vmMapPhys target shm.segsz (shmatPerm shmflg),g),(.shmdt target,u)] (.err g.ret s)
  | shmAttached (shmid : CInt) (addr : Word) (shmflg : CInt) (target : Word) (shm r g : Reply) :
      Target mmapBase s (addr == 0) addr shm.segsz target → r.ret = target → g.ret = 0 →
      Path mmapBase s (.shmat shmid addr shmflg)
        [(.shmctl shmid,shm),(.shmat shmid target shmflg shm.segsz,r),
          (.vmMapPhys target shm.segsz (shmatPerm shmflg),g)]
        (.ok target (s.adjusted (addr == 0) shm.segsz))
  | mremapRefused (oldAddress oldSize newSize : Word) (flags : CInt) (newAddress target : Word)
      (r : Reply) : memRefIsSafe mmapBase oldAddress oldSize = true →
      Target mmapBase s (flags &&& MREMAP_FIXED == 0) newAddress newSize target → r.ret ≠ target →
      Path mmapBase s (.mremap oldAddress oldSize newSize flags newAddress)
        [(.mremap oldAddress oldSize newSize (flags ||| MREMAP_FIXED ||| MREMAP_MAYMOVE) target,r)]
        (.err (-r.errno) s)
  | mremapped (oldAddress oldSize newSize : Word) (flags : CInt) (newAddress target : Word)
      (r g g' : Reply) : memRefIsSafe mmapBase oldAddress oldSize = true →
      Target mmapBase s (flags &&& MREMAP_FIXED == 0) newAddress newSize target → r.ret = target →
      Path mmapBase s (.mremap oldAddress oldSize newSize flags newAddress)
        [(.mremap oldAddress oldSize newSize (flags ||| MREMAP_FIXED ||| MREMAP_MAYMOVE) target,r),
          (.vmUnmap oldAddress oldSize,g),
          (.vmMapPhys target newSize (protToPerm (PROT_READ ||| PROT_WRITE)),g')]
        (if g'.ret ≠ 0 then .halted
          else .ok target (s.adjusted (flags &&& MREMAP_FIXED == 0) newSize))

theorem mapEnd_ok {s s' s'' : Counters} {ret v w : Word} (h : mapEnd s s' ret v = .ok w s'') :
    v = 0 ∧ w = ret ∧ s'' = s' := by
  unfold mapEnd at h
  split_ifs at h with hv
  cases h
  exact ⟨not_not.mp hv,rfl,rfl⟩

section Paths
variable {env : HostCall → Reply → Prop} {mmapBase : Word} {s : Counters}

theorem mapGuest_paths (c : HostCall) (addr len : Word) (perm : Perm) :
    Prog.wp env (Prog.call c >>= fun mem =>
        if mem.ret ≠ addr then pure (-mem.errno) else mapGuest addr len perm : Code Word) s
      fun t o => ∃ v s', o = .ok v s' ∧ s' = s ∧ MapPath c addr len perm t v := by
  simp only [Prog.wp_bind,Prog.wp_call,Prog.thenPost]
  intro r _
  by_cases hr : r.ret ≠ addr
  · rw [if_pos hr]
    exact ⟨_,_,rfl,rfl,.refused r hr⟩
  · rw [if_neg hr]
    simp only [mapGuest,Prog.wp_bind,Prog.wp_call,Prog.thenPost]
    intro g _
    by_cases hg : g.ret ≠ 0
    · rw [if_pos hg]
      simp only [Prog.wp_bind,Prog.wp_call,Prog.thenPost]
      exact fun u _ => ⟨_,_,rfl,rfl,.takenBack r g u (not_not.mp hr) hg⟩
    · rw [if_neg hg]
      exact ⟨_,_,rfl,rfl,.mapped r g (not_not.mp hr) (not_not.mp hg)⟩

theorem ummMmapAnom_paths (addr len : Word) (prot : CInt) :
    Prog.wp env (ummMmapAnom addr len prot false) s fun t o =>
      ∃ v s', o = .ok v s' ∧ s' = s ∧
        MapPath (anonCall addr len prot) addr len (protToPerm prot) t v :=
  mapGuest_paths (anonCall addr len prot) addr len (protToPerm prot)

theorem chooseAddr_paths (addr len : Word) :
    Prog.wp env (chooseAddr mmapBase addr len) s fun t o => t = [] ∧
      ((∃ e, o = .err e s) ∨ ∃ target, o = .ok target s ∧
        Target mmapBase s (addr == 0) addr len target) := by
  unfold chooseAddr
  by_cases h0 : addr = 0
  · subst h0
    simp only [if_true,placeBelow,Prog.wp_bind,Prog.wp_state,Prog.thenPost]
    cases hsp : ummSpaceLeft s len
    · exact ⟨rfl,.inl ⟨_,rfl⟩⟩
    · exact ⟨rfl,.inr ⟨_,rfl,.placed rfl hsp⟩⟩
  · rw [if_neg h0]
    cases hsafe : memRefIsSafe mmapBase addr len
    · exact ⟨rfl,.inl ⟨_,rfl⟩⟩
    · exact ⟨rfl,.inr ⟨_,rfl,.given (by simpa using h0) hsafe⟩⟩

theorem mremapAddr_paths (newSize : Word) (flags : CInt) (newAddress : Word) :
    Prog.wp env (mremapAddr mmapBase newSize flags newAddress) s fun t o => t = [] ∧
      ((∃ e, o = .err e s) ∨ ∃ target, o = .ok target s ∧
        Target mmapBase s (flags &&& MREMAP_FIXED == 0) newAddress newSize target) := by
  unfold mremapAddr
  by_cases hf : flags &&& MREMAP_FIXED ≠ 0
  · rw [if_pos hf]
    cases hsafe : memRefIsSafe mmapBase newAddress newSize
    · exact ⟨rfl,.inl ⟨_,rfl⟩⟩
    · exact ⟨rfl,.inr ⟨_,rfl,.given (by simpa using hf) hsafe⟩⟩
  · rw [if_neg hf]
    simp only [placeBelow,Prog.wp_bind,Prog.wp_state,Prog.thenPost]
    cases hsp : ummSpaceLeft s newSize
    · exact ⟨rfl,.inl ⟨_,rfl⟩⟩
    · exact ⟨rfl,.inr ⟨_,rfl,.placed (by simpa using hf) hsp⟩⟩

theorem mapEnd_paths (f : Counters → Counters) (ret v : Word)
    {Q : List (HostCall × Reply) → Outcome Counters Word Word → Prop} (h : Q [] (mapEnd s (f s) ret v)) :
    Prog.wp env (if v ≠ 0 then .fail v else do Prog.modify f; pure ret : Code Word) s Q := by
  unfold mapEnd at h
  by_cases hv : v ≠ 0
  · rw [if_pos hv] at h ⊢
    exact h
  · rw [if_neg hv] at h ⊢
    exact h

theorem ummMmap_paths (addr len : Word) (prot flags fd : CInt) (offset : Word) :
    Prog.wp env (ummMmap mmapBase addr len prot flags fd offset) s
      (Path mmapBase s (.mmap addr len prot flags fd offset)) := by
  unfold ummMmap
  rw [Prog.wp_bind]
  refine Prog.wp_mono (chooseAddr_paths addr len) ?_
  rintro _ o ⟨rfl,⟨e,rfl⟩ | ⟨target,rfl,ht⟩⟩
  · exact .early _ e nofun
  have hkind : Prog.wp env (mapKind target len prot flags fd offset) s fun t o =>
      (t = [] ∧ o = .err (-EINVAL) s) ∨ ∃ v, o = .ok v s ∧
        MapPath (mapCall target len prot flags fd offset) target len (protToPerm prot) t v := by
    unfold mapKind mapCall
    by_cases ha : flags &&& MAP_ANONYMOUS ≠ 0
    · rw [if_pos ha,if_pos ha]
      refine Prog.wp_mono (ummMmapAnom_paths target len prot) ?_
      rintro t o ⟨v,s',rfl,rfl,h⟩
      exact .inr ⟨v,rfl,h⟩
    · rw [if_neg ha,if_neg ha]
      by_cases hfd : 0 < fd.toInt
      · rw [if_pos hfd]
        refine Prog.wp_mono (mapGuest_paths (.mmap target len prot (MAP_FIXED ||| flags) fd offset)
          target len (protToPerm prot)) ?_
        rintro t o ⟨v,s',rfl,rfl,h⟩
        exact .inr ⟨v,rfl,h⟩
      · rw [if_neg hfd]
        exact .inl ⟨rfl,rfl⟩
  change Prog.wp env _ s _
  rw [Prog.wp_bind]
  refine Prog.wp_mono hkind ?_
  rintro t o (⟨rfl,rfl⟩ | ⟨v,rfl,h⟩)
  · exact .early _ _ nofun
  · refine mapEnd_paths (fun s => s.adjusted (addr == 0) len) target v ?_
    change Path mmapBase s _ ([] ++ (t ++ [])) _
    rw [List.nil_append,List.append_nil]
    exact .mmap addr len prot flags fd offset target t v ht h

theorem ummAllocStack_paths :
    Prog.wp env (ummAllocStack mmapBase) s (Path mmapBase s .allocStack) := by
  simp only [ummAllocStack,Prog.wp_bind,Prog.wp_state,Prog.thenPost]
  cases hsp : ummSpaceLeft s appStackSize
  · exact .early _ _ (by simp)
  refine Prog.wp_then (ummMmapAnom_paths _ _ _) ?_
  rintro t v _ ⟨rfl,h⟩
  refine mapEnd_paths (fun s => {s with mmapLen := s.mmapLen + _}) _ v ?_
  rw [List.append_nil]
  exact .stack t v hsp h

theorem ummBrk_paths (brk : Word) :
    Prog.wp env (ummBrk mmapBase brk) s (Path mmapBase s (.brk brk)) := by
  unfold ummBrk
  by_cases h0 : brk = 0
  · subst h0
    exact .query
  rw [if_neg h0]
  by_cases hlow : brk < mmapBase
  · rw [if_pos hlow]
    exact .brkEarly brk _ h0 (fun htest => htest.above hlow) (.inl rfl)
  rw [if_neg hlow]
  simp only [Prog.wp_bind,Prog.wp_state,Prog.thenPost]
  cases hsp : ummSpaceLeft s (pgRoundUp (brk - mmapBase))
  · exact .brkEarly brk _ h0 (fun htest => by simp [htest.room] at hsp) (.inr rfl)
  have htest : BrkTested mmapBase s brk := ⟨h0,hlow,hsp⟩
  simp only [Bool.not_true,Bool.false_eq_true,if_false]
  by_cases heq : pgRoundUp (brk - mmapBase) = s.brkLen
  · rw [if_pos heq]
    exact .brkSame brk htest heq
  rw [if_neg heq]
  by_cases hlt : pgRoundUp (brk - mmapBase) < s.brkLen
  · rw [if_pos hlt]
    simp only [Prog.wp_bind,Prog.wp_call,Prog.thenPost]
    intro r _
    by_cases hr : r.ret ≠ 0
    · rw [if_pos hr]
      exact .brkKept brk r htest hlt hr
    · rw [if_neg hr]
      simp only [Prog.wp_bind,Prog.wp_call,Prog.wp_modify,Prog.thenPost]
      exact fun g _ => .brkShrunk brk r g htest hlt (not_not.mp hr)
  · rw [if_neg hlt]
    have hgrow : s.brkLen < pgRoundUp (brk - mmapBase) := by bv_omega
    refine Prog.wp_then (ummMmapAnom_paths _ _ _) ?_
    rintro t v _ ⟨rfl,h⟩
    refine mapEnd_paths (fun s => {s with brkLen := pgRoundUp (brk - mmapBase)}) brk v ?_
    rw [List.append_nil]
    exact .brkGrown brk t v htest hgrow h

theorem ummMunmap_paths (addr len : Word) :
    Prog.wp env (ummMunmap mmapBase addr len) s (Path mmapBase s (.munmap addr len)) := by
  unfold ummMunmap
  cases hsafe : memRefIsSafe mmapBase addr len
  · exact .early _ _ nofun
  simp only [Bool.not_true,Bool.false_eq_true,if_false,Prog.wp_bind,Prog.wp_call,Prog.thenPost]
  intro r _
  by_cases hr : r.ret ≠ 0
  · rw [if_pos hr]
    simp only [Prog.wp_bind,Prog.wp_call,Prog.thenPost]
    intro r' _
    by_cases hr' : r'.ret ≠ 0
    · rw [if_pos hr']
      exact .munmapRefused addr len r r' hsafe hr hr'
    · rw [if_neg hr']
      exact fun g _ => .munmapRetried addr len r r' g hsafe hr (not_not.mp hr')
  · rw [if_neg hr]
    exact fun g _ => .munmapped addr len r g hsafe (not_not.mp hr)

theorem ummMprotect_paths (addr len prot : Word) :
    Prog.wp env (ummMprotect mmapBase addr len prot) s (Path mmapBase s (.mprotect addr len prot)) := by
  unfold ummMprotect
  cases hsafe : memRefIsSafe mmapBase addr len
  · exact .early _ _ nofun
  simp only [Bool.not_true,Bool.false_eq_true,if_false,Prog.wp_bind,Prog.wp_call,Prog.thenPost]
  intro r _
  by_cases hr : r.ret ≠ 0
  · rw [if_pos hr]
    exact .mprotectRefused addr len prot r hsafe hr
  · rw [if_neg hr]
    simp only [Prog.wp_bind,Prog.wp_call,Prog.thenPost]
    intro g _
    have hpath := Path.mprotected (s := s) addr len prot r g hsafe (not_not.mp hr)
    by_cases hg : g.ret ≠ 0
    · rw [if_pos hg] at hpath ⊢
      exact hpath
    · rw [if_neg hg] at hpath ⊢
      exact hpath

theorem ummShmat_paths (shmid : CInt) (addr : Word) (shmflg : CInt) :
    Prog.wp env (ummShmat mmapBase shmid addr shmflg) s (Path mmapBase s (.shmat shmid addr shmflg)) := by
  simp only [ummShmat,Prog.wp_bind,Prog.wp_call,Prog.thenPost]
  intro shm _
  by_cases hshm : shm.ret = -1
  · rw [if_pos hshm]
    exact .shmRefused shmid addr shmflg shm _
  rw [if_neg hshm,Prog.wp_bind]
  refine Prog.wp_mono (chooseAddr_paths addr shm.segsz) ?_
  rintro _ o ⟨rfl,⟨e,rfl⟩ | ⟨target,rfl,ht⟩⟩
  · exact .shmRefused shmid addr shmflg shm e
  simp only [Prog.thenPost,Prog.wp_bind,Prog.wp_call]
  intro r _
  by_cases hne : r.ret ≠ target
  · rw [if_pos hne]
    exact .shmElsewhere shmid addr shmflg target shm r ht hne
  rw [if_neg hne]
  simp only [Prog.wp_bind,Prog.wp_call,Prog.thenPost]
  intro g _
  by_cases hg : g.ret ≠ 0
  · rw [if_pos hg]
    exact fun u _ => .shmTakenBack shmid addr shmflg target shm r g u ht (not_not.mp hne) hg
  · rw [if_neg hg]
    exact .shmAttached shmid addr shmflg target shm r g ht (not_not.mp hne) (not_not.mp hg)

theorem ummMremap_paths (oldAddress oldSize newSize : Word) (flags : CInt) (newAddress : Word) :
    Prog.wp env (ummMremap mmapBase oldAddress oldSize newSize flags newAddress) s
      (Path mmapBase s (.mremap oldAddress oldSize newSize flags newAddress)) := by
  unfold ummMremap
  cases hsafe : memRefIsSafe mmapBase oldAddress oldSize
  · exact .early _ _ nofun
  simp only [Bool.not_true,Bool.false_eq_true,if_false]
  rw [Prog.wp_bind]
  refine Prog.wp_mono (mremapAddr_paths newSize flags newAddress) ?_
  rintro _ o ⟨rfl,⟨e,rfl⟩ | ⟨target,rfl,ht⟩⟩
  · exact .early _ e nofun
  simp only [Prog.thenPost]
  by_cases hmove : flags &&& MREMAP_MAYMOVE = 0
  · rw [if_pos hmove]
    exact .early _ _ nofun
  rw [if_neg hmove]
  simp only [Prog.wp_bind,Prog.wp_call,Prog.thenPost]
  intro r _
  by_cases hne : r.ret ≠ target
  · rw [if_pos hne]
    exact .mremapRefused oldAddress oldSize newSize flags newAddress target r hsafe ht hne
  rw [if_neg hne]
  simp only [adjustMmapLen,Prog.wp_bind,Prog.wp_modify,Prog.wp_call,Prog.thenPost]
  intro g _ g' _
  have hpath := Path.mremapped oldAddress oldSize newSize flags newAddress target r g g' hsafe ht
    (not_not.mp hne)
  by_cases hg : g'.ret ≠ 0
  · rw [if_pos hg] at hpath ⊢
    exact hpath
  · rw [if_neg hg] at hpath ⊢
    exact hpath

/-- Whatever the environment answers, a call follows one of the listed paths. -/
theorem path_of_exec {op : Op} {t : List (HostCall × Reply)} {o : Outcome Counters Word Word}
    (h : Prog.Exec env (op.code mmapBase) s t o) : Path mmapBase s op t o := by
  cases op with
  | allocStack => exact (Prog.wp_iff _ _ _ _).mp ummAllocStack_paths t o h
  | brk newBrk => exact (Prog.wp_iff _ _ _ _).mp (ummBrk_paths newBrk) t o h
  | mmap => exact (Prog.wp_iff _ _ _ _).mp (ummMmap_paths _ _ _ _ _ _) t o h
  | munmap => exact (Prog.wp_iff _ _ _ _).mp (ummMunmap_paths _ _) t o h
  | mprotect => exact (Prog.wp_iff _ _ _ _).mp (ummMprotect_paths _ _ _) t o h
  | shmat => exact (Prog.wp_iff _ _ _ _).mp (ummShmat_paths _ _ _) t o h
  | mremap => exact (Prog.wp_iff _ _ _ _).mp (ummMremap_paths _ _ _ _ _) t o h

end Paths

end Umm
end VmplApps

import VmplApps.UmmMaps

/-! Agreement of the two mapping structures. Every operation changes the host's
mappings and the guest page table over the same pages with the same permission,
except that a moved mapping is always registered as readable and writable and
that an attached segment is never registered as executable. -/
namespace VmplApps
namespace Umm

open AppRegion

section Agreement
variable {D : Type} {b : Backing D} {m : Maps D} {mmapBase : Word} {p : ℕ}

/-- A page is mapped in both structures or in neither, with the same permission. -/
def AgreesAt (m : Maps D) (p : ℕ) : Prop := m.guest p = (m.host p).map fun pg => protToPerm pg.prot

instance (m : Maps D) (p : ℕ) : Decidable (AgreesAt m p) := inferInstanceAs (Decidable (_ = _))

def Agrees (mmapBase : Word) (m : Maps D) : Prop := ∀ p, InWindow mmapBase p → AgreesAt m p

theorem agreesAt_mapped {addr len : Word} {prot flags fd : CInt} {offset : Word} {r g : Reply}
    (h : AgreesAt m p) (hr : r.ret = addr) (hg : g.ret = 0)
    (hfar : addr = MAP_FAILED → ¬(range addr len).OnPage 4096 p) :
    AgreesAt (actAll b [(.mmap addr len prot flags fd offset,r),
      (.vmMapPhys addr len (protToPerm prot),g)] m) p := by
  subst hr
  unfold AgreesAt at h ⊢
  have hhost := act_mmap_host b m r.ret len prot flags fd offset hfar
  have hguest := act_guest b m (c := .mmap r.ret len prot flags fd offset) rfl r
  rw [actAll_cons,actAll_cons,actAll_nil,act_host _ _ rfl,hhost]
  simp only [act,hg,if_true]
  by_cases hp : (range r.ret len).OnPage 4096 p
  · rw [overlay_in hp,overlay_in hp,freshPages,Option.map_some]
  · rw [overlay_out hp,overlay_out hp]
    exact (congrFun hguest p).trans h

theorem agreesAt_unmapped {addr len : Word} {r g : Reply} (h : AgreesAt m p) (hr : r.ret = 0) :
    AgreesAt (actAll b [(.munmap addr len,r),(.vmUnmap addr len,g)] m) p := by
  unfold AgreesAt at h
  by_cases hp : (range addr len).OnPage 4096 p
  · simp [AgreesAt,act,hr,overlay_in hp]
  · simp [AgreesAt,act,hr,overlay_out hp,h]

theorem agreesAt_protected {addr len : Word} {prot : CInt} {r g : Reply} (h : AgreesAt m p)
    (hr : r.ret = 0) (hg : g.ret = 0) :
    AgreesAt (actAll b [(.mprotect addr len prot,r),(.vmMprotect addr len (protToPerm prot),g)] m)
      p := by
  unfold AgreesAt at h
  by_cases hp : (range addr len).OnPage 4096 p
  · simp [AgreesAt,act,hr,hg,overlay_in hp,h,Function.comp_def]
  · simp [AgreesAt,act,hr,hg,overlay_out hp,h]

theorem shmatPerm_eq {shmflg : CInt} (h : shmflg &&& SHM_EXEC = 0) :
    protToPerm (shmProt shmflg) = shmatPerm shmflg := by
  rw [shmProt,shmatPerm,if_pos h]
  exact congrArg protToPerm BitVec.or_zero

theorem agreesAt_attached {shmid shmflg : CInt} {target : Word} {shm r g : Reply}
    (h : AgreesAt m p) (hexec : shmflg &&& SHM_EXEC = 0) (hr : r.ret = target) (hg : g.ret = 0)
    (hfar : target = MAP_FAILED → ¬(range target shm.segsz).OnPage 4096 p) :
    AgreesAt (actAll b [(.shmctl shmid,shm),(.shmat shmid target shmflg shm.segsz,r),
      (.vmMapPhys target shm.segsz (shmatPerm shmflg),g)] m) p := by
  subst hr
  unfold AgreesAt at h ⊢
  have hhost := act_shmat_host b m shmid r.ret shmflg shm.segsz hfar
  have hguest := act_guest b m (c := .shmat shmid r.ret shmflg shm.segsz) rfl r
  rw [actAll_cons,actAll_cons,actAll_cons,actAll_nil,act_shmctl,act_host _ _ rfl,hhost]
  simp only [act,hg,if_true]
  by_cases hp : (range r.ret shm.segsz).OnPage 4096 p
  · rw [overlay_in hp,overlay_in hp,segmentPages,Option.map_some,shmatPerm_eq hexec]
  · rw [overlay_out hp,overlay_out hp]
    exact (congrFun hguest p).trans h

/-- A moved mapping stays in agreement where it was readable and writable only. -/
theorem agreesAt_moved {oldAddress oldSize newSize target : Word} {flags : CInt} {r g g' : Reply}
    (h : AgreesAt m p) (hr : r.ret = target) (hg : g'.ret = 0) (hne : target ≠ MAP_FAILED)
    (hmoved : (range target newSize).OnPage 4096 p →
      (moved b m.host oldAddress oldSize (p - pageOf target)).map (fun pg => protToPerm pg.prot) =
        some (protToPerm (PROT_READ ||| PROT_WRITE))) :
    AgreesAt (actAll b [(.mremap oldAddress oldSize newSize flags target,r),
      (.vmUnmap oldAddress oldSize,g),
      (.vmMapPhys target newSize (protToPerm (PROT_READ ||| PROT_WRITE)),g')] m) p := by
  unfold AgreesAt at h ⊢
  simp only [actAll_cons,actAll_nil,act,hr,hg,if_neg hne,if_true]
  by_cases hp : (range target newSize).OnPage 4096 p
  · rw [overlay_in hp,overlay_in hp,hmoved hp]
  · rw [overlay_out hp,overlay_out hp]
    by_cases hq : (range oldAddress oldSize).OnPage 4096 p
    · rw [overlay_in hq,overlay_in hq,Option.map_none]
    · rw [overlay_out hq,overlay_out hq,h]

def moveOffset (flags : CInt) (newAddress : Word) : ℕ :=
  if flags &&& MREMAP_FIXED == 0 then 0 else newAddress.toNat % 4096

/-- What a call must not do for the permissions to stay equal: move pages that the
host does not have readable, writable and not executable, or attach a segment
for execution. -/
def Op.KeepsPerm (b : Backing D) (m : Maps D) : Op → Prop
  | .mremap oldAddress oldSize newSize flags newAddress =>
    ∀ j, 4096*j < moveOffset flags newAddress + newSize.toNat →
      (moved b m.host oldAddress oldSize j).map (fun pg => protToPerm pg.prot) =
        some (protToPerm (PROT_READ ||| PROT_WRITE))
  | .shmat _ _ shmflg => shmflg &&& SHM_EXEC = 0
  | _ => True

theorem target_offset {s : Counters} (hb : Based mmapBase) (hs : s.Balanced) {flags : CInt}
    {newAddress newSize target : Word}
    (h : Target mmapBase s (flags &&& MREMAP_FIXED == 0) newAddress newSize target) :
    target.toNat % 4096 = moveOffset flags newAddress := by
  unfold moveOffset
  cases h with
  | placed hauto _ =>
    rw [if_pos hauto]
    exact placed_aligned hb hs newSize
  | given hauto _ =>
    rw [hauto]
    rfl

theorem mapPath_agrees (hb : Based mmapBase) {addr len : Word} {prot flags fd : CInt}
    {offset : Word} {t : List (HostCall × Reply)}
    (hpath : MapPath (.mmap addr len prot flags fd offset) addr len (protToPerm prot) t 0)
    (henv : ∀ e ∈ t, HostOk e.1 e.2) (h : Agrees mmapBase m) :
    Agrees mmapBase (actAll b t m) := by
  generalize hv : (0 : Word) = v at hpath
  cases hpath with
  | refused r hr =>
    have herr := (mmap_granted (henv _ List.mem_cons_self)).1 hr
    exact absurd hv.symm (neg_ne_zero_of herr)
  | takenBack r g u hr hg => exact absurd hv.symm hg
  | mapped r g hr hg =>
    intro p hp
    refine agreesAt_mapped (h p hp) hr hg fun hfail => ?_
    rw [hfail]
    exact not_onPage_failed hb hp

theorem path_agrees (hb : Based mmapBase) {s s' : Counters} (hs : s.Balanced) {op : Op}
    {t : List (HostCall × Reply)} {o : Outcome Counters Word Word} {v : Word}
    (hpath : Path mmapBase s op t o) (ho : o = .ok v s') (hv : v ≠ MAP_FAILED)
    (henv : ∀ e ∈ t, HostOk e.1 e.2)
    (hkeep : op.KeepsPerm b m) (h : Agrees mmapBase m) : Agrees mmapBase (actAll b t m) := by
  cases hpath with
  | early | brkEarly | brkKept | munmapRefused | mprotectRefused | shmRefused | shmElsewhere | shmTakenBack
    | mremapRefused => cases ho
  | query | brkSame => exact h
  | brkShrunk brk r g _ _ hr => exact fun p hp => agreesAt_unmapped (h p hp) hr
  | brkGrown brk t w _ _ hmap =>
    obtain ⟨rfl,-,-⟩ := mapEnd_ok ho
    exact mapPath_agrees hb hmap henv h
  | mmap addr len prot flags fd offset target t w _ hmap =>
    obtain ⟨rfl,-,-⟩ := mapEnd_ok ho
    obtain ⟨flags',fd',offset',hcall⟩ := mapCall_eq target len prot flags fd offset
    rw [hcall] at hmap
    exact mapPath_agrees hb hmap henv h
  | stack t w _ hmap =>
    obtain ⟨rfl,-,-⟩ := mapEnd_ok ho
    exact mapPath_agrees hb hmap henv h
  | munmapped addr len r g _ hr => exact fun p hp => agreesAt_unmapped (h p hp) hr
  | munmapRetried addr len r r' g _ hr hr' =>
    have hsame : act b m (.munmap addr len,r) = m := if_neg hr
    rw [actAll_cons,hsame]
    exact fun p hp => agreesAt_unmapped (h p hp) hr'
  | mprotected addr len prot r g _ hr =>
    split_ifs at ho with hg
    exact fun p hp => agreesAt_protected (h p hp) hr (not_not.mp hg)
  | shmAttached shmid addr shmflg target shm r g _ hr hg =>
    intro p hp
    refine agreesAt_attached (h p hp) hkeep hr hg fun hfail => ?_
    rw [hfail]
    exact not_onPage_failed hb hp
  | mremapped oldAddress oldSize newSize flags newAddress target r g g' _ htarget hr =>
    split_ifs at ho with hg
    cases ho
    have hoff := target_offset hb hs htarget
    refine fun p hp => agreesAt_moved (h p hp) hr (not_not.mp hg) hv fun hon => hkeep _ ?_
    rw [onPage_range] at hon
    rw [← hoff,pageOf]
    omega

/-- The call returned a value that the application does not read as an error. -/
def Call.Succeeds (c : Call) : Prop := ∃ v s', c.outcome = .ok v s' ∧ v ≠ MAP_FAILED

/-- The new range of a call is not empty and, when its address is explicit, lies in
the window. -/
def Op.Lands (mmapBase : Word) (t : List (HostCall × Reply)) : Op → Prop
  | .mremap _ _ newSize flags newAddress => 0 < newSize.toNat ∧
      ((flags &&& MREMAP_FIXED == 0) = false →
        (range newAddress newSize).Inside mmapBase.toNat (mmapBase.toNat + 0x200000000))
  | .shmat _ addr _ => ∀ e ∈ t.head?, 0 < e.2.segsz.toNat ∧ ((addr == 0) = false →
      (range addr e.2.segsz).Inside mmapBase.toNat (mmapBase.toNat + 0x200000000))
  | _ => True

theorem target_inside {s : Counters} (hb : Based mmapBase) (hs : s.Balanced) {auto : Bool}
    {addr len target : Word} (h : Target mmapBase s auto addr len target)
    (hgrant : len.toNat < 2^47 ∨ target = MAP_FAILED)
    (hexp : auto = false →
      (range addr len).Inside mmapBase.toNat (mmapBase.toNat + 0x200000000)) :
    (range target len).Inside mmapBase.toNat (mmapBase.toNat + 0x200000000) := by
  cases h with
  | placed _ hsp => exact (effect_of_placed hb hs hsp rfl hgrant).inside
  | given hauto _ => exact hexp hauto

theorem page_inWindow (hb : Based mmapBase) {target len : Word} {j : ℕ}
    (hin : (range target len).Inside mmapBase.toNat (mmapBase.toNat + 0x200000000))
    (hpos : 0 < len.toNat) (hj : 4096*j < target.toNat % 4096 + len.toNat) :
    InWindow mmapBase (pageOf target + j) ∧ (range target len).OnPage 4096 (pageOf target + j) := by
  have ha := hb.aligned
  simp only [Span.Inside,Span.stop,range] at hin
  rw [onPage_range,InWindow,pageOf]
  omega

theorem keepsPerm_of_moved (hb : Based mmapBase) {oldAddress oldSize newSize target : Word}
    {flags flags' : CInt} {newAddress : Word} {r g g' : Reply} (hr : r.ret = target)
    (hg : g'.ret = 0) (hne : target ≠ MAP_FAILED)
    (hoff : target.toNat % 4096 = moveOffset flags newAddress) (hpos : 0 < newSize.toNat)
    (hin : (range target newSize).Inside mmapBase.toNat (mmapBase.toNat + 0x200000000))
    (h : Agrees mmapBase (actAll b [(.mremap oldAddress oldSize newSize flags' target,r),
      (.vmUnmap oldAddress oldSize,g),
      (.vmMapPhys target newSize (protToPerm (PROT_READ ||| PROT_WRITE)),g')] m)) :
    (Op.mremap oldAddress oldSize newSize flags newAddress).KeepsPerm b m := by
  intro j hj
  rw [← hoff] at hj
  obtain ⟨hwin,hon⟩ := page_inWindow hb hin hpos hj
  have hat := h _ hwin
  simp only [AgreesAt,actAll_cons,actAll_nil,act,hr,hg,if_neg hne,if_true] at hat
  rw [overlay_in hon,overlay_in hon,Nat.add_sub_cancel_left] at hat
  exact hat.symm

theorem keepsPerm_of_attached (hb : Based mmapBase) {shmid shmflg : CInt} {target : Word}
    {shm r g : Reply} (hr : r.ret = target) (hg : g.ret = 0) (hne : target ≠ MAP_FAILED)
    (hpos : 0 < shm.segsz.toNat)
    (hin : (range target shm.segsz).Inside mmapBase.toNat (mmapBase.toNat + 0x200000000))
    (h : Agrees mmapBase (actAll b [(.shmctl shmid,shm),(.shmat shmid target shmflg shm.segsz,r),
      (.vmMapPhys target shm.segsz (shmatPerm shmflg),g)] m)) : shmflg &&& SHM_EXEC = 0 := by
  subst hr
  obtain ⟨hwin,hon⟩ := page_inWindow (j := 0) hb hin hpos (by omega)
  have hat := h _ hwin
  have hhost := act_shmat_host b m shmid r.ret shmflg shm.segsz (p := pageOf r.ret + 0)
    (fun he => absurd he hne)
  unfold AgreesAt at hat
  rw [actAll_cons,actAll_cons,actAll_cons,actAll_nil,act_shmctl,act_host _ _ rfl,hhost] at hat
  simp only [act,hg,if_true] at hat
  rw [overlay_in hon,overlay_in hon,segmentPages,Option.map_some,Option.some.injEq] at hat
  -- an executable attachment would show in the guest permission
  have hx := congrArg Perm.x hat
  by_contra hexec
  simp only [shmatPerm,shmProt,if_neg hexec] at hx
  split_ifs at hx <;> exact absurd hx (by decide)

/-- A successful call whose new range is in the window keeps the structures in
agreement exactly when it moves writable data only and attaches nothing for
execution. -/
theorem path_agrees_iff (hb : Based mmapBase) {s s' : Counters} (hs : s.Balanced) {op : Op}
    {t : List (HostCall × Reply)} {o : Outcome Counters Word Word} {v : Word}
    (hpath : Path mmapBase s op t o) (ho : o = .ok v s') (hv : v ≠ MAP_FAILED)
    (henv : ∀ e ∈ t, HostOk e.1 e.2) (hland : op.Lands mmapBase t) (h : Agrees mmapBase m) :
    Agrees mmapBase (actAll b t m) ↔ op.KeepsPerm b m := by
  refine ⟨fun hafter => ?_,fun hkeep => path_agrees hb hs hpath ho hv henv hkeep h⟩
  cases hpath with
  | shmAttached shmid addr shmflg target shm r g htarget hr hg =>
    cases ho
    obtain ⟨hpos,hexp⟩ := hland _ rfl
    have hgrant := shmat_granted (henv (.shmat shmid v shmflg shm.segsz,r) (by simp)) hr
    exact keepsPerm_of_attached hb hr hg hv hpos (target_inside hb hs htarget hgrant hexp) hafter
  | mremapped oldAddress oldSize newSize flags newAddress target r g g' _ htarget hr =>
    split_ifs at ho with hg
    cases ho
    have hgrant := mremap_granted (henv _ List.mem_cons_self) hr
    exact keepsPerm_of_moved hb hr (not_not.mp hg) hv (target_offset hb hs htarget) hland.1
      (target_inside hb hs htarget hgrant hland.2) hafter
  | early | brkEarly | brkKept | munmapRefused | mprotectRefused | shmRefused | shmElsewhere | shmTakenBack
    | mremapRefused => cases ho
  | query | brkSame | brkShrunk | brkGrown | mmap | stack | munmapped | munmapRetried | mprotected =>
    trivial

/-- In every run of successful calls that move writable data only and attach
nothing for execution, the host's mappings and the guest page table agree on every
page of the window. From there, one more successful call into the window keeps
them in agreement exactly when it does the same. -/
theorem runs_agree (hb : Based mmapBase) {m₀ : Maps D} (h0 : Agrees mmapBase m₀) {s : Counters}
    {calls : List Call} (h : Runs (fun x c y => MapStep b mmapBase x c y ∧
      c.Succeeds ∧ c.op.KeepsPerm b x.2) ({},m₀) calls (s,m)) :
    Agrees mmapBase m ∧ ∀ c y, MapStep b mmapBase (s,m) c y → c.Succeeds →
      c.op.Lands mmapBase c.trace → (Agrees mmapBase y.2 ↔ c.op.KeepsPerm b m) := by
  obtain ⟨hrun,hagree⟩ : Runs (Step mmapBase) {} calls s ∧ Agrees mmapBase m := by
    refine h.invariant (I := fun x ls => Runs (Step mmapBase) {} ls x.1 ∧ Agrees mmapBase x.2)
      ⟨.start _,h0⟩ ?_
    rintro x ls c y ⟨hrun,hx⟩ ⟨⟨hstep,hy⟩,⟨v,s₁,ho,hv⟩,hkeep⟩
    refine ⟨.next hrun hstep,?_⟩
    rw [hy]
    exact path_agrees hb (runs_accountedFor hb hrun).balanced (path_of_exec hstep.1) ho hv
      hstep.1.allowed hkeep hx
  refine ⟨hagree,?_⟩
  rintro c ⟨s',m'⟩ ⟨⟨hexec,-⟩,rfl⟩ ⟨v,s₁,ho,hv⟩ hland
  exact path_agrees_iff hb (runs_accountedFor hb hrun).balanced (path_of_exec hexec) ho hv
    hexec.allowed hland hagree

end Agreement

section TwoPages

theorem blankMaps_agrees (mmapBase : Word) : Agrees mmapBase blankMaps := fun _ _ => rfl

/-- A writable page that is moved stays in agreement. -/
theorem runs_agree_moved : Agrees 0x400000000
    (actAll unitBacking (movedCall.trace) (actAll unitBacking (placedCall 3).trace blankMaps)) := by
  have hrun : Runs (fun x c y => MapStep unitBacking 0x400000000 x c y ∧ c.Succeeds ∧
      c.op.KeepsPerm unitBacking x.2) ({},blankMaps) [placedCall 3]
      (⟨0,8192⟩,actAll unitBacking (placedCall 3).trace blankMaps) :=
    .next (.start _) ⟨⟨placedCall_step 3,rfl⟩,⟨_,_,rfl,by decide⟩,trivial⟩
  have hnext := (runs_agree ⟨by decide,by decide,by decide⟩ (blankMaps_agrees _) hrun).2 movedCall
    (⟨0,12288⟩,_) ⟨movedCall_step,rfl⟩ ⟨_,_,rfl,by decide⟩
    ⟨by decide,fun hauto => absurd hauto (by decide)⟩
  refine hnext.mpr fun j hj => ?_
  obtain rfl : j = 0 := by
    change 4096*j < 0 + 4096 at hj
    omega
  decide

/-- A read-only page that is moved becomes writable for the guest. -/
theorem movedReadOnly_disagrees :
    ¬ ∀ (mmapBase : Word) (m₀ m : Maps Unit) (calls : List Call) (s : Counters), Based mmapBase →
      Agrees mmapBase m₀ → Runs (fun x c y => MapStep unitBacking mmapBase x c y ∧ c.Succeeds)
        ({},m₀) calls (s,m) → Agrees mmapBase m := by
  intro h
  have hfirst : MapStep unitBacking 0x400000000 ({},blankMaps) (placedCall 1)
      (⟨0,8192⟩,actAll unitBacking (placedCall 1).trace blankMaps) := ⟨placedCall_step 1,rfl⟩
  have hsecond : MapStep unitBacking 0x400000000
      (⟨0,8192⟩,actAll unitBacking (placedCall 1).trace blankMaps) movedCall (⟨0,12288⟩,_) :=
    ⟨movedCall_step,rfl⟩
  have hbad := h 0x400000000 blankMaps _ [movedCall,placedCall 1] ⟨0,12288⟩
    ⟨by decide,by decide,by decide⟩ (blankMaps_agrees _)
    (.next (.next (.start _) ⟨hfirst,_,_,rfl,by decide⟩) ⟨hsecond,_,_,rfl,by decide⟩) 0x5ffffd (by decide)
  exact absurd hbad (by decide)

end TwoPages

end Umm
end VmplApps

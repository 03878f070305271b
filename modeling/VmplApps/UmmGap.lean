import VmplApps.UmmMaps

/-! Automatic placement and live pages. Placement looks at the two counters only:
it hands out pages of the gap between the heap and the placed ranges. It never
hits a mapped page as long as the gap holds none, and a call fills the gap
exactly when it maps there at an explicit address or fails to undo a mapping. -/
namespace VmplApps
namespace Umm

open AppRegion

/-- A page between the end of the heap and the lowest placed range. -/
def InGap (mmapBase : Word) (s : Counters) (p : ℕ) : Prop :=
  mmapBase.toNat + s.brkLen.toNat ≤ p*4096 ∧
    p*4096 < mmapBase.toNat + 0x200000000 - s.mmapLen.toNat

/-- The range of a granted request whose address the manager chose. -/
def Op.placedRange : Op → List (HostCall × Reply) → Option Span
  | .allocStack,(.mmap addr len _ _ _ _,r)::_ => if r.ret = addr then some (range addr len) else none
  | .brk _,(.mmap addr len _ _ _ _,r)::_ => if r.ret = addr then some (range addr len) else none
  | .mmap given _ _ _ _ _,(.mmap addr len _ _ _ _,r)::_ =>
    if given = 0 ∧ r.ret = addr then some (range addr len) else none
  | .shmat _ given _,(.shmctl _,_)::(.shmat _ addr _ segsz,r)::_ =>
    if given = 0 ∧ r.ret = addr then some (range addr segsz) else none
  | .mremap _ _ _ flags _,(.mremap _ _ newSize _ target,r)::_ =>
    if flags &&& MREMAP_FIXED = 0 ∧ r.ret = target then some (range target newSize) else none
  | _,_ => none

section Gap
variable {D : Type} (b : Backing D) (m : Maps D)

def GapFree (mmapBase : Word) (s : Counters) : Prop := ∀ p, InGap mmapBase s p → m.host p = none

/-- The request was placed on pages that were not mapped. -/
def Op.PlacesClear (op : Op) (t : List (HostCall × Reply)) : Prop :=
  ∀ r ∈ op.placedRange t, ∀ p, r.OnPage 4096 p → m.host p = none

/-- The pages that a call leaves mapped without counting them: those of an explicit
address, and those of a mapping that could not be taken back. -/
def Op.leaves : List (HostCall × Reply) → Op → Option (Span × (ℕ → Option (HostPage D)))
  | [(.mmap addr len prot flags fd offset,_),(.vmMapPhys _ _ _,_)],.mmap given _ _ _ _ _ =>
    if given = 0 then none else some (range addr len,freshPages b addr prot flags fd offset)
  | [(.shmctl _,_),(.shmat shmid _ shmflg segsz,r),(.vmMapPhys _ _ _,_)],.shmat _ given _ =>
    if given = 0 then none else some (range r.ret segsz,segmentPages b r.ret shmid shmflg)
  | [(.mremap oldAddress oldSize newSize _ target,_),(.vmUnmap _ _,_),(.vmMapPhys _ _ _,_)],
      .mremap _ _ _ flags _ =>
    if flags &&& MREMAP_FIXED = 0 then none
    else some (range target newSize,fun p => moved b m.host oldAddress oldSize (p - pageOf target))
  | [(.mmap addr len prot flags fd offset,_),(.vmMapPhys _ _ _,_),(.munmap _ _,u)],_ =>
    if u.ret = 0 then none else some (range addr len,freshPages b addr prot flags fd offset)
  | [(.shmctl _,_),(.shmat shmid _ shmflg segsz,r)],_ =>
    some (range r.ret segsz,segmentPages b r.ret shmid shmflg)
  | [(.shmctl _,_),(.shmat shmid _ shmflg segsz,r),(.vmMapPhys _ _ _,_),(.shmdt _,u)],_ =>
    if u.ret = 0 then none else some (range r.ret segsz,segmentPages b r.ret shmid shmflg)
  | _,_ => none

def AvoidsGap (mmapBase : Word) (s : Counters) (l : Option (Span × (ℕ → Option (HostPage D)))) : Prop :=
  ∀ x ∈ l, ∀ p, InGap mmapBase s p → x.1.OnPage 4096 p → x.2 p = none

variable {b m} {mmapBase : Word} {s s' : Counters}

theorem InGap.inWindow {p : ℕ} (h : InGap mmapBase s p) : InWindow mmapBase p := by
  unfold InGap at h
  unfold InWindow
  omega

/-- A range taken out of the gap and counted. -/
structure Taken (mmapBase : Word) (s s' : Counters) (r : Span) : Prop where
  inGap : ∀ p, r.OnPage 4096 p → InGap mmapBase s p
  counted : ∀ p, InGap mmapBase s' p → InGap mmapBase s p ∧ ¬r.OnPage 4096 p

theorem taken_of_carved (hb : Based mmapBase) (hs : s.Balanced) {g r : Span}
    (h : Effect mmapBase s s' (some g)) (hlo : g.start ≤ r.start) (hhi : r.stop ≤ g.stop) :
    Taken mmapBase s s' r := by
  have ha := hb.aligned
  have h1 := hs.brk
  have h2 := hs.mmap
  obtain ⟨n,hn,hroom,hstart,hstop,hlow,hhigh⟩ : ∃ n, n % 4096 = 0 ∧
      s.brkLen.toNat + s.mmapLen.toNat + n ≤ 0x200000000 ∧
      g.start = mmapBase.toNat + 0x200000000 - s.mmapLen.toNat - n ∧
      g.stop ≤ mmapBase.toNat + 0x200000000 - s.mmapLen.toNat ∧
      s'.brkLen.toNat = s.brkLen.toNat ∧ s'.mmapLen.toNat = s.mmapLen.toNat + n := by
    unfold Effect at h
    generalize hr' : s'.region = r' at h
    cases h with
    | carve n _ hn hroom hstart hstop =>
      exact ⟨n,Nat.mod_eq_zero_of_dvd hn,hroom,hstart,hstop,congrArg TwoEnded.State.low hr',
        congrArg TwoEnded.State.high hr'⟩
  simp only [Span.stop] at hhi hstop
  refine ⟨fun p hp => ?_,fun p hp => ?_⟩
  · rw [Span.onPage_iff (by omega)] at hp
    simp only [Span.stop] at hp
    unfold InGap
    omega
  · rw [Span.onPage_iff (by omega)]
    simp only [Span.stop]
    unfold InGap at hp ⊢
    omega

theorem taken_of_placed (hb : Based mmapBase) (hs : s.Balanced) {len : Word}
    (hsp : ummSpaceLeft s len = true)
    (hgrant : len.toNat < 2^47 ∨ ummGetMapPos mmapBase s - pgRoundUp len = MAP_FAILED) :
    Taken mmapBase s (s.adjusted true len)
      (range (ummGetMapPos mmapBase s - pgRoundUp len) len) :=
  taken_of_carved hb hs (effect_of_placed hb hs hsp rfl hgrant) le_rfl le_rfl

theorem taken_of_stack (hb : Based mmapBase) (hs : s.Balanced)
    (hsp : ummSpaceLeft s appStackSize = true) :
    Taken mmapBase s {s with mmapLen := s.mmapLen + (appStackSize + pgOff (ummGetMapPos mmapBase s))}
      (range (pgAddr (ummGetMapPos mmapBase s) - appStackSize + pgSize) (appStackSize - pgSize)) := by
  have hpos := mapPos_toNat hb hs
  have hlow := hb.lower
  have hu := hb.upper
  have hroom := hs.room
  have hst := appStackSize_toNat
  have hpg : pgSize.toNat = 4096 := rfl
  have haddr := pgAddr_toNat (ummGetMapPos mmapBase s)
  have hlen : (appStackSize - pgSize).toNat = 0x800000 - 4096 := rfl
  have hsub : (pgAddr (ummGetMapPos mmapBase s) - appStackSize).toNat =
      (pgAddr (ummGetMapPos mmapBase s)).toNat - 0x800000 := by
    rw [Words.sub_toNat_exact (by omega),hst]
  have hstart : (pgAddr (ummGetMapPos mmapBase s) - appStackSize + pgSize).toNat =
      (pgAddr (ummGetMapPos mmapBase s)).toNat - 0x800000 + 4096 := by
    rw [Words.add_toNat_exact (by omega),hsub,hpg]
  refine taken_of_carved hb hs (stack_effect hb hs hsp) ?_ ?_
  · simp only [range,hstart]
    omega
  · simp only [range,Span.stop,hstart,hlen]
    omega

theorem taken_of_grown (hb : Based mmapBase) (hs : s.Balanced) {len : Word}
    (hlen : len.toNat % 4096 = 0) (hroom : len.toNat + s.mmapLen.toNat ≤ 0x200000000)
    (hgrow : s.brkLen < len) :
    Taken mmapBase s {s with brkLen := len} (range (mmapBase + s.brkLen) (len - s.brkLen)) := by
  have ha := hb.aligned
  have hu := hb.upper
  have h1 := hs.brk
  have h2 := hs.mmap
  rw [BitVec.lt_def] at hgrow
  have hstart : (mmapBase + s.brkLen).toNat = mmapBase.toNat + s.brkLen.toNat :=
    Words.add_toNat_exact (by omega)
  have hsize : (len - s.brkLen).toNat = len.toNat - s.brkLen.toNat :=
    Words.sub_toNat_exact (by omega)
  refine ⟨fun p hp => ?_,fun p hp => ?_⟩
  · rw [onPage_range,hstart,hsize] at hp
    unfold InGap
    omega
  · rw [onPage_range,hstart,hsize]
    unfold InGap at hp ⊢
    simp only at hp
    omega

theorem avoidsGap_none : AvoidsGap (D := D) mmapBase s none := fun _ h => nomatch h

theorem gapFree_of_taken {m' : Maps D} {r : Span} {f : ℕ → Option (HostPage D)}
    (hgap : GapFree m mmapBase s) (ht : Taken mmapBase s s' r)
    (hhost : ∀ p, InGap mmapBase s p → m'.host p = overlay r f m.host p) :
    GapFree m' mmapBase s' := by
  intro p hp
  obtain ⟨hp',hout⟩ := ht.counted p hp
  rw [hhost p hp',overlay_out hout]
  exact hgap p hp'

theorem gapFree_iff_avoids {m' : Maps D} {r : Span} {f : ℕ → Option (HostPage D)}
    (hgap : GapFree m mmapBase s)
    (hhost : ∀ p, InGap mmapBase s p → m'.host p = overlay r f m.host p) :
    GapFree m' mmapBase s ↔ AvoidsGap mmapBase s (some (r,f)) := by
  constructor
  · rintro h _ ⟨rfl⟩ p hp hon
    have hat := h p hp
    rwa [hhost p hp,overlay_in hon] at hat
  · intro h p hp
    rw [hhost p hp]
    by_cases hon : r.OnPage 4096 p
    · rw [overlay_in hon]
      exact h _ rfl p hp hon
    · rw [overlay_out hon]
      exact hgap p hp

theorem gapFree_of_fewer {m' : Maps D} (hgap : GapFree m mmapBase s)
    (hhost : ∀ p, m'.host p = m.host p ∨ m'.host p = none) : GapFree m' mmapBase s := by
  intro p hp
  rcases hhost p with h | h
  · rw [h]
    exact hgap p hp
  · exact h

theorem overlay_none_fewer {r : Span} {f : ℕ → Option (HostPage D)} (p : ℕ) :
    overlay r (fun _ => none) f p = f p ∨ overlay r (fun _ => none) f p = none := by
  by_cases hp : r.OnPage 4096 p
  · exact .inr (overlay_in hp)
  · exact .inl (overlay_out hp)

section Mapped
variable {addr len : Word} {prot flags fd : CInt} {offset : Word} {perm : Perm}

theorem window_mmap (hb : Based mmapBase) {r : Reply} (hr : r.ret = addr) {p : ℕ}
    (hp : InWindow mmapBase p) : (act b m (.mmap addr len prot flags fd offset,r)).host p =
      overlay (range addr len) (freshPages b addr prot flags fd offset) m.host p := by
  have h := act_mmap_host b m addr len prot flags fd offset (r := r) (p := p) fun hf => by
    rw [hf]
    exact not_onPage_failed hb hp
  rwa [hr] at h

theorem window_shmat (hb : Based mmapBase) (addr : Word) {shmid shmflg : CInt} {segsz : Word}
    {r : Reply} {p : ℕ} (hp : InWindow mmapBase p) : (act b m (.shmat shmid addr shmflg segsz,r)).host p =
      overlay (range r.ret segsz) (segmentPages b r.ret shmid shmflg) m.host p :=
  act_shmat_host b m shmid addr shmflg segsz fun hf => by
    rw [hf]
    exact not_onPage_failed hb hp

theorem window_mremap (hb : Based mmapBase) {oldAddress oldSize newSize target : Word}
    {r : Reply} (hr : r.ret = target) {p : ℕ} (hp : InWindow mmapBase p) (hnone : m.host p = none) :
    (act b m (.mremap oldAddress oldSize newSize flags target,r)).host p =
      overlay (range target newSize)
        (fun p => moved b m.host oldAddress oldSize (p - pageOf target)) m.host p := by
  subst hr
  by_cases hf : r.ret = MAP_FAILED
  · simp only [act,if_pos hf]
    rw [hf,overlay_out (not_onPage_failed hb hp)]
  · simp only [act,if_neg hf]
    by_cases hon : (range r.ret newSize).OnPage 4096 p
    · rw [overlay_in hon,overlay_in hon]
    · rw [overlay_out hon,overlay_out hon]
      rcases overlay_none_fewer p with h | h
      · exact h
      · rw [h,hnone]

theorem takenBack_gapFree_iff (hb : Based mmapBase) (hgap : GapFree m mmapBase s) {r g : Reply}
    (u : Reply) (hr : r.ret = addr) (hg : g.ret ≠ 0) :
    GapFree (actAll b [(.mmap addr len prot flags fd offset,r),(.vmMapPhys addr len perm,g),
      (.munmap addr len,u)] m) mmapBase s ↔
    AvoidsGap mmapBase s (if u.ret = 0 then none
      else some (range addr len,freshPages b addr prot flags fd offset)) := by
  simp only [actAll_cons,actAll_nil,act_mapPhys_refused addr len perm hg]
  by_cases hu : u.ret = 0
  · rw [if_pos hu]
    refine iff_of_true (fun p hp => ?_) avoidsGap_none
    rw [act_munmap addr len hu]
    by_cases hon : (range addr len).OnPage 4096 p
    · rw [overlay_in hon]
    · rw [overlay_out hon,window_mmap hb hr hp.inWindow,overlay_out hon]
      exact hgap p hp
  · rw [if_neg hu,act_munmap_refused addr len hu]
    exact gapFree_iff_avoids hgap fun p hp => window_mmap hb hr hp.inWindow

theorem shmTakenBack_gapFree_iff (hb : Based mmapBase) (hgap : GapFree m mmapBase s)
    {shmid shmflg : CInt} {segsz : Word} {r g : Reply} (shm u : Reply) (hr : r.ret = addr)
    (hg : g.ret ≠ 0) :
    GapFree (actAll b [(.shmctl shmid,shm),(.shmat shmid addr shmflg segsz,r),
      (.vmMapPhys addr segsz perm,g),(.shmdt addr,u)] m) mmapBase s ↔
    AvoidsGap mmapBase s (if u.ret = 0 then none
      else some (range r.ret segsz,segmentPages b r.ret shmid shmflg)) := by
  simp only [actAll_cons,actAll_nil,act_shmctl,act_mapPhys_refused addr segsz perm hg]
  by_cases hu : u.ret = 0
  · rw [if_pos hu]
    refine iff_of_true (fun p hp => ?_) avoidsGap_none
    rw [act_shmdt addr hu,attached_shmat shmid shmflg segsz hr]
    by_cases hon : (range addr (if r.ret = -1 then m.attached addr else segsz)).OnPage 4096 p
    · rw [overlay_in hon]
    rw [overlay_out hon,window_shmat hb _ hp.inWindow,overlay_out ?_]
    · exact hgap p hp
    · by_cases hf : r.ret = -1
      · rw [hf]
        exact not_onPage_failed hb hp.inWindow
      · rwa [if_neg hf,← hr] at hon
  · rw [if_neg hu,act_shmdt_refused addr hu]
    exact gapFree_iff_avoids hgap fun p hp => window_shmat hb _ hp.inWindow

end Mapped

theorem mapPath_gapFree_iff (hb : Based mmapBase) (hgap : GapFree m mmapBase s) {op : Op}
    {addr len : Word} {prot flags fd : CInt} {offset : Word} {perm : Perm}
    {t : List (HostCall × Reply)} {s₁ : Counters} {ret v : Word}
    (h : MapPath (.mmap addr len prot flags fd offset) addr len perm t v)
    (ho : (mapEnd s s₁ ret v).final = some s') (henv : ∀ e ∈ t, HostOk e.1 e.2)
    (hmapped : ∀ r g : Reply, r.ret = addr → g.ret = 0 →
      (len.toNat < 2^47 ∨ addr = MAP_FAILED) →
      (GapFree (actAll b [(.mmap addr len prot flags fd offset,r),(.vmMapPhys addr len perm,g)] m)
          mmapBase s₁ ↔
        AvoidsGap mmapBase s (op.leaves b m
          [(.mmap addr len prot flags fd offset,r),(.vmMapPhys addr len perm,g)]))) :
    GapFree (actAll b t m) mmapBase s' ↔ AvoidsGap mmapBase s (op.leaves b m t) := by
  cases h with
  | refused r hr =>
    have hhost := henv _ List.mem_cons_self
    have hv := neg_ne_zero_of ((mmap_granted hhost).1 hr)
    have hf : r.ret = MAP_FAILED := mmap_refused hhost hr
    rw [mapEnd,if_pos hv] at ho
    cases ho
    simp only [actAll_cons,actAll_nil,act,if_pos hf]
    exact iff_of_true hgap avoidsGap_none
  | takenBack r g u hr hg =>
    rw [mapEnd,if_pos hg] at ho
    cases ho
    exact takenBack_gapFree_iff hb hgap u hr hg
  | mapped r g hr hg =>
    cases ho
    exact hmapped r g hr hg ((mmap_granted (henv _ List.mem_cons_self)).2 hr)

theorem mapped_taken (hb : Based mmapBase) (hgap : GapFree m mmapBase s) {addr len : Word}
    {prot flags fd : CInt} {offset : Word} {perm : Perm} {r g : Reply} (hr : r.ret = addr)
    (ht : Taken mmapBase s s' (range addr len)) :
    GapFree (actAll b [(.mmap addr len prot flags fd offset,r),(.vmMapPhys addr len perm,g)] m)
      mmapBase s' := by
  refine gapFree_of_taken (f := freshPages b addr prot flags fd offset) hgap ht fun p hp => ?_
  rw [actAll_host _ _ _ rfl]
  exact window_mmap hb hr hp.inWindow

/-- A page of the gap after the heap shrank was in the gap before, or was given
back. -/
theorem shrunk_gap (hb : Based mmapBase) (hs : s.Balanced) {brk : Word}
    (htest : BrkTested mmapBase s brk) (hlt : pgRoundUp (brk - mmapBase) < s.brkLen) {p : ℕ}
    (hp : InGap mmapBase {s with brkLen := pgRoundUp (brk - mmapBase)} p) :
    InGap mmapBase s p ∨ (range (mmapBase + pgRoundUp (brk - mmapBase))
      (s.brkLen - pgRoundUp (brk - mmapBase))).OnPage 4096 p := by
  obtain ⟨hmod,hroom⟩ := heap_room hb hs htest.above htest.room
  generalize pgRoundUp (brk - mmapBase) = len at *
  have hu := hb.upper
  rw [BitVec.lt_def] at hlt
  have hstart : (mmapBase + len).toNat = mmapBase.toNat + len.toNat :=
    Words.add_toNat_exact (by omega)
  have hsize : (s.brkLen - len).toNat = s.brkLen.toNat - len.toNat :=
    Words.sub_toNat_exact (by omega)
  rw [onPage_range,hstart,hsize]
  unfold InGap at hp ⊢
  simp only at hp
  omega

/-- A granted request: what was placed is counted, and what has an address of its own
must not lie in the gap. -/
theorem target_gapFree_iff (hb : Based mmapBase) (hs : s.Balanced) (hgap : GapFree m mmapBase s)
    {auto : Bool} {c : Prop} [Decidable c] (hc : auto = true ↔ c) {addr len target : Word}
    (ht : Target mmapBase s auto addr len target)
    (hgrant : len.toNat < 2^47 ∨ target = MAP_FAILED) {m' : Maps D}
    {f : ℕ → Option (HostPage D)}
    (hhost : ∀ p, InGap mmapBase s p → m'.host p = overlay (range target len) f m.host p) :
    GapFree m' mmapBase (s.adjusted auto len) ↔
      AvoidsGap mmapBase s (if c then none else some (range target len,f)) := by
  cases ht with
  | placed hauto hsp =>
    rw [hauto,if_pos (hc.mp hauto)]
    exact iff_of_true (gapFree_of_taken hgap (taken_of_placed hb hs hsp hgrant) hhost)
      avoidsGap_none
  | given hauto _ =>
    rw [if_neg fun h => by simp [hc.mpr h] at hauto,hauto]
    exact gapFree_iff_avoids hgap hhost

/-- A call that returns keeps the gap free exactly when nothing that it leaves
uncounted lies there. -/
theorem path_gapFree_iff (hb : Based mmapBase) (hs : s.Balanced) {op : Op}
    {t : List (HostCall × Reply)} {o : Outcome Counters Word Word} (hpath : Path mmapBase s op t o)
    (ho : o.final = some s') (henv : ∀ e ∈ t, HostOk e.1 e.2) (hgap : GapFree m mmapBase s) :
    GapFree (actAll b t m) mmapBase s' ↔ AvoidsGap mmapBase s (op.leaves b m t) := by
  cases hpath with
  | early | brkEarly | query | brkSame | shmRefused =>
    cases ho
    exact iff_of_true hgap avoidsGap_none
  | brkKept brk r _ _ hr =>
    cases ho
    rw [actAll_cons,act_munmap_refused _ _ hr]
    exact iff_of_true hgap avoidsGap_none
  | brkShrunk brk r g htest hlt hr =>
    cases ho
    refine iff_of_true (fun p hp => ?_) avoidsGap_none
    rw [actAll_host _ _ _ rfl,act_munmap _ _ hr]
    rcases shrunk_gap hb hs htest hlt hp with hold | hon
    · rcases overlay_none_fewer p with h | h
      · rw [h]
        exact hgap p hold
      · exact h
    · rw [overlay_in hon]
  | brkGrown brk _ v htest hgrow hmap =>
    obtain ⟨hmod,hroom⟩ := heap_room hb hs htest.above htest.room
    refine mapPath_gapFree_iff hb hgap hmap ho henv fun r g hr _ _ => ?_
    exact iff_of_true (mapped_taken hb hgap hr (taken_of_grown hb hs hmod hroom hgrow)) avoidsGap_none
  | mmap addr len prot flags fd offset target _ v htarget hmap =>
    obtain ⟨flags',fd',offset',heq⟩ := mapCall_eq target len prot flags fd offset
    rw [heq] at hmap
    refine mapPath_gapFree_iff hb hgap hmap ho henv fun r g hr _ hgrant => ?_
    refine target_gapFree_iff hb hs hgap beq_iff_eq htarget hgrant fun p hp => ?_
    rw [actAll_host _ _ _ rfl]
    exact window_mmap hb hr hp.inWindow
  | stack _ v hsp hmap =>
    refine mapPath_gapFree_iff hb hgap hmap ho henv fun r g hr _ _ => ?_
    exact iff_of_true (mapped_taken hb hgap hr (taken_of_stack hb hs hsp)) avoidsGap_none
  | munmapped addr len r g _ hr =>
    cases ho
    refine iff_of_true (gapFree_of_fewer hgap fun p => ?_) avoidsGap_none
    rw [actAll_host _ _ _ rfl,act_munmap _ _ hr]
    exact overlay_none_fewer p
  | munmapRefused addr len r r' _ hr hr' =>
    cases ho
    rw [actAll_cons,actAll_cons,act_munmap_refused _ _ hr,act_munmap_refused _ _ hr']
    exact iff_of_true hgap avoidsGap_none
  | munmapRetried addr len r r' g _ hr hr' =>
    cases ho
    refine iff_of_true (gapFree_of_fewer hgap fun p => ?_) avoidsGap_none
    rw [actAll_cons,act_munmap_refused _ _ hr,actAll_host _ _ _ rfl,act_munmap _ _ hr']
    exact overlay_none_fewer p
  | mprotectRefused addr len prot r _ hr =>
    cases ho
    simp only [actAll_cons,actAll_nil,act,if_neg hr]
    exact iff_of_true hgap avoidsGap_none
  | mprotected addr len prot r g _ hr =>
    split_ifs at ho with hg
    · cases ho
    cases ho
    refine iff_of_true (fun p hp => ?_) avoidsGap_none
    rw [actAll_host _ _ _ rfl]
    simp only [act,if_pos hr,overlay,hgap p hp,Option.map_none,ite_self]
  | shmElsewhere shmid addr shmflg target shm r _ _ =>
    cases ho
    exact gapFree_iff_avoids hgap fun p hp => window_shmat hb target hp.inWindow
  | shmTakenBack shmid addr shmflg target shm r g u _ hr hg =>
    cases ho
    exact shmTakenBack_gapFree_iff hb hgap shm u hr hg
  | shmAttached shmid addr shmflg target shm r g htarget hr =>
    cases ho
    have hgrant := shmat_granted (henv (.shmat shmid target shmflg shm.segsz,r) (by simp)) hr
    subst hr
    refine target_gapFree_iff hb hs hgap beq_iff_eq htarget hgrant fun p hp => ?_
    rw [actAll_cons,actAll_host _ _ _ rfl,act_shmctl]
    exact window_shmat hb _ hp.inWindow
  | mremapRefused oldAddress oldSize newSize flags newAddress target r _ _ hr =>
    cases ho
    have hf : r.ret = MAP_FAILED := by
      rcases henv _ List.mem_cons_self with ⟨he,-⟩ | ⟨hf,-⟩
      · exact absurd he hr
      · exact hf
    simp only [actAll_cons,actAll_nil,act,if_pos hf]
    exact iff_of_true hgap avoidsGap_none
  | mremapped oldAddress oldSize newSize flags newAddress target r g g' _ htarget hr =>
    split_ifs at ho with hg
    · cases ho
    cases ho
    have hgrant := mremap_granted (henv _ List.mem_cons_self) hr
    refine target_gapFree_iff hb hs hgap beq_iff_eq htarget hgrant fun p hp => ?_
    rw [actAll_cons,actAll_host _ _ _ rfl,act_host _ _ rfl]
    exact window_mremap hb hr hp.inWindow (hgap p hp)

theorem mapPath_head {c : HostCall} {addr len v : Word} {perm : Perm}
    {t : List (HostCall × Reply)} (h : MapPath c addr len perm t v) : ∃ r t', t = (c,r)::t' := by
  cases h with
  | refused r | takenBack r | mapped r => exact ⟨r,_,rfl⟩

theorem range_of_granted {P : Prop} [Decidable P] {r r' : Span}
    (h : r ∈ if P then some r' else none) : P ∧ r = r' := by
  split_ifs at h with hP
  · exact ⟨hP,(Option.mem_some.mp h).symm⟩
  · exact absurd h (Option.not_mem_none r)

theorem placed_inGap (hb : Based mmapBase) (hs : s.Balanced) {op : Op}
    {t : List (HostCall × Reply)} {o : Outcome Counters Word Word} (hpath : Path mmapBase s op t o)
    (henv : ∀ e ∈ t, HostOk e.1 e.2) {r : Span} (hr : r ∈ op.placedRange t) {p : ℕ}
    (hp : r.OnPage 4096 p) : InGap mmapBase s p := by
  cases hpath with
  | early => cases op <;> cases hr
  | brkEarly => cases hr
  | query | brkSame | brkKept | brkShrunk | munmapped | munmapRefused | munmapRetried
    | mprotectRefused | mprotected | shmRefused => cases hr
  | brkGrown brk _ v htest hgrow hmap =>
    obtain ⟨r₀,t',rfl⟩ := mapPath_head hmap
    obtain ⟨-,rfl⟩ := range_of_granted hr
    obtain ⟨hmod,hroom⟩ := heap_room hb hs htest.above htest.room
    exact (taken_of_grown hb hs hmod hroom hgrow).inGap p hp
  | mmap addr len prot flags fd offset target _ v htarget hmap =>
    obtain ⟨flags',fd',offset',heq⟩ := mapCall_eq target len prot flags fd offset
    rw [heq] at hmap
    obtain ⟨r₀,t',rfl⟩ := mapPath_head hmap
    obtain ⟨⟨h0,hret⟩,rfl⟩ := range_of_granted hr
    have hgrant := (mmap_granted (henv _ List.mem_cons_self)).2 hret
    cases htarget with
    | placed _ hsp => exact (taken_of_placed hb hs hsp hgrant).inGap p hp
    | given hauto _ => exact absurd h0 (beq_eq_false_iff_ne.mp hauto)
  | stack _ v hsp hmap =>
    obtain ⟨r₀,t',rfl⟩ := mapPath_head hmap
    obtain ⟨-,rfl⟩ := range_of_granted hr
    exact (taken_of_stack hb hs hsp).inGap p hp
  | shmElsewhere shmid addr shmflg target shm r₀ _ hne =>
    obtain ⟨⟨-,hret⟩,-⟩ := range_of_granted hr
    exact absurd hret hne
  | shmTakenBack shmid addr shmflg target shm r₀ g u htarget
    | shmAttached shmid addr shmflg target shm r₀ g htarget =>
    obtain ⟨⟨h0,hret⟩,rfl⟩ := range_of_granted hr
    have hgrant := shmat_granted (henv (.shmat shmid target shmflg shm.segsz,r₀) (by simp)) hret
    cases htarget with
    | placed _ hsp => exact (taken_of_placed hb hs hsp hgrant).inGap p hp
    | given hauto _ => exact absurd h0 (beq_eq_false_iff_ne.mp hauto)
  | mremapRefused oldAddress oldSize newSize flags newAddress target r₀ _ htarget hne =>
    obtain ⟨⟨-,hret⟩,-⟩ := range_of_granted hr
    exact absurd hret hne
  | mremapped oldAddress oldSize newSize flags newAddress target r₀ g g' _ htarget =>
    obtain ⟨⟨h0,hret⟩,rfl⟩ := range_of_granted hr
    have hgrant := mremap_granted (henv _ List.mem_cons_self) hret
    cases htarget with
    | placed _ hsp => exact (taken_of_placed hb hs hsp hgrant).inGap p hp
    | given hauto _ => exact absurd h0 (beq_eq_false_iff_ne.mp hauto)

def grantedCall (mmapBase : Word) (s : Counters) (len : Word) : Call where
  op := .mmap 0 len 0 MAP_ANONYMOUS (-1) 0
  trace := [(anonCall (ummGetMapPos mmapBase s - pgRoundUp len) len 0,
      {ret := ummGetMapPos mmapBase s - pgRoundUp len}),
    (.vmMapPhys (ummGetMapPos mmapBase s - pgRoundUp len) len (protToPerm 0),{})]
  outcome := .ok (ummGetMapPos mmapBase s - pgRoundUp len) (s.adjusted true len)

theorem grantedCall_step {len : Word} (hlen : len.toNat < 2^47) (hsp : ummSpaceLeft s len = true) :
    Step mmapBase s (grantedCall mmapBase s len) (s.adjusted true len) := by
  refine ⟨Prog.exec_of_runWith [{ret := ummGetMapPos mmapBase s - pgRoundUp len},{}] ?_ ?_,rfl⟩
  · have hplace : chooseAddr mmapBase 0 len = .get fun s =>
        if !ummSpaceLeft s len then .fail (-ENOMEM)
        else .ret (ummGetMapPos mmapBase s - pgRoundUp len) := rfl
    simp only [grantedCall,Op.code,ummMmap,hplace,bind,Prog.bind,Prog.runWith,hsp,Bool.not_true,
      Bool.false_eq_true,if_false]
    generalize ummGetMapPos mmapBase s - pgRoundUp len = target
    simp [mapKind,ummMmapAnom,mapGuest,bind,pure,Prog.bind,Prog.call,Prog.runWith,MAP_ANONYMOUS,
      adjustMmapLen,Prog.modify,anonCall,Counters.adjusted,protToPerm]
  · intro e he
    simp only [grantedCall,List.mem_cons,List.not_mem_nil,or_false] at he
    rcases he with rfl | rfl
    · exact .inl ⟨rfl,hlen⟩
    · trivial

/-- Every page of the gap is the first page of some placed range. -/
theorem exists_placed (hb : Based mmapBase) (hs : s.Balanced) {p : ℕ} (hp : InGap mmapBase s p) :
    ∃ c s', Step mmapBase s c s' ∧ ∃ r ∈ c.op.placedRange c.trace, r.OnPage 4096 p := by
  have ha := hb.aligned
  have hu := hb.upper
  have hm := hs.mmap
  have hpos := mapPos_toNat hb hs
  unfold InGap at hp
  obtain ⟨n,hn⟩ : ∃ n, n = mmapBase.toNat + 0x200000000 - s.mmapLen.toNat - p*4096 - 4095 := ⟨_,rfl⟩
  have hlen : (BitVec.ofNat 64 n).toNat = n := by
    rw [BitVec.toNat_ofNat]
    exact Nat.mod_eq_of_lt (by omega)
  have hround := pgRoundUp_toNat (BitVec.ofNat 64 n) (by omega)
  have hsp : ummSpaceLeft s (BitVec.ofNat 64 n) = true := by
    rw [spaceLeft_iff hs (by omega),hlen]
    omega
  refine ⟨_,_,grantedCall_step (by omega) hsp,
    range (ummGetMapPos mmapBase s - pgRoundUp (BitVec.ofNat 64 n)) (BitVec.ofNat 64 n),?_,?_⟩
  · simp [grantedCall,Op.placedRange,anonCall]
  · rw [onPage_range,Words.sub_toNat_exact (by omega),hround,hlen,hpos]
    omega

/-- Placement is clear of the mapped pages in every next call exactly when the gap
is free. -/
theorem gapFree_iff_clear (hb : Based mmapBase) (hs : s.Balanced) :
    GapFree m mmapBase s ↔ ∀ c s', Step mmapBase s c s' → c.op.PlacesClear m c.trace := by
  constructor
  · intro hgap c s' hstep r hr p hp
    exact hgap p (placed_inGap hb hs (path_of_exec hstep.1) hstep.1.allowed hr hp)
  · intro h p hp
    obtain ⟨c,s',hstep,r,hr,hon⟩ := exists_placed hb hs hp
    exact h c s' hstep r hr p hon

/-- In every run that leaves nothing uncounted in the gap, no automatically placed
range meets a mapped page. After one more call, placement stays clear of the mapped
pages exactly when that call leaves nothing uncounted in the gap either. -/
theorem runs_placement_clear (hb : Based mmapBase) {m₀ : Maps D}
    (h0 : ∀ p, InWindow mmapBase p → m₀.host p = none) {calls : List Call}
    (h : Runs (fun x c y => MapStep b mmapBase x c y ∧
      AvoidsGap mmapBase x.1 (c.op.leaves b x.2 c.trace)) ({},m₀) calls (s,m)) :
    (∀ c y, MapStep b mmapBase (s,m) c y → c.op.PlacesClear m c.trace) ∧
    ∀ c y, MapStep b mmapBase (s,m) c y →
      ((∀ c' z, MapStep b mmapBase y c' z → c'.op.PlacesClear y.2 c'.trace) ↔
        AvoidsGap mmapBase s (c.op.leaves b m c.trace)) := by
  obtain ⟨hrun,hgap⟩ : Runs (Step mmapBase) {} calls s ∧ GapFree m mmapBase s := by
    refine h.invariant (I := fun x ls => Runs (Step mmapBase) {} ls x.1 ∧ GapFree x.2 mmapBase x.1)
      ⟨.start _,fun p hp => h0 p hp.inWindow⟩ ?_
    rintro x ls c y ⟨hrun,hx⟩ ⟨⟨hstep,hy⟩,havoid⟩
    refine ⟨.next hrun hstep,?_⟩
    rw [hy]
    exact (path_gapFree_iff hb (runs_accountedFor hb hrun).balanced (path_of_exec hstep.1) hstep.2
      hstep.1.allowed hx).mpr havoid
  have hs := (runs_accountedFor hb hrun).balanced
  refine ⟨fun c y hstep => (gapFree_iff_clear hb hs).mp hgap c y.1 hstep.1,?_⟩
  rintro c ⟨s₁,m₁⟩ ⟨hstep,hm⟩
  have hs₁ := (runs_accountedFor hb (.next hrun hstep)).balanced
  change m₁ = actAll b c.trace m at hm
  rw [← path_gapFree_iff hb hs (path_of_exec hstep.1) hstep.2 hstep.1.allowed hgap,← hm,
    gapFree_iff_clear hb hs₁]
  exact ⟨fun h c' s' hstep' => h c' (s',_) ⟨hstep',rfl⟩,fun h c' z hstep' => h c' z.1 hstep'.1⟩

end Gap

section TwoPages

def explicitCall : Call where
  op := .mmap 0x5ffffe000 4096 3 0x22 (-1) 0
  trace := [(.mmap 0x5ffffe000 4096 3 0x32 (-1) 0,{ret := 0x5ffffe000}),
    (.vmMapPhys 0x5ffffe000 4096 (protToPerm 3),{})]
  outcome := .ok 0x5ffffe000 {}

theorem explicitCall_step : Step 0x400000000 {} explicitCall {} := by
  refine ⟨Prog.exec_of_runWith [{ret := 0x5ffffe000},{}] rfl ?_,rfl⟩
  simp [explicitCall,HostOk]

/-- After two placed pages the moved page finds its place empty. -/
theorem runs_placement_clear_moved :
    movedCall.op.PlacesClear (actAll unitBacking (placedCall 3).trace blankMaps) movedCall.trace := by
  have hrun : Runs (fun x c y => MapStep unitBacking 0x400000000 x c y ∧
      AvoidsGap 0x400000000 x.1 (c.op.leaves unitBacking x.2 c.trace)) ({},blankMaps) [placedCall 3]
      (⟨0,8192⟩,actAll unitBacking (placedCall 3).trace blankMaps) :=
    .next (.start _) ⟨⟨placedCall_step 3,rfl⟩,avoidsGap_none⟩
  exact (runs_placement_clear ⟨by decide,by decide,by decide⟩ (fun _ _ => rfl) hrun).1 movedCall
    (⟨0,12288⟩,_) ⟨movedCall_step,rfl⟩

/-- The page at the explicit address is replaced by the next placed pages. -/
theorem explicitPage_replaced :
    ¬ ∀ (mmapBase : Word) (m₀ m : Maps Unit) (calls : List Call) (s : Counters) (c : Call)
      (y : Counters × Maps Unit), Based mmapBase → (∀ p, InWindow mmapBase p → m₀.host p = none) →
      Runs (MapStep unitBacking mmapBase) ({},m₀) calls (s,m) →
      MapStep unitBacking mmapBase (s,m) c y → c.op.PlacesClear m c.trace := by
  intro h
  have hfirst : MapStep unitBacking 0x400000000 ({},blankMaps) explicitCall
      ({},actAll unitBacking explicitCall.trace blankMaps) := ⟨explicitCall_step,rfl⟩
  have hbad := h 0x400000000 blankMaps _ [explicitCall] {} (placedCall 3) (⟨0,8192⟩,_)
    ⟨by decide,by decide,by decide⟩ (fun _ _ => rfl) (.next (.start _) hfirst)
    ⟨placedCall_step 3,rfl⟩ (range 0x5ffffe000 8192) rfl 0x5ffffe (by decide)
  exact absurd hbad (by decide)

end TwoPages

end Umm
end VmplApps

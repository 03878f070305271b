import VmplApps.UmmResize

/-! Mappings of big pages. `umm_map_big` rounds its length up to 2 MiB and adds what the map
position has above a multiple of 2 MiB, so that the range below it is aligned. No test comes
before the placement: the range stays in the window exactly when it has room beside the heap. -/
namespace VmplApps
namespace Umm

open AppRegion

def bigPgOff (x : Word) : Word := Words.lowBits 21 x

def bigFullLen (mmapBase : Word) (s : Counters) (len : Word) : Word :=
  bigPgRoundUp len + bigPgOff (ummGetMapPos mmapBase s)

def bigAddr (mmapBase : Word) (s : Counters) (len : Word) : Word :=
  ummGetMapPos mmapBase s - bigFullLen mmapBase s len

def ummMapBig (mmapBase len : Word) (prot : CInt) : Code Word := do
  let s ← Prog.state
  let fullLen := bigFullLen mmapBase s len
  let addr := bigAddr mmapBase s len
  let ret ← ummMmapAnom addr len prot true
  if ret ≠ 0 then .fail ret
  else
    Prog.modify fun s => {s with mmapLen := s.mmapLen + fullLen}
    pure addr

def bigCall (addr len : Word) (prot : CInt) : HostCall :=
  .mmap addr len prot (MAP_FIXED ||| MAP_PRIVATE ||| MAP_ANONYMOUS ||| MAP_HUGETLB) (-1) 0

def AnyHost (_ : HostCall) (_ : Reply) : Prop := True

def bigLen (len : Word) : ℕ := (len.toNat + (2^21-1)) / 2^21 * 2^21

/-- An error leaves the counters. Otherwise the range is aligned, lies between the heap and
the previous map position, and the two lengths still fit the window. -/
def BigPlaced (mmapBase : Word) (s : Counters) (len : Word) : Outcome Counters Word Word → Prop
  | .ok addr s' => addr.toNat % 2^21 = 0 ∧ mmapBase.toNat + s.brkLen.toNat ≤ addr.toNat ∧
      addr.toNat + bigLen len ≤ (ummGetMapPos mmapBase s).toNat ∧
      s'.brkLen.toNat + s'.mmapLen.toNat ≤ appMmapLen.toNat
  | .err e s' => e ≠ 0 ∧ s' = s
  | .halted => False

/-- The map position is below the last address, and the rounded length and the misalignment
of the map position are free beside what is in use. -/
def BigRoom (mmapBase : Word) (s : Counters) (len : Word) : Prop :=
  mmapBase.toNat + (appMmapLen.toNat - s.mmapLen.toNat) < 2^64 ∧
    s.brkLen.toNat + s.mmapLen.toNat + (bigLen len + (ummGetMapPos mmapBase s).toNat % 2^21) ≤
      appMmapLen.toNat

section Big
variable {mmapBase len : Word} {s : Counters}

theorem ummMapBig_paths {env : HostCall → Reply → Prop} (prot : CInt) :
    Prog.wp env (ummMapBig mmapBase len prot) s fun t o => ∃ v,
      MapPath (bigCall (bigAddr mmapBase s len) len prot) (bigAddr mmapBase s len) len
        {protToPerm prot with big := true} t v ∧
      o = mapEnd s {s with mmapLen := s.mmapLen + bigFullLen mmapBase s len}
        (bigAddr mmapBase s len) v := by
  unfold ummMapBig
  rw [Prog.wp_bind]
  refine Prog.wp_then (P := fun t v s' => s' = s ∧ MapPath (bigCall (bigAddr mmapBase s len) len prot)
      (bigAddr mmapBase s len) len {protToPerm prot with big := true} t v)
    (mapGuest_paths _ _ _ _) ?_
  rintro t v _ ⟨rfl,hpath⟩
  refine mapEnd_paths (fun s => {s with mmapLen := s.mmapLen + _}) _ v ⟨v,?_,rfl⟩
  rw [List.nil_append,List.append_nil]
  exact hpath

theorem bigLen_lt (hlen : len.toNat < 2^47) : bigLen len < 2^48 := by
  rw [bigLen]
  omega

theorem bigFullLen_toNat (mmapBase : Word) (s : Counters) (hlen : len.toNat < 2^47) :
    (bigFullLen mmapBase s len).toNat = bigLen len + (ummGetMapPos mmapBase s).toNat % 2^21 := by
  have hround : (bigPgRoundUp len).toNat = bigLen len := Words.alignUp_toNat (by omega) len (by omega)
  have hoff : (bigPgOff (ummGetMapPos mmapBase s)).toNat = (ummGetMapPos mmapBase s).toNat % 2^21 :=
    Words.lowBits_toNat (by omega) _
  have hlt := bigLen_lt hlen
  rw [bigFullLen,Words.add_toNat_exact (by omega),hround,hoff]

/-- The address is aligned wherever the subtraction ends up. -/
theorem bigAddr_aligned (mmapBase : Word) (s : Counters) (hlen : len.toNat < 2^47) :
    (bigAddr mmapBase s len).toNat % 2^21 = 0 := by
  have hfull := bigFullLen_toNat mmapBase s hlen
  have hlt := bigLen_lt hlen
  have hmod : bigLen len % 2^21 = 0 := Nat.mul_mod_left _ _
  rw [bigAddr,BitVec.toNat_sub,hfull]
  omega

theorem mapPos_cases (mmapBase : Word) (hs : s.Balanced) :
    (mmapBase.toNat + (0x200000000 - s.mmapLen.toNat) < 2^64 ∧ (ummGetMapPos mmapBase s).toNat =
      mmapBase.toNat + (0x200000000 - s.mmapLen.toNat)) ∨
    (2^64 ≤ mmapBase.toNat + (0x200000000 - s.mmapLen.toNat) ∧ (ummGetMapPos mmapBase s).toNat + 2^64 =
      mmapBase.toNat + (0x200000000 - s.mmapLen.toNat)) := by
  have hroom := hs.room
  have hb := mmapBase.isLt
  rw [ummGetMapPos,BitVec.toNat_sub,BitVec.toNat_add,appMmapBaseOff_toNat]
  omega

theorem bigPlaced_iff (hs : s.Balanced) (hlen : len.toNat < 2^47) :
    BigPlaced mmapBase s len (.ok (bigAddr mmapBase s len)
      {s with mmapLen := s.mmapLen + bigFullLen mmapBase s len}) ↔ BigRoom mmapBase s len := by
  have hfull := bigFullLen_toNat mmapBase s hlen
  have hroom := hs.room
  have hlt := bigLen_lt hlen
  have hsum : (s.mmapLen + bigFullLen mmapBase s len).toNat =
      s.mmapLen.toNat + (bigFullLen mmapBase s len).toNat := Words.add_toNat_exact (by omega)
  have haddr : (bigAddr mmapBase s len).toNat = (2^64 - (bigFullLen mmapBase s len).toNat +
      (ummGetMapPos mmapBase s).toNat) % 2^64 := BitVec.toNat_sub ..
  have halign := bigAddr_aligned mmapBase s hlen
  have hpos := mapPos_cases mmapBase hs
  have hbase := mmapBase.isLt
  simp only [BigPlaced,BigRoom,halign,true_and,hsum,appMmapLen_toNat]
  rw [haddr,hfull]
  omega

theorem exists_exec_mapBig (mmapBase len : Word) (s : Counters) (prot : CInt) :
    ∃ t, Prog.Exec AnyHost (ummMapBig mmapBase len prot) s t (.ok (bigAddr mmapBase s len)
      {s with mmapLen := s.mmapLen + bigFullLen mmapBase s len}) := by
  obtain ⟨t,o,hexec⟩ : ∃ t o, Prog.Exec Obliging (ummMapBig mmapBase len prot) s t o :=
    ⟨_,_,Prog.exec_answer obliging_reply _ _⟩
  have hgrant := hexec.allowed
  obtain ⟨v,hpath,rfl⟩ := (Prog.wp_iff ..).mp (ummMapBig_paths prot) t o hexec
  cases hpath with
  | refused r hr => exact absurd (hgrant _ List.mem_cons_self) hr
  | takenBack r g u hr hg => exact absurd (hgrant _ (List.mem_cons_of_mem _ List.mem_cons_self)) hg
  | mapped r g hr hg =>
    rw [mapEnd,if_neg (not_not.mpr rfl)] at hexec
    exact ⟨_,hexec.mono fun _ _ _ => trivial⟩

/-- Every outcome of a call keeps the window in order exactly when there is room for it. -/
theorem mapBig_keeps_iff (hs : s.Balanced) (hlen : len.toNat < 2^47) (prot : CInt) :
    (∀ t o, Prog.Exec AnyHost (ummMapBig mmapBase len prot) s t o → BigPlaced mmapBase s len o) ↔
      BigRoom mmapBase s len := by
  constructor
  · intro h
    obtain ⟨t,hexec⟩ := exists_exec_mapBig mmapBase len s prot
    exact (bigPlaced_iff hs hlen).mp (h t _ hexec)
  · intro hroom t o hexec
    obtain ⟨v,-,rfl⟩ := (Prog.wp_iff ..).mp (ummMapBig_paths prot) t o hexec
    by_cases hv : v = 0
    · rw [mapEnd,if_neg (not_not.mpr hv)]
      exact (bigPlaced_iff hs hlen).mpr hroom
    · rw [mapEnd,if_pos hv]
      exact ⟨hv,rfl⟩

/-- With room for it, a placement is a step of the window filled from both ends, like those
of small pages. -/
theorem bigRoom_effect (hb : Based mmapBase) (hs : s.Balanced) (hlen : len.toNat < 2^47)
    (h : BigRoom mmapBase s len) :
    Effect mmapBase s {s with mmapLen := s.mmapLen + bigFullLen mmapBase s len}
      (some ⟨(bigAddr mmapBase s len).toNat,bigLen len⟩) := by
  have hfull := bigFullLen_toNat mmapBase s hlen
  have hpos := mapPos_toNat hb hs
  have hmod : bigLen len % 2^21 = 0 := Nat.mul_mod_left _ _
  have haligned := hb.aligned
  have hmmap := hs.mmap
  have hroom := h.2
  rw [appMmapLen_toNat] at hroom
  have haddr : (bigAddr mmapBase s len).toNat =
      (ummGetMapPos mmapBase s).toNat - (bigFullLen mmapBase s len).toNat :=
    Words.sub_toNat_exact (by omega)
  refine Effect.carve (by omega) (by omega) ?_ ?_
  · rw [haddr,hpos]
  · simp only [Span.stop]
    omega

end Big

/-- One big page below a placed page fits whatever the host answers. -/
theorem mapBig_keeps_iff_onePage :
    (⟨0x1000,0x1000⟩ : Counters).Balanced ∧
    ∀ t o, Prog.Exec AnyHost (ummMapBig 0x400000000 0x200000 3) ⟨0x1000,0x1000⟩ t o →
      BigPlaced 0x400000000 ⟨0x1000,0x1000⟩ 0x200000 o := by
  have hs : (⟨0x1000,0x1000⟩ : Counters).Balanced := ⟨by decide,by decide,by decide⟩
  exact ⟨hs,(mapBig_keeps_iff hs (by decide) 3).mpr ⟨by decide,by decide⟩⟩

/-- Nine GiB are mapped from below the window's base, over whatever is there. -/
theorem mapBig_below_window : ∃ t, Prog.Exec HostOk (ummMapBig 0x400000000 0x240000000 3) {} t
      (.ok 0x3c0000000 ⟨0,0x240000000⟩) ∧ ({} : Counters).Balanced ∧
    ¬BigPlaced 0x400000000 {} 0x240000000 (.ok 0x3c0000000 ⟨0,0x240000000⟩) := by
  refine ⟨_,Prog.exec_of_runWith [{ret := 0x3c0000000},{}] rfl ?_,⟨by decide,by decide,by decide⟩,
    fun h => absurd h.2.1 (by decide)⟩
  exact List.forall_mem_cons.mpr ⟨.inl ⟨rfl,by decide⟩,List.forall_mem_cons.mpr ⟨trivial,nofun⟩⟩

end Umm
end VmplApps

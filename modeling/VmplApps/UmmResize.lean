import VmplApps.UmmBreak

/-! Room for the heap. The space test adds the length that a request asks for to the
length that the heap already has, so that a heap cannot be resized to everything that
its own move would leave free. -/
namespace VmplApps
namespace Umm

open AppRegion

def Obliging (c : HostCall) (r : Reply) : Prop := Granted (c,r)

def obligingReply : HostCall → Reply
  | .mmap addr _ _ _ _ _ => {ret := addr}
  | _ => {}

theorem obliging_reply (c : HostCall) : Obliging c (obligingReply c) := by
  cases c <;> simp [Obliging,Granted,obligingReply]

def heapLen (mmapBase brk : Word) : ℕ := (brk.toNat - mmapBase.toNat + 4095) / 4096 * 4096

/-- The caller gets the break it asked for, and the heap has its length. -/
def Resized (mmapBase brk : Word) : Outcome Counters Word Word → Prop
  | .ok v s => v = brk ∧ s.brkLen.toNat = heapLen mmapBase brk
  | _ => False

section Resize
variable {mmapBase brk : Word} {s : Counters}

theorem pgRoundUp_heapLen (hb : Based mmapBase) (hlow : mmapBase ≤ brk) :
    (pgRoundUp (brk - mmapBase)).toNat = heapLen mmapBase brk := by
  have hbase := hb.lower
  have hlt := brk.isLt
  rw [BitVec.le_def] at hlow
  have hsub : (brk - mmapBase).toNat = brk.toNat - mmapBase.toNat := Words.sub_toNat_exact hlow
  rw [pgRoundUp_toNat _ (by omega),hsub,heapLen]

theorem brkTested_iff (hb : Based mmapBase) (hs : s.Balanced) (hne : brk ≠ 0)
    (hlow : mmapBase ≤ brk) (hfree : heapLen mmapBase brk + s.mmapLen.toNat < appMmapLen.toNat) :
    BrkTested mmapBase s brk ↔
      s.brkLen.toNat + s.mmapLen.toNat + heapLen mmapBase brk < appMmapLen.toNat := by
  have hlen := pgRoundUp_heapLen hb hlow
  rw [appMmapLen_toNat] at hfree ⊢
  have hroom : ummSpaceLeft s (pgRoundUp (brk - mmapBase)) = true ↔ _ :=
    spaceLeft_iff hs (by omega)
  rw [hlen] at hroom
  rw [← hroom]
  exact ⟨BrkTested.room,fun h => ⟨hne,BitVec.not_lt.mpr hlow,h⟩⟩

/-- When every call succeeds, a request is met exactly when it passes the tests. -/
theorem resized_iff_tested (hb : Based mmapBase) (hne : brk ≠ 0) (hlow : mmapBase ≤ brk)
    {t : List (HostCall × Reply)} {o : Outcome Counters Word Word}
    (hexec : Prog.Exec Obliging (ummBrk mmapBase brk) s t o) :
    Resized mmapBase brk o ↔ BrkTested mmapBase s brk := by
  have hlen := pgRoundUp_heapLen hb hlow
  have hgrant := hexec.allowed
  have hpath : Path mmapBase s (.brk brk) t o := path_of_exec hexec
  generalize hop : Op.brk brk = op at hpath
  cases hpath with
  | early op e hno => exact absurd hop.symm (hno _)
  | brkEarly brk e h0 htest he =>
    cases hop
    exact iff_of_false id htest
  | query => exact absurd (Op.brk.inj hop) hne
  | brkSame brk htest heq =>
    cases hop
    exact iff_of_true ⟨rfl,by rw [← heq,hlen]⟩ htest
  | brkKept brk r htest hlt hr => exact absurd (hgrant _ List.mem_cons_self) hr
  | brkShrunk brk r g htest hlt hr =>
    cases hop
    exact iff_of_true ⟨rfl,hlen⟩ htest
  | brkGrown brk t v htest hgrow hmap =>
    cases hop
    cases hmap with
    | refused r hr => exact absurd (hgrant _ List.mem_cons_self) hr
    | takenBack r g u hr hg =>
      exact absurd (hgrant _ (List.mem_cons_of_mem _ List.mem_cons_self)) hg
    | mapped r g hr hg => exact iff_of_true ⟨rfl,hlen⟩ htest
  | _ => cases hop

/-- In every reachable state, a request for a length that is free beside the placed ranges
is met exactly when it is also free beside the present heap. -/
theorem runs_resize_iff (hb : Based mmapBase) {calls : List Call}
    (h : Runs (Step mmapBase) {} calls s) (hne : brk ≠ 0) (hlow : mmapBase ≤ brk)
    (hfree : heapLen mmapBase brk + s.mmapLen.toNat < appMmapLen.toNat) :
    (∃ t o, Prog.Exec Obliging (ummBrk mmapBase brk) s t o) ∧
      ∀ t o, Prog.Exec Obliging (ummBrk mmapBase brk) s t o →
        (Resized mmapBase brk o ↔
          s.brkLen.toNat + s.mmapLen.toNat + heapLen mmapBase brk < appMmapLen.toNat) := by
  have hs : s.Balanced := (runs_accountedFor hb h).balanced
  refine ⟨⟨_,_,Prog.exec_answer obliging_reply _ _⟩,fun t o hexec => ?_⟩
  rw [resized_iff_tested hb hne hlow hexec]
  apply brkTested_iff hb hs hne hlow hfree

end Resize

/-- A heap of 5 GiB in a window of 8 GiB. -/
theorem largeHeap_runs : ∃ calls, Runs (Step 0x400000000) {} calls ⟨0x140000000,0⟩ := by
  have hsession : ((session 0x400000000 [(.brk 0x540000000,[{ret := 0x400000000},{}])]).map Prod.snd) =
      some ⟨0x140000000,0⟩ := by decide
  obtain ⟨⟨calls,s⟩,hcalls,rfl⟩ := Option.map_eq_some_iff.mp hsession
  exact ⟨calls,runs_of_session hcalls⟩

/-- It can be shrunk to one page. -/
theorem runs_resize_iff_onePage :
    Prog.Exec Obliging (ummBrk 0x400000000 0x400001000) ⟨0x140000000,0⟩
      [(.munmap 0x400001000 0x13ffff000,{}),(.vmUnmap 0x400001000 0x13ffff000,{})]
      (.ok 0x400001000 ⟨0x1000,0⟩) ∧ Resized 0x400000000 0x400001000 (.ok 0x400001000 ⟨0x1000,0⟩) := by
  have hexec : Prog.Exec Obliging (ummBrk 0x400000000 0x400001000) ⟨0x140000000,0⟩
      [(.munmap 0x400001000 0x13ffff000,{}),(.vmUnmap 0x400001000 0x13ffff000,{})]
      (.ok 0x400001000 ⟨0x1000,0⟩) :=
    Prog.exec_of_runWith [{},{}] rfl (by simp [Obliging,Granted])
  obtain ⟨calls,hruns⟩ := largeHeap_runs
  have hne : (0x400001000 : Word) ≠ 0 := by decide
  have hiff := runs_resize_iff ⟨by decide,by decide,by decide⟩ hruns hne (by decide) (by decide)
  exact ⟨hexec,(hiff.2 _ _ hexec).mpr (by decide)⟩

/-- It cannot be shrunk to 4 GiB: the request fails for lack of space. -/
theorem largeHeap_cannot_shrink : ∃ calls s, Runs (Step 0x400000000) {} calls s ∧
    heapLen 0x400000000 0x500000000 < s.brkLen.toNat ∧
    heapLen 0x400000000 0x500000000 + s.mmapLen.toNat < appMmapLen.toNat ∧
    Prog.Exec Obliging (ummBrk 0x400000000 0x500000000) s [] (.err (-ENOMEM) s) := by
  obtain ⟨calls,hruns⟩ := largeHeap_runs
  exact ⟨calls,_,hruns,by decide,by decide,Prog.exec_of_runWith [] rfl (by simp)⟩

end Umm
end VmplApps

import VmplApps.UmmAccounting

/-! Memory that the allocator hands out, seen by the range test of later system
calls. The allocator fills its window to the last byte; the test asks for an end
strictly below the window's end. -/
namespace VmplApps
namespace Umm

open AppRegion

/-- The range a finished call gave the application to use. The guard page below
the stack is set aside but never mapped. -/
def Call.usable (c : Call) : Option Span :=
  match c.op,c.outcome with
  | .allocStack,.ok top _ => some ⟨top.toNat - 0x800000 + 0x1000,0x7ff000⟩
  | _,_ => c.granted

def handedOut (mmapBase : Word) (s : Counters) (calls : List Call) : List Span :=
  ⟨mmapBase.toNat,s.brkLen.toNat⟩::calls.filterMap Call.usable

section Acceptance
variable {mmapBase : Word} {s : Counters} {calls : List Call}

theorem usable_inside_granted {c : Call} {r : Span} (h : c.usable = some r) :
    ∃ g, c.granted = some g ∧ r.Inside g.start g.stop := by
  obtain ⟨op,t,o⟩ := c
  unfold Call.usable at h
  split at h
  · rename_i top _ hop ho
    obtain rfl : op = .allocStack := hop
    obtain rfl : o = .ok top _ := ho
    obtain rfl := Option.some.inj h
    exact ⟨⟨top.toNat - 0x800000,0x800000⟩,rfl,by simp only [Span.Inside,Span.stop]; omega⟩
  · exact ⟨r,h,Nat.le_refl _,Nat.le_refl _⟩

theorem handedOut_inside (hb : Based mmapBase) (h : Runs (Step mmapBase) {} calls s) {r : Span}
    (hr : r ∈ handedOut mmapBase s calls) :
    r.Inside mmapBase.toNat (mmapBase.toNat + 0x200000000) := by
  have hi := runs_accountedFor hb h
  rcases List.mem_cons.mp hr with rfl | hr
  · have hroom := hi.balanced.room
    exact ⟨Nat.le_refl _,by simp only [Span.stop]; omega⟩
  · obtain ⟨c,hc,hu⟩ := List.mem_filterMap.mp hr
    obtain ⟨g,hg,hin⟩ := usable_inside_granted hu
    have hab := hi.above g (List.mem_filterMap.mpr ⟨c,hc,hg⟩)
    have hroom := hi.balanced.room
    have hlow := Nat.div_mul_le_self g.start 4096
    rw [Span.Inside,Span.outward_start,Span.outward_stop] at hab
    have hhigh : g.stop ≤ (g.stop + (4096-1)) / 4096 * 4096 := by omega
    have hsep : mmapBase.toNat + 0x200000000 - s.region.high ≤ g.start := hab.1.trans hlow
    have hlen : s.region.high ≤ 0x200000000 := by simp only [Counters.region]; omega
    exact ⟨by have := hin.1; omega,by have := hin.2; omega⟩

/-- In every reachable state, a part of the stack, of the heap or of a range that
was placed automatically passes the range test exactly when it ends below the
end of the window. -/
theorem runs_accept_iff (hb : Based mmapBase) (h : Runs (Step mmapBase) {} calls s) {r : Span}
    (hr : r ∈ handedOut mmapBase s calls) {addr len : Word}
    (hsub : Span.Inside ⟨addr.toNat,len.toNat⟩ r.start r.stop) :
    checkExtent mmapBase addr len = 0 ↔
      addr.toNat + len.toNat ≠ mmapBase.toNat + 0x200000000 := by
  have hin := handedOut_inside hb h hr
  have hlow := hb.lower
  have hup := hb.upper
  have hstart : mmapBase.toNat ≤ addr.toNat := hin.1.trans hsub.1
  have hstop : addr.toNat + len.toNat ≤ mmapBase.toNat + 0x200000000 := hsub.2.trans hin.2
  rw [checkExtent_eq_zero,memRefIsSafe_iff hb.placed]
  omega

end Acceptance

def stackCall : Call where
  op := .allocStack
  trace := [(.mmap 0x5ff801000 0x7ff000 3 0x32 (-1) 0,{ret := 0x5ff801000}),
    (.vmMapPhys 0x5ff801000 0x7ff000 (protToPerm 3),{})]
  outcome := .ok 0x600000000 ⟨0,0x800000⟩

theorem stackCall_runs : Runs (Step 0x400000000) {} [stackCall] ⟨0,0x800000⟩ := by
  have hsession : session 0x400000000 [(.allocStack,[{ret := 0x5ff801000},{}])] =
      some ([stackCall],⟨0,0x800000⟩) := by
    simp only [session,serve,Op.code,ummAllocStack]
    decide
  exact runs_of_session hsession

/-- The lowest words of a fresh stack are accepted. -/
theorem runs_accept_iff_stack_bottom : checkExtent 0x400000000 0x5ff801000 16 = 0 :=
  (runs_accept_iff ⟨by decide,by decide,by decide⟩ stackCall_runs
    (r := ⟨0x5ff801000,0x7ff000⟩) (by decide) (by decide)).mpr (by decide)

/-- The last eight bytes of the stack, where the last string of the environment
ends, are refused. -/
theorem stackTop_refused :
    ¬ ∀ (mmapBase : Word) (calls : List Call) (s : Counters) (c : Call), Based mmapBase →
      c.op = .allocStack → Runs (Step mmapBase) {} (calls ++ [c]) s →
      ∀ r ∈ handedOut mmapBase s (calls ++ [c]), ∀ addr len : Word,
      Span.Inside ⟨addr.toNat,len.toNat⟩ r.start r.stop → checkExtent mmapBase addr len = 0 := by
  intro h
  have hbad := h 0x400000000 [] ⟨0,0x800000⟩ stackCall ⟨by decide,by decide,by decide⟩ rfl
    stackCall_runs ⟨0x5ff801000,0x7ff000⟩ (by decide) 0x5fffffff8 8 (by decide)
  exact absurd hbad (by decide)

end Umm
end VmplApps

import VmplApps.UmmMaps

/-! The program break. The manager remembers only the page-rounded length of the
heap; the break itself is what the caller last asked for with success. Requests
that succeed follow the protocol of Linux, failures and most queries do not. -/
namespace VmplApps
namespace Umm

open AppRegion

def IsInt (v : Word) : Prop := v.toNat < 2^31 ∨ 2^64 - 2^31 ≤ v.toNat

/-- The host, with `errno` and the answer of `dune_vm_map_phys` of type `int`. -/
def IntHost (c : HostCall) (r : Reply) : Prop :=
  HostOk c r ∧ IsInt r.errno ∧ ∀ addr len perm, c = .vmMapPhys addr len perm → IsInt r.ret

structure BrkCall where
  request : Word
  trace : List (HostCall × Reply)
  outcome : Outcome Counters Word Word

def BrkCall.returned (c : BrkCall) : Word :=
  match c.outcome with
  | .ok v _ | .err v _ => v
  | .halted => 0

/-- A request, not a query, that did what it was asked. -/
def BrkCall.succeeded (c : BrkCall) : Bool :=
  match c.outcome with
  | .ok _ _ => c.request != 0
  | _ => false

/-- The counters and mappings, together with the current break. -/
structure BreakState (D : Type) where
  counters : Counters
  maps : Maps D
  current : Word

section Break
variable {D : Type} (b : Backing D) (mmapBase : Word)

structure BreakStep (x : BreakState D) (c : BrkCall) (y : BreakState D) : Prop where
  exec : Prog.Exec IntHost (ummBrk mmapBase c.request) x.counters c.trace c.outcome
  counters : c.outcome.final = some y.counters
  maps : y.maps = actAll b c.trace x.maps
  current : y.current = if c.succeeded then c.request else x.current

/-- Everything from the window's start up to the break is mapped. -/
def HeapMapped (m : Maps D) (brk : ℕ) : Prop :=
  ∀ p, mmapBase.toNat ≤ p*4096 → p*4096 < brk → m.host p ≠ none

/-- The protocol of Linux, and what a caller may conclude from it. -/
structure Conforms (x : BreakState D) (c : BrkCall) (y : BreakState D) : Prop where
  query : c.request = 0 → c.returned = x.current
  success : c.succeeded = true → c.returned = c.request ∧ y.current = c.request
  failure : c.request ≠ 0 → c.succeeded = false → c.returned = x.current
  told : c.request ≤ c.returned → HeapMapped mmapBase y.maps c.request.toNat

def Granted : HostCall × Reply → Prop
  | (.mmap addr _ _ _ _ _,r) => r.ret = addr
  | (.munmap _ _,r) | (.vmMapPhys _ _ _,r) => r.ret = 0
  | _ => True

/-- A query before the break was first moved, or a request that passes both tests
and that the host and the guest grant. -/
def Answered (x : BreakState D) (c : BrkCall) : Prop :=
  if c.request = 0 then x.current = mmapBase
  else BrkTested mmapBase x.counters c.request ∧ ∀ e ∈ c.trace, Granted e

structure HeapSound (x : BreakState D) : Prop where
  balanced : x.counters.Balanced
  above : mmapBase.toNat ≤ x.current.toNat
  bound : x.current.toNat ≤ mmapBase.toNat + x.counters.brkLen.toNat
  mapped : HeapMapped mmapBase x.maps (mmapBase.toNat + x.counters.brkLen.toNat)

variable {b mmapBase} {x y : BreakState D} {c : BrkCall}

/-- The break is an address of the window, so no `int` equals it. -/
theorem HeapSound.ne_int (hb : Based mmapBase) (hx : HeapSound mmapBase x) {v : Word}
    (hv : v.toNat ≤ 2^31 ∨ 2^64 - 2^31 ≤ v.toNat) : v ≠ x.current := by
  rintro rfl
  have hlow := hb.lower
  have hu := hb.upper
  have h1 := hx.above
  have h2 := hx.bound
  have h3 := hx.balanced.room
  omega

theorem neg_int {v : Word} (h : IsInt v) : (-v).toNat ≤ 2^31 ∨ 2^64 - 2^31 ≤ (-v).toNat := by
  unfold IsInt at h
  rw [BitVec.toNat_neg]
  omega

theorem BrkTested.bound (hb : Based mmapBase) {s : Counters} (hs : s.Balanced) {brk : Word}
    (h : BrkTested mmapBase s brk) : mmapBase.toNat ≤ brk.toNat ∧
      brk.toNat ≤ mmapBase.toNat + (pgRoundUp (brk - mmapBase)).toNat := by
  have hroom := (heap_room hb hs h.above h.room).2
  have hlow := h.above
  have hbase := hb.lower
  rw [BitVec.lt_def] at hlow
  have hlt := brk.isLt
  have hsub : (brk - mmapBase).toNat = brk.toNat - mmapBase.toNat :=
    Words.sub_toNat_exact (by omega)
  rw [pgRoundUp_toNat _ (by omega)]
  omega

theorem BreakStep.counters_eq (h : BreakStep b mmapBase x c y) {s : Counters}
    (ho : c.outcome.final = some s) : y.counters = s :=
  Option.some.inj (h.counters.symm.trans ho)

theorem failed_request (hb : Based mmapBase) (hx : HeapSound mmapBase x) (hreq : c.request ≠ 0)
    {e : Word} {s : Counters} (ho : c.outcome = .err e s)
    (he : e.toNat ≤ 2^31 ∨ 2^64 - 2^31 ≤ e.toNat) : ¬Conforms mmapBase x c y := by
  intro h
  refine hx.ne_int hb he ?_
  have hret := h.failure hreq (by simp [BrkCall.succeeded,ho])
  simpa [BrkCall.returned,ho] using hret

/-- After a failed request that left the heap mapped, all is as before. -/
theorem failed_sound (hx : HeapSound mmapBase x) (hstep : BreakStep b mmapBase x c y) {e : Word}
    (ho : c.outcome = .err e x.counters)
    (hmapped : HeapMapped mmapBase y.maps (mmapBase.toNat + x.counters.brkLen.toNat)) :
    HeapSound mmapBase y := by
  have hcur : y.current = x.current := by
    rw [hstep.current]
    simp [BrkCall.succeeded,ho]
  have hcount : y.counters = x.counters := hstep.counters_eq (by rw [ho]; rfl)
  refine ⟨?_,?_,?_,?_⟩
  · rw [hcount]
    exact hx.balanced
  · rw [hcur]
    exact hx.above
  · rw [hcur,hcount]
    exact hx.bound
  · rw [hcount]
    exact hmapped

theorem failed_step (hb : Based mmapBase) (hx : HeapSound mmapBase x)
    (hstep : BreakStep b mmapBase x c y) (hreq : c.request ≠ 0) {e : Word}
    (ho : c.outcome = .err e x.counters) (he : e.toNat ≤ 2^31 ∨ 2^64 - 2^31 ≤ e.toNat)
    (hmapped : HeapMapped mmapBase y.maps (mmapBase.toNat + x.counters.brkLen.toNat)) {P : Prop}
    (hP : ¬P) : HeapSound mmapBase y ∧ (Conforms mmapBase x c y ↔ P) :=
  ⟨failed_sound hx hstep ho hmapped,iff_of_false (failed_request hb hx hreq ho he) hP⟩

/-- A request that succeeded conforms and leaves everything up to the new break
mapped. -/
theorem succeeded_step (hb : Based mmapBase) (hx : HeapSound mmapBase x)
    (hstep : BreakStep b mmapBase x c y) (htest : BrkTested mmapBase x.counters c.request)
    (ho : c.outcome =
      .ok c.request {x.counters with brkLen := pgRoundUp (c.request - mmapBase)})
    (hmapped : HeapMapped mmapBase y.maps
      (mmapBase.toNat + (pgRoundUp (c.request - mmapBase)).toNat)) {P : Prop} (hP : P) :
    HeapSound mmapBase y ∧ (Conforms mmapBase x c y ↔ P) := by
  have hsucc : c.succeeded = true := by
    rw [BrkCall.succeeded,ho]
    exact bne_iff_ne.mpr htest.notQuery
  have hcur : y.current = c.request := by rw [hstep.current,hsucc,if_pos rfl]
  have hret : c.returned = c.request := by simp [BrkCall.returned,ho]
  have hcount : y.counters = {x.counters with brkLen := pgRoundUp (c.request - mmapBase)} :=
    hstep.counters_eq (by rw [ho]; rfl)
  obtain ⟨hmod,hroom⟩ := heap_room hb hx.balanced htest.above htest.room
  have hbound := htest.bound hb hx.balanced
  refine ⟨⟨?_,?_,?_,?_⟩,?_⟩
  · rw [hcount]
    exact ⟨hmod,hx.balanced.mmap,hroom⟩
  · rw [hcur]
    exact hbound.1
  · rw [hcur,hcount]
    exact hbound.2
  · rw [hcount]
    exact hmapped
  · refine iff_of_true ?_ hP
    exact ⟨fun h => absurd h htest.notQuery,fun _ => ⟨hret,hcur⟩,fun _ h => by simp [hsucc] at h,
      fun _ p hlo hhi => hmapped p hlo (by omega)⟩

theorem query_iff (hx : HeapSound mmapBase x) (hstep : BreakStep b mmapBase x c y)
    (hreq : c.request = 0) (ho : c.outcome = .ok mmapBase x.counters) (ht : c.trace = []) :
    HeapSound mmapBase y ∧ (Conforms mmapBase x c y ↔ x.current = mmapBase) := by
  have hsucc : c.succeeded = false := by simp [BrkCall.succeeded,ho,hreq]
  have hret : c.returned = mmapBase := by simp [BrkCall.returned,ho]
  have hcount : y.counters = x.counters := hstep.counters_eq (by rw [ho]; rfl)
  have hcur : y.current = x.current := by simp [hstep.current,hsucc]
  have hmaps : y.maps = x.maps := by rw [hstep.maps,ht,actAll_nil]
  have hy : y = x := by
    cases x
    cases y
    simp_all
  refine ⟨hy ▸ hx,fun h => ?_,fun h => ?_⟩
  · rw [← h.query hreq,hret]
  · refine ⟨fun _ => by rw [hret,h],fun hs => by simp [hsucc] at hs,fun hne => absurd hreq hne,?_⟩
    intro _ p _ hhi
    simp [hreq] at hhi

theorem heapMapped_overlay {m m' : Maps D} {r : Span} {f : ℕ → Option (HostPage D)} {brk : ℕ}
    (hhost : m'.host = overlay r f m.host) (h : HeapMapped mmapBase m brk) (hbrk : brk % 4096 = 0)
    (hr : brk ≤ r.start) : HeapMapped mmapBase m' brk := by
  intro p hlo hhi
  rw [hhost,overlay_out]
  · exact h p hlo hhi
  · rw [Span.onPage_iff (by omega)]
    omega

theorem heapMapped_grown {m m' : Maps D} {r : Span} {f : ℕ → Option (HostPage D)} {brk brk' : ℕ}
    (hhost : m'.host = overlay r f m.host) (h : HeapMapped mmapBase m brk) (hbrk : brk % 4096 = 0)
    (hr : r.start = brk) (hr' : r.stop = brk') (hf : ∀ p, f p ≠ none) :
    HeapMapped mmapBase m' brk' := by
  intro p hlo hhi
  rw [hhost]
  by_cases hp : r.OnPage 4096 p
  · rw [overlay_in hp]
    exact hf p
  · rw [overlay_out hp]
    refine h p hlo ?_
    rw [Span.onPage_iff (by omega)] at hp
    simp only [Span.stop] at hp hr'
    omega

theorem grown_range (hb : Based mmapBase) {s : Counters} (hs : s.Balanced) {len : Word}
    (hgrow : s.brkLen < len) :
    (mmapBase + s.brkLen).toNat = mmapBase.toNat + s.brkLen.toNat ∧
      (len - s.brkLen).toNat = len.toNat - s.brkLen.toNat ∧ mmapBase + s.brkLen ≠ MAP_FAILED := by
  have hu := hb.upper
  have hroom := hs.room
  rw [BitVec.lt_def] at hgrow
  have hstart : (mmapBase + s.brkLen).toNat = mmapBase.toNat + s.brkLen.toNat :=
    Words.add_toNat_exact (by omega)
  refine ⟨hstart,Words.sub_toNat_exact (by omega),fun h => ?_⟩
  have hf : MAP_FAILED.toNat = 2^64 - 1 := rfl
  rw [h] at hstart
  omega

theorem act_anonCall {m : Maps D} {addr : Word} (len : Word) (prot : CInt) {r : Reply}
    (hr : r.ret = addr) (hne : addr ≠ MAP_FAILED) :
    (act b m (anonCall addr len prot,r)).host = overlay (range addr len)
      (freshPages b addr prot (MAP_FIXED ||| MAP_PRIVATE ||| MAP_ANONYMOUS) (-1) 0) m.host := by
  rw [anonCall,act_mmap _ _ _ _ _ _ hr,if_neg (hr ▸ hne)]

theorem heapMapped_takenBack {m : Maps D} {addr len : Word} {prot : CInt} {perm : Perm}
    {r g : Reply} (u : Reply) {brk : ℕ} (hr : r.ret = addr) (hg : g.ret ≠ 0)
    (hne : addr ≠ MAP_FAILED) (h : HeapMapped mmapBase m brk) (hbrk : brk % 4096 = 0)
    (haddr : brk ≤ addr.toNat) :
    HeapMapped mmapBase (actAll b [(anonCall addr len prot,r),(.vmMapPhys addr len perm,g),
      (.munmap addr len,u)] m) brk := by
  have hmid := heapMapped_overlay (act_anonCall (b := b) len prot hr hne) h hbrk haddr
  rw [actAll_cons,actAll_cons,actAll_cons,actAll_nil,act_mapPhys_refused _ _ _ hg]
  by_cases hu : u.ret = 0
  · exact heapMapped_overlay (act_munmap _ _ hu) hmid hbrk haddr
  · rw [act_munmap_refused _ _ hu]
    exact hmid

/-- A request for more: the host may refuse, the guest may refuse, or both grant
it. -/
theorem grown_step (hb : Based mmapBase) (hx : HeapSound mmapBase x)
    (hstep : BreakStep b mmapBase x c y) (htest : BrkTested mmapBase x.counters c.request)
    (hgrow : x.counters.brkLen < pgRoundUp (c.request - mmapBase)) {t : List (HostCall × Reply)}
    {v : Word} (ho : c.outcome = mapEnd x.counters
      {x.counters with brkLen := pgRoundUp (c.request - mmapBase)} c.request v) (ht : c.trace = t)
    (hmap : MapPath (anonCall (mmapBase + x.counters.brkLen)
        (pgRoundUp (c.request - mmapBase) - x.counters.brkLen) (PROT_READ ||| PROT_WRITE))
      (mmapBase + x.counters.brkLen) (pgRoundUp (c.request - mmapBase) - x.counters.brkLen)
      (protToPerm (PROT_READ ||| PROT_WRITE)) t v) :
    HeapSound mmapBase y ∧ (Conforms mmapBase x c y ↔
      BrkTested mmapBase x.counters c.request ∧ ∀ e ∈ t, Granted e) := by
  have ha := hb.aligned
  have hmod := hx.balanced.brk
  have henv := hstep.exec.allowed
  have hmaps := hstep.maps
  obtain ⟨hstart,hsize,hne⟩ := grown_range hb hx.balanced hgrow
  rw [BitVec.lt_def] at hgrow
  rw [ht] at hmaps henv
  cases hmap with
  | refused r hr =>
    obtain ⟨hhost,hint,-⟩ := henv _ List.mem_cons_self
    rw [mapEnd,if_pos (neg_ne_zero_of ((mmap_granted hhost).1 hr))] at ho
    have hf : r.ret = MAP_FAILED := mmap_refused hhost hr
    have hsame : y.maps = x.maps := by
      rw [hmaps]
      simp only [anonCall,actAll_cons,actAll_nil,act,if_pos hf]
    exact failed_step hb hx hstep htest.notQuery ho (neg_int hint) (hsame ▸ hx.mapped)
      fun h => hr (h.2 _ List.mem_cons_self)
  | takenBack r g u hr hg =>
    rw [mapEnd,if_pos hg] at ho
    have hint := (henv _ (List.mem_cons_of_mem _ List.mem_cons_self)).2.2 _ _ _ rfl
    have hmapped : HeapMapped mmapBase y.maps (mmapBase.toNat + x.counters.brkLen.toNat) := by
      rw [hmaps]
      exact heapMapped_takenBack u hr hg hne hx.mapped (by omega) hstart.ge
    exact failed_step hb hx hstep htest.notQuery ho (hint.imp_left le_of_lt) hmapped
      fun h => hg (h.2 _ (List.mem_cons_of_mem _ List.mem_cons_self))
  | mapped r g hr hg =>
    rw [mapEnd,if_neg (not_not.mpr rfl)] at ho
    have hmapped : HeapMapped mmapBase y.maps
        (mmapBase.toNat + (pgRoundUp (c.request - mmapBase)).toNat) := by
      rw [hmaps,actAll_cons,actAll_cons,actAll_nil]
      refine heapMapped_grown ((act_host _ _ rfl _).trans (act_anonCall _ _ hr hne)) hx.mapped (by omega) hstart
        ?_ (fun p => Option.some_ne_none _)
      simp only [range,Span.stop,hstart,hsize]
      omega
    refine succeeded_step hb hx hstep htest ho hmapped ⟨htest,?_⟩
    exact List.forall_mem_cons.mpr ⟨hr,List.forall_mem_cons.mpr ⟨hg,by simp⟩⟩

theorem shrunk_step (hb : Based mmapBase) (hx : HeapSound mmapBase x)
    (hstep : BreakStep b mmapBase x c y) (htest : BrkTested mmapBase x.counters c.request)
    (hlt : pgRoundUp (c.request - mmapBase) < x.counters.brkLen) {r g : Reply}
    (ho : c.outcome = .ok c.request {x.counters with brkLen := pgRoundUp (c.request - mmapBase)})
    (ht : c.trace = [(.munmap (mmapBase + pgRoundUp (c.request - mmapBase))
        (x.counters.brkLen - pgRoundUp (c.request - mmapBase)),r),
      (.vmUnmap (mmapBase + pgRoundUp (c.request - mmapBase))
        (x.counters.brkLen - pgRoundUp (c.request - mmapBase)),g)]) (hr : r.ret = 0) :
    HeapSound mmapBase y ∧ (Conforms mmapBase x c y ↔
      BrkTested mmapBase x.counters c.request ∧ ∀ e ∈ c.trace, Granted e) := by
  have ha := hb.aligned
  obtain ⟨hmod,hroom⟩ := heap_room hb hx.balanced htest.above htest.room
  have hu := hb.upper
  have hstart : (mmapBase + pgRoundUp (c.request - mmapBase)).toNat =
      mmapBase.toNat + (pgRoundUp (c.request - mmapBase)).toNat :=
    Words.add_toNat_exact (by omega)
  rw [BitVec.lt_def] at hlt
  have hmapped : HeapMapped mmapBase y.maps
      (mmapBase.toNat + (pgRoundUp (c.request - mmapBase)).toNat) := by
    rw [hstep.maps,ht,actAll_cons,actAll_cons,actAll_nil]
    exact heapMapped_overlay ((act_host _ _ rfl _).trans (act_munmap _ _ hr))
      (fun p hlo hhi => hx.mapped p hlo (by omega)) (by omega) hstart.ge
  refine succeeded_step hb hx hstep htest ho hmapped ⟨htest,?_⟩
  rw [ht]
  exact List.forall_mem_cons.mpr ⟨hr,List.forall_mem_cons.mpr ⟨trivial,by simp⟩⟩

/-- One call keeps the heap sound, and conforms exactly when it was answered. -/
theorem break_step (hb : Based mmapBase) (hx : HeapSound mmapBase x)
    (hstep : BreakStep b mmapBase x c y) :
    HeapSound mmapBase y ∧ (Conforms mmapBase x c y ↔ Answered mmapBase x c) := by
  have ha := hb.aligned
  have hmod := hx.balanced.brk
  have henv := hstep.exec.allowed
  have hmaps := hstep.maps
  have hpath : Path mmapBase x.counters (.brk c.request) c.trace c.outcome := path_of_exec hstep.exec
  generalize hop : Op.brk c.request = op at hpath
  generalize ht : c.trace = t at hpath
  generalize ho : c.outcome = o at hpath
  unfold Answered
  rw [ht] at hmaps henv ⊢
  cases hpath with
  | early op e hno => exact absurd hop.symm (hno _)
  | brkEarly brk e h0 htest he =>
    cases hop
    rw [if_neg h0]
    refine failed_step hb hx hstep h0 ho ?_ (hmaps ▸ hx.mapped) fun h => htest h.1
    rcases he with rfl | rfl
    · exact .inr (by decide)
    · exact .inr (by decide)
  | query =>
    have h0 : c.request = 0 := Op.brk.inj hop
    rw [if_pos h0]
    exact query_iff hx hstep h0 ho ht
  | brkSame brk htest heq =>
    cases hop
    rw [if_neg htest.notQuery]
    refine succeeded_step hb hx hstep htest (by rw [ho,heq]) ?_ ⟨htest,by simp⟩
    rw [heq,hmaps]
    exact hx.mapped
  | brkKept brk r htest hlt hr =>
    cases hop
    rw [if_neg htest.notQuery]
    rw [actAll_cons,act_munmap_refused _ _ hr,actAll_nil] at hmaps
    exact failed_step hb hx hstep htest.notQuery ho (neg_int (henv _ List.mem_cons_self).2.1)
      (hmaps ▸ hx.mapped) fun h => hr (h.2 _ List.mem_cons_self)
  | brkShrunk brk r g htest hlt hr =>
    cases hop
    rw [if_neg htest.notQuery]
    rw [← ht]
    exact shrunk_step hb hx hstep htest hlt ho ht hr
  | brkGrown brk t v htest hgrow hmap =>
    cases hop
    rw [if_neg htest.notQuery]
    exact grown_step hb hx hstep htest hgrow ho ht hmap
  | _ => cases hop

/-- Along every run of calls from the break at the window's start, the next call
follows the protocol exactly when it is a query before the break was first moved,
or a request that passes both tests and is granted. -/
theorem runs_conform_iff (hb : Based mmapBase) {m₀ : Maps D} {mmapLen : Word}
    (hs : Counters.Balanced ⟨0,mmapLen⟩) {calls : List BrkCall}
    (h : Runs (BreakStep b mmapBase) ⟨⟨0,mmapLen⟩,m₀,mmapBase⟩ calls x)
    (hstep : BreakStep b mmapBase x c y) :
    Conforms mmapBase x c y ↔ Answered mmapBase x c := by
  have hstart : HeapSound mmapBase (⟨⟨0,mmapLen⟩,m₀,mmapBase⟩ : BreakState D) :=
    ⟨hs,le_rfl,by simp,fun p hlo hhi => by simp at hhi; omega⟩
  have hx : HeapSound mmapBase x := by
    refine h.invariant (I := fun x _ => HeapSound mmapBase x) hstart ?_
    intro x _ c y hx hstep
    exact (break_step hb hx hstep).1
  exact (break_step hb hx hstep).2

end Break

section OnePage

def growCall : BrkCall where
  request := 0x400001000
  trace := [(.mmap 0x400000000 4096 3 0x32 (-1) 0,{ret := 0x400000000}),
    (.vmMapPhys 0x400000000 4096 (protToPerm 3),{})]
  outcome := .ok 0x400001000 ⟨4096,0⟩

def tooLargeCall : BrkCall where
  request := 0x700000000
  trace := []
  outcome := .err (-ENOMEM) {}

theorem growCall_step : BreakStep unitBacking 0x400000000 ⟨⟨0,0⟩,blankMaps,0x400000000⟩ growCall
    ⟨⟨4096,0⟩,actAll unitBacking growCall.trace blankMaps,0x400001000⟩ := by
  refine ⟨Prog.exec_of_runWith [{ret := 0x400000000},{}] rfl ?_,rfl,rfl,rfl⟩
  simp [growCall,IntHost,HostOk,IsInt]

theorem tooLargeCall_step : BreakStep unitBacking 0x400000000 ⟨⟨0,0⟩,blankMaps,0x400000000⟩
    tooLargeCall ⟨{},blankMaps,0x400000000⟩ :=
  ⟨Prog.exec_of_runWith [] rfl (by simp [tooLargeCall]),rfl,rfl,rfl⟩

/-- The first request for a page conforms. -/
theorem runs_conform_iff_first : Conforms 0x400000000 ⟨⟨0,0⟩,blankMaps,0x400000000⟩ growCall
    ⟨⟨4096,0⟩,actAll unitBacking growCall.trace blankMaps,0x400001000⟩ := by
  have hbased : Based 0x400000000 := ⟨by decide,by decide,by decide⟩
  have hempty : Counters.Balanced ⟨0,0⟩ := ⟨by decide,by decide,by decide⟩
  refine (runs_conform_iff hbased hempty (.start _) growCall_step).mpr ?_
  rw [Answered,if_neg (by decide)]
  refine ⟨⟨by decide,by decide,by decide⟩,?_⟩
  simp [growCall,Granted]

/-- The error number of a refused request is larger than the request, so that the
caller is told of success although nothing is mapped. -/
theorem tooLarge_told :
    ¬ ∀ (mmapBase : Word) (m₀ : Maps Unit) (mmapLen : Word) (calls : List BrkCall)
      (x : BreakState Unit) (c : BrkCall) (y : BreakState Unit), Based mmapBase →
      Counters.Balanced ⟨0,mmapLen⟩ →
      Runs (BreakStep unitBacking mmapBase) ⟨⟨0,mmapLen⟩,m₀,mmapBase⟩ calls x →
      BreakStep unitBacking mmapBase x c y → Conforms mmapBase x c y := by
  intro h
  have hconf := h 0x400000000 blankMaps 0 [] _ tooLargeCall _ ⟨by decide,by decide,by decide⟩
    ⟨by decide,by decide,by decide⟩ (.start _) tooLargeCall_step
  exact hconf.told (by decide) 0x400000 (by decide) (by decide) rfl

end OnePage

end Umm
end VmplApps

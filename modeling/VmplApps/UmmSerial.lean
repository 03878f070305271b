import VmplApps.SharedLocks
import VmplApps.UmmConcurrent
import VmplApps.UmmPaths

/-! The calls of the memory manager that `syscall_do` runs under its lock. However
many threads make them, the calls behave as if they had been made one after the
other, so the accounting of the sequential manager carries over; and every call,
locked or not, is a short program that nothing blocks once it has started. -/
namespace VmplApps
namespace Umm

open AppRegion Shared

section Programs
variable {mmapBase : Word}

theorem mapGuest_orderly (addr len : Word) (perm : Perm) :
    (mapGuest addr len perm).Orderly 2 false := by
  refine Prog.orderly_call fun r => Prog.orderly_ite ?_ Prog.orderly_pure
  exact Prog.orderly_call fun _ => Prog.orderly_pure

theorem ummMmapAnom_orderly (addr len : Word) (prot : CInt) (big : Bool) :
    (ummMmapAnom addr len prot big).Orderly 3 false :=
  Prog.orderly_call fun _ => Prog.orderly_ite Prog.orderly_pure (mapGuest_orderly _ _ _)

theorem ummMmapFile_orderly (addr len : Word) (prot flags fd : CInt) (offset : Word) :
    (ummMmapFile addr len prot flags fd offset).Orderly 3 false :=
  Prog.orderly_call fun _ => Prog.orderly_ite Prog.orderly_pure (mapGuest_orderly _ _ _)

theorem mapKind_orderly (target len : Word) (prot flags fd : CInt) (offset : Word) :
    (mapKind target len prot flags fd offset).Orderly 3 false :=
  Prog.orderly_ite (ummMmapAnom_orderly _ _ _ _)
    (Prog.orderly_ite (ummMmapFile_orderly _ _ _ _ _ _) Prog.orderly_fail)

theorem placeBelow_orderly (len : Word) : (placeBelow mmapBase len).Orderly 1 false :=
  Prog.orderly_state fun _ => Prog.orderly_ite Prog.orderly_fail Prog.orderly_pure

theorem chooseAddr_orderly (addr len : Word) : (chooseAddr mmapBase addr len).Orderly 1 false :=
  Prog.orderly_ite (placeBelow_orderly len) (Prog.orderly_ite Prog.orderly_fail Prog.orderly_pure)

theorem mremapAddr_orderly (newSize : Word) (flags : CInt) (newAddress : Word) :
    (mremapAddr mmapBase newSize flags newAddress).Orderly 1 false :=
  Prog.orderly_ite (Prog.orderly_ite Prog.orderly_fail Prog.orderly_pure) (placeBelow_orderly newSize)

theorem brk_orderly (brk : Word) : (ummBrk mmapBase brk).Orderly 6 false := by
  refine Prog.orderly_ite Prog.orderly_pure (Prog.orderly_ite Prog.orderly_fail ?_)
  refine Prog.orderly_state fun s => Prog.orderly_ite Prog.orderly_fail ?_
  refine Prog.orderly_ite Prog.orderly_pure (Prog.orderly_ite ?_ ?_)
  · refine (Prog.orderly_call (n := 3) fun r => ?_).mono (by decide) id
    refine Prog.orderly_ite Prog.orderly_fail (Prog.orderly_call fun _ => ?_)
    exact Prog.orderly_modify Prog.orderly_pure
  · refine Prog.orderly_bind (n := 3) (m := 2) (ummMmapAnom_orderly _ _ _ _) fun ret => ?_
    exact Prog.orderly_ite Prog.orderly_fail (Prog.orderly_modify Prog.orderly_pure)

theorem mmap_orderly (addr len : Word) (prot flags fd : CInt) (offset : Word) :
    (ummMmap mmapBase addr len prot flags fd offset).Orderly 6 false := by
  refine Prog.orderly_bind (n := 1) (m := 5) (chooseAddr_orderly addr len) fun target => ?_
  refine Prog.orderly_bind (n := 3) (m := 2) (mapKind_orderly _ _ _ _ _ _) fun ret => ?_
  exact Prog.orderly_ite Prog.orderly_fail (Prog.orderly_modify Prog.orderly_pure)

theorem munmap_orderly (addr len : Word) : (ummMunmap mmapBase addr len).Orderly 3 false := by
  refine Prog.orderly_ite Prog.orderly_fail (Prog.orderly_call fun r => Prog.orderly_ite ?_ ?_)
  · refine Prog.orderly_call fun r => Prog.orderly_ite Prog.orderly_fail ?_
    exact Prog.orderly_call fun _ => Prog.orderly_pure
  · exact (Prog.orderly_call (n := 0) fun _ => Prog.orderly_pure).mono (by decide) id

theorem mprotect_orderly (addr len prot : Word) :
    (ummMprotect mmapBase addr len prot).Orderly 2 false := by
  refine Prog.orderly_ite Prog.orderly_fail (Prog.orderly_call fun r => ?_)
  refine Prog.orderly_ite Prog.orderly_fail (Prog.orderly_call fun r => ?_)
  exact Prog.orderly_ite Prog.orderly_halt Prog.orderly_pure

theorem shmat_orderly (shmid : CInt) (addr : Word) (shmflg : CInt) :
    (ummShmat mmapBase shmid addr shmflg).Orderly 6 false := by
  refine Prog.orderly_call fun shm => Prog.orderly_ite Prog.orderly_fail ?_
  refine Prog.orderly_bind (n := 1) (m := 4) (chooseAddr_orderly _ _) fun target => ?_
  refine Prog.orderly_call fun mem => Prog.orderly_ite Prog.orderly_fail ?_
  refine Prog.orderly_call fun r => Prog.orderly_ite ?_ (Prog.orderly_modify Prog.orderly_pure)
  exact Prog.orderly_call (n := 1) fun _ => Prog.orderly_fail

theorem mremap_orderly (oldAddress oldSize newSize : Word) (flags : CInt) (newAddress : Word) :
    (ummMremap mmapBase oldAddress oldSize newSize flags newAddress).Orderly 6 false := by
  refine Prog.orderly_ite Prog.orderly_fail ?_
  refine Prog.orderly_bind (n := 1) (m := 5) (mremapAddr_orderly _ _ _) fun target => ?_
  refine Prog.orderly_ite Prog.orderly_fail (Prog.orderly_call fun r => ?_)
  refine Prog.orderly_ite Prog.orderly_fail (Prog.orderly_modify ?_)
  refine Prog.orderly_call fun _ => Prog.orderly_call fun r => ?_
  exact Prog.orderly_ite Prog.orderly_halt Prog.orderly_pure

theorem allocStack_orderly : (ummAllocStack mmapBase).Orderly 6 false := by
  unfold ummAllocStack
  refine Prog.orderly_state fun s => ?_
  dsimp only
  cases ummSpaceLeft s appStackSize
  · trivial
  refine Prog.orderly_bind (n := 3) (m := 2) (ummMmapAnom_orderly _ _ _ _) fun ret => ?_
  exact Prog.orderly_ite Prog.orderly_fail (Prog.orderly_modify Prog.orderly_pure)

/-- No call takes more than six operations. -/
theorem code_orderly (op : Op) : (op.code mmapBase).Orderly 6 false := by
  cases op with
  | allocStack => exact allocStack_orderly
  | brk brk => exact brk_orderly brk
  | mmap addr len prot flags fd offset => exact mmap_orderly addr len prot flags fd offset
  | munmap addr len => exact (munmap_orderly addr len).mono (by decide) id
  | mprotect addr len prot => exact (mprotect_orderly addr len prot).mono (by decide) id
  | shmat shmid addr shmflg => exact shmat_orderly shmid addr shmflg
  | mremap oldAddress oldSize newSize flags newAddress =>
    exact mremap_orderly oldAddress oldSize newSize flags newAddress

end Programs

theorem hostOk_total (c : HostCall) : ∃ r, HostOk c r := by
  cases c with
  | mmap | mremap => exact ⟨{ret := MAP_FAILED, errno := ENOMEM},.inr ⟨rfl,by decide⟩⟩
  | munmap | mprotect | shmctl | shmat => exact ⟨{ret := -1, errno := EINVAL},.inr ⟨rfl,by decide⟩⟩
  | shmdt | vmMapPhys | vmUnmap | vmMprotect => exact ⟨{},trivial⟩

theorem writeBack_alone (seen new : Counters) : writeBack seen new seen = new := by
  have hsame {v c : Word} : (if v = c then c else v) = v := by
    split_ifs with h
    · exact h.symm
    · rfl
  simp only [writeBack,hsame]

section Deeds
variable {T : Type} {ls : List (Action T Op Word HostCall Reply Word)}

/-- What a call of the sequential manager did: its operation, its host calls and its
result. -/
def Call.deed (c : Call) : Option (Op × List (HostCall × Reply) × Except Word Word) :=
  match c.outcome with
  | .ok v _ => some (c.op,c.trace,.ok v)
  | .err e _ => some (c.op,c.trace,.error e)
  | .halted => none

/-- The sequential call that does a given deed and ends in `s`. -/
def callOf (d : Op × List (HostCall × Reply) × Except Word Word) (s : Counters) : Call where
  op := d.1
  trace := d.2.1
  outcome := outcomeOf s d.2.2

theorem Call.granted_of_deed {c : Call} {op : Op} {t : List (HostCall × Reply)}
    {value : Except Word Word} (h : c.deed = some (op,t,value)) (i : T) :
    c.granted = Action.granted (fun op t v => op.grant t v) (.finish i op t value) := by
  obtain ⟨op',t',o⟩ := c
  cases o with
  | ok v s =>
    obtain ⟨rfl,rfl,rfl⟩ : op' = op ∧ t' = t ∧ Except.ok v = value := by simpa [deed] using h
    rfl
  | err e s =>
    obtain ⟨rfl,rfl,rfl⟩ : op' = op ∧ t' = t ∧ Except.error e = value := by simpa [deed] using h
    rfl
  | halted => cases h

/-- The ranges of the finished calls are those of the sequential run. -/
theorem placedRanges_eq_grants {calls : List Call}
    (h : calls.map Call.deed = (ended ls).map some) : placedRanges ls = grants calls := by
  induction ls generalizing calls with
  | nil =>
    obtain rfl : calls = [] := by simpa [ended] using h
    rfl
  | cons a ls ih =>
    cases a with
    | finish i op t value =>
      cases calls with
      | nil => simp [ended,Action.ended] at h
      | cons c calls =>
        have hended : ended (.finish i op t value::ls) = (op,t,value)::ended ls := rfl
        rw [hended,List.map_cons,List.map_cons,List.cons.injEq] at h
        have hhead := Call.granted_of_deed h.1 i
        have htail := ih h.2
        simp only [placedRanges,finished,grants,List.filterMap_cons,hhead] at htail ⊢
        rw [htail]
    | start | read | call | store => exact ih h

end Deeds

section Schedules

def onlyLocked (ls : List (Action Bool Op Word HostCall Reply Word)) : Bool :=
  ls.all fun a => match a with
    | .start _ op => op.needLock
    | _ => true

theorem onlyLocked_iff {ls : List (Action Bool Op Word HostCall Reply Word)} :
    onlyLocked ls = true ↔ ∀ i op, .start i op ∈ ls → op.needLock = true := by
  simp only [onlyLocked,List.all_eq_true]
  refine ⟨fun h i op hmem => h _ hmem,fun h a ha => ?_⟩
  cases a with
  | start i op => exact h i op ha
  | read | call | store | finish => rfl

def mappingInTurn : List (Move Bool Op Reply) :=
  [.start true (.mmap 0 4096 3 0x22 (-1) 0),go true,go true 0x5fffff000,go true,go true,go true,
    go true,.start false (.mmap 0 8192 3 0x22 (-1) 0),go false]

theorem exists_mappingInTurn :
    ∃ ls x, Runs (Shared.Step (workload 0x400000000)) ({state := {}} : Calls Bool) ls x ∧
      (∀ i op, .start i op ∈ ls → op.needLock = true) ∧ placedRanges ls = [⟨0x5fffff000,4096⟩] ∧
      (ended ls).length = 1 ∧ x.lock = some false := by
  obtain ⟨ls,x,hrun,hend⟩ := exists_of_schedule
    (P := Shared.Step (workload 0x400000000))
    (p := fun r => onlyLocked r.1 && decide (placedRanges r.1 = [⟨0x5fffff000,4096⟩] ∧
      (ended r.1).length = 1 ∧ r.2.lock = some false))
    (fun x l y hstep hl => hstep (answered_of_permitted hl))
    (show (schedule (workload 0x400000000) (permitted false) {state := {}}
      mappingInTurn.reverse).any _ = true by decide +kernel)
  obtain ⟨hlocked,hrest⟩ := Bool.and_eq_true_iff.mp hend
  exact ⟨ls,x,hrun,onlyLocked_iff.mp hlocked,of_decide_eq_true hrest⟩

end Schedules

section Interleavings
variable {T : Type} [DecidableEq T] {mmapBase : Word} {s₀ : Counters}
  {ls : List (Action T Op Word HostCall Reply Word)} {x : Calls T}

theorem callOf_deed (d : Op × List (HostCall × Reply) × Except Word Word) (s : Counters) :
    (callOf d s).deed = some d := by
  obtain ⟨op,t,value⟩ := d
  cases value <;> rfl

theorem step_callOf {s s' : Counters} {d : Op × List (HostCall × Reply) × Except Word Word}
    (h : Alone (workload mmapBase) s d s') : Step mmapBase s (callOf d s') s' := by
  refine ⟨h,?_⟩
  obtain ⟨op,t,value⟩ := d
  cases value <;> rfl

/-- Calls made one by one, by whichever thread, are calls of the sequential manager. -/
theorem runs_of_alone {ds : List (Op × List (HostCall × Reply) × Except Word Word)}
    {s s' : Counters} (h : Runs (Alone (workload mmapBase)) s ds s') :
    ∃ calls, Runs (Step mmapBase) s calls s' ∧ calls.map Call.deed = ds.map some := by
  induction h with
  | start => exact ⟨[],.start _,rfl⟩
  | next _ hstep ih =>
    obtain ⟨calls,hruns,hdeeds⟩ := ih
    refine ⟨callOf _ _::calls,.next hruns (step_callOf hstep),?_⟩
    rw [List.map_cons,List.map_cons,callOf_deed,hdeeds]

/-- Any number of threads that make calls of the three kinds `syscall_do` locks get,
in every interleaving, the results of a sequential run of the calls in the order in
which they ended, and the counters it leaves behind. A call under way goes on from
there as if it were alone. -/
theorem locked_calls_serializable (h : Runs (Shared.Step (workload mmapBase)) {state := s₀} ls x)
    (hlocked : ∀ i op, .start i op ∈ ls → op.needLock = true) :
    ∃ calls s, Runs (Step mmapBase) s₀ calls s ∧ calls.map Call.deed = (ended ls).map some ∧
      (x.lock = none → x.state = s ∧ ∀ i, x.threads i = none) ∧
      ∀ i th, x.threads i = some th → x.lock = some i ∧
        ∀ t o, Prog.Exec HostOk th.rest x.state t o →
          Prog.Exec HostOk (th.op.code mmapBase) s (th.trace ++ t) o := by
  obtain ⟨s,hs⟩ := runs_serial (w := workload mmapBase) code_orderly writeBack_alone h hlocked
  obtain ⟨calls,hruns,hdeeds⟩ := runs_of_alone hs.runs
  refine ⟨calls,s,hruns,hdeeds,fun hfree => ⟨hs.idle hfree,fun i => ?_⟩,fun i th hi => ?_⟩
  · cases hi : x.threads i with
    | none => rfl
    | some th =>
      have hheld := hs.only i th hi
      rw [hfree] at hheld
      cases hheld
  · exact ⟨hs.only i th hi,(hs.halfway i th hi).completes⟩

theorem locked_calls_serializable_in_turn :
    ∃ (ls : List (Action Bool Op Word HostCall Reply Word)) (x : Calls Bool) (calls : List Call)
      (s : Counters), Runs (Step 0x400000000) {} calls s ∧
      calls.map Call.deed = (ended ls).map some ∧ calls.length = 1 ∧ x.lock = some false := by
  obtain ⟨ls,x,hrun,hlocked,-,hlen,hlock⟩ := exists_mappingInTurn
  obtain ⟨calls,s,hcalls,hdeeds,-⟩ := locked_calls_serializable hrun hlocked
  refine ⟨ls,x,calls,s,hcalls,hdeeds,?_,hlock⟩
  have hlength := congrArg List.length hdeeds
  simpa [hlen] using hlength

theorem alone_keeps_heap {s s' : Counters} {d : Op × List (HostCall × Reply) × Except Word Word}
    (h : Alone (workload mmapBase) s d s') (hlock : d.1.needLock = true) : s'.brkLen = s.brkLen := by
  obtain ⟨op,t,value⟩ := d
  have hfinal : (outcomeOf s' value).final = some s' := by cases value <;> rfl
  have hadjusted (adjust : Bool) (len : Word) : (s.adjusted adjust len).brkLen = s.brkLen := by
    unfold Counters.adjusted
    split_ifs <;> rfl
  have hend (s₁ : Counters) (ret v : Word) (hs₁ : s₁.brkLen = s.brkLen)
      (hf : (mapEnd s s₁ ret v).final = some s') : s'.brkLen = s.brkLen := by
    unfold mapEnd at hf
    split_ifs at hf <;> cases hf
    · rfl
    · exact hs₁
  have hpath : Path mmapBase s op t (outcomeOf s' value) := path_of_exec h
  generalize outcomeOf s' value = o at hpath hfinal
  cases hpath with
  | early | munmapRefused | mprotectRefused | munmapped | munmapRetried =>
    cases hfinal
    rfl
  | mmap addr len prot flags fd offset target t v => exact hend _ target v (hadjusted _ len) hfinal
  | mprotected addr len prot r g =>
    split_ifs at hfinal <;> cases hfinal
    rfl
  | _ => cases hlock

theorem runs_keep_heap {s₀ s : Counters} {ds : List (Op × List (HostCall × Reply) × Except Word Word)}
    (h : Runs (Alone (workload mmapBase)) s₀ ds s) (hlock : ∀ d ∈ ds, d.1.needLock = true) :
    s.brkLen = s₀.brkLen := by
  induction h with
  | start => rfl
  | next _ hstep ih =>
    obtain ⟨hd,hds⟩ := List.forall_mem_cons.mp hlock
    exact (alone_keeps_heap hstep hd).trans (ih hds)

/-- After any calls made one by one, any number of threads may map, unmap and change
protections at the same time: the ranges that the manager places for them lie in the
window, clear of the heap, of each other and of all ranges it placed before. -/
theorem locked_calls_accounted (hb : Based mmapBase) {before : List Call}
    (hbefore : Runs (Step mmapBase) {} before s₀)
    (h : Runs (Shared.Step (workload mmapBase)) {state := s₀} ls x)
    (hlocked : ∀ i op, .start i op ∈ ls → op.needLock = true) :
    (x.lock = none → x.state.Balanced) ∧
    (∀ g ∈ placedRanges ls ++ grants before, g.start % 4096 = 0 ∧
      (g.outward 4096).Inside mmapBase.toNat (mmapBase.toNat + 0x200000000) ∧
      (g.outward 4096).Apart ⟨mmapBase.toNat,s₀.brkLen.toNat⟩) ∧
    (placedRanges ls ++ grants before).Pairwise fun g k => (g.outward 4096).Apart (k.outward 4096) := by
  obtain ⟨s,hs⟩ := runs_serial (w := workload mmapBase) code_orderly writeBack_alone h hlocked
  obtain ⟨calls,hruns,hdeeds⟩ := runs_of_alone hs.runs
  have hall := runs_accountedFor hb (hbefore.trans hruns)
  have hgrants : placedRanges ls ++ grants before = grants (calls ++ before) := by
    rw [placedRanges_eq_grants hdeeds,grants,grants,grants,List.filterMap_append]
  have hheap : s.brkLen = s₀.brkLen := by
    refine runs_keep_heap hs.runs fun d hd => ?_
    obtain ⟨i,hi⟩ := (runs_started h).2 d hd
    exact hlocked i d.1 hi
  rw [hgrants,← hheap]
  refine ⟨fun hfree => hs.idle hfree ▸ hall.balanced,fun g hg => ?_,hall.apart⟩
  have hin := hall.above g hg
  have hroom := hall.room
  exact ⟨Nat.mod_eq_zero_of_dvd (hall.aligned g hg),⟨by have := hin.1; omega,hin.2⟩,
    hall.apart_low hg⟩

theorem locked_calls_accounted_in_turn :
    ∃ ls x, Runs (Shared.Step (workload 0x400000000)) ({state := {}} : Calls Bool) ls x ∧
      placedRanges ls = [⟨0x5fffff000,4096⟩] ∧
      (Span.outward 4096 ⟨0x5fffff000,4096⟩).Inside 0x400000000 0x600000000 ∧
      (Span.outward 4096 ⟨0x5fffff000,4096⟩).Apart ⟨0x400000000,0⟩ := by
  obtain ⟨ls,x,hrun,hlocked,hplaced,-⟩ := exists_mappingInTurn
  obtain ⟨-,hranges,-⟩ := locked_calls_accounted ⟨by decide,by decide,by decide⟩
    (.start _) hrun hlocked
  have hin := hranges ⟨0x5fffff000,4096⟩ (by simp [hplaced])
  exact ⟨ls,x,hrun,hplaced,hin.2⟩

/-- A call that has started is never blocked and takes at most six operations, and
the lock is held by the one thread that runs a locked call. So from every state that
any interleaving of any calls reaches, the calls under way can all be brought to
their ends, unless one of them has stopped the process; the lock is then free. -/
theorem calls_never_block (h : Runs (Shared.Step (workload mmapBase)) {state := s₀} ls x) :
    (∀ i th, x.threads i = some th → spent i ls ≤ 6) ∧
    (∀ i, x.lock = some i ↔ ∃ th, x.threads i = some th ∧ th.op.needLock = true) ∧
    ∃ more y, Runs (Shared.Step (workload mmapBase)) {state := s₀} (more ++ ls) y ∧
      (∀ a ∈ more, x.threads a.actor ≠ none) ∧ (∀ i th, y.threads i = some th → th.Stopped) ∧
      ((∀ i, y.threads i = none) → y.lock = none) := by
  refine ⟨fun i th hi => (runs_metered code_orderly h i th hi).1,runs_held h,?_⟩
  obtain ⟨more,y,hrun,hact,hend⟩ := exists_finish_all hostOk_total code_orderly
    ((ls.map Action.actor).filter fun i => (x.threads i).isSome) h fun i th hi => .inl
      (List.mem_filter.mpr ⟨runs_finite h i (by simp [hi]),by simp [hi]⟩)
  refine ⟨more,y,hrun,fun a ha => ?_,hend,fun hidle => ?_⟩
  · have hlive := (List.mem_filter.mp (hact a ha)).2
    intro hnone
    simp [hnone] at hlive
  · cases hlock : y.lock with
    | none => rfl
    | some i =>
      obtain ⟨th,hi,-⟩ := (runs_held hrun i).mp hlock
      rw [hidle i] at hi
      cases hi

theorem calls_never_block_in_turn :
    ∃ ls x more y, Runs (Shared.Step (workload 0x400000000)) ({state := {}} : Calls Bool) ls x ∧
      x.lock = some false ∧
      Runs (Shared.Step (workload 0x400000000)) ({state := {}} : Calls Bool) (more ++ ls) y ∧
      ∀ i th, y.threads i = some th → th.Stopped := by
  obtain ⟨ls,x,hrun,-,-,-,hlock⟩ := exists_mappingInTurn
  obtain ⟨-,-,more,y,hmore,-,hend,-⟩ := calls_never_block hrun
  exact ⟨ls,x,more,y,hrun,hlock,hmore,hend⟩

end Interleavings

end Umm
end VmplApps

import VmplApps.SandboxHandler
import VmplApps.Sthread

/-! The one mutex of the sandbox. `syscall_do` takes it around three of the memory calls
and `pgflt_handler` around each page fault of the sandbox itself. It is a normal mutex:
a thread that locks it twice waits for itself. A page fault may hit the sandbox anywhere,
the two locked regions included, so traps are kept as a system call with the faults that
interrupt it and each other. -/
namespace VmplApps
namespace TrapLocks

open Sthreads (PTE_P PTE_W PTE_U)

/-- Where a system call stands: before `syscall_do`, in a call that needs no lock, at
`pthread_mutex_lock`, or in a call that holds the lock. -/
inductive Stage
  | checking
  | calling
  | waiting
  | locked
  deriving DecidableEq, Repr

/-- A fault of the sandbox at an address, and whether its handler has the lock. -/
structure Fault where
  addr : Word
  inside : Bool
  deriving DecidableEq, Repr

/-- A thread that runs the application, one that has left it, or one in the sandbox with
the latest fault first. -/
inductive Thread
  | user
  | gone
  | kernel (rax : Word) (stage : Stage) (faults : List Fault)
  deriving DecidableEq, Repr

structure State (T : Type) where
  threads : T → Thread := fun _ => .user
  mutex : Option T := none
  table : ℕ → Word := fun _ => 0

inductive Event (T : Type)
  | trap (i : T) (rax : Word)
  | refuse (i : T)
  | proceed (i : T)
  | lock (i : T)
  | finish (i : T)
  | fault (i : T) (addr : Word)
  | install (i : T)
  | lookupFails (i : T)
  deriving DecidableEq, Repr

def needLock (rax : Word) : Bool :=
  match Syscall.ofRax rax with
  | .mmap | .mprotect | .munmap => true
  | _ => false

/-- Calls that end with `dune_ret_from_user`. -/
def leaves (rax : Word) : Bool :=
  match Syscall.ofRax rax with
  | .exit | .exitGroup => true
  | _ => false

def pteAddr (pa : Word) : Word := pa &&& 0xffffffffff000

/-- The entry that `pgflt_handler` writes. -/
def faultEntry (vaToPa : Word → Word) (addr : Word) : Word :=
  PTE_P ||| PTE_W ||| pteAddr (vaToPa addr)

section Steps
variable {T : Type} [DecidableEq T] (vaToPa : Word → Word)

def State.set (s : State T) (i : T) (th : Thread) : State T :=
  {s with threads := Function.update s.threads i th}

/-- One event, if it is enabled. A fault in the application ends it with `-EFAULT`; when
the lookup of a fault fails, the assertion ends the process. -/
def step (s : State T) : Event T → Option (State T)
  | .trap i rax =>
    match s.threads i with
    | .user => some (s.set i (.kernel rax .checking []))
    | _ => none
  | .refuse i =>
    match s.threads i with
    | .kernel _ .checking [] => some (s.set i .user)
    | _ => none
  | .proceed i =>
    match s.threads i with
    | .kernel rax .checking [] =>
      some (s.set i (.kernel rax (if needLock rax then .waiting else .calling) []))
    | _ => none
  | .lock i =>
    if s.mutex = none then
      match s.threads i with
      | .kernel rax .waiting [] => some {s.set i (.kernel rax .locked []) with mutex := some i}
      | .kernel rax stage (⟨addr,false⟩::fs) =>
        some {s.set i (.kernel rax stage (⟨addr,true⟩::fs)) with mutex := some i}
      | _ => none
    else none
  | .finish i =>
    match s.threads i with
    | .kernel rax .calling [] => some (s.set i (if leaves rax then .gone else .user))
    | .kernel _ .locked [] => some {s.set i .user with mutex := none}
    | _ => none
  | .fault i addr =>
    match s.threads i with
    | .user => some (s.set i .gone)
    | .kernel rax stage fs => some (s.set i (.kernel rax stage (⟨addr,false⟩::fs)))
    | .gone => none
  | .install i =>
    match s.threads i with
    | .kernel rax stage (⟨addr,true⟩::fs) =>
      some {s.set i (.kernel rax stage fs) with
        mutex := none
        table := Function.update s.table (addr.toNat/4096) (faultEntry vaToPa addr)}
    | _ => none
  | .lookupFails i =>
    match s.threads i with
    | .kernel _ _ (⟨_,true⟩::_) => some {s with threads := fun _ => .gone, mutex := none}
    | _ => none

def Step (s : State T) (e : Event T) (s' : State T) : Prop := step vaToPa s e = some s'

def Thread.holding : Thread → ℕ
  | .kernel _ stage fs => (if stage = .locked then 1 else 0) + fs.countP Fault.inside
  | _ => 0

/-- The thread is at one of the two `pthread_mutex_lock`. -/
def Thread.waits : Thread → Bool
  | .kernel _ stage [] => stage == .waiting
  | .kernel _ _ (f::_) => !f.inside
  | _ => false

def Deadlocked (s : State T) : Prop := ∃ i, s.mutex = some i ∧ (s.threads i).waits = true

/-- Exactly the owner is in a locked region, and in one only. -/
def Owned (s : State T) : Prop :=
  ∀ i, (s.threads i).holding = if s.mutex = some i then 1 else 0

def Thread.Settled : Thread → Prop
  | .kernel _ _ _ => False
  | _ => True

def Event.Routine : Event T → Prop
  | .trap _ _ | .fault _ _ | .lookupFails _ => False
  | _ => True

def Event.actor : Event T → T
  | .trap i _ | .refuse i | .proceed i | .lock i | .finish i | .fault i _ | .install i
  | .lookupFails i => i

/-- What an event does to the lock when its thread goes from `th` to `th'`. -/
inductive Effect (s s' : State T) (e : Event T) (th th' : Thread) : Prop
  | keep (hm : s'.mutex = s.mutex) (hh : th'.holding = th.holding)
      (hw : th.waits = true → th'.waits = true)
      (hnew : th'.waits = true → th.waits = true ∨ th.holding = 0 ∨ ∃ a, e = .fault e.actor a)
  | take (he : e = .lock e.actor) (hm : s.mutex = none) (hm' : s'.mutex = some e.actor)
      (hh : th'.holding = th.holding+1) (hw : th.waits = true) (hw' : th'.waits = false)
  | give (hm' : s'.mutex = none) (hh : th.holding = th'.holding+1) (hw : th.waits = false)

end Steps

section Inversion
variable {T : Type} [DecidableEq T] {vaToPa : Word → Word} {s s' : State T} {e : Event T}

/-- The lock that the model of the whole handler takes is the one `syscall_do` takes for
this number. -/
theorem needLock_memoryOp {tf : TrapFrame} {op : Umm.Op} (h : Sandbox.memoryOp tf = some op) :
    op.needLock = needLock tf.rax := by
  unfold Sandbox.memoryOp at h
  unfold needLock
  cases hs : Syscall.ofRax tf.rax <;> simp only [hs,Option.some.injEq,reduceCtorEq] at h <;>
    subst h <;> rfl

theorem step_effect (h : step vaToPa s e = some s') :
    (s'.threads = (fun _ => .gone) ∧ s'.mutex = none ∧ 0 < (s.threads e.actor).holding ∧
      (s.threads e.actor).waits = false) ∨
    ∃ th, s'.threads = Function.update s.threads e.actor th ∧
      Effect s s' e (s.threads e.actor) th := by
  cases e with
  | trap i rax =>
    simp only [step] at h
    split at h
    · rename_i hi
      cases h
      refine .inr ⟨_,rfl,.keep rfl ?_ ?_ ?_⟩ <;> simp [Event.actor,hi,Thread.holding,Thread.waits]
    · cases h
  | refuse i =>
    simp only [step] at h
    split at h
    · rename_i hi
      cases h
      refine .inr ⟨_,rfl,.keep rfl ?_ ?_ ?_⟩ <;> simp [Event.actor,hi,Thread.holding,Thread.waits]
    · cases h
  | proceed i =>
    simp only [step] at h
    split at h
    · rename_i hi
      cases h
      refine .inr ⟨_,rfl,.keep rfl ?_ ?_ ?_⟩
      · split <;> simp [Event.actor,hi,Thread.holding]
      · simp [Event.actor,hi,Thread.waits]
      · simp [Event.actor,hi,Thread.holding]
    · cases h
  | lock i =>
    simp only [step] at h
    split_ifs at h with hfree
    split at h
    · rename_i hi
      cases h
      refine .inr ⟨_,rfl,.take rfl hfree rfl ?_ ?_ ?_⟩ <;>
        simp [Event.actor,hi,Thread.holding,Thread.waits]
    · rename_i hi
      cases h
      refine .inr ⟨_,rfl,.take rfl hfree rfl ?_ ?_ ?_⟩
      · simp only [Event.actor,hi,Thread.holding,List.countP_cons]
        simp; omega
      · simp [Event.actor,hi,Thread.waits]
      · simp [Thread.waits]
    · cases h
  | finish i =>
    simp only [step] at h
    split at h
    · rename_i hi
      cases h
      refine .inr ⟨_,rfl,.keep rfl ?_ ?_ ?_⟩
      · split <;> simp [Event.actor,hi,Thread.holding]
      · simp [Event.actor,hi,Thread.waits]
      · simp [Event.actor,hi,Thread.holding]
    · rename_i hi
      cases h
      refine .inr ⟨_,rfl,.give rfl ?_ ?_⟩ <;> simp [Event.actor,hi,Thread.holding,Thread.waits]
    · cases h
  | fault i addr =>
    simp only [step] at h
    split at h
    · rename_i hi
      cases h
      refine .inr ⟨_,rfl,.keep rfl ?_ ?_ ?_⟩ <;> simp [Event.actor,hi,Thread.holding,Thread.waits]
    · rename_i hi
      cases h
      refine .inr ⟨_,rfl,.keep rfl ?_ ?_ ?_⟩ <;> simp [Event.actor,hi,Thread.holding,Thread.waits]
    · cases h
  | install i =>
    simp only [step] at h
    split at h
    · rename_i hi
      cases h
      refine .inr ⟨_,rfl,.give rfl ?_ ?_⟩
      · simp only [Event.actor,hi,Thread.holding,List.countP_cons]
        simp; omega
      · simp [Event.actor,hi,Thread.waits]
    · cases h
  | lookupFails i =>
    simp only [step] at h
    split at h
    · rename_i hi
      cases h
      refine .inl ⟨rfl,rfl,?_,?_⟩ <;> simp [Event.actor,hi,Thread.holding,Thread.waits]
    · cases h

end Inversion

section Safety
variable {T : Type} [DecidableEq T] {vaToPa : Word → Word} {s s' : State T} {e : Event T}
  {ls : List (Event T)}

theorem owner_of_holding (hs : Owned s) {i : T} (h : 0 < (s.threads i).holding) :
    s.mutex = some i := by
  by_contra hne
  have hzero := hs i
  rw [if_neg hne] at hzero
  omega

theorem owned_step (hs : Owned s) (h : Step vaToPa s e s') : Owned s' := by
  rcases step_effect h with ⟨hthreads,hm,-⟩ | ⟨th,hthreads,heffect⟩
  · intro i
    rw [hthreads,hm,if_neg (by simp)]
    rfl
  intro i
  have hold := hs i
  by_cases hi : i = e.actor
  · subst hi
    rw [hthreads,Function.update_self]
    cases heffect with
    | keep hm hh => rw [hh,hm,hold]
    | take he hm hm' hh =>
      rw [hm,if_neg (by simp)] at hold
      rw [hm',if_pos rfl,hh,hold]
    | give hm' hh =>
      have hle : (s.threads e.actor).holding ≤ 1 := by
        rw [hold]
        split <;> omega
      rw [hm',if_neg (by simp)]
      omega
  · rw [hthreads,Function.update_of_ne hi,hold]
    cases heffect with
    | keep hm => rw [hm]
    | take he hm hm' =>
      rw [hm,hm',if_neg (by simp),if_neg (fun h => hi (Option.some.inj h).symm)]
    | give hm' hh =>
      -- the thread that gives the lock back had it, so no other one did
      have howner := owner_of_holding hs (i := e.actor) (by omega)
      rw [hm',howner,if_neg (fun h => hi (Option.some.inj h).symm),if_neg (by simp)]

theorem runs_owned {x : State T} (hs : Owned s) (h : Runs (Step vaToPa) s ls x) : Owned x :=
  h.invariant (I := fun x _ => Owned x) hs fun _ _ _ _ => owned_step

/-- An owner that waits for its own lock goes on waiting, and nobody else gets the lock. -/
theorem blocked_step {i : T} (hs : Owned s) (hm : s.mutex = some i) (hw : (s.threads i).waits = true)
    (h : Step vaToPa s e s') :
    s'.mutex = some i ∧ (s'.threads i).waits = true ∧ e ≠ .lock e.actor := by
  have hactor : 0 < (s.threads e.actor).holding → e.actor = i := fun hpos =>
    Option.some.inj ((owner_of_holding hs hpos).symm.trans hm)
  rcases step_effect h with ⟨-,-,hpos,hnot⟩ | ⟨th,hthreads,heffect⟩
  · rw [hactor hpos,hw] at hnot
    cases hnot
  rw [hthreads]
  cases heffect with
  | keep hm' hh hwaits =>
    refine ⟨hm'.trans hm,?_,?_⟩
    · by_cases hi : i = e.actor
      · subst hi
        rw [Function.update_self]
        exact hwaits hw
      · rwa [Function.update_of_ne hi]
    · intro he
      have hlock : Step vaToPa s (.lock e.actor) s' := he ▸ h
      simp [Step,step,hm] at hlock
  | take he hfree => simp [hfree] at hm
  | give hm' hh hnot =>
    rw [hactor (by omega),hw] at hnot
    cases hnot

theorem runs_blocked {i : T} {x : State T} (hs : Owned s) (hm : s.mutex = some i)
    (hw : (s.threads i).waits = true) (h : Runs (Step vaToPa) s ls x) :
    x.mutex = some i ∧ (x.threads i).waits = true ∧ ∀ j, .lock j ∉ ls := by
  induction h with
  | start => exact ⟨hm,hw,by simp⟩
  | @next y z ls e hrun hstep ih =>
    obtain ⟨hmy,hwy,hlocks⟩ := ih
    obtain ⟨hmz,hwz,hne⟩ := blocked_step (runs_owned hs hrun) hmy hwy hstep
    refine ⟨hmz,hwz,fun j hj => ?_⟩
    rcases List.mem_cons.mp hj with rfl | hj
    · exact hne rfl
    · exact hlocks j hj

/-- The lock is lost only by a fault of its owner. -/
theorem deadlocked_of_step (hs : Owned s) (h : Step vaToPa s e s') (hd : Deadlocked s') :
    Deadlocked s ∨ ∃ i a, e = .fault i a ∧ s.mutex = some i := by
  obtain ⟨i,hm,hw⟩ := hd
  rcases step_effect h with ⟨-,hnone,-⟩ | ⟨th,hthreads,heffect⟩
  · simp [hnone] at hm
  rw [hthreads] at hw
  by_cases hi : i = e.actor
  · subst hi
    rw [Function.update_self] at hw
    cases heffect with
    | keep hm' hh _ hnew =>
      rw [hm'] at hm
      rcases hnew hw with hold | hzero | ⟨a,he⟩
      · exact .inl ⟨_,hm,hold⟩
      · have hone := hs e.actor
        rw [if_pos hm,hzero] at hone
        cases hone
      · exact .inr ⟨e.actor,a,he,hm⟩
    | take he hfree hm' hh hwaits hnot =>
      rw [hnot] at hw
      cases hw
    | give hm' => simp [hm'] at hm
  · rw [Function.update_of_ne hi] at hw
    cases heffect with
    | keep hm' => exact .inl ⟨i,hm' ▸ hm,hw⟩
    | take he hfree hm' =>
      rw [hm'] at hm
      exact absurd (Option.some.inj hm).symm hi
    | give hm' => simp [hm'] at hm

def FaultedInside (vaToPa : Word → Word) (s : State T) (ls : List (Event T)) : Prop :=
  ∃ newer older i a y, ls = newer ++ .fault i a::older ∧ Runs (Step vaToPa) s older y ∧
    y.mutex = some i

theorem faultedInside_of_deadlocked {x : State T} (hs : Owned s) (hfree : s.mutex = none)
    (h : Runs (Step vaToPa) s ls x) (hd : Deadlocked x) : FaultedInside vaToPa s ls := by
  induction h with
  | start =>
    obtain ⟨i,hm,-⟩ := hd
    rw [hfree] at hm
    cases hm
  | @next y z ls e hrun hstep ih =>
    rcases deadlocked_of_step (runs_owned hs hrun) hstep hd with hold | ⟨i,a,rfl,hm⟩
    · obtain ⟨newer,older,i,a,y,rfl,hy,hm⟩ := ih hold
      exact ⟨e::newer,older,i,a,y,rfl,hy,hm⟩
    · exact ⟨[],ls,i,a,y,rfl,hrun,hm⟩

theorem waits_of_fault {i : T} {a : Word} (hs : Owned s) (hm : s.mutex = some i)
    (h : Step vaToPa s (.fault i a) s') : s'.mutex = some i ∧ (s'.threads i).waits = true := by
  have hone := hs i
  rw [if_pos hm] at hone
  simp only [Step,step] at h
  split at h
  · rename_i hi
    rw [hi] at hone
    cases hone
  · cases h
    refine ⟨hm,?_⟩
    simp [State.set,Thread.waits]
  · cases h

/-- The model is deterministic, so a history leads to one state only. -/
theorem runs_unique {x y : State T} (h : Runs (Step vaToPa) s ls x) (h' : Runs (Step vaToPa) s ls y) :
    x = y := by
  induction h generalizing y with
  | start =>
    cases h'
    rfl
  | next hrun hstep ih =>
    cases h' with
    | next hrun' hstep' =>
      obtain rfl := ih hrun'
      exact Option.some.inj (hstep.symm.trans hstep')

theorem deadlocked_of_faultedInside {x : State T} (hs : Owned s) (h : Runs (Step vaToPa) s ls x)
    (hf : FaultedInside vaToPa s ls) : Deadlocked x := by
  obtain ⟨newer,older,i,a,y,rfl,hy,hm⟩ := hf
  obtain ⟨z,hfault,hnewer⟩ := h.split
  cases hfault with
  | next hrun hstep =>
    obtain rfl := runs_unique hy hrun
    have hy' := runs_owned hs hy
    obtain ⟨hmz,hwz⟩ := waits_of_fault hy' hm hstep
    obtain ⟨hmx,hwx,-⟩ := runs_blocked (owned_step hy' hstep) hmz hwz hnewer
    exact ⟨i,hmx,hwx⟩

end Safety

section Progress
variable {T : Type} [DecidableEq T] {vaToPa : Word → Word} {s : State T}

/-- Events by which the thread leaves the sandbox while the others stand still. -/
structure Settles (vaToPa : Word → Word) (s : State T) (i : T) (ls : List (Event T)) (x : State T) :
    Prop where
  runs : Runs (Step vaToPa) s ls x
  routine : ∀ e ∈ ls, e.Routine
  free : x.mutex = none
  settled : (x.threads i).Settled
  others : ∀ j, j ≠ i → x.threads j = s.threads j

theorem Settles.after {s' x : State T} {e : Event T} {i : T} {ls : List (Event T)}
    (h : Settles vaToPa s' i ls x) (hstep : Step vaToPa s e s') (he : e.Routine)
    (hothers : ∀ j, j ≠ i → s'.threads j = s.threads j) : Settles vaToPa s i (ls ++ [e]) x where
  runs := h.runs.after hstep
  routine := by
    intro e' he'
    rcases List.mem_append.mp he' with he' | he'
    · exact h.routine e' he'
    · rwa [List.mem_singleton.mp he']
  free := h.free
  settled := h.settled
  others := fun j hj => (h.others j hj).trans (hothers j hj)

/-- With the lock free, a thread can be brought back from any depth of faults. -/
theorem exists_settles (fs : List Fault) (rax : Word) (stage : Stage) (i : T) (s : State T)
    (hi : s.threads i = .kernel rax stage fs) (hfree : s.mutex = none)
    (hnone : (Thread.kernel rax stage fs).holding = 0) : ∃ ls x, Settles vaToPa s i ls x := by
  have hothers (s' : State T) (th : Thread) (h : s'.threads = Function.update s.threads i th) :
      ∀ j, j ≠ i → s'.threads j = s.threads j := by
    intro j hj
    rw [h,Function.update_of_ne hj]
  induction fs generalizing s with
  | nil =>
    cases stage with
    | checking =>
      have hstep : Step vaToPa s (.refuse i) (s.set i .user) := by simp [Step,step,hi]
      exact ⟨_,_,.next (.start s) hstep,by simp [Event.Routine],hfree,
        by simp [State.set,Thread.Settled],hothers _ _ rfl⟩
    | calling =>
      have hstep : Step vaToPa s (.finish i) (s.set i (if leaves rax then .gone else .user)) := by
        simp [Step,step,hi]
      refine ⟨_,_,.next (.start s) hstep,by simp [Event.Routine],hfree,?_,hothers _ _ rfl⟩
      by_cases hl : leaves rax <;> simp [State.set,hl,Thread.Settled]
    | waiting =>
      have hlock : Step vaToPa s (.lock i) {s.set i (.kernel rax .locked []) with mutex := some i} := by
        simp [Step,step,hi,hfree]
      have hfinish : Step vaToPa {s.set i (.kernel rax .locked []) with mutex := some i} (.finish i)
          {(s.set i (.kernel rax .locked [])).set i .user with mutex := none} := by
        simp [Step,step,State.set]
      refine ⟨_,_,.next (.next (.start s) hlock) hfinish,by simp [Event.Routine],rfl,
        by simp [State.set,Thread.Settled],hothers _ .user ?_⟩
      simp [State.set]
    | locked => simp [Thread.holding] at hnone
  | cons f fs ih =>
    obtain ⟨a,inside⟩ := f
    cases inside with
    | true => simp [Thread.holding] at hnone
    | false =>
      have hlock : Step vaToPa s (.lock i)
          {s.set i (.kernel rax stage (⟨a,true⟩::fs)) with mutex := some i} := by
        simp [Step,step,hi,hfree]
      have hinstall : Step vaToPa {s.set i (.kernel rax stage (⟨a,true⟩::fs)) with mutex := some i}
          (.install i) {(s.set i (.kernel rax stage (⟨a,true⟩::fs))).set i (.kernel rax stage fs) with
            mutex := none
            table := Function.update s.table (a.toNat/4096) (faultEntry vaToPa a)} := by
        simp [Step,step,State.set]
      obtain ⟨ls,x,hx⟩ := ih {(s.set i (.kernel rax stage (⟨a,true⟩::fs))).set i
            (.kernel rax stage fs) with
          mutex := none
          table := Function.update s.table (a.toNat/4096) (faultEntry vaToPa a)}
        (by simp [State.set]) rfl (by simpa [Thread.holding] using hnone)
        (fun s' th h j hj => by rw [h,Function.update_of_ne hj])
      refine ⟨_,x,(hx.after hinstall trivial ?_).after hlock trivial (hothers _ _ rfl)⟩
      intro j hj
      simp [State.set,Function.update_of_ne hj]

theorem exists_free (hs : Owned s) (hd : ¬Deadlocked s) : ∃ ls x, Runs (Step vaToPa) s ls x ∧
    (∀ e ∈ ls, e.Routine) ∧ x.mutex = none ∧ ∀ i, ¬(x.threads i).Settled → ¬(s.threads i).Settled := by
  cases hm : s.mutex with
  | none => exact ⟨[],s,.start s,by simp,hm,fun _ h => h⟩
  | some i =>
    have hone := hs i
    rw [if_pos hm] at hone
    have hnot : (s.threads i).waits = false := by
      cases hw : (s.threads i).waits with
      | false => rfl
      | true => exact absurd ⟨i,hm,hw⟩ hd
    cases hi : s.threads i with
    | user | gone =>
      rw [hi] at hone
      cases hone
    | kernel rax stage fs =>
      rw [hi] at hone hnot
      have hkernel (th : Thread) : ∀ j, ¬(Function.update s.threads i th j).Settled →
          ¬(s.threads j).Settled := by
        intro j hj
        by_cases hji : j = i
        · simp [hji,hi,Thread.Settled]
        · rwa [Function.update_of_ne hji] at hj
      cases fs with
      | nil =>
        have hstage : stage = .locked := by
          by_contra hne
          simp [Thread.holding,hne] at hone
        subst hstage
        have hfinish : Step vaToPa s (.finish i) {s.set i .user with mutex := none} := by
          simp [Step,step,hi]
        exact ⟨_,_,.next (.start s) hfinish,by simp [Event.Routine],rfl,hkernel _⟩
      | cons f fs =>
        obtain ⟨a,inside⟩ := f
        obtain rfl : inside = true := by simpa [Thread.waits] using hnot
        have hinstall : Step vaToPa s (.install i) {s.set i (.kernel rax stage fs) with
            mutex := none
            table := Function.update s.table (a.toNat/4096) (faultEntry vaToPa a)} := by
          simp [Step,step,hi]
        exact ⟨_,_,.next (.start s) hinstall,by simp [Event.Routine],rfl,hkernel _⟩

theorem exists_settled_all (is : List T) (s : State T) (hs : Owned s) (hfree : s.mutex = none)
    (h : ∀ i, ¬(s.threads i).Settled → i ∈ is) : ∃ ls x, Runs (Step vaToPa) s ls x ∧
    (∀ e ∈ ls, e.Routine) ∧ x.mutex = none ∧ ∀ i, (x.threads i).Settled := by
  induction is generalizing s with
  | nil => exact ⟨[],s,.start s,by simp,hfree,fun i => by_contra fun hi => by simpa using h i hi⟩
  | cons i is ih =>
    by_cases hi : (s.threads i).Settled
    · refine ih s hs hfree fun j hj => ?_
      rcases List.mem_cons.mp (h j hj) with rfl | hmem
      · exact absurd hi hj
      · exact hmem
    · cases hth : s.threads i with
      | user | gone => simp [hth,Thread.Settled] at hi
      | kernel rax stage fs =>
        have hzero := hs i
        rw [hfree,if_neg (by simp),hth] at hzero
        obtain ⟨ls,x,hx⟩ : ∃ ls x, Settles vaToPa s i ls x :=
          exists_settles fs rax stage i s hth hfree hzero
        have hrest : ∀ j, ¬(x.threads j).Settled → j ∈ is := by
          intro j hj
          have hji : j ≠ i := fun h => hj (h ▸ hx.settled)
          rw [hx.others j hji] at hj
          exact (List.mem_cons.mp (h j hj)).resolve_left hji
        obtain ⟨ls',y,hy,hroutine,hend⟩ := ih x (runs_owned hs hx.runs) hx.free hrest
        refine ⟨ls' ++ ls,y,hx.runs.trans hy,fun e he => ?_,hend⟩
        exact (List.mem_append.mp he).elim (hroutine e) (hx.routine e)

theorem runs_active {ls : List (Event T)} {x : State T} (h : Runs (Step vaToPa) s ls x)
    (hs : ∀ i, (s.threads i).Settled) : ∀ i, ¬(x.threads i).Settled → i ∈ ls.map Event.actor := by
  induction h with
  | start => exact fun i hi => absurd (hs i) hi
  | @next y z ls e hrun hstep ih =>
    intro i hi
    rw [List.map_cons,List.mem_cons]
    by_cases hie : i = e.actor
    · exact .inl hie
    · refine .inr (ih i ?_)
      rcases step_effect hstep with ⟨hthreads,-⟩ | ⟨th,hthreads,-⟩
      · simp [hthreads,Thread.Settled] at hi
      · rwa [hthreads,Function.update_of_ne hie] at hi

/-- The lock of the sandbox under any interleaving of the system calls and page faults of
any number of threads. Only its owner is in a locked region, and in one only. The owner
waits for itself exactly if it took a page fault in a locked region; then it keeps the
lock for good and no thread gets it any more. In all other states every thread in the
sandbox can get out of it without a further fault. -/
theorem lock_lost_iff {ls : List (Event T)} {table : ℕ → Word} {x : State T}
    (h : Runs (Step vaToPa) {table := table} ls x) :
    Owned x ∧ (Deadlocked x ↔ FaultedInside vaToPa {table := table} ls) ∧
    (Deadlocked x → ∀ more y, Runs (Step vaToPa) x more y →
      y.mutex = x.mutex ∧ Deadlocked y ∧ ∀ i, .lock i ∉ more) ∧
    (¬Deadlocked x → ∃ more y, Runs (Step vaToPa) x more y ∧ (∀ e ∈ more, e.Routine) ∧
      y.mutex = none ∧ ∀ i, (y.threads i).Settled) := by
  have hstart : Owned ({table := table} : State T) := fun i => rfl
  have hown := runs_owned hstart h
  refine ⟨hown,⟨faultedInside_of_deadlocked hstart rfl h,deadlocked_of_faultedInside hstart h⟩,
    ?_,fun hd => ?_⟩
  · rintro ⟨i,hm,hw⟩ more y hmore
    obtain ⟨hmy,hwy,hlocks⟩ := runs_blocked hown hm hw hmore
    exact ⟨hmy.trans hm.symm,⟨i,hmy,hwy⟩,hlocks⟩
  · obtain ⟨ls₁,y,hy,hroutine,hfree,hfewer⟩ : ∃ ls₁ y, Runs (Step vaToPa) x ls₁ y ∧
        (∀ e ∈ ls₁, e.Routine) ∧ y.mutex = none ∧
        ∀ i, ¬(y.threads i).Settled → ¬(x.threads i).Settled := exists_free hown hd
    obtain ⟨ls₂,z,hz,hroutine',hend⟩ : ∃ ls₂ z, Runs (Step vaToPa) y ls₂ z ∧
        (∀ e ∈ ls₂, e.Routine) ∧ z.mutex = none ∧ ∀ i, (z.threads i).Settled :=
      exists_settled_all (ls.map Event.actor) y (runs_owned hown hy) hfree
        fun i hi => runs_active h (fun _ => trivial) i (hfewer i hi)
    refine ⟨ls₂ ++ ls₁,z,hy.trans hz,fun e he => ?_,hend⟩
    exact (List.mem_append.mp he).elim (hroutine' e) (hroutine e)

def mapCall : Word := 9
def protectCall : Word := 10

def mapFaults : List (Event Bool) :=
  [.proceed false,.trap false protectCall,.fault true 0x400000,.lock true,.proceed true,
    .trap true mapCall]

theorem lock_lost_iff_mapFaults : ∃ x, Runs (Step id) ({} : State Bool) mapFaults x ∧
    Deadlocked x ∧ ∀ more y, Runs (Step id) x more y → ∀ i, .lock i ∉ more := by
  have hrun : Runs (Step id) ({} : State Bool) mapFaults _ :=
    .next (.next (.next (.next (.next (.next (.start _) rfl) rfl) rfl) rfl) rfl) rfl
  obtain ⟨-,-,hlost,-⟩ := lock_lost_iff hrun
  exact ⟨_,hrun,⟨true,rfl,rfl⟩,fun more y hmore => (hlost ⟨true,rfl,rfl⟩ more y hmore).2.2⟩

end Progress

section Pages
variable {T : Type} [DecidableEq T] {vaToPa : Word → Word} {s s' : State T} {e : Event T}

theorem step_table (h : Step vaToPa s e s') (p : ℕ) :
    s'.table p = s.table p ∨ ∃ a, s'.table p = faultEntry vaToPa a := by
  cases e with
  | install i =>
    simp only [Step,step] at h
    split at h
    · rename_i addr fs hi
      cases h
      by_cases hp : p = addr.toNat/4096
      · exact .inr ⟨addr,by simp [hp]⟩
      · exact .inl (Function.update_of_ne hp _ _)
    · cases h
  | lock i =>
    simp only [Step,step] at h
    split_ifs at h
    split at h <;> cases h <;> exact .inl rfl
  | _ =>
    simp only [Step,step] at h
    split at h <;> cases h <;> exact .inl rfl

theorem faultEntry_private (a : Word) : faultEntry vaToPa a &&& PTE_U = 0 := by
  unfold faultEntry pteAddr PTE_P PTE_W PTE_U
  rw [BitVec.and_or_distrib_right,BitVec.and_assoc]
  simp

/-- Page faults of the sandbox open no page to the application. -/
theorem runs_user_pages {ls : List (Event T)} {x : State T} (h : Runs (Step vaToPa) s ls x) (p : ℕ)
    (hp : x.table p &&& PTE_U ≠ 0) : x.table p = s.table p := by
  induction h with
  | start => rfl
  | next _ hstep ih =>
    rcases step_table hstep p with hsame | ⟨a,ha⟩
    · rw [hsame] at hp ⊢
      exact ih hp
    · rw [ha] at hp
      exact absurd (faultEntry_private a) hp

end Pages

end TrapLocks
end VmplApps

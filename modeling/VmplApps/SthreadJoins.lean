import VmplApps.SthreadHandles

/-! Joining. `sthread_join` waits for a record to show an exited thread. A running
thread can get there, and as long as it is running there is somebody to schedule; a
thread that was joined before cannot, so that a second join runs the other threads
for ever or aborts. -/
namespace VmplApps
namespace Sthreads

def Kernel.status (k : Kernel) (id : CInt) : Option Status := (k.find id).map Sthread.stState

/-- The value that `sthread_join` returns in a step, when it returns in that step. -/
def joinAnswer (m : Machine) (l : Label) : Option ℤ :=
  match m.mode,l with
  | .master,.join st => if m.kernel.status st = none then some (-1) else none
  | .joining st,.poll _ => if m.kernel.status st = some .zombie then some 0 else none
  | _,_ => none

/-- A state in which the join of `st` that the master begins in `m` is still going
on, or has just returned. -/
def DuringJoin (boot : Boot) (m : Machine) (st : CInt) (ls : List Label) (m' : Machine) : Prop :=
  ∃ m₁, step boot m (.join st) = .ok m₁ ∧
    Runs (fun a l b => a.mode ≠ .master ∧ step boot a l = .ok b) m₁ ls m'

/-- A join of `st` begun in `m` answers. -/
structure JoinTotal (boot : Boot) (m : Machine) (st : CInt) : Prop where
  /-- No such thread, or one that was joined: −1 at once. -/
  refused : m.kernel.status st = none ∨ m.kernel.status st = some .dead →
    joinAnswer m (.join st) = some (-1) ∧ step boot m (.join st) = .ok m
  /-- Every round returns 0 if the thread has exited and enters a thread if not. -/
  round : ∀ ls m' r, DuringJoin boot m st ls m' → m'.mode = .joining st →
    ∃ m'', step boot m' (.poll r) = .ok m'' ∧
      if m'.kernel.status st = some .zombie then
        joinAnswer m' (.poll r) = some 0 ∧ m''.mode = .master
      else joinAnswer m' (.poll r) = none ∧ ∃ t, m''.mode = .user t
  /-- A thread that exits meanwhile is found so. -/
  kept : ∀ ls m' l m'', DuringJoin boot m st ls m' → m'.kernel.status st = some .zombie →
    m'.mode ≠ .master → step boot m' l = .ok m'' → m''.mode ≠ .master →
    m''.kernel.status st = some .zombie
  /-- There is no other way back than finding the thread exited. -/
  exited : ∀ ls m' l m'', DuringJoin boot m st ls m' → m'.mode ≠ .master →
    step boot m' l = .ok m'' → m''.mode = .master →
    joinAnswer m' l = some 0 ∧ m'.kernel.status st = some .zombie

section Statuses
variable {boot : Boot} {k k' : Kernel} {s s' : Sthread} {id : CInt}

theorem status_congr (h : k'.sthreads = k.sthreads) : k'.status = k.status := by
  funext id
  rw [Kernel.status,Kernel.status,find_congr h]

theorem status_find (h : k.find id = some s) : k.status id = some s.stState := by
  rw [Kernel.status,h]
  rfl

theorem status_update (hf : k.find s'.stId = some s) (hst : s'.stState = s.stState)
    (hk : k'.sthreads = (k.update s').sthreads) : k'.status = k.status := by
  funext id
  by_cases hid : id = s'.stId
  · subst hid
    rw [status_find (find_updated hf hk),status_find hf,hst]
  · rw [Kernel.status,Kernel.status,find_others hk hid]

theorem status_userStore {u : CInt} {va : Word} {b : Byte} (h : userStore boot k u va b = .ok k') :
    k'.status = k.status := by
  obtain ⟨-,hk | ⟨s,t,hf,hk⟩⟩ := userStore_sthreads h
  · exact status_congr hk
  · have hid := (Kernel.find_mem hf).2
    have hf' : k.find ({s with table := t} : Sthread).stId = some s := by
      rw [← hid] at hf
      exact hf
    exact status_update hf' rfl hk

/-- The checks of a system call leave every state as it is, and so does storing a
policy or registers into the record afterwards. -/
theorem status_check {c : CInt} {tf : TrapFrame} {k₀ : Kernel} {x : Option TrapFrame}
    (hf : k.find c = some s) (hcheck : syscallCheck boot k₀ s tf = .ok (s',x)) (sc : Sc)
    (tf' : TrapFrame) : (k.update {s' with stSc := sc,stTf := tf'}).status = k.status := by
  have hid : s'.stId = c := (syscallCheck_evolves hcheck).id.trans (Kernel.find_mem hf).2
  rw [← hid] at hf
  set t : Sthread := {s' with stSc := sc,stTf := tf'}
  have hf' : k.find t.stId = some s := hf
  exact status_update hf' (syscallCheck_table hcheck).2 rfl

theorem status_exit {c : CInt} {tf : TrapFrame} {k₀ : Kernel} {x : Option TrapFrame} {ret : Word}
    (hf : k.find c = some s) (hcheck : syscallCheck boot k₀ s tf = .ok (s',x)) (id : CInt) :
    (exitKernel boot k s' ret).status id = if id = c then some .zombie else k.status id := by
  have hid : s'.stId = c := (syscallCheck_evolves hcheck).id.trans (Kernel.find_mem hf).2
  rw [← hid] at hf
  rw [← hid]
  set t : Sthread := {(recycle boot {s' with stRet := ret} k.mem).1 with stState := .zombie}
  have ht : t.stId = s'.stId := rfl
  have hk : (exitKernel boot k s' ret).sthreads = (k.update t).sthreads := rfl
  rw [← ht] at hf ⊢
  split_ifs with heq
  · rw [heq]
    exact status_find (find_updated hf hk)
  · rw [Kernel.status,Kernel.status,find_others hk heq]

end Statuses

/-- Control is inside the master's call `c`: back in its loop, or in user code below
whose jump only system calls wait. -/
def Awaits (c : Caller) (m : Machine) : Prop :=
  match m.mode with
  | .master => False
  | .joining st => c = .join st ∧ m.frames = []
  | .user _ => ∃ fs t, m.frames = fs ++ [⟨t,c⟩] ∧ ∀ f ∈ fs, ∃ v, f.caller = .trap v

section Control
variable {boot : Boot} {m m' : Machine} {c : Caller} {u : CInt} {k : Kernel}

theorem awaits_user (hm : m.mode = .user u) :
    Awaits c m ↔ ∃ fs t, m.frames = fs ++ [⟨t,c⟩] ∧ ∀ f ∈ fs, ∃ v, f.caller = .trap v := by
  rw [Awaits,hm]

theorem awaits_joining {st : CInt} (hm : m.mode = .joining st) :
    Awaits c m ↔ c = .join st ∧ m.frames = [] := by
  rw [Awaits,hm]

theorem Awaits.ne_master (h : Awaits c m) : m.mode ≠ .master := by
  intro hm
  rw [Awaits,hm] at h
  exact h

theorem Awaits.kept (h : Awaits c m) (hm : m'.mode = m.mode) (hf : m'.frames = m.frames) :
    Awaits c m' := by
  rw [Awaits,hm,hf]
  exact h

/-- Leaving user mode leads to whoever waits below, in the end to the master's call. -/
theorem awaits_unwind (hm : m.mode = .user u) (h : Awaits c m) (hc : ∀ v, c ≠ .trap v)
    (hunw : unwind boot {m with kernel := k} = .ok m') :
    (m'.mode = .master ∧ m'.frames = [] ∧ c = .create) ∨ Awaits c m' := by
  obtain ⟨fs,t,hframes,htraps⟩ := (awaits_user hm).mp h
  obtain ⟨f,rest,hf,rfl⟩ := unwind_ok hunw
  have hsplit : f::rest = fs ++ [⟨t,c⟩] := hf.symm.trans hframes
  -- the innermost jump is the call's own, or one that a system call above it made
  cases fs with
  | nil =>
    obtain ⟨rfl,rfl⟩ := List.cons.inj hsplit
    cases c with
    | create => exact .inl ⟨rfl,rfl,rfl⟩
    | join st => exact .inr ⟨rfl,rfl⟩
    | trap v => exact absurd rfl (hc v)
  | cons g fs =>
    obtain ⟨rfl,rfl⟩ := List.cons.inj hsplit
    obtain ⟨v,hv⟩ := htraps f List.mem_cons_self
    have hmode : f.caller.resume = .user v := by rw [hv]; rfl
    refine .inr ((awaits_user hmode).mpr ⟨fs,t,rfl,fun g hg => ?_⟩)
    exact htraps g (List.mem_cons_of_mem f hg)

/-- The master goes on when the thread it created leaves, or when a round of its join
finds the thread exited. -/
theorem awaits_step {l : Label} (h : Awaits c m) (hc : ∀ v, c ≠ .trap v)
    (hs : step boot m l = .ok m') :
    (m'.mode = .master ∧ m'.frames = [] ∧ (c = .create ∨ ∃ st r, c = .join st ∧
      m.mode = .joining st ∧ l = .poll r ∧ m.kernel.status st = some .zombie)) ∨ Awaits c m' := by
  have hmaster := h.ne_master
  cases stepped_of_step hs with
  | remap | user | store | blocked | opened | openFailed | passed => exact .inr (h.kept rfl rfl)
  | tagNew hm | smalloc _ _ hm | scInit _ hm | scMemAdd hm | scFdAdd hm => exact absurd hm hmaster
  | scSysAdd hm | create hm | joinNone hm | joinSome hm => exact absurd hm hmaster
  | @collect st s r hm hf hz =>
    obtain ⟨rfl,hframes⟩ := (awaits_joining hm).mp h
    have hstatus : m.kernel.status st = some .zombie := by rw [status_find hf,hz]
    exact .inl ⟨rfl,hframes,.inr ⟨st,r,rfl,hm,rfl,hstatus⟩⟩
  | wait hm _ _ hsched =>
    obtain ⟨rfl,hframes⟩ := (awaits_joining hm).mp h
    rcases schedule_cases hsched with ⟨t,-,rfl⟩ | ⟨-,⟨v,hv⟩,-⟩
    · refine .inr ((awaits_user rfl).mpr ⟨[],t.stId,?_,by simp⟩)
      rw [hframes]
      rfl
    · cases hv
  | exited hm _ _ _ _ hunw =>
    exact (awaits_unwind hm h hc hunw).imp_left fun ⟨hm',hf',hcreate⟩ => ⟨hm',hf',.inl hcreate⟩
  | @read u _ _ _ _ _ _ _ hm _ _ _ _ hsched =>
    rcases schedule_cases hsched with ⟨t,-,rfl⟩ | ⟨-,-,hunw⟩
    · obtain ⟨fs,b,hframes,htraps⟩ := (awaits_user hm).mp h
      refine .inr ((awaits_user rfl).mpr ⟨⟨t.stId,.trap u⟩::fs,b,?_,?_⟩)
      · change _::m.frames = _
        rw [hframes]
        rfl
      · intro f hf
        rcases List.mem_cons.mp hf with rfl | hf
        · exact ⟨_,rfl⟩
        · exact htraps f hf
    · exact (awaits_unwind hm h hc hunw).imp_left fun ⟨hm',hf',hcreate⟩ => ⟨hm',hf',.inl hcreate⟩

end Control

/-- What holds in every state of every run, however jumps nest. -/
structure Tidy (m : Machine) : Prop where
  numbered : Numbered m.kernel
  idle : (∀ v, m.mode ≠ .user v) → m.kernel.ksCurrent = none
  current : ∀ c, m.kernel.ksCurrent = some c → m.kernel.status c = some .running
  control : (m.mode = .master ∧ m.frames = []) ∨ ∃ c, (∀ v, c ≠ .trap v) ∧ Awaits c m

section Steps
variable {boot : Boot} {m m' : Machine} {l : Label} {st : CInt}

theorem schedule_current {caller : Caller} {r : HostReply} (hn : Numbered m.kernel)
    (h : schedule boot m caller r = .ok m') :
    m'.kernel.status = m.kernel.status ∧
      ((∃ t, m'.mode = .user t ∧ m'.kernel.ksCurrent = some t ∧ m.kernel.status t = some .running) ∨
        m'.kernel.ksCurrent = none) := by
  rcases schedule_cases h with ⟨t,ht,rfl⟩ | ⟨-,-,hunw⟩
  · have hf := hn.find_of_mem (find_nextRunnable ht)
    set t' : Sthread := {t with stTf := {t.stTf with rax := r.ret}}
    have hf' : m.kernel.find t'.stId = some t := hf
    refine ⟨status_update hf' rfl rfl,.inl ⟨_,rfl,rfl,?_⟩⟩
    rw [status_find hf,(nextRunnable_running ht).1]
  · obtain ⟨f,fs,-,rfl⟩ := unwind_ok hunw
    exact ⟨status_congr rfl,.inr rfl⟩

theorem create_current {k : Kernel} {i : ℕ} {cb arg : Word} {r : CreateReply} {id : CInt}
    (hn : Numbered m.kernel)
    (h : sthreadCreate boot m.kernel (m.policies i) cb arg r = .ok (id,k)) :
    k.ksCurrent = some id ∧ k.status id = some .running := by
  refine ⟨(own_create h).1,?_⟩
  rcases create_cases h with ⟨s,s',hs,rfl,-,hl,hk⟩ | ⟨s,s',rfl,-,hs,hl,hk⟩
  · have hf := hn.find_of_mem hs
    rw [← hl.id] at hf ⊢
    rw [status_find (find_updated hf hk),hl.running]
  · set k₁ : Kernel := {m.kernel with sthreads := s::m.kernel.sthreads}
    have hf : k₁.find s'.stId = some s := by
      rw [hl.id,← hs]
      simp [Kernel.find,k₁]
    rw [← hl.id,status_find (find_updated hf hk),hl.running]

theorem Numbered.saved {k : Kernel} {c : CInt} {s s' : Sthread} {tf tf' : TrapFrame} {k₀ : Kernel}
    {x : Option TrapFrame} (hn : Numbered k) (hf : k.find c = some s)
    (hcheck : syscallCheck boot k₀ s tf = .ok (s',x)) :
    Numbered (k.update {s' with stTf := tf'}) := by
  have hev := (syscallCheck_evolves hcheck).trans (s'.evolves_with s'.stState s'.stRet tf' s'.stWalk)
  exact hn.evolves (Kernel.evolves_update (Kernel.find_mem hf).1 hev rfl)

/-- While the master waits, a record changes its state only when its thread exits. -/
theorem status_step (ht : Tidy m) (h : step boot m l = .ok m') (hm : m.mode ≠ .master)
    (hm' : m'.mode ≠ .master) (id : CInt) : m'.kernel.status id = m.kernel.status id ∨
      (m.kernel.status id = some .running ∧ m'.kernel.status id = some .zombie) := by
  cases stepped_of_step h with
  | remap | user => exact .inl rfl
  | tagNew hmaster | smalloc _ _ hmaster | scInit _ hmaster | scMemAdd hmaster | scFdAdd hmaster =>
    exact absurd hmaster hm
  | scSysAdd hmaster | create hmaster | joinNone hmaster | joinSome hmaster =>
    exact absurd hmaster hm
  | collect => exact absurd rfl hm'
  | wait _ _ _ hs => exact .inl (congrFun (schedule_current ht.numbered hs).1 id)
  | store _ hk => exact .inl (congrFun (status_userStore hk) id)
  | blocked _ _ _ hf hc | opened _ _ _ hf hc | openFailed _ _ _ hf hc | passed _ _ _ hf hc =>
    exact .inl (congrFun (status_check hf hc _ _) id)
  | @exited u c s s' tf tf' _ _ _ hcur hf hc _ hunw =>
    obtain ⟨f,fs,-,rfl⟩ := unwind_ok hunw
    have hexit : (exitKernel boot m.kernel s' tf'.arg0).status id = _ := status_exit hf hc id
    by_cases hid : id = c
    · rw [if_pos hid] at hexit
      exact .inr ⟨hid ▸ ht.current c hcur,hexit⟩
    · rw [if_neg hid] at hexit
      exact .inl hexit
  | @read u c s s' tf tf' _ _ _ _ hf hc _ hs =>
    have hsaved : (m.kernel.update {s' with stTf := tf'}).status = m.kernel.status :=
      status_check hf hc _ _
    exact .inl (congrFun ((schedule_current (ht.numbered.saved hf hc) hs).1.trans hsaved) id)

theorem Tidy.calm (ht : Tidy m) (hmode : m'.mode = m.mode)
    (hcur : m'.kernel.ksCurrent = m.kernel.ksCurrent) (hst : m'.kernel.status = m.kernel.status) :
    ((∀ v, m'.mode ≠ .user v) → m'.kernel.ksCurrent = none) ∧
      ∀ c, m'.kernel.ksCurrent = some c → m'.kernel.status c = some .running := by
  rw [hmode,hcur,hst]
  exact ⟨ht.idle,ht.current⟩

theorem nobody_current (hcur : m.kernel.ksCurrent = none) :
    ((∀ v, m.mode ≠ .user v) → m.kernel.ksCurrent = none) ∧
      ∀ c, m.kernel.ksCurrent = some c → m.kernel.status c = some .running := by
  refine ⟨fun _ => hcur,fun c hc => ?_⟩
  rw [hcur] at hc
  cases hc

theorem schedule_tidy {caller : Caller} {r : HostReply} (hn : Numbered m.kernel)
    (h : schedule boot m caller r = .ok m') :
    ((∀ v, m'.mode ≠ .user v) → m'.kernel.ksCurrent = none) ∧
      ∀ c, m'.kernel.ksCurrent = some c → m'.kernel.status c = some .running := by
  obtain ⟨hst,⟨t,hmode,hcur,hrun⟩ | hnone⟩ := schedule_current hn h
  · refine ⟨fun hidle => absurd hmode (hidle t),fun c hc => ?_⟩
    obtain rfl := Option.some.inj (hcur.symm.trans hc)
    rw [hst,hrun]
  · exact nobody_current hnone

theorem Tidy.step_current (ht : Tidy m) (h : step boot m l = .ok m') :
    ((∀ v, m'.mode ≠ .user v) → m'.kernel.ksCurrent = none) ∧
      ∀ c, m'.kernel.ksCurrent = some c → m'.kernel.status c = some .running := by
  cases stepped_of_step h with
  | remap | scInit | scMemAdd | scFdAdd | scSysAdd | joinNone | user => exact ht.calm rfl rfl rfl
  | tagNew _ hk =>
    obtain ⟨mem,-,hk⟩ := bind_ok.mp hk
    cases hk
    exact ht.calm rfl rfl rfl
  | smalloc tid sz _ =>
    rw [smalloc_eq]
    exact ht.calm rfl rfl rfl
  | create _ hk =>
    obtain ⟨hcur,hrun⟩ := create_current ht.numbered hk
    refine ⟨fun hidle => absurd rfl (hidle _),fun c hc => ?_⟩
    obtain rfl := Option.some.inj (hcur.symm.trans hc)
    exact hrun
  | joinSome hm => exact nobody_current (ht.idle (by simp [hm]))
  | collect r hm => exact nobody_current (ht.idle (by simp [hm]))
  | wait _ _ _ hs => exact schedule_tidy ht.numbered hs
  | store _ hk => exact ht.calm rfl (userStore_sthreads hk).1 (status_userStore hk)
  | blocked _ _ _ hf hc | opened _ _ _ hf hc | openFailed _ _ _ hf hc | passed _ _ _ hf hc =>
    exact ht.calm rfl rfl (status_check hf hc _ _)
  | exited _ _ _ _ _ hunw =>
    obtain ⟨f,fs,-,rfl⟩ := unwind_ok hunw
    exact nobody_current rfl
  | read _ _ hf hc _ hs => exact schedule_tidy (ht.numbered.saved hf hc) hs

theorem control_master (hm : m.mode = .master) (hf : m.frames = []) (h : step boot m l = .ok m') :
    (m'.mode = .master ∧ m'.frames = []) ∨ ∃ c, (∀ v, c ≠ .trap v) ∧ Awaits c m' := by
  cases stepped_of_step h with
  | remap | tagNew | smalloc | scInit | scMemAdd | scFdAdd | scSysAdd | joinNone =>
    exact .inl ⟨hm,hf⟩
  | @create _ _ _ _ id _ _ _ =>
    refine .inr ⟨.create,fun v => Caller.noConfusion,(awaits_user rfl).mpr ⟨[],id,?_,by simp⟩⟩
    rw [hf]
    rfl
  | joinSome => exact .inr ⟨.join _,fun v => Caller.noConfusion,rfl,hf⟩
  | collect _ hmode | wait hmode | user hmode | store hmode | blocked _ hmode | exited hmode =>
    cases hm.symm.trans hmode
  | read hmode | opened _ hmode | openFailed _ hmode | passed _ hmode =>
    cases hm.symm.trans hmode

theorem Tidy.step (ht : Tidy m) (h : step boot m l = .ok m') : Tidy m' := by
  obtain ⟨hidle,hcurrent⟩ := ht.step_current h
  refine ⟨ht.numbered.step h,hidle,hcurrent,?_⟩
  rcases ht.control with ⟨hm,hf⟩ | ⟨c,hc,hawaits⟩
  · exact control_master hm hf h
  · rcases awaits_step hawaits hc h with ⟨hm',hf',-⟩ | hawaits'
    · exact .inl ⟨hm',hf'⟩
    · exact .inr ⟨c,hc,hawaits'⟩

/-- One step of a join: it goes on, and the record changes at most by an exit; or the
round found the record exited and the join returns 0. -/
theorem join_step (ht : Tidy m) (hawaits : Awaits (.join st) m) (h : step boot m l = .ok m') :
    (Awaits (.join st) m' ∧ (m'.kernel.status st = m.kernel.status st ∨
      (m.kernel.status st = some .running ∧ m'.kernel.status st = some .zombie))) ∨
    (m'.mode = .master ∧ m.kernel.status st = some .zombie ∧ joinAnswer m l = some 0) := by
  rcases awaits_step hawaits (fun v => Caller.noConfusion) h with ⟨hm',-,hreturn⟩ | hawaits'
  · obtain hcreate | ⟨st',r,heq,hmode,rfl,hstatus⟩ := hreturn
    · cases hcreate
    · obtain rfl := Caller.join.inj heq
      exact .inr ⟨hm',hstatus,by simp [joinAnswer,hmode,hstatus]⟩
  · exact .inl ⟨hawaits',status_step ht h hawaits.ne_master hawaits'.ne_master st⟩

/-- A round of a join whose record is running or exited neither aborts nor gives up. -/
theorem round_answers (ht : Tidy m) (hm : m.mode = .joining st)
    (hst : m.kernel.status st = some .running ∨ m.kernel.status st = some .zombie) (r : HostReply) :
    ∃ m'', step boot m (.poll r) = .ok m'' ∧
      if m.kernel.status st = some .zombie then
        joinAnswer m (.poll r) = some 0 ∧ m''.mode = .master
      else joinAnswer m (.poll r) = none ∧ ∃ t, m''.mode = .user t := by
  have hanswer : joinAnswer m (.poll r) =
      if m.kernel.status st = some .zombie then some 0 else none := by simp only [joinAnswer,hm]
  rw [hanswer]
  cases hf : m.kernel.find st with
  | none => simp [Kernel.status,hf] at hst
  | some s =>
    rw [status_find hf,Option.some_inj,Option.some_inj] at hst
    have hdead : s.stState ≠ .dead := by
      rcases hst with h | h <;> rw [h] <;> decide
    -- outside user code nobody is current
    obtain ⟨m',hstep,hmode⟩ := round_isOk hm (ht.idle (by simp [hm])) hf hdead r
    refine ⟨m',hstep,?_⟩
    rw [status_find hf]
    rcases hst with hrun | hz
    · simpa [hrun] using hmode
    · simpa [hz] using hmode

/-- A round of a join whose record was joined before aborts when nobody else can run. -/
theorem round_aborts (hm : m.mode = .joining st) (hst : m.kernel.status st = some .dead)
    (hnone : nextRunnable m.kernel = none) (r : HostReply) :
    step boot m (.poll r) = .error .scheduleAbort := by
  cases hf : m.kernel.find st with
  | none => simp [Kernel.status,hf] at hst
  | some s =>
    rw [status_find hf] at hst
    simp only [step,hm,joinRound,hf,Option.some.inj hst,reduceCtorEq,if_false,schedule,hnone]

theorem during_absent {ls : List Label} (hm : m.mode = .master) (hst : m.kernel.status st = none)
    (hd : DuringJoin boot m st ls m') : m' = m := by
  obtain ⟨m₁,hstart,hruns⟩ := hd
  have hf : m.kernel.find st = none := by simpa [Kernel.status] using hst
  have hm₁ : m₁ = m := by
    simp only [step,hm,masterStep,hf] at hstart
    exact (Except.ok.inj hstart).symm
  subst hm₁
  induction hruns with
  | start => rfl
  | next _ hs ih =>
    rw [ih] at hs
    exact absurd hm hs.1

theorem join_begins (hm : m.mode = .master) (hst : m.kernel.status st ≠ none) :
    step boot m (.join st) = .ok {m with mode := .joining st} := by
  cases hf : m.kernel.find st with
  | none => simp [Kernel.status,hf] at hst
  | some s => simp only [step,hm,masterStep,hf]

/-- Where a join can be: it has returned, which it does not for a record that was
joined, or it goes on with the record as it was or exited meanwhile. -/
theorem during_join {ls : List Label} (ht : Tidy m) (hm : m.mode = .master)
    (hst : m.kernel.status st ≠ none) (hd : DuringJoin boot m st ls m') :
    Tidy m' ∧ ((m'.mode = .master ∧ m.kernel.status st ≠ some .dead) ∨
      (Awaits (.join st) m' ∧ (m'.kernel.status st = m.kernel.status st ∨
        (m.kernel.status st = some .running ∧ m'.kernel.status st = some .zombie)))) := by
  -- along the join the record changes at most once, when its thread exits
  obtain ⟨m₁,hstart,hruns⟩ := hd
  have hbegins : step boot m (.join st) = .ok {m with mode := .joining st} := join_begins hm hst
  obtain rfl := Except.ok.inj (hstart.symm.trans hbegins)
  have hframes : m.frames = [] := by
    rcases ht.control with ⟨-,hframes⟩ | ⟨c,-,hawaits⟩
    · exact hframes
    · exact absurd hm hawaits.ne_master
  refine hruns.invariant (I := fun a _ => Tidy a ∧ ((a.mode = .master ∧
    m.kernel.status st ≠ some .dead) ∨ (Awaits (.join st) a ∧
      (a.kernel.status st = m.kernel.status st ∨
        (m.kernel.status st = some .running ∧ a.kernel.status st = some .zombie)))))
    ⟨ht.step hstart,.inr ⟨⟨rfl,hframes⟩,.inl rfl⟩⟩ ?_
  rintro a ls l b ⟨hta,⟨hmaster,-⟩ | ⟨hawaits,hsa⟩⟩ ⟨hgoing,hstep⟩
  · exact absurd hmaster hgoing
  · refine ⟨hta.step hstep,?_⟩
    rcases join_step hta hawaits hstep with ⟨hawaits',hsb⟩ | ⟨hmaster,hz,-⟩
    · refine .inr ⟨hawaits',?_⟩
      rcases hsa with hsa | ⟨hrun,hsa⟩ <;> rw [hsa] at hsb
      · exact hsb
      · rcases hsb with hsb | ⟨hno,-⟩
        · exact .inr ⟨hrun,hsb⟩
        · cases hno
    · refine .inl ⟨hmaster,fun hdead => ?_⟩
      rcases hsa with hsa | ⟨hrun,-⟩
      · cases hz.symm.trans (hsa.trans hdead)
      · cases hrun.symm.trans hdead

end Steps

section Totality
variable {rt : Runtime} {segments : List Segment} {pgroot : LeafTable Word} {mem : Mem}
  {r : InitReply} {boot : Boot} {m₀ m m' : Machine} {st : CInt}

theorem tidy_init (h : sthreadInit rt segments pgroot mem r = .ok (boot,m)) : Tidy m := by
  obtain ⟨-,-,rfl⟩ := sthreadInit_ok h
  refine ⟨⟨List.nodup_nil,by simp,by simp⟩,fun _ => rfl,?_,.inl ⟨rfl,rfl⟩⟩
  intro c hc
  cases hc

theorem joinTotal_of_tidy (ht : Tidy m) (hm : m.mode = .master)
    (halive : m.kernel.status st ≠ some .dead) : JoinTotal boot m st := by
  have hgoing {ls : List Label} {m' : Machine} (hd : DuringJoin boot m st ls m')
      (hm' : m'.mode ≠ .master) : Tidy m' ∧ Awaits (.join st) m' ∧
      (m'.kernel.status st = some .running ∨ m'.kernel.status st = some .zombie) := by
    cases hst : m.kernel.status st with
    | none =>
      rw [during_absent hm hst hd] at hm'
      exact absurd hm hm'
    | some x =>
      obtain ⟨ht',⟨hmaster,-⟩ | ⟨hawaits,hs⟩⟩ := during_join ht hm (by simp [hst]) hd
      · exact absurd hmaster hm'
      · refine ⟨ht',hawaits,?_⟩
        rcases hs with hs | ⟨-,hs⟩
        · rw [hs,hst]
          cases x with
          | running => exact .inl rfl
          | zombie => exact .inr rfl
          | dead => exact absurd hst halive
        · exact .inr hs
  refine ⟨fun hst => ?_,fun ls m' reply hd hm' => ?_,?_,?_⟩
  · have hnone := hst.resolve_right halive
    have hf : m.kernel.find st = none := by simpa [Kernel.status] using hnone
    simp [joinAnswer,hm,hnone,step,masterStep,hf]
  · obtain ⟨ht',-,hst⟩ := hgoing hd (by simp [hm'])
    exact round_answers ht' hm' hst reply
  · intro ls m' l m'' hd hz hm' hstep hm''
    obtain ⟨ht',hawaits,-⟩ := hgoing hd hm'
    rcases join_step ht' hawaits hstep with ⟨-,hs | ⟨hrun,-⟩⟩ | ⟨hmaster,-⟩
    · exact hs.trans hz
    · cases hz.symm.trans hrun
    · exact absurd hmaster hm''
  · intro ls m' l m'' hd hm' hstep hm''
    obtain ⟨ht',hawaits,-⟩ := hgoing hd hm'
    rcases join_step ht' hawaits hstep with ⟨hawaits'',-⟩ | ⟨-,hz,hanswer⟩
    · exact absurd hm'' hawaits''.ne_master
    · exact ⟨hanswer,hz⟩

theorem JoinTotal.ne_dead (h : JoinTotal boot m st) (hm : m.mode = .master) :
    m.kernel.status st ≠ some .dead := by
  intro hdead
  have hanswer := (h.refused (.inr hdead)).1
  simp [joinAnswer,hm,hdead] at hanswer

/-- In every state of every run, a join answers exactly if the handle was not joined
before; a second join never returns. Stores do not reach the records on this machine, so
of the program this is said where every step `sparesKernel`. -/
theorem join_total_iff {ls : List Label} (hinit : sthreadInit rt segments pgroot mem r = .ok (boot,m₀))
    (hruns : Runs (fun a l b => step boot a l = .ok b) m₀ ls m) (hm : m.mode = .master) (st : CInt) :
    (JoinTotal boot m st ↔ m.kernel.status st ≠ some .dead) ∧
      (m.kernel.status st = some .dead → ∀ ls' m', DuringJoin boot m st ls' m' →
        m'.mode ≠ .master ∧ ∀ reply, joinAnswer m' (.poll reply) = none) := by
  have ht : Tidy m := by
    refine hruns.invariant (I := fun a _ => Tidy a) (tidy_init hinit) ?_
    intro a ls l b ha hstep
    exact ha.step hstep
  refine ⟨⟨fun htotal => htotal.ne_dead hm,joinTotal_of_tidy ht hm⟩,fun hdead ls' m' hd => ?_⟩
  obtain ⟨-,⟨-,halive⟩ | ⟨hawaits,hs⟩⟩ := during_join ht hm (by simp [hdead]) hd
  · exact absurd hdead halive
  · refine ⟨hawaits.ne_master,fun reply => ?_⟩
    have hdead' : m'.kernel.status st = some .dead := by
      rcases hs with hs | ⟨hrun,-⟩
      · exact hs.trans hdead
      · cases hrun.symm.trans hdead
    cases hmode : m'.mode with
    | joining st' =>
      obtain ⟨heq,-⟩ := (awaits_joining hmode).mp hawaits
      obtain rfl := Caller.join.inj heq
      simp [joinAnswer,hmode,hdead']
    | master => exact absurd hmode hawaits.ne_master
    | user u => simp [joinAnswer,hmode]

end Totality

section TwoJoins

def oneReader : List Label := [
  .syscall readFour {},
  .create 0 0 0 ⟨0x22000000,0x23000000,0x2000000⟩,
  .scFdAdd 0 3 PROT_READ]

def oneJoined : List Label := [
  .poll {},
  .join 1,
  .syscall exitCall {},
  .create 0 0 0 ⟨0x22000000,0x23000000,0x2000000⟩]

theorem join_total_iff_oneReader : ∃ boot m₀ m,
    sthreadInit flatRuntime oneSegment onePage (fun _ => 0) flatInit = .ok (boot,m₀) ∧
    Runs (fun a l b => step boot a l = .ok b) m₀ oneReader m ∧ m.mode = .master ∧
    m.kernel.status 1 = some .running ∧ JoinTotal boot m 1 := by
  obtain ⟨boot,m₀,m,hinit,hruns,hp⟩ := exists_of_play flatRuntime oneSegment onePage
    (fun _ => 0) flatInit (fun _ _ _ => true) oneReader
    (fun m => m.mode == .master && m.kernel.status 1 == some .running) (by decide +kernel)
  simp only [Bool.and_eq_true,beq_iff_eq] at hp
  have hruns' : Runs (fun a l b => step boot a l = .ok b) m₀ oneReader m :=
    hruns.mono fun a l b h => h.2
  refine ⟨boot,m₀,m,hinit,hruns',hp.1,hp.2,(join_total_iff hinit hruns' hp.1 1).1.mpr ?_⟩
  rw [hp.2]
  decide

/-- Joining the only thread a second time aborts the process. -/
theorem second_join_aborts : ∃ boot m₀ m m₁,
    sthreadInit flatRuntime oneSegment onePage (fun _ => 0) flatInit = .ok (boot,m₀) ∧
    Runs (fun a l b => step boot a l = .ok b) m₀ oneJoined m ∧ m.mode = .master ∧
    m.kernel.status 1 = some .dead ∧ step boot m (.join 1) = .ok m₁ ∧
    step boot m₁ (.poll {}) = .error .scheduleAbort ∧ ¬JoinTotal boot m 1 := by
  obtain ⟨boot,m₀,m,hinit,hruns,hp⟩ := exists_of_play flatRuntime oneSegment onePage
    (fun _ => 0) flatInit (fun _ _ _ => true) oneJoined
    (fun m => m.mode == .master && m.kernel.status 1 == some .dead &&
      (nextRunnable m.kernel).isNone) (by decide +kernel)
  simp only [Bool.and_eq_true,beq_iff_eq,Option.isNone_iff_eq_none] at hp
  obtain ⟨⟨hm,hdead⟩,hnone⟩ := hp
  refine ⟨boot,m₀,m,{m with mode := .joining 1},hinit,hruns.mono fun a l b h => h.2,hm,hdead,?_,?_,?_⟩
  · exact join_begins hm (by rw [hdead]; exact Option.some_ne_none _)
  · exact round_aborts (m := {m with mode := .joining 1}) rfl hdead hnone {}
  · exact fun h => h.ne_dead hm hdead

end TwoJoins

end Sthreads
end VmplApps

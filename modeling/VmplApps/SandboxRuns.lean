import VmplApps.SandboxHandler

/-! What holds of every run of the sandbox, for any number of application threads, any
frames, any contents of their memory and any answers of the host. No call reaches the
host past the two checks; and the sandbox refines its memory manager, so that what was
shown of the manager holds of the frames that applications get back. -/
namespace VmplApps
namespace Sandbox

open AppRegion ByteMemory SyscallParams Shared

section Admission
variable {monitor : Option Monitor} {mmapBase : Word} {trap : Trap}

/-- The parameter check either returns `-1` or lets the frame through as it is. -/
theorem checkParams_cases {m : Mem} {tf tf' : TrapFrame} {ret : ℤ}
    (h : syscallCheckParams mmapBase m tf = some (ret,tf')) : ret = -1 ∨ (ret = 0 ∧ tf' = tf) := by
  unfold syscallCheckParams at h
  cases hd : dispatch mmapBase m tf with
  | assertFailed => simp [hd] at h
  | early rax =>
    rw [hd] at h
    exact .inl (Prod.mk.inj (Option.some.inj h)).1.symm
  | fallThrough v =>
    rw [hd] at h
    by_cases hv : finalErr mmapBase m v ≠ 0
    · simp only [if_pos hv,Option.some.injEq,Prod.mk.injEq] at h
      exact .inl h.1.symm
    · simp only [if_neg hv,Option.some.injEq,Prod.mk.injEq] at h
      exact .inr ⟨h.1.symm,h.2.symm⟩

theorem admitted_some {tf : TrapFrame} (h : admitted monitor mmapBase trap = some tf) :
    syscallCheckParams mmapBase trap.checked trap.frame = some (0,trap.frame) ∧
    (syscallAllow monitor trap.watched trap.frame).1 ≠ 0 ∧
    tf = (syscallAllow monitor trap.watched trap.frame).2 := by
  unfold admitted at h
  cases hc : syscallCheckParams mmapBase trap.checked trap.frame with
  | none => simp [hc] at h
  | some r =>
    obtain ⟨ret,tf'⟩ := r
    simp only [hc] at h
    split_ifs at h with hrefused
    obtain ⟨hret,hallow⟩ := not_or.mp hrefused
    obtain ⟨rfl,rfl⟩ := (checkParams_cases hc).resolve_left hret
    exact ⟨rfl,hallow,(Option.some.inj h).symm⟩

theorem handler_refused (h : admitted monitor mmapBase trap = none) :
    syscallHandler monitor mmapBase trap = .halt ∨
      ∃ tf, syscallHandler monitor mmapBase trap = pure tf := by
  unfold admitted at h
  unfold syscallHandler
  cases hc : syscallCheckParams mmapBase trap.checked trap.frame with
  | none => exact .inl rfl
  | some r =>
    obtain ⟨ret,tf'⟩ := r
    simp only [hc] at h
    right
    dsimp only
    by_cases hret : ret = -1
    · exact ⟨tf',if_pos hret⟩
    · rw [if_neg hret]
      by_cases hallow : (syscallAllow monitor trap.watched tf').1 = 0
      · exact ⟨_,if_pos hallow⟩
      · rw [if_neg (not_or.mpr ⟨hret,hallow⟩)] at h
        cases h

theorem handler_admitted {tf : TrapFrame} (h : admitted monitor mmapBase trap = some tf) :
    syscallHandler monitor mmapBase trap = syscallDoForeal mmapBase trap tf := by
  obtain ⟨hc,hallow,rfl⟩ := admitted_some h
  simp only [syscallHandler,hc]
  rw [if_neg (by decide),if_neg hallow]

end Admission

def emulated : Syscall → Bool
  | .archPrctl | .brk | .mmap | .mprotect | .munmap | .mremap | .shmat | .clone | .execve
  | .rtSigaction | .rtSigprocmask | .sigaltstack | .signalfd | .signalfd4 | .rtSigpending
  | .rtSigreturn | .rtSigsuspend | .rtSigqueueinfo | .rtSigtimedwait | .exitGroup | .exit => true
  | _ => false

def MayAsk (tf : TrapFrame) : HostCall → Prop
  | .memory _ => (memoryOp tf).isSome = true
  | .exec _ => Syscall.ofRax tf.rax = .execve
  | .getUserFs | .setUserFs _ => Syscall.ofRax tf.rax = .archPrctl ∨ Syscall.ofRax tf.rax = .clone
  | .store addr _ => Syscall.ofRax tf.rax = .archPrctl ∧ tf.arg0 = ARCH_GET_FS ∧ addr = tf.arg1
  | .pthreadCreate tf' => Syscall.ofRax tf.rax = .clone ∧ tf' = tf
  | .clone _ _ _ _ _ | .enter => Syscall.ofRax tf.rax = .clone
  | .retFromUser ret =>
    (Syscall.ofRax tf.rax = .exit ∨ Syscall.ofRax tf.rax = .exitGroup) ∧ ret = tf.arg0
  | .passthrough tf' => tf' = tf ∧ emulated (Syscall.ofRax tf.rax) = false

section Asks
variable {mmapBase : Word} {trap : Trap} {tf : TrapFrame}

theorem framed_asks {σ ε ε' C C' R R' α β : Type} {call : C → C'} {view : R' → R}
    {wrap : Except ε α → β} (p : Prog σ ε C R α) {P : C' → Prop} (h : ∀ c, P (call c)) :
    (p.framed call view wrap : Prog σ ε' C' R' β).Asks P := by
  refine Prog.asks_bind ((Prog.asks_embed call view p).mono ?_) fun _ => trivial
  rintro c ⟨c₀,rfl⟩
  exact h c₀

theorem duneClone_asks (h : Syscall.ofRax tf.rax = .clone) : (duneClone tf).Asks (MayAsk tf) := by
  refine Prog.asks_ite (Prog.asks_bind (Prog.asks_call ⟨h,rfl⟩) fun _ => trivial) ?_
  refine Prog.asks_bind (Prog.asks_call (.inr h)) fun fs => ?_
  refine Prog.asks_bind (Prog.asks_call h) fun r => ?_
  refine Prog.asks_ite trivial (Prog.asks_ite ?_ trivial)
  refine Prog.asks_bind (Prog.asks_call h) fun _ => ?_
  exact Prog.asks_bind (Prog.asks_call (.inr h)) fun _ => trivial

theorem archPrctl_asks (h : Syscall.ofRax tf.rax = .archPrctl) : (archPrctl tf).Asks (MayAsk tf) := by
  unfold archPrctl
  split_ifs with hget
  · refine Prog.asks_bind (Prog.asks_call (.inl h)) fun fs => ?_
    exact Prog.asks_bind (Prog.asks_call ⟨h,hget,rfl⟩) fun _ => trivial
  · exact Prog.asks_bind (Prog.asks_call (.inl h)) fun _ => trivial
  · trivial

theorem doForeal_asks (mmapBase : Word) (trap : Trap) (tf : TrapFrame) :
    (syscallDoForeal mmapBase trap tf).Asks (MayAsk tf) := by
  unfold syscallDoForeal
  cases hop : memoryOp tf with
  | some op => exact framed_asks _ fun c => by simp [MayAsk,hop]
  | none =>
    have hpass (h : emulated (Syscall.ofRax tf.rax) = false) : (do
        let r ← Prog.call (.passthrough tf)
        pure {tf with rax := r.ret} : Code TrapFrame).Asks (MayAsk tf) :=
      Prog.asks_bind (Prog.asks_call ⟨rfl,h⟩) fun _ => trivial
    cases hs : Syscall.ofRax tf.rax with
    | archPrctl => exact archPrctl_asks hs
    | clone => exact Prog.asks_bind (duneClone_asks hs) fun _ => trivial
    | execve => exact framed_asks _ fun c => hs
    | exit => exact Prog.asks_bind (Prog.asks_call ⟨.inl hs,rfl⟩) fun _ => trivial
    | exitGroup => exact Prog.asks_bind (Prog.asks_call ⟨.inr hs,rfl⟩) fun _ => trivial
    | brk | mmap | mprotect | munmap | mremap | shmat => simp [memoryOp,hs] at hop
    | rtSigaction | rtSigprocmask | sigaltstack | signalfd | signalfd4 | rtSigpending | rtSigreturn
    | rtSigsuspend | rtSigqueueinfo | rtSigtimedwait => trivial
    | _ => exact hpass (by rw [hs]; rfl)

end Asks

/-- The monitor leaves a frame that it lets through as it is. -/
def KeepsFrames (monitor : Option Monitor) : Prop :=
  ∀ m tf, (syscallAllow monitor m tf).1 ≠ 0 → (syscallAllow monitor m tf).2 = tf

/-- A host call on behalf of a trap: the trap passed both checks, the call is one its
number asks for, and the buffers of a call that is passed on lie in the application's
windows, unless they are too large or wrap around. -/
structure Mediated (monitor : Option Monitor) (mmapBase : Word) (trap : Trap) (c : HostCall) :
    Prop where
  checked : syscallCheckParams mmapBase trap.checked trap.frame = some (0,trap.frame)
  allowed : (syscallAllow monitor trap.watched trap.frame).1 ≠ 0
  kind : MayAsk trap.frame c
  buffers : ∀ tf, c = .passthrough tf → VectorFits tf → ∀ b ∈ callBuffers trap.checked tf,
    Plain mmapBase b → b.len = 0 ∨ InApp mmapBase b

section Schedules

def credible (_ : Traps Bool) :
    TrapAction Bool → Bool
  | .call _ (.memory c) r => decide (Umm.HostOk c r.toReply)
  | .call _ (.exec _) _ => false
  | _ => true

theorem answered_of_credible {x : Traps Bool}
    {l : TrapAction Bool} (h : credible x l = true) :
    l.Answered HostOk := by
  cases l with
  | call i c r =>
    cases c with
    | memory c =>
      have hr : Umm.HostOk c r.toReply := of_decide_eq_true h
      exact hr
    | exec c => cases h
    | _ => trivial
  | _ => trivial

/-- `mmap(0, 4096, 3, 0x22, -1, 0)` and `getpid()`. -/
def mapPage : Trap := {frame := {rax := 9, rsi := 4096, rdx := 3, r10 := 0x22, r8 := -1}}
def getPid : Trap := {frame := {rax := 39}}

def goOn (i : Bool) (v : Word := 0) : Move Bool Trap Reply := .next i {ret := v}

/-- One thread maps a page; another asks for its process id while the lock is held. -/
def mapAndAsk : List (Move Bool Trap Reply) :=
  [.start true mapPage,goOn true,.start false getPid,goOn true 0x5fffff000,goOn false 7,goOn true,
    goOn true,goOn false,goOn true,goOn true]

def startsLocked : TrapAction Bool → Bool
  | .start _ trap => (memoryCall (some nullMonitor) 0x400000000 trap).all Umm.Op.needLock
  | _ => true

theorem exists_mapAndAsk : ∃ ls x,
    Runs (Step (workload (some nullMonitor) 0x400000000)) ({state := {}} : Traps Bool) ls x ∧
    (∀ i trap op, .start i trap ∈ ls → memoryCall (some nullMonitor) 0x400000000 trap = some op →
      op.needLock = true) ∧
    (ended ls).length = 2 ∧ x.lock = none ∧ x.state.mmapLen = 4096 := by
  obtain ⟨ls,x,hrun,hend⟩ := exists_of_schedule
    (P := Step (workload (some nullMonitor) 0x400000000))
    (p := fun r => r.1.all startsLocked &&
      decide ((ended r.1).length = 2 ∧ r.2.lock = none ∧ r.2.state.mmapLen = 4096))
    (fun x l y hstep hl => hstep (answered_of_credible hl))
    (show (schedule (workload (some nullMonitor) 0x400000000) credible {state := {}}
      mapAndAsk.reverse).any _ = true by decide +kernel)
  obtain ⟨hstarts,hrest⟩ := Bool.and_eq_true_iff.mp hend
  refine ⟨ls,x,hrun,fun i trap op hmem hop => ?_,of_decide_eq_true hrest⟩
  have hall : (memoryCall (some nullMonitor) 0x400000000 trap).all Umm.Op.needLock = true :=
    List.all_eq_true.mp hstarts _ hmem
  rwa [hop] at hall

end Schedules

section Mediation
variable {monitor : Option Monitor} {mmapBase : Word}

theorem handler_mediated (hp : Placed mmapBase) (hmon : KeepsFrames monitor) (trap : Trap) :
    (syscallHandler monitor mmapBase trap).Asks (Mediated monitor mmapBase trap) := by
  cases hadm : admitted monitor mmapBase trap with
  | none =>
    rcases handler_refused hadm with h | ⟨tf,h⟩
    · rw [h]
      trivial
    · rw [h]
      trivial
  | some tf =>
    obtain ⟨hc,hallow,htf⟩ := admitted_some hadm
    rw [hmon _ _ hallow] at htf
    subst htf
    rw [handler_admitted hadm]
    refine (doForeal_asks mmapBase trap trap.frame).mono fun c hask => ⟨hc,hallow,hask,?_⟩
    rintro tf rfl hv b hb hplain
    obtain ⟨rfl,-⟩ := hask
    exact inApp_of_passed hp (passed_of_admits (admits_of_return hc) hv hb) hplain

/-- However many threads trap, in whatever order their handlers run and whatever they
do to their memory meanwhile: every call that the sandbox makes to the host is for a
trap that passed the parameter check and the monitor, and it is a call that the trap's
number asks for. -/
theorem sandbox_calls_mediated {T : Type} [DecidableEq T] (hp : Placed mmapBase)
    (hmon : KeepsFrames monitor) {s₀ : Umm.Counters}
    {ls : List (TrapAction T)}
    {x : Traps T}
    (h : Runs (Step (workload monitor mmapBase)) {state := s₀} ls x) :
    Permitted (Mediated monitor mmapBase) ls :=
  runs_permitted (w := workload monitor mmapBase) (handler_mediated hp hmon) h

theorem sandbox_calls_mediated_mapAndAsk : ∃ ls x,
    Runs (Step (workload (some nullMonitor) 0x400000000))
      ({state := {}} : Traps Bool) ls x ∧
    (ended ls).length = 2 ∧ Permitted (Mediated (some nullMonitor) 0x400000000) ls := by
  obtain ⟨ls,x,hrun,-,hlen,-⟩ := exists_mapAndAsk
  exact ⟨ls,x,hrun,hlen,sandbox_calls_mediated ⟨by decide,by decide⟩ (fun _ _ _ => rfl) hrun⟩

end Mediation

section Refinement
variable {monitor : Option Monitor} {mmapBase : Word}

theorem framed_stateless {σ ε ε' C C' R R' α β : Type} {call : C → C'} {view : R' → R}
    {wrap : Except ε α → β} {p : Prog σ ε C R α} (h : p.Stateless) :
    (p.framed call view wrap : Prog σ ε' C' R' β).Stateless :=
  Prog.stateless_bind (Prog.stateless_embed h) fun _ => trivial

theorem execExecev_stateless {σ : Type} (filename : ExecArguments.Text)
    (argv : List ExecArguments.Text) (envp : Word) (junk : ℕ → Option ExecArguments.Text) :
    (ExecFlow.execExecev filename argv envp junk : Prog σ Empty _ _ _).Stateless := by
  have hlaunch (v : ExecArguments.NewArgv) :
      (ExecFlow.launch v envp : Prog σ Empty _ _ _).Stateless := by
    refine Prog.stateless_bind (Prog.stateless_call _) fun status => ?_
    refine Prog.stateless_ite trivial (Prog.stateless_ite ?_ ?_) <;>
      exact Prog.stateless_bind (Prog.stateless_call _) fun _ => trivial
  refine Prog.stateless_bind (Prog.stateless_call _) fun fd => Prog.stateless_ite trivial ?_
  refine Prog.stateless_bind (Prog.stateless_call _) fun len => Prog.stateless_ite trivial ?_
  refine Prog.stateless_bind (Prog.stateless_call _) fun _ => ?_
  simp only [ExecFlow.carryOut]
  split
  · trivial
  · trivial
  all_goals
    split
    · trivial
    · exact hlaunch _

theorem duneClone_stateless (tf : TrapFrame) : (duneClone tf).Stateless := by
  refine Prog.stateless_ite (Prog.stateless_bind (Prog.stateless_call _) fun _ => trivial) ?_
  refine Prog.stateless_bind (Prog.stateless_call _) fun fs => ?_
  refine Prog.stateless_bind (Prog.stateless_call _) fun r => ?_
  refine Prog.stateless_ite trivial (Prog.stateless_ite ?_ trivial)
  refine Prog.stateless_bind (Prog.stateless_call _) fun _ => ?_
  exact Prog.stateless_bind (Prog.stateless_call _) fun _ => trivial

theorem archPrctl_stateless (tf : TrapFrame) : (archPrctl tf).Stateless := by
  refine Prog.stateless_ite ?_ (Prog.stateless_ite ?_ trivial)
  · refine Prog.stateless_bind (Prog.stateless_call _) fun fs => ?_
    exact Prog.stateless_bind (Prog.stateless_call _) fun _ => trivial
  · exact Prog.stateless_bind (Prog.stateless_call _) fun _ => trivial

theorem doForeal_stateless {trap : Trap} {tf : TrapFrame} (h : memoryOp tf = none) :
    (syscallDoForeal mmapBase trap tf).Stateless := by
  simp only [syscallDoForeal,h]
  split
  · exact archPrctl_stateless tf
  · exact Prog.stateless_bind (duneClone_stateless tf) fun _ => trivial
  · exact framed_stateless (execExecev_stateless _ _ _ _)
  all_goals first
    | trivial
    | exact Prog.stateless_bind (Prog.stateless_call _) fun _ => trivial

theorem handler_memory {trap : Trap} {op : Umm.Op}
    (h : memoryCall monitor mmapBase trap = some op) :
    ∃ tf, admitted monitor mmapBase trap = some tf ∧
      syscallHandler monitor mmapBase trap = umm tf (op.code mmapBase) := by
  obtain ⟨tf,hadm,hop⟩ := Option.bind_eq_some_iff.mp h
  refine ⟨tf,hadm,?_⟩
  rw [handler_admitted hadm,syscallDoForeal,hop]

theorem handler_stateless {trap : Trap} (h : memoryCall monitor mmapBase trap = none) :
    (syscallHandler monitor mmapBase trap).Stateless := by
  cases hadm : admitted monitor mmapBase trap with
  | none =>
    rcases handler_refused hadm with hr | ⟨tf,hr⟩ <;> rw [hr] <;> trivial
  | some tf =>
    rw [handler_admitted hadm]
    refine doForeal_stateless ?_
    rwa [memoryCall,hadm,Option.bind_some] at h

def answer (monitor : Option Monitor) (mmapBase : Word) (trap : Trap) (r : Except Word Word) :
    TrapFrame :=
  {(admitted monitor mmapBase trap).getD trap.frame with rax := returned r}

def ummEmbedding (monitor : Option Monitor) (mmapBase : Word) :
    Embedding (workload monitor mmapBase) (Umm.workload mmapBase) where
  inner := memoryCall monitor mmapBase
  call := .memory
  view := Reply.toReply
  wrap := answer monitor mmapBase
  code := by
    intro trap op h
    obtain ⟨tf,hadm,hcode⟩ := handler_memory h
    change syscallHandler monitor mmapBase trap = _
    rw [hcode]
    unfold answer
    rw [hadm]
    rfl
  locked := by
    intro trap op h
    change (memoryCall monitor mmapBase trap).any Umm.Op.needLock = op.needLock
    rw [h]
    rfl
  plain := by
    intro trap h
    refine ⟨handler_stateless h,?_⟩
    change (memoryCall monitor mmapBase trap).any Umm.Op.needLock = false
    rw [h]
    rfl
  env := fun _ _ h => h
  store := rfl

/-- A finished trap and the call of the memory manager behind it: the same operation,
the same host calls, and its result in `rax`. -/
structure Answered (monitor : Option Monitor) (mmapBase : Word)
    (d : Handled) (c : Umm.Call) : Prop where
  op : memoryCall monitor mmapBase d.1 = some c.op
  host : List.Forall₂ (fun x y => x.1 = .memory y.1 ∧ y.2 = x.2.toReply) d.2.1 c.trace
  frame : ∃ r, c.deed = some (c.op,c.trace,r) ∧ d.2.2 = .ok (answer monitor mmapBase d.1 r)

def memoryTraps (monitor : Option Monitor) (mmapBase : Word)
    (ds : List Handled) :
    List Handled :=
  ds.filter fun d => (memoryCall monitor mmapBase d.1).isSome

theorem answered_of_echo {d : Handled}
    {d' : Umm.Op × List (Umm.HostCall × Umm.Reply) × Except Word Word} {c : Umm.Call}
    (h : (ummEmbedding monitor mmapBase).Echo d d') (hc : c.deed = some d') :
    Answered monitor mmapBase d c := by
  obtain ⟨hop,htrace,hvalue⟩ := h
  obtain ⟨op',t',o⟩ := c
  obtain ⟨op,t,r⟩ := d'
  cases o with
  | halted => cases hc
  | ok v s | err e s =>
    obtain ⟨rfl,rfl,rfl⟩ := hc
    exact ⟨hop,htrace,_,rfl,hvalue⟩

theorem answered_of_echoes {ds : List Handled}
    {ds' : List (Umm.Op × List (Umm.HostCall × Umm.Reply) × Except Word Word)}
    (h : List.Forall₂ (ummEmbedding monitor mmapBase).Echo ds ds') {calls : List Umm.Call}
    (hc : calls.map Umm.Call.deed = ds'.map some) :
    List.Forall₂ (Answered monitor mmapBase) ds calls := by
  induction h generalizing calls with
  | nil =>
    obtain rfl : calls = [] := by simpa using hc
    exact .nil
  | cons hecho _ ih =>
    cases calls with
    | nil => simp at hc
    | cons c calls =>
      rw [List.map_cons,List.map_cons,List.cons.injEq] at hc
      exact .cons (answered_of_echo hecho hc.1) (ih hc.2)

/-- Any number of application threads make any system calls, whatever else they do to
their memory. If the memory calls among them that get through are those `syscall_do`
locks, the frames they get back are those of a sequential run of the memory manager,
in the order in which the calls end, and the counters are those it leaves. -/
theorem sandbox_memory_serializable {T : Type} [DecidableEq T] {s₀ : Umm.Counters}
    {ls : List (TrapAction T)}
    {x : Traps T}
    (h : Runs (Step (workload monitor mmapBase)) {state := s₀} ls x)
    (hlocked : ∀ i trap op, .start i trap ∈ ls → memoryCall monitor mmapBase trap = some op →
      op.needLock = true) :
    ∃ calls s, Runs (Umm.Step mmapBase) s₀ calls s ∧
      List.Forall₂ (Answered monitor mmapBase) (memoryTraps monitor mmapBase (ended ls)) calls ∧
      (x.lock = none → x.state = s) := by
  obtain ⟨ls',y,hrun,hmirror,htracks⟩ := (ummEmbedding monitor mmapBase).runs_mirrored h
  have hstarts : ∀ i op, .start i op ∈ ls' → op.needLock = true := by
    intro i op hmem
    obtain ⟨trap,htrap,hin⟩ := htracks.started i op hmem
    exact hlocked i trap op htrap hin
  obtain ⟨s,hs⟩ := runs_serial (w := Umm.workload mmapBase) Umm.code_orderly Umm.writeBack_alone
    hrun hstarts
  obtain ⟨calls,hruns,hdeeds⟩ := Umm.runs_of_alone hs.runs
  refine ⟨calls,s,hruns,answered_of_echoes htracks.ended hdeeds,fun hfree => ?_⟩
  rw [hmirror.state]
  exact hs.idle (hmirror.lock ▸ hfree)

theorem sandbox_memory_serializable_mapAndAsk :
    ∃ (ls : List (TrapAction Bool)) (calls : List Umm.Call)
      (s : Umm.Counters), Runs (Umm.Step 0x400000000) {} calls s ∧ s.mmapLen = 4096 ∧
      List.Forall₂ (Answered (some nullMonitor) 0x400000000)
        (memoryTraps (some nullMonitor) 0x400000000 (ended ls)) calls := by
  obtain ⟨ls,x,hrun,hlocked,-,hlock,hlen⟩ := exists_mapAndAsk
  obtain ⟨calls,s,hruns,hans,hstate⟩ := sandbox_memory_serializable hrun hlocked
  exact ⟨ls,calls,s,hruns,hstate hlock ▸ hlen,hans⟩

end Refinement

end Sandbox
end VmplApps

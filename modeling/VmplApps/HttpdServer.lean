import VmplApps.SthreadDescriptors

/-! The web server in its protected mode: one thread of the kernel serves one connection
and is joined before the next is accepted. The worker is arbitrary code, except that
neither its stores nor those of the host fall on the kernel's data: the kernel reads
`_kstate` from the worker's own copy, so a worker that an attacker has taken over could
put another one in its place. Short of that the server never has more than one thread, a
worker only ever gets at its own connection and at files it has opened itself, and nothing
of that is left for the worker of the next connection. -/
namespace VmplApps
namespace Httpd

open Sthreads

/-- What `pwn` and `handle_dude` do next for connection `s`. In the last two phases the
thread `st` may be running, inside `sthread_create` or `sthread_join`. -/
inductive Phase
  | accept
  | init (s : CInt)
  | grant (s : CInt)
  | allowOpen (s : CInt)
  | allowClose (s : CInt)
  | create (s : CInt)
  | join (s st : CInt)
  | joining (s st : CInt)
  deriving DecidableEq, Repr

/-- The server, with the descriptors that the worker has opened since it was created. -/
structure Server where
  machine : Machine
  phase : Phase := .accept
  opened : Finset CInt := ∅

/-- `accept` returns, the server calls the kernel, or the kernel goes on by itself. -/
inductive Action
  | accept (s : CInt)
  | call (l : Label)
  | run (l : Label)

/-- The calls that `handle_dude` makes, in their order; `id` is the thread that a call of
`sthread_create` enters. -/
def Phase.after (id : CInt) : Phase → Label → Option Phase
  | .init s, .scInit 0 => some (.grant s)
  | .grant s, .scFdAdd 0 fd prot =>
    if fd = s ∧ prot = PROT_READ ||| PROT_WRITE then some (.allowOpen s) else none
  | .allowOpen s, .scSysAdd 0 n => if n = SYS_open then some (.allowClose s) else none
  | .allowClose s, .scSysAdd 0 n => if n = SYS_close then some (.create s) else none
  | .create s, .create 0 _ _ _ => some (.join s id)
  | .join s st, .join st' => if st' = st then some (.joining s st) else none
  | _, _ => none

/-- `sthread_join` has returned, and `pwn` closes the connection. -/
def Phase.rest (mode : Mode) : Phase → Phase
  | .joining s st => if mode = .master then .accept else .joining s st
  | p => p

def userOf : Mode → CInt
  | .user u => u
  | _ => 0

def track (e : Event) (o : Finset CInt) : Finset CInt :=
  match e with
  | .created _ _ => ∅
  | .opened _ fd => insert fd o
  | _ => o

def kernelStep (boot : Boot) (x : Server) (l : Label) : Except Fault Server := do
  let m ← Sthreads.step boot x.machine l
  .ok {x with machine := m,opened := (events boot x.machine l).foldr track x.opened}

def step (boot : Boot) (x : Server) : Action → Except Fault Server
  | .accept s =>
    if x.machine.mode = .master ∧ x.phase = .accept then .ok {x with phase := .init s}
    else .error .notEnabled
  | .call l =>
    if x.machine.mode = .master then do
      let y ← kernelStep boot x l
      match x.phase.after (userOf y.machine.mode) l with
      | some p => .ok {y with phase := p}
      | none => .error .notEnabled
    else .error .notEnabled
  | .run l =>
    match x.machine.mode,l with
    | .master,.remap _ => kernelStep boot x l
    | .master,_ => .error .notEnabled
    | _,_ => do
      let y ← kernelStep boot x l
      .ok {y with phase := y.phase.rest y.machine.mode}

def Step (boot : Boot) (x : Server) (a : Action) (y : Server) : Prop := step boot x a = .ok y

/-- What is stored leaves the kernel's data alone. -/
def Action.spares (boot : Boot) (x : Server) : Action → Bool
  | .accept _ => true
  | .call l | .run l => sparesKernel boot x.machine l

section Inversion
variable {boot : Boot} {x y : Server} {l : Label}

structure Moved (boot : Boot) (x : Server) (l : Label) (y : Server) : Prop where
  kernel : Sthreads.step boot x.machine l = .ok y.machine
  opened : y.opened = (events boot x.machine l).foldr track x.opened

theorem kernelStep_ok (h : kernelStep boot x l = .ok y) : Moved boot x l y ∧ y.phase = x.phase := by
  obtain ⟨m,hm,h⟩ := bind_ok.mp h
  cases h
  exact ⟨⟨hm,rfl⟩,rfl⟩

theorem step_accept {s : CInt} (h : Step boot x (.accept s) y) :
    x.machine.mode = .master ∧ x.phase = .accept ∧ y = {x with phase := .init s} := by
  simp only [Step,step] at h
  split_ifs at h with hc
  exact ⟨hc.1,hc.2,(Except.ok.inj h).symm⟩

theorem step_call (h : Step boot x (.call l) y) : x.machine.mode = .master ∧ Moved boot x l y ∧
    x.phase.after (userOf y.machine.mode) l = some y.phase := by
  simp only [Step,step] at h
  split_ifs at h with hm
  obtain ⟨z,hz,h⟩ := bind_ok.mp h
  obtain ⟨⟨hk,ho⟩,-⟩ := kernelStep_ok hz
  split at h
  · rename_i p hp
    cases h
    exact ⟨hm,⟨hk,ho⟩,hp⟩
  · cases h

theorem step_run (h : Step boot x (.run l) y) : Moved boot x l y ∧
    ((x.machine.mode = .master ∧ (∃ pg, l = .remap pg) ∧ y.phase = x.phase) ∨
      (x.machine.mode ≠ .master ∧ y.phase = x.phase.rest y.machine.mode)) := by
  simp only [Step,step] at h
  split at h
  · rename_i pg hm
    obtain ⟨hmoved,hp⟩ := kernelStep_ok h
    exact ⟨hmoved,.inl ⟨hm,⟨pg,rfl⟩,hp⟩⟩
  · cases h
  · rename_i hm _
    obtain ⟨z,hz,h⟩ := bind_ok.mp h
    obtain ⟨⟨hk,ho⟩,hp⟩ := kernelStep_ok hz
    cases h
    exact ⟨⟨hk,ho⟩,.inr ⟨hm,by rw [hp]⟩⟩

end Inversion

section Tracking
variable {boot : Boot} {m : Machine} {l : Label} {es : List Event} {o : Finset CInt}

theorem subset_track (h : ∀ e ∈ es, ∀ id i, e ≠ .created id i) : o ⊆ es.foldr track o := by
  induction es with
  | nil => exact Finset.Subset.refl o
  | cons e es ih =>
    have hrest := ih fun e' he' => h e' (List.mem_cons_of_mem _ he')
    have hhead := h e List.mem_cons_self
    cases e with
    | created id i => exact absurd rfl (hhead id i)
    | opened id fd => exact hrest.trans (Finset.subset_insert fd _)
    | _ => exact hrest

theorem mem_track (h : ∀ e ∈ es, ∀ id i, e ≠ .created id i) {u fd : CInt}
    (hfd : .opened u fd ∈ es) : fd ∈ es.foldr track o := by
  induction es with
  | nil => cases hfd
  | cons e es ih =>
    have hrest (hmem : .opened u fd ∈ es) : fd ∈ es.foldr track o :=
      ih (fun e' he' => h e' (List.mem_cons_of_mem _ he')) hmem
    have hhead := h e List.mem_cons_self
    cases e with
    | created id i => exact absurd rfl (hhead id i)
    | opened id fd' =>
      rcases List.mem_cons.mp hfd with heq | hmem
      · cases heq
        exact Finset.mem_insert_self fd _
      · exact Finset.mem_insert_of_mem (hrest hmem)
    | _ => exact hrest ((List.mem_cons.mp hfd).resolve_left (by simp))

theorem ne_created (hl : ∀ i cb arg r, l ≠ .create i cb arg r) :
    ∀ e ∈ events boot m l, ∀ id i, e ≠ .created id i := by
  rintro e he id i rfl
  cases occurs_of_mem he with
  | created => exact hl _ _ _ _ rfl

theorem opened_subset (hl : ∀ i cb arg r, l ≠ .create i cb arg r) :
    o ⊆ (events boot m l).foldr track o :=
  subset_track (ne_created hl)

end Tracking

def noTags : Vector Word 8 := Vector.replicate 8 0

def ReadFrame (g : Finset CInt) (tf : TrapFrame) : Prop :=
  tf.rax.setWidth 32 = SYS_read ∧ (tf.arg0.setWidth 32 : CInt) ∈ g

/-- The only record is that of thread `st`, with rights on descriptors of `g` alone. -/
structure Worker (k : Kernel) (st : CInt) (g : Finset CInt) (w : Sthread) : Prop where
  only : k.sthreads = [w]
  id : w.stId = st
  tags : w.stSc.scMem = noTags
  listed : Listed w.stSc.scFd g

/-- The worker runs, inside one jump of the master, and as itself. -/
structure Running (m : Machine) (st : CInt) (c : Caller) (w : Sthread) : Prop where
  mode : m.mode = .user st
  frames : m.frames = [⟨st,c⟩]
  current : m.kernel.ksCurrent = some st
  cr3 : m.kernel.cr3 = w.cr3
  state : w.stState = .running

/-- The master runs; the worker has left or waits for a read. -/
structure Waiting (m : Machine) (mode : Mode) (g : Finset CInt) (w : Sthread) : Prop where
  mode : m.mode = mode
  frames : m.frames = []
  current : m.kernel.ksCurrent = none
  state : w.stState = .zombie ∨ w.stState = .running ∧ ReadFrame g w.stTf

structure Idle (m : Machine) : Prop where
  mode : m.mode = .master
  frames : m.frames = []
  current : m.kernel.ksCurrent = none
  retired : m.kernel.sthreads = [] ∨
    ∃ w, m.kernel.sthreads = [w] ∧ w.stState = .dead ∧ w.stSc.scMem = noTags

/-- The worker of connection `s` in a call of the master that resumes as `c` does. -/
def Served (m : Machine) (s st : CInt) (o : Finset CInt) (c : Caller) : Prop :=
  ∃ w, Worker m.kernel st (insert s o) w ∧
    (Running m st c w ∨ Waiting m c.resume (insert s o) w)

def Serving (x : Server) : Prop :=
  match x.phase with
  | .accept | .init _ => Idle x.machine
  | .grant _ => Idle x.machine ∧ x.machine.policies 0 = scInit
  | .allowOpen s | .allowClose s | .create s => Idle x.machine ∧
      (x.machine.policies 0).scMem = noTags ∧ Listed (x.machine.policies 0).scFd {s}
  | .join s st => Served x.machine s st x.opened .create
  | .joining s st => Served x.machine s st x.opened (.join st)

section Creation
variable {boot : Boot} {k k' : Kernel} {sc : Sc} {cb arg : Word} {r : CreateReply} {id : CInt}

theorem listed_mono {v : Vector Word 8} {g g' : Finset CInt} (h : Listed v g) (hg : g ⊆ g') :
    Listed v g' := fun w hw h0 => hg (h w hw h0)

theorem launch_single {s t : Sthread} (hk : k.sthreads = [t]) (hid : t.stId = s.stId) :
    (launchSthread boot k s cb arg).sthreads = [{s with stState := .running}] := by
  simp [launchSthread,Kernel.update,hk,hid]

/-- A worker is made from the retired record if there is one, and afresh otherwise. -/
theorem create_single (hk : k.sthreads = [] ∨
      ∃ w, k.sthreads = [w] ∧ w.stState = .dead ∧ w.stSc.scMem = noTags)
    (hsc : sc.scMem = noTags) (h : sthreadCreate boot k sc cb arg r = .ok (id,k')) :
    ∃ w, k'.sthreads = [w] ∧ w.stId = id ∧ w.stSc = sc ∧ w.stState = .running ∧
      k'.ksCurrent = some id ∧ k'.cr3 = w.cr3 := by
  unfold sthreadCreate at h
  rcases hk with hnil | ⟨w,hw,hdead,htags⟩
  · have hnone : recyclable k sc = none := by simp [recyclable,hnil]
    rw [hnone] at h
    obtain ⟨⟨s,k₁⟩,hnew,h⟩ := bind_ok.mp h
    cases h
    obtain ⟨k₂,hk₂,-,rfl,rfl⟩ := createNewSthread_ok hnew
    have hnil₂ : k₂.sthreads = [] := by
      rw [kmalloc_eq hk₂]
      exact hnil
    refine ⟨_,launch_single (by simp only [hnil₂]) rfl,rfl,rfl,rfl,rfl,rfl⟩
  · have hsome : recyclable k sc = some w := by simp [recyclable,hw,hdead,htags,hsc]
    rw [hsome] at h
    cases h
    exact ⟨_,launch_single hw rfl,rfl,rfl,rfl,rfl,rfl⟩

end Creation

section Working
variable {boot : Boot} {k k' k₀ : Kernel} {m m' : Machine} {s st : CInt} {g o : Finset CInt} {c : Caller}
  {w w' : Sthread} {l : Label}

theorem Worker.find (h : Worker k st g w) : k.find st = some w := by
  simp [Kernel.find,h.only,h.id]

theorem Worker.update (h : Worker k st g w) (w' : Sthread)
    (hk : k'.sthreads = (k.update w').sthreads) (hid : w'.stId = w.stId)
    (htags : w'.stSc.scMem = w.stSc.scMem) {g' : Finset CInt}
    (hlisted : Listed w'.stSc.scFd g') : Worker k' st g' w' where
  only := by simp [hk,Kernel.update,h.only,hid]
  id := hid.trans h.id
  tags := htags.trans h.tags
  listed := hlisted

theorem Worker.mono (h : Worker k st g w) {g' : Finset CInt} (hg : g ⊆ g')
    (hk : k'.sthreads = k.sthreads) : Worker k' st g' w :=
  ⟨hk.trans h.only,h.id,h.tags,listed_mono h.listed hg⟩

theorem Worker.checked (h : Worker k st g w) {tf : TrapFrame}
    {passed : Option TrapFrame} (hcheck : syscallCheck boot k₀ w tf = .ok (w',passed))
    (hk : k'.sthreads = (k.update w').sthreads) {g' : Finset CInt} (hg : g ⊆ g') :
    Worker k' st g' w' := by
  have hsc := syscallCheck_sc hcheck
  refine h.update w' hk (syscallCheck_evolves hcheck).id (by rw [hsc]) ?_
  rw [hsc]
  exact listed_mono h.listed hg

theorem Worker.permitted (h : Worker k st g w) {tf tf' : TrapFrame}
    (hcheck : syscallCheck boot k₀ w tf = .ok (w',some tf')) {fd perm : CInt}
    (harg : fdArg (tf.rax.setWidth 32) tf = some (fd,perm)) : fd ∈ g := by
  obtain ⟨ok,hok,hcheck⟩ := bind_ok.mp hcheck
  cases ok with
  | false => cases hcheck
  | true =>
    simp only [Bool.not_true,Bool.false_eq_true,if_false,harg] at hcheck
    split_ifs at hcheck with hperm
    · exact h.listed.mem hperm
    · cases hcheck

/-- With one thread, a read of the current one finds nobody else. -/
theorem Worker.nextRunnable (h : Worker k st g w) (hcur : k.ksCurrent = some st) :
    nextRunnable k = none := by
  simp [Sthreads.nextRunnable,h.only,h.id,hcur]

theorem Running.unwind (hr : Running m st c w) {k₁ : Kernel}
    (h : Sthreads.unwind boot {m with kernel := k₁} = .ok m') (hw : Worker k₁ st g w')
    (hstate : w'.stState = .zombie ∨ w'.stState = .running ∧ ReadFrame g w'.stTf) :
    ∃ w, Worker m'.kernel st g w ∧ Waiting m' c.resume g w := by
  obtain ⟨f,fs,hframes,rfl⟩ := unwind_ok h
  obtain ⟨rfl,rfl⟩ := List.cons.inj (hr.frames.symm.trans hframes)
  exact ⟨w',hw.mono (Finset.Subset.refl g) rfl,rfl,rfl,rfl,hstate⟩

theorem Running.checked (hr : Running m st c w) {tf : TrapFrame}
    {passed : Option TrapFrame} (hcheck : syscallCheck boot k₀ w tf = .ok (w',passed))
    (hmode : m'.mode = m.mode) (hframes : m'.frames = m.frames)
    (hcur : m'.kernel.ksCurrent = m.kernel.ksCurrent) (hcr3 : m'.kernel.cr3 = m.kernel.cr3) :
    Running m' st c w' where
  mode := hmode.trans hr.mode
  frames := hframes.trans hr.frames
  current := hcur.trans hr.current
  cr3 := (hcr3.trans hr.cr3).trans (syscallCheck_evolves hcheck).cr3_eq.symm
  state := (syscallCheck_table hcheck).2.trans hr.state

theorem Worker.readFrame (h : Worker k st g w) {tf tf' : TrapFrame}
    (hcheck : syscallCheck boot k₀ w tf = .ok (w',some tf'))
    (hread : tf.rax.setWidth 32 = SYS_read) : ReadFrame g tf' := by
  have harg : tf'.arg0 = tf.arg0 := by
    cases checked_of_syscallCheck hcheck with
    | plain => rfl
    | walked => simp [setMemArg,hread,SYS_read,SYS_open,TrapFrame.arg0]
  refine ⟨by rw [syscallCheck_rax hcheck,hread],?_⟩
  rw [harg]
  exact h.permitted hcheck (by rw [hread]; rfl)

/-- Whatever the worker does, it stays the only thread, and its rights grow only by what
it opens. -/
theorem running_step (hw : Worker m.kernel st (insert s o) w) (hr : Running m st c w)
    (h : Sthreads.step boot m l = .ok m') :
    Served m' s st ((events boot m l).foldr track o) c := by
  have hcreate : ∀ i cb arg r, l ≠ .create i cb arg r := by
    rintro i cb arg r rfl
    simp only [Sthreads.step,hr.mode] at h
    cases h
  have hsub : insert s o ⊆ insert s ((events boot m l).foldr track o) :=
    Finset.insert_subset_insert s (opened_subset hcreate)
  -- a trap is that of the worker
  have hown {c' : CInt} {t : Sthread} (hc : m.kernel.ksCurrent = some c')
      (hf : m.kernel.find c' = some t) : st = c' ∧ w = t := by
    obtain rfl : st = c' := Option.some.inj (hr.current.symm.trans hc)
    exact ⟨rfl,Option.some.inj (hw.find.symm.trans hf)⟩
  have hsame {sc : Sc} (hsc : sc = w.stSc) :
      Listed sc.scFd (insert s ((events boot m l).foldr track o)) := by
    rw [hsc]
    exact listed_mono hw.listed hsub
  cases stepped_of_step h with
  | remap pg => exact ⟨w,hw.mono hsub rfl,.inl ⟨hr.mode,hr.frames,hr.current,hr.cr3,hr.state⟩⟩
  | tagNew hm | smalloc _ _ hm | scInit _ hm | scMemAdd hm | scFdAdd hm | scSysAdd hm | create hm
  | joinNone hm | joinSome hm | collect _ hm | wait hm =>
    rw [hr.mode] at hm
    cases hm
  | user hm => exact ⟨w,hw.mono hsub rfl,.inl hr⟩
  | store hm hstore =>
    obtain rfl : st = _ := Mode.user.inj (hr.mode.symm.trans hm)
    simp only [userStore,hw.find,hr.cr3,if_true] at hstore
    split at hstore
    · cases hstore
    · rename_i t mem hvia
      cases hstore
      exact ⟨{w with table := t},
        hw.update {w with table := t} (by rfl) rfl rfl (listed_mono hw.listed hsub),
        .inl ⟨hr.mode,hr.frames,hr.current,hr.cr3,hr.state⟩⟩
  | blocked r hm hc hf hcheck =>
    obtain ⟨rfl,rfl⟩ := hown hc hf
    exact ⟨_,hw.checked hcheck (by rfl) hsub,.inl (hr.checked hcheck rfl rfl rfl rfl)⟩
  | @exited u _ _ s' tf tf' _ _ hm hc hf hcheck h666 hunwind =>
    obtain ⟨rfl,rfl⟩ := hown hc hf
    have hsc := syscallCheck_sc hcheck
    have hzombie : Worker (exitKernel boot m.kernel s' tf'.arg0) st _ _ := hw.update
      {(recycle boot {s' with stRet := tf'.arg0} m.kernel.mem).1 with stState := .zombie} (by rfl)
      (syscallCheck_evolves hcheck).id (congrArg Sc.scMem hsc) (hsame hsc)
    obtain ⟨w',hw',hwait⟩ := hr.unwind hunwind hzombie (.inl rfl)
    exact ⟨w',hw',.inr hwait⟩
  | @read u _ _ s' tf tf' _ _ hm hc hf hcheck hread hsched =>
    obtain ⟨rfl,rfl⟩ := hown hc hf
    have hsc := syscallCheck_sc hcheck
    have hsaved : Worker (m.kernel.update {s' with stTf := tf'}) st _ _ :=
      hw.update {s' with stTf := tf'} rfl (syscallCheck_evolves hcheck).id (congrArg Sc.scMem hsc)
        (hsame hsc)
    rcases schedule_cases hsched with ⟨t,ht,-⟩ | ⟨-,-,hunwind⟩
    · rw [hsaved.nextRunnable hr.current] at ht
      cases ht
    · have hframe := (hw.readFrame hcheck hread)
      obtain ⟨w',hw',hwait⟩ := hr.unwind hunwind hsaved
        (.inr ⟨(syscallCheck_table hcheck).2.trans hr.state,hframe.1,hsub hframe.2⟩)
      exact ⟨w',hw',.inr hwait⟩
  | @opened u _ _ s' tf tf' sc r hm hc hf hcheck hopen hadd hrc =>
    have hfd : (r.ret.setWidth 32 : CInt) ∈ (events boot m (.syscall tf r)).foldr track o := by
      refine mem_track (u := u) (ne_created hcreate) ?_
      rw [events_syscall hm hc hf hcheck]
      simp only [Option.elim_some,callEvents,hopen]
      rw [if_neg (by decide),if_neg (by decide),if_pos trivial,if_pos hrc]
      exact List.mem_singleton.mpr rfl
    obtain ⟨rfl,rfl⟩ := hown hc hf
    have hsc := syscallCheck_sc hcheck
    have hlisted := Listed.add (congrArg Sc.scFd hsc ▸ hw.listed) hadd
    refine ⟨{s' with stSc := sc},hw.update {s' with stSc := sc} rfl (syscallCheck_evolves hcheck).id ?_
      (listed_mono hlisted ?_),.inl ⟨hr.mode,hr.frames,hr.current,?_,?_⟩⟩
    · exact (scFdAdd_scMem hadd).trans (congrArg Sc.scMem hsc)
    · exact Finset.insert_subset (Finset.mem_insert_of_mem hfd) hsub
    · exact hr.cr3.trans (syscallCheck_evolves hcheck).cr3_eq.symm
    · exact (syscallCheck_table hcheck).2.trans hr.state
  | openFailed r hm hc hf hcheck =>
    obtain ⟨rfl,rfl⟩ := hown hc hf
    exact ⟨_,hw.checked hcheck (by rfl) hsub,.inl (hr.checked hcheck rfl rfl rfl rfl)⟩
  | passed r hm hc hf hcheck =>
    obtain ⟨rfl,rfl⟩ := hown hc hf
    exact ⟨_,hw.checked hcheck (by rfl) hsub,.inl (hr.checked hcheck rfl rfl rfl rfl)⟩

theorem ReadFrame.mono {tf : TrapFrame} (h : ReadFrame g tf) {g' : Finset CInt} (hg : g ⊆ g') :
    ReadFrame g' tf := ⟨h.1,hg h.2⟩

theorem Waiting.mono {mode mode' : Mode} (h : Waiting m mode g w) {g' : Finset CInt} (hg : g ⊆ g')
    (hmode : m'.mode = mode') (hframes : m'.frames = m.frames)
    (hcur : m'.kernel.ksCurrent = m.kernel.ksCurrent) : Waiting m' mode' g' w where
  mode := hmode
  frames := hframes.trans h.frames
  current := hcur.trans h.current
  state := h.state.imp_right fun hs => ⟨hs.1,hs.2.mono hg⟩

theorem Waiting.nextRunnable {mode : Mode} (h : Waiting m mode g w) (hw : Worker m.kernel st g w)
    {t : Sthread} (ht : nextRunnable m.kernel = some t) : t = w ∧ ReadFrame g w.stTf := by
  obtain rfl : t = w := by
    have hmem := find_nextRunnable ht
    rw [hw.only] at hmem
    exact List.mem_singleton.mp hmem
  refine ⟨rfl,?_⟩
  have hrun := List.find?_some ht
  simp only [Bool.and_eq_true,beq_iff_eq] at hrun
  rcases h.state with hz | ⟨-,hread⟩
  · rw [hz] at hrun
    cases hrun.2
  · exact hread

theorem Waiting.exists_nextRunnable {mode : Mode} (h : Waiting m mode g w)
    (hw : Worker m.kernel st g w) (hz : w.stState ≠ .zombie) : Sthreads.nextRunnable m.kernel = some w := by
  have hrun := (h.state.resolve_left hz).1
  simp [Sthreads.nextRunnable,hw.only,h.current,hrun]

/-- A round of `sthread_join`: the worker is retired, or it runs again. -/
theorem joining_step (hw : Worker m.kernel st (insert s o) w)
    (hwait : Waiting m (.joining st) (insert s o) w) (h : Sthreads.step boot m l = .ok m') :
    Idle m' ∨ Served m' s st ((events boot m l).foldr track o) (.join st) := by
  have hcreate : ∀ i cb arg r, l ≠ .create i cb arg r := by
    rintro i cb arg r rfl
    simp only [Sthreads.step,hwait.mode] at h
    cases h
  have hsub : insert s o ⊆ insert s ((events boot m l).foldr track o) :=
    Finset.insert_subset_insert s (opened_subset hcreate)
  cases stepped_of_step h with
  | remap pg => exact .inr ⟨w,hw.mono hsub rfl,.inr (hwait.mono hsub hwait.mode rfl rfl)⟩
  | tagNew hm | smalloc _ _ hm | scInit _ hm | scMemAdd hm | scFdAdd hm | scSysAdd hm | create hm
  | joinNone hm | joinSome hm | user hm | store hm | blocked _ hm | exited hm | read hm | opened _ hm
  | openFailed _ hm | passed _ hm =>
    rw [hwait.mode] at hm
    cases hm
  | collect r hm hf hz =>
    obtain rfl : st = _ := Mode.joining.inj (hwait.mode.symm.trans hm)
    obtain rfl := Option.some.inj (hw.find.symm.trans hf)
    refine .inl ⟨rfl,hwait.frames,hwait.current,.inr ⟨{w with stState := .dead},?_,rfl,hw.tags⟩⟩
    simp [Kernel.update,hw.only]
  | @wait _ _ r _ hm hf hz hsched =>
    obtain rfl : st = _ := Mode.joining.inj (hwait.mode.symm.trans hm)
    obtain rfl := Option.some.inj (hw.find.symm.trans hf)
    rcases schedule_cases hsched with ⟨t,ht,rfl⟩ | ⟨-,⟨u,hu⟩,-⟩
    · obtain ⟨rfl,-⟩ := hwait.nextRunnable hw ht
      refine .inr ⟨_,hw.update {t with stTf := {t.stTf with rax := r.ret}} (by rfl) rfl rfl
        (listed_mono hw.listed hsub),.inl ⟨?_,?_,?_,rfl,(hwait.state.resolve_left hz).1⟩⟩
      · exact congrArg Mode.user hw.id
      · rw [hw.id,hwait.frames]
      · exact congrArg some hw.id
    · cases hu

end Working

section Phases
variable {boot : Boot} {x y : Server} {l : Label}

theorem scSysAdd_scMem {sc sc' : Sc} {sysno : CInt} (h : scSysAdd sc sysno = .ok sc') :
    sc'.scMem = sc.scMem := by
  unfold scSysAdd at h
  dsimp only at h
  split_ifs at h
  cases h
  rfl

theorem Idle.policy {m : Machine} (h : Idle m) (i : ℕ) (sc : Sc) : Idle (setPolicy m i sc) :=
  ⟨h.mode,h.frames,h.current,h.retired⟩

theorem idle_scSysAdd {m m' : Machine} {s n : CInt} (hidle : Idle m)
    (hmem : (m.policies 0).scMem = noTags) (hlisted : Listed (m.policies 0).scFd {s})
    (h : Sthreads.step boot m (.scSysAdd 0 n) = .ok m') :
    Idle m' ∧ (m'.policies 0).scMem = noTags ∧ Listed (m'.policies 0).scFd {s} := by
  cases stepped_of_step h with
  | scSysAdd _ hadd =>
    refine ⟨hidle.policy _ _,?_,?_⟩ <;> simp only [setPolicy,Function.update_self]
    · exact (scSysAdd_scMem hadd).trans hmem
    · rwa [scSysAdd_scFd hadd]

theorem Served.mode_ne {m : Machine} {s st : CInt} {o : Finset CInt}
    (h : Served m s st o (.join st)) : m.mode ≠ .master := by
  obtain ⟨w,-,hr | hwait⟩ := h
  · simp [hr.mode]
  · simp [hwait.mode,Caller.resume]

inductive Script (id : CInt) : Phase → Label → Phase → Prop
  | init (s) : Script id (.init s) (.scInit 0) (.grant s)
  | grant (s) : Script id (.grant s) (.scFdAdd 0 s (PROT_READ ||| PROT_WRITE)) (.allowOpen s)
  | allowOpen (s) : Script id (.allowOpen s) (.scSysAdd 0 SYS_open) (.allowClose s)
  | allowClose (s) : Script id (.allowClose s) (.scSysAdd 0 SYS_close) (.create s)
  | create (s cb arg r) : Script id (.create s) (.create 0 cb arg r) (.join s id)
  | join (s st) : Script id (.join s st) (.join st) (.joining s st)

theorem script_of_after {id : CInt} {p p' : Phase} (h : p.after id l = some p') :
    Script id p l p' := by
  unfold Phase.after at h
  split at h
  · cases h
    exact .init _
  · split_ifs at h with hc
    cases h
    obtain ⟨rfl,rfl⟩ := hc
    exact .grant _
  · split_ifs at h with hc
    cases h
    subst hc
    exact .allowOpen _
  · split_ifs at h with hc
    cases h
    subst hc
    exact .allowClose _
  · cases h
    exact .create _ _ _ _
  · split_ifs at h with hc
    cases h
    subst hc
    exact .join _ _
  · cases h

theorem serving_call (hx : Serving x) (h : Step boot x (.call l) y) : Serving y := by
  obtain ⟨hmode,⟨hk,ho⟩,hafter⟩ := step_call h
  obtain ⟨m,p,o⟩ := x
  obtain ⟨m',p',o'⟩ := y
  dsimp only at hmode hk ho hafter
  generalize hid : userOf m'.mode = id at hafter
  cases script_of_after hafter with
  | init s =>
    cases stepped_of_step hk with
    | scInit =>
      refine ⟨Idle.policy hx _ _,?_⟩
      simp only [setPolicy,Function.update_self]
  | grant s =>
    obtain ⟨hidle,hpolicy⟩ := hx
    cases stepped_of_step hk with
    | scFdAdd _ hadd =>
      refine ⟨hidle.policy _ _,?_,?_⟩ <;> simp only [setPolicy,Function.update_self]
      · exact (scFdAdd_scMem hadd).trans (congrArg Sc.scMem hpolicy)
      · exact Listed.add (g := ∅) (congrArg Sc.scFd hpolicy ▸ listed_scInit) hadd
  | allowOpen s =>
    obtain ⟨hidle,hmem,hlisted⟩ := hx
    exact idle_scSysAdd hidle hmem hlisted hk
  | allowClose s =>
    obtain ⟨hidle,hmem,hlisted⟩ := hx
    exact idle_scSysAdd hidle hmem hlisted hk
  | create s cb arg r =>
    obtain ⟨hidle,hmem,hlisted⟩ := hx
    cases stepped_of_step hk with
    | create _ hnew =>
      obtain rfl : _ = id := hid
      obtain ⟨w,honly,hid,hsc,hstate,hcur,hcr3⟩ := create_single hidle.retired hmem hnew
      refine ⟨w,⟨honly,hid,?_,?_⟩,.inl ⟨rfl,?_,hcur,hcr3,hstate⟩⟩
      · rw [hsc]
        exact hmem
      · rw [hsc]
        exact listed_mono hlisted (by simp)
      · have hframes : m.frames = [] := hidle.frames
        simp [hframes,userOf]
  | join s st =>
    obtain ⟨w,hw,hr | hwait⟩ := hx
    · rw [hr.mode] at hmode
      cases hmode
    · have hsub : insert s o ⊆ insert s o' := by
        rw [ho]
        exact Finset.insert_subset_insert s (opened_subset (by simp))
      cases stepped_of_step hk with
      | joinNone _ hf =>
        rw [hw.find] at hf
        cases hf
      | joinSome _ hf => exact ⟨w,hw.mono hsub rfl,.inr (hwait.mono hsub rfl rfl rfl)⟩

theorem serving_remap {m : Machine} {p : Phase} {o : Finset CInt} (pg : LeafTable Word)
    (hx : Serving ⟨m,p,o⟩) : Serving ⟨{m with kernel := {m.kernel with pgroot := pg}},p,o⟩ := by
  have hidle (h : Idle m) : Idle {m with kernel := {m.kernel with pgroot := pg}} :=
    ⟨h.mode,h.frames,h.current,h.retired⟩
  have hserved {s st : CInt} {c : Caller} (h : Served m s st o c) :
      Served {m with kernel := {m.kernel with pgroot := pg}} s st o c := by
    obtain ⟨w,hw,hr | hwait⟩ := h
    · exact ⟨w,hw.mono (Finset.Subset.refl _) rfl,.inl ⟨hr.mode,hr.frames,hr.current,hr.cr3,hr.state⟩⟩
    · exact ⟨w,hw.mono (Finset.Subset.refl _) rfl,
        .inr (hwait.mono (Finset.Subset.refl _) hwait.mode rfl rfl)⟩
  cases p with
  | accept | init => exact hidle hx
  | grant | allowOpen | allowClose | create => exact ⟨hidle hx.1,hx.2⟩
  | join | joining => exact hserved hx

theorem serving_run (hx : Serving x) (h : Step boot x (.run l) y) : Serving y := by
  obtain ⟨⟨hk,ho⟩,hcase⟩ := step_run h
  obtain ⟨m,p,o⟩ := x
  obtain ⟨m',p',o'⟩ := y
  dsimp only at hk ho hcase
  subst ho
  rcases hcase with ⟨-,⟨pg,rfl⟩,rfl⟩ | ⟨hmode,rfl⟩
  · cases hk
    exact serving_remap pg hx
  · cases p with
    | accept | init => exact absurd (Idle.mode hx) hmode
    | grant | allowOpen | allowClose | create => exact absurd (Idle.mode hx.1) hmode
    | join s st =>
      obtain ⟨w,hw,hr | hwait⟩ := hx
      · exact running_step hw hr hk
      · exact absurd hwait.mode hmode
    | joining s st =>
      have hnext : Idle m' ∨ Served m' s st ((events boot m l).foldr track o) (.join st) := by
        obtain ⟨w,hw,hr | hwait⟩ := hx
        · exact .inr (running_step hw hr hk)
        · exact joining_step hw hwait hk
      rcases hnext with hidle | hserved
      · rw [Phase.rest,if_pos hidle.mode]
        exact hidle
      · rw [Phase.rest,if_neg hserved.mode_ne]
        exact hserved

theorem serving_step {a : Action} (hx : Serving x) (h : Step boot x a y) : Serving y := by
  cases a with
  | accept s =>
    obtain ⟨-,hp,rfl⟩ := step_accept h
    obtain ⟨m,p,o⟩ := x
    obtain rfl : p = .accept := hp
    exact hx
  | call l => exact serving_call hx h
  | run l => exact serving_run hx h

end Phases

def Phase.socket : Phase → Option CInt
  | .accept => none
  | .init s | .grant s | .allowOpen s | .allowClose s | .create s | .join s _ | .joining s _ => some s

/-- The descriptor is that of the connection, or the worker has opened it since it was
created for this connection. -/
def Server.Granted (x : Server) (fd : CInt) : Prop :=
  x.phase.socket = some fd ∨ fd ∈ x.opened

structure Confined (boot : Boot) (x : Server) : Prop where
  single : x.machine.kernel.sthreads.length ≤ 1
  itself : ∀ u, x.machine.mode = .user u → Own x.machine.kernel u ∧ nested x.machine = false
  calls : ∀ u tf tf' fd perm, x.machine.mode = .user u →
    passes boot x.machine tf = some tf' → fdArg (tf.rax.setWidth 32) tf = some (fd,perm) →
    x.Granted fd
  reads : ∀ l id tf, .performed id tf ∈ events boot x.machine l →
    tf.rax.setWidth 32 = SYS_read ∧ x.Granted (tf.arg0.setWidth 32)
  joins : ∀ st r, x.machine.mode = .joining st → sparesKernel boot x.machine (.poll r) = true →
    ∃ m, Sthreads.step boot x.machine (.poll r) = .ok m

section Confinement
variable {boot : Boot} {x : Server}

theorem performed_runnable {m : Machine} {l : Label} {id : CInt} {tf : TrapFrame}
    (h : .performed id tf ∈ events boot m l) :
    ∃ t, nextRunnable m.kernel = some t ∧ t.stId = id ∧ t.stTf = tf := by
  cases occurs_of_mem h with
  | performed ht => exact ⟨_,ht,rfl,rfl⟩

theorem confined_idle (h : Idle x.machine) : Confined boot x where
  single := by
    rcases h.retired with hnil | ⟨w,hw,-⟩
    · simp [hnil]
    · simp [hw]
  itself := by
    intro u hu
    simp [h.mode] at hu
  calls := by
    intro u tf tf' fd perm hu
    simp [h.mode] at hu
  reads := by
    intro l id tf hmem
    obtain ⟨t,ht,-⟩ := performed_runnable hmem
    rcases h.retired with hnil | ⟨w,hw,hdead,-⟩
    · simp [nextRunnable,hnil] at ht
    · simp [nextRunnable,hw,hdead] at ht
  joins := by
    intro st r hst _
    simp [h.mode] at hst

theorem confined_served {s st : CInt} {c : Caller} (h : Served x.machine s st x.opened c)
    (hsocket : x.phase.socket = some s) (hc : c = .create ∨ c = .join st) : Confined boot x := by
  have hgranted {fd : CInt} (hfd : fd ∈ insert s x.opened) : x.Granted fd := by
    rcases Finset.mem_insert.mp hfd with rfl | hfd
    · exact .inl hsocket
    · exact .inr hfd
  obtain ⟨w,hw,hrun⟩ := h
  refine ⟨by simp [hw.only],?_,?_,?_,?_⟩
  · intro u hu
    rcases hrun with hr | hwait
    · obtain rfl : st = u := Mode.user.inj (hr.mode.symm.trans hu)
      refine ⟨⟨hr.current,w,hw.find,hr.cr3⟩,?_⟩
      rcases hc with rfl | rfl <;> simp [nested,hr.frames]
    · rw [hwait.mode] at hu
      rcases hc with rfl | rfl <;> cases hu
  · intro u tf tf' fd perm hu hpass harg
    rcases hrun with hr | hwait
    · simp only [passes,hr.current,Option.bind_some,hw.find] at hpass
      split at hpass
      · rename_i w' passed hcheck
        subst hpass
        exact hgranted (hw.permitted hcheck harg)
      · cases hpass
    · rw [hwait.mode] at hu
      rcases hc with rfl | rfl <;> cases hu
  · intro l id tf hmem
    obtain ⟨t,ht,-,rfl⟩ := performed_runnable hmem
    rcases hrun with hr | hwait
    · rw [hw.nextRunnable hr.current] at ht
      cases ht
    · obtain ⟨rfl,hread⟩ := hwait.nextRunnable hw ht
      exact ⟨hread.1,hgranted hread.2⟩
  · intro st' r hst _
    rcases hrun with hr | hwait
    · rw [hr.mode] at hst
      cases hst
    · rcases hc with rfl | rfl
      · rw [hwait.mode] at hst
        cases hst
      · obtain rfl : st = st' := Mode.joining.inj (hwait.mode.symm.trans hst)
        simp only [Sthreads.step,hst,joinRound,hw.find]
        by_cases hz : w.stState = .zombie
        · rw [if_pos hz]
          exact ⟨_,rfl⟩
        · simp only [if_neg hz,schedule,hwait.exists_nextRunnable hw hz]
          exact ⟨_,rfl⟩

theorem confined_of_serving (hx : Serving x) : Confined boot x := by
  obtain ⟨m,p,o⟩ := x
  cases p with
  | accept | init => exact confined_idle hx
  | grant | allowOpen | allowClose | create => exact confined_idle hx.1
  | join s st => exact confined_served hx rfl (.inl rfl)
  | joining s st => exact confined_served hx rfl (.inr rfl)

variable {rt : Runtime} {segments : List Segment} {pgroot : LeafTable Word} {mem : Mem}
  {r : InitReply} {m₀ : Machine}

/-- The server in its protected mode, for every sequence of connections and whatever the
workers do that leaves the kernel's data alone. There is never more than one thread, and a
worker that runs is the current thread with its own page table, inside a single jump of the
master. Every `read`, `write` and `close` that the kernel lets a worker make, and every
read that it performs for one later, is on the connection that is being served or on a
descriptor that this worker has opened for it. Waiting for a worker never aborts the
server. -/
theorem httpd_confined (hinit : sthreadInit rt segments pgroot mem r = .ok (boot,m₀))
    {as : List Action} (h : Runs (fun a l b => l.spares boot a = true ∧ Step boot a l b)
      {machine := m₀} as x) : Confined boot x := by
  have hstart : Serving {machine := m₀} := by
    obtain ⟨-,-,rfl⟩ := sthreadInit_ok hinit
    exact ⟨rfl,rfl,rfl,.inl rfl⟩
  have hserving := h.invariant (I := fun x _ => Serving x) hstart fun _ _ _ _ hx hstep =>
    serving_step hx hstep.2
  exact confined_of_serving hserving

/-- The server accepts connection 3. Its worker reads from it, which the server waits for
in `sthread_join`, and exits; then it accepts connection 4. -/
def twoConnections : List Action := [
  .call (.create 0 0 0 ⟨0,0,0⟩),.call (.scSysAdd 0 3),.call (.scSysAdd 0 2),
  .call (.scFdAdd 0 4 3),.call (.scInit 0),.accept 4,
  .run (.poll {}),.run (.syscall exitCall {}),.run (.poll {}),.call (.join 1),
  .run (.syscall readFour {}),.call (.create 0 0 0 ⟨0x22000000,0x23000000,0x2000000⟩),
  .call (.scSysAdd 0 3),.call (.scSysAdd 0 2),.call (.scFdAdd 0 3 3),.call (.scInit 0),.accept 3]

def serve (as : List Action) : Option Server :=
  match sthreadInit flatRuntime oneSegment onePage (fun _ => 0) flatInit with
  | .error _ => none
  | .ok b => follow (step b.1) (fun x a => a.spares b.1 x) {machine := b.2} as

/-- The second worker runs in the record of the first. -/
theorem httpd_confined_twoConnections : ∃ boot m₀ x,
    sthreadInit flatRuntime oneSegment onePage (fun _ => 0) flatInit = .ok (boot,m₀) ∧
    Runs (fun a l b => l.spares boot a = true ∧ Step boot a l b) {machine := m₀} twoConnections x ∧
    x.phase = .join 4 1 ∧ x.machine.mode = .user 1 ∧ Confined boot x := by
  have hserve : (serve twoConnections).any
      (fun x => x.phase == .join 4 1 && x.machine.mode == .user 1) = true := by decide +kernel
  unfold serve at hserve
  cases hinit : sthreadInit flatRuntime oneSegment onePage (fun _ => 0) flatInit with
  | error e =>
    simp only [hinit] at hserve
    cases hserve
  | ok b =>
    simp only [hinit] at hserve
    obtain ⟨x,hruns,hx⟩ := exists_of_follow hserve
    simp only [Bool.and_eq_true,beq_iff_eq] at hx
    exact ⟨b.1,b.2,x,rfl,hruns,hx.1,hx.2,httpd_confined hinit hruns⟩

end Confinement

end Httpd
end VmplApps

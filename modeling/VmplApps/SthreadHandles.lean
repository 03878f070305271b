import VmplApps.SthreadPolicies

/-! Handles. Beside the machine the master keeps a book: for every number that
`sthread_create` has returned and that has not been joined, the callback, its argument,
the policy, and the descriptors the thread has opened. As long as a thread reads only
while no other one waits for a read, the book tells the truth about the records. -/
namespace VmplApps
namespace Sthreads

abbrev Code := Word × Word

/-- What the master knows of a thread that it has not joined. -/
structure Handle where
  code : Code
  policy : Sc
  opened : List CInt
  deriving DecidableEq, Repr

/-- The policy that a thread should be under: what it was created with and every
descriptor it has opened, in that order. -/
def Handle.rights (h : Handle) : Except Fault Sc :=
  h.opened.foldrM (fun fd sc => scFdAdd sc fd (PROT_READ ||| PROT_WRITE)) h.policy

/-- The book, the callback that is being executed, and the callbacks that have trapped,
each with the frame saved for it. -/
structure Desk where
  book : CInt → Option Handle
  running : Option Code
  saved : CInt → Option (TrapFrame × Code)

/-- What a jump starts that loads frame `tf`: the trampoline calls the first argument on
the second. -/
def started (boot : Boot) (tf : TrapFrame) : Option Code :=
  if tf.rip = boot.trampoline then some (tf.rdi,tf.rsi) else none

/-- The jump loads a frame that was saved, with the result of a call. -/
def Reloads (saved tf : TrapFrame) : Prop := {saved with rax := tf.rax} = tf

instance (saved tf : TrapFrame) : Decidable (Reloads saved tf) := inferInstanceAs (Decidable (_ = _))

/-- What goes on when thread `id` is entered with frame `tf`. -/
def Desk.continued (d : Desk) (id : CInt) (tf : TrapFrame) : Option Code :=
  (d.saved id).bind fun x => if Reloads x.1 tf then some x.2 else none

def Label.code : Label → Code
  | .create _ cb arg _ => (cb,arg)
  | _ => (0,0)

/-- An event at the desk. `code` is what the master passes in this step, `tf` the frame
that the jump to user mode has loaded, if there was one. -/
def Desk.note (boot : Boot) (policies : ℕ → Sc) (code : Code) (tf : TrapFrame) (e : Event)
    (d : Desk) : Desk :=
  match e with
  | .created id i => {d with
      book := Function.update d.book id (some ⟨code,policies i,[]⟩)
      running := started boot tf}
  | .opened id fd =>
    let h := (d.book id).map fun h => {h with opened := fd::h.opened}
    {d with book := Function.update d.book id h}
  | .issued id frame =>
    {d with saved := Function.update d.saved id (d.running.map (frame,·)),running := none}
  | .resumed id => {d with running := d.continued id tf}
  | .exited _ _ => {d with running := none}
  | .joined id _ => {d with book := Function.update d.book id none}
  | _ => d

structure Registry where
  seen : Observed
  desk : Desk

def Registry.start (m : Machine) : Registry := ⟨⟨m,[]⟩,⟨fun _ => none,none,fun _ => none⟩⟩

def Registry.step (boot : Boot) (x : Registry) (l : Label) : Except Fault Registry := do
  let y ← x.seen.step boot l
  .ok ⟨y,(events boot x.seen.machine l).foldr
    (Desk.note boot x.seen.machine.policies l.code y.machine.kernel.entry) x.desk⟩

/-- Thread `id` has issued a read that has not been performed. -/
def waiting (id : CInt) (h : List Event) : Bool :=
  match lifeAlong id .absent h with
  | some (.blocked _) => true
  | _ => false

/-- A read is issued only while no other thread waits for one. -/
def alone (boot : Boot) (x : Observed) (l : Label) : Bool :=
  (events boot x.machine l).all fun e => match e with
    | .issued u _ => x.machine.kernel.sthreads.all fun s => s.stId == u || !waiting s.stId x.history
    | _ => true

def keepsKernelTag (boot : Boot) : Label → Bool
  | .scMemAdd _ tid _ => tid != boot.kernelTag
  | _ => true

/-- Handles that have not been joined name one thread each, which runs its callback
under its policy, and joining one of them gives what that callback has passed to 666. -/
structure HandlesSound (boot : Boot) (x : Registry) : Prop where
  distinct : (x.seen.machine.kernel.sthreads.map Sthread.stId).Nodup
  lawful : ∀ id, lifeAlong id .absent x.seen.history = some (lifeOf x.seen.machine id)
  outstanding : ∀ id, (x.desk.book id).isSome ↔
    lifeOf x.seen.machine id ≠ .absent ∧ lifeOf x.seen.machine id ≠ .joined
  reused : ∀ l id i, .created id i ∈ events boot x.seen.machine l → x.desk.book id = none ∧
    ∀ s, x.seen.machine.kernel.find id = some s → s.stState = .dead
  names : ∀ id h, x.desk.book id = some h → ∃ s,
    (x.seen.machine.kernel.sthreads.filter fun s => s.stId == id) = [s] ∧ h.rights = .ok s.stSc
  callback : ∀ u, x.seen.machine.mode = .user u → ∃ h, x.desk.book u = some h ∧
    x.desk.running = some h.code
  result : ∀ l st, (x.desk.book st).isSome → .unknown st ∉ events boot x.seen.machine l ∧
    ∀ v, .joined st v ∈ events boot x.seen.machine l →
      lifeAlong st .absent x.seen.history = some (.exited v)
  waits : ∀ st, x.seen.machine.mode = .master → (x.desk.book st).isSome →
    ∃ m, step boot x.seen.machine (.join st) = .ok m ∧ m.mode = .joining st
  joins : ∀ st r, x.seen.machine.mode = .joining st → (x.desk.book st).isSome →
    ∃ m, step boot x.seen.machine (.poll r) = .ok m ∧
      match lifeAlong st .absent x.seen.history with
      | some (.exited v) =>
        m.mode = .master ∧ events boot x.seen.machine (.poll r) = [.joined st v]
      | _ => ∃ t, m.mode = .user t

/-- No jump has been made by a system-call handler. -/
def Flat (m : Machine) : Prop := ∀ f ∈ m.frames, ∀ v, f.caller ≠ .trap v

section Flat
variable {boot : Boot} {m m' : Machine} {x : Observed} {l : Label} {u : CInt} {s s' : Sthread}

theorem Flat.nested (h : Flat m) : nested m = false := by
  unfold Sthreads.nested
  split
  · rename_i f v fs hframes
    exact absurd rfl (h _ (hframes ▸ List.mem_cons_self) v)
  · rfl

/-- A reader that is alone finds nobody to enter. -/
theorem alone_read {tf tf' : TrapFrame} {r : HostReply} (hx : Lawful x)
    (halone : alone boot x (.syscall tf r) = true) (hm : x.machine.mode = .user u)
    (hc : x.machine.kernel.ksCurrent = some u) (hf : x.machine.kernel.find u = some s)
    (hcheck : syscallCheck boot x.machine.kernel s tf = .ok (s',some tf'))
    (hread : tf.rax.setWidth 32 = SYS_read) : nextRunnable x.machine.kernel = none := by
  cases ht : nextRunnable x.machine.kernel with
  | none => rfl
  | some t =>
    have hissued : .issued u tf' ∈ events boot x.machine (.syscall tf r) := by
      rw [events_syscall hm hc hf hcheck,Option.elim_some,callEvents_read hread]
      exact List.mem_append_right _ (List.mem_singleton_self _)
    obtain ⟨hrun,hother⟩ := nextRunnable_running ht
    have hmem := find_nextRunnable ht
    have hne : t.stId ≠ u := fun h => hother (hc.trans (congrArg some h.symm))
    have hblocked : lifeOf x.machine t.stId = .blocked t.stTf := by
      refine lifeOf_waiting (hx.orderly.numbered.find_of_mem hmem) hrun ?_
      rw [hm]
      exact fun h => hne (Mode.user.inj h).symm
    have hnot := List.all_eq_true.mp (List.all_eq_true.mp halone _ hissued) t hmem
    simp [hne,waiting,hx.lives,hblocked] at hnot

theorem flat_unwind (hu : unwind boot m = .ok m') (h : Flat m) : Flat m' := by
  obtain ⟨f,fs,hframes,rfl⟩ := unwind_ok hu
  intro g hg
  exact h g (hframes ▸ List.mem_cons_of_mem f hg)

theorem Flat.cons {f : Frame} (h : Flat m) (hf : ∀ v, f.caller ≠ .trap v)
    (hframes : m'.frames = f::m.frames) : Flat m' := by
  intro g hg
  rw [hframes] at hg
  rcases List.mem_cons.mp hg with rfl | hg
  · exact hf
  · exact h g hg

theorem flat_step (hx : Lawful x) (hflat : Flat x.machine) (halone : alone boot x l = true)
    (h : step boot x.machine l = .ok m') : Flat m' := by
  cases stepped_of_step h with
  | create hm hk => exact hflat.cons (fun v => Caller.noConfusion) rfl
  | wait hm hf hz hsched =>
    rcases schedule_cases hsched with ⟨t,-,rfl⟩ | ⟨-,⟨v,hv⟩,-⟩
    · exact hflat.cons (fun v => Caller.noConfusion) rfl
    · cases hv
  | exited _ _ _ _ _ hunw => exact flat_unwind hunw hflat
  | read hm hc hf hcheck hread hsched =>
    obtain rfl := good_current hx.orderly.good hm hc
    have hnone := alone_read hx halone hm hc hf hcheck hread
    have hstack := ((good_user hm).mp hx.orderly.good).1
    rcases read_cases hc hf hstack hcheck hsched with ⟨hsome,-⟩ | ⟨-,hunw⟩
    · exact absurd hnone hsome
    · exact flat_unwind hunw hflat
  | _ => exact hflat

theorem launch_started {k : Kernel} {cb arg : Word} :
    started boot (launchSthread boot k s cb arg).entry = some (cb,arg) := if_pos rfl

theorem create_started {k k' : Kernel} {sc : Sc} {cb arg : Word} {r : CreateReply} {id : CInt}
    (h : sthreadCreate boot k sc cb arg r = .ok (id,k')) :
    started boot k'.entry = some (cb,arg) := by
  unfold sthreadCreate at h
  split at h
  · cases h
    exact launch_started
  · obtain ⟨⟨s,k₁⟩,-,h⟩ := bind_ok.mp h
    cases h
    exact launch_started

/-- The frame that the step's jump has loaded is the one that the event calls for. -/
def Event.Loads (boot : Boot) (code : Code) (tf : TrapFrame) : Event → Prop
  | .created _ _ => started boot tf = some code
  | .performed _ saved => Reloads saved tf
  | _ => True

/-- What happens in one step when readers are alone is about no thread, or about one:
the thread that runs, or one that the master deals with. -/
theorem events_alone (hx : Lawful x) (hflat : Flat x.machine) (halone : alone boot x l = true)
    (h : step boot x.machine l = .ok m') :
    (∀ e ∈ events boot x.machine l, e.thread = none) ∨
    ∃ u, (∀ e ∈ events boot x.machine l, e.thread = some u ∧
      e.Loads boot l.code m'.kernel.entry) ∧ ∀ v, x.machine.mode = .user v → v = u := by
  have honly {u : CInt} (hm : x.machine.mode = .user u) (v : CInt) (hv : x.machine.mode = .user v) :
      v = u := Mode.user.inj (hv.symm.trans hm)
  cases stepped_of_step h with
  | @create i cb arg r id k hm hk =>
    refine .inr ⟨id,?_,by simp [hm]⟩
    simpa [events,hk,Event.thread,Event.Loads,Label.code] using create_started hk
  | @joinNone st hm hf =>
    exact .inr ⟨st,by simp [events,hf,Event.thread,Event.Loads],by simp [hm]⟩
  | joinSome hm hf => exact .inl (by simp [events,hf])
  | @collect st s r hm hf hz =>
    exact .inr ⟨st,by simp [events,hm,hf,hz,Event.thread,Event.Loads],by simp [hm]⟩
  | @wait st s r _ hm hf hz hsched =>
    rcases schedule_cases hsched with ⟨t,ht,rfl⟩ | ⟨-,⟨v,hv⟩,-⟩
    · refine .inr ⟨t.stId,?_,by simp [hm]⟩
      simp [events,hm,hf,hz,ht,entered,Event.thread,Event.Loads,Reloads]
    · cases hv
  | blocked r hm hc hf hcheck => exact .inl (by simp [events_syscall hm hc hf hcheck])
  | @exited u c s s' tf tf' r _ hm hc hf hcheck h666 hunw =>
    have hevents := events_syscall hm hc hf hcheck r
    rw [Option.elim_some,callEvents_exit hflat.nested h666] at hevents
    exact .inr ⟨u,by simp [hevents,Event.thread,Event.Loads],honly hm⟩
  | @read u c s s' tf tf' r _ hm hc hf hcheck hread hsched =>
    obtain rfl := good_current hx.orderly.good hm hc
    have hevents := events_syscall hm hc hf hcheck r
    rw [Option.elim_some,callEvents_read hread,alone_read hx halone hm hc hf hcheck hread,
      returned_eq_nil hflat.nested] at hevents
    exact .inr ⟨u,by simp [hevents,Event.thread,Event.Loads],honly hm⟩
  | @opened u c s s' tf tf' sc r hm hc hf hcheck hopen hsc hrc =>
    have hevents := events_syscall hm hc hf hcheck r
    rw [Option.elim_some,callEvents_open hopen,if_pos hrc] at hevents
    exact .inr ⟨u,by simp [hevents,Event.thread,Event.Loads],honly hm⟩
  | openFailed r hm hc hf hcheck hopen hrc =>
    have hevents := events_syscall hm hc hf hcheck r
    rw [Option.elim_some,callEvents_open hopen,if_neg hrc] at hevents
    exact .inl (by simp [hevents])
  | @passed u c s s' tf tf' r hm hc hf hcheck hnum hopen =>
    have hevents := events_syscall hm hc hf hcheck r
    rw [Option.elim_some,callEvents_other hnum.1 hnum.2 hopen] at hevents
    refine .inr ⟨u,?_,honly hm⟩
    rw [hevents]
    split_ifs <;> simp [Event.thread,Event.Loads]
  | _ => exact .inl (by simp [events,Event.thread])

end Flat

/-- What the desk shows of a thread at a point of its life; a thread whose read has been
performed is about to be entered with frame `tf`. -/
def Desk.Shows (tf : TrapFrame) (d : Desk) (id : CInt) : Life → Prop
  | .absent | .joined => d.book id = none
  | .executing => ∃ h, d.book id = some h ∧ d.running = some h.code
  | .blocked frame => ∃ h, d.book id = some h ∧ d.saved id = some (frame,h.code)
  | .served => ∃ h, d.book id = some h ∧ d.continued id tf = some h.code
  | .exited _ => ∃ h, d.book id = some h

section Desks
variable {boot : Boot} {d : Desk} {policies : ℕ → Sc} {code : Code} {tf : TrapFrame} {e : Event}
  {u id : CInt} {a b : Life}

/-- Between steps the frame of the last jump does not matter. -/
theorem Desk.Shows.between (h : d.Shows tf id a) (ha : a ≠ .served) (tf' : TrapFrame) :
    d.Shows tf' id a := by
  cases a with
  | served => exact absurd rfl ha
  | _ => exact h

theorem note_other (boot : Boot) (policies : ℕ → Sc) (code : Code) (tf : TrapFrame)
    (he : e.thread ≠ some id) (d : Desk) : (d.note boot policies code tf e).book id = d.book id ∧
      (d.note boot policies code tf e).saved id = d.saved id := by
  have hne {x : CInt} (hx : e.thread = some x) : id ≠ x := by
    rintro rfl
    exact he hx
  cases e with
  | created x i => exact ⟨Function.update_of_ne (hne rfl) _ _,rfl⟩
  | opened x fd => exact ⟨Function.update_of_ne (hne rfl) _ _,rfl⟩
  | issued x tf => exact ⟨rfl,Function.update_of_ne (hne rfl) _ _⟩
  | joined x v => exact ⟨Function.update_of_ne (hne rfl) _ _,rfl⟩
  | _ => exact ⟨rfl,rfl⟩

/-- An event about another thread leaves what the desk shows of one that is not
running. -/
theorem Desk.Shows.other (h : d.Shows tf id a) (he : e.thread ≠ some id) (ha : a ≠ .executing) :
    (d.note boot policies code tf e).Shows tf id a := by
  obtain ⟨hbook,hsaved⟩ := note_other boot policies code tf he d
  cases a with
  | executing => exact absurd rfl ha
  | absent | joined | exited v => simpa only [Desk.Shows,hbook] using h
  | blocked frame | served => simpa only [Desk.Shows,Desk.continued,hbook,hsaved] using h

theorem Desk.Shows.own (h : d.Shows tf u a) (he : e.thread = some u) (hload : e.Loads boot code tf)
    (hnext : a.next e = some b) : (d.note boot policies code tf e).Shows tf u b := by
  cases e with
  | cleared | granted => cases he
  | created x i =>
    obtain rfl : x = u := Option.some.inj he
    have hnew : (d.note boot policies code tf (.created x i)).Shows tf x .executing :=
      ⟨_,Function.update_self _ _ _,hload⟩
    cases a with
    | absent | joined => exact Option.some.inj hnext ▸ hnew
    | _ => cases hnext
  | opened x fd =>
    obtain rfl : x = u := Option.some.inj he
    cases a with
    | executing =>
      obtain rfl := Option.some.inj hnext
      obtain ⟨h,hbook,hrun⟩ := h
      refine ⟨{h with opened := fd::h.opened},?_,hrun⟩
      simp only [Desk.note,Function.update_self,hbook,Option.map_some]
    | _ => cases hnext
  | issued x frame =>
    obtain rfl : x = u := Option.some.inj he
    cases a with
    | executing =>
      obtain rfl := Option.some.inj hnext
      obtain ⟨h,hbook,hrun⟩ := h
      refine ⟨h,hbook,(Function.update_self _ _ _).trans ?_⟩
      rw [hrun]
      rfl
    | _ => cases hnext
  | performed x frame =>
    obtain rfl : x = u := Option.some.inj he
    cases a with
    | blocked frame' =>
      simp only [Life.next] at hnext
      split_ifs at hnext with hsame
      obtain rfl := Option.some.inj hnext
      obtain ⟨h,hbook,hsaved⟩ := h
      refine ⟨h,hbook,?_⟩
      have hreload : Reloads frame' tf := hsame ▸ hload
      change (d.saved x).bind _ = _
      rw [hsaved,Option.bind_some,if_pos hreload]
    | _ => cases hnext
  | resumed x =>
    obtain rfl : x = u := Option.some.inj he
    cases a with
    | served => exact Option.some.inj hnext ▸ h
    | _ => cases hnext
  | exited x v =>
    cases a with
    | executing =>
      obtain rfl := Option.some.inj hnext
      obtain ⟨h,hbook,-⟩ := h
      exact ⟨h,hbook⟩
    | _ => cases hnext
  | joined x v =>
    obtain rfl : x = u := Option.some.inj he
    have hnone : (d.note boot policies code tf (.joined x v)).Shows tf x .joined :=
      Function.update_self _ _ _
    cases a with
    | exited v' =>
      simp only [Life.next] at hnext
      split_ifs at hnext
      exact Option.some.inj hnext ▸ hnone
    | _ => cases hnext
  | closed | unknown =>
    cases a <;> cases hnext
    exact h

theorem foldr_quiet {es : List Event} (h : ∀ e ∈ es, e.thread = none) (d : Desk) :
    es.foldr (Desk.note boot policies code tf) d = d := by
  induction es with
  | nil => rfl
  | cons e es ih =>
    have he := h e List.mem_cons_self
    rw [List.foldr_cons,ih fun x hx => h x (List.mem_cons_of_mem _ hx)]
    cases e <;> first | rfl | cases he

theorem Desk.Shows.along_other {es : List Event} (h : d.Shows tf id a)
    (hes : ∀ e ∈ es, e.thread ≠ some id) (ha : a ≠ .executing) :
    (es.foldr (Desk.note boot policies code tf) d).Shows tf id a := by
  induction es with
  | nil => exact h
  | cons e es ih =>
    exact (ih fun x hx => hes x (List.mem_cons_of_mem _ hx)).other (hes e List.mem_cons_self) ha

theorem Desk.Shows.along_own {es : List Event} (h : d.Shows tf u a)
    (hes : ∀ e ∈ es, e.thread = some u ∧ e.Loads boot code tf) (hlife : lifeAlong u a es = some b) :
    (es.foldr (Desk.note boot policies code tf) d).Shows tf u b := by
  induction es generalizing b with
  | nil => exact Option.some.inj hlife ▸ h
  | cons e es ih =>
    obtain ⟨a',ha',hafter⟩ := Option.bind_eq_some_iff.mp hlife
    obtain ⟨he,hload⟩ := hes e List.mem_cons_self
    rw [Life.after,if_pos he] at hafter
    exact (ih (fun x hx => hes x (List.mem_cons_of_mem _ hx)) ha').own he hload hafter

theorem book_kept {es : List Event} {h : Handle} (hmoves : ∀ e ∈ es, e.moves = false)
    (hbook : (es.foldr (Desk.note boot policies code tf) d).book id = some h) :
    d.book id = some h := by
  induction es with
  | nil => exact hbook
  | cons e es ih =>
    refine ih (fun x hx => hmoves x (List.mem_cons_of_mem _ hx)) ?_
    have hmove := hmoves e List.mem_cons_self
    rw [List.foldr_cons] at hbook
    cases e with
    | created | opened => cases hmove
    | joined x v =>
      by_cases hx : id = x
      · subst hx
        simp [Desk.note] at hbook
      · simpa [Desk.note,Function.update_of_ne hx] using hbook
    | _ => exact hbook

end Desks

structure Booked (x : Registry) : Prop where
  lawful : Lawful x.seen
  flat : Flat x.seen.machine
  shows : ∀ tf id, x.desk.Shows tf id (lifeOf x.seen.machine id)
  rights : ∀ s ∈ x.seen.machine.kernel.sthreads, ∀ h, x.desk.book s.stId = some h →
    h.rights = .ok s.stSc

section Steps
variable {boot : Boot} {m : Machine} {x y : Registry} {l : Label}

theorem executing_mode {id : CInt} (h : lifeOf m id = .executing) : m.mode = .user id := by
  unfold lifeOf Sthread.life at h
  split at h
  · cases h
  · split at h
    · split_ifs at h with hm
      exact beq_iff_eq.mp hm
    · cases h
    · cases h

theorem Registry.step_ok (h : x.step boot l = .ok y) :
    x.seen.step boot l = .ok y.seen ∧ y.desk = (events boot x.seen.machine l).foldr
      (Desk.note boot x.seen.machine.policies l.code y.seen.machine.kernel.entry) x.desk := by
  obtain ⟨seen,hseen,h⟩ := bind_ok.mp h
  cases h
  exact ⟨hseen,rfl⟩

theorem shows_step (hx : Booked x) (halone : alone boot x.seen l = true)
    (h : x.step boot l = .ok y) (id : CInt) :
    y.desk.Shows y.seen.machine.kernel.entry id (lifeOf y.seen.machine id) := by
  obtain ⟨hseen,hdesk⟩ := Registry.step_ok h
  obtain ⟨hstep,-⟩ := Observed.step_ok hseen
  have hend : (endsJump boot x.seen.machine l && nested x.seen.machine) = false := by
    rw [hx.flat.nested,Bool.and_false]
  have hlife := (lives_step hx.lawful.orderly hend hstep).1 id
  have hshows := hx.shows y.seen.machine.kernel.entry id
  rw [hdesk]
  rcases events_alone hx.lawful hx.flat halone hstep with hquiet | ⟨u,hu,honly⟩
  · rw [lifeAlong_other (by simp_all)] at hlife
    rw [foldr_quiet hquiet,← Option.some.inj hlife]
    exact hshows
  · by_cases hid : id = u
    · subst hid
      exact hshows.along_own hu hlife
    · have hother : ∀ e ∈ events boot x.seen.machine l, e.thread ≠ some id := by
        intro e he
        rw [(hu e he).1]
        exact fun h => hid (Option.some.inj h).symm
      rw [lifeAlong_other hother] at hlife
      rw [← Option.some.inj hlife]
      exact hshows.along_other hother fun hexec => hid (honly id (executing_mode hexec))

theorem rights_step (hx : Booked x) (h : x.step boot l = .ok y) :
    ∀ s ∈ y.seen.machine.kernel.sthreads, ∀ h, y.desk.book s.stId = some h →
      h.rights = .ok s.stSc := by
  obtain ⟨hseen,hdesk⟩ := Registry.step_ok h
  obtain ⟨hstep,-⟩ := Observed.step_ok hseen
  have hcur : CurrentRuns x.seen.machine := fun _ _ => good_current hx.lawful.orderly.good
  intro s' hs' h' hbook
  rw [hdesk] at hbook
  cases scStep_of_step hcur hstep with
  | kept hmoves hkept =>
    obtain ⟨s,hs,hid,hsc⟩ := hkept s' hs'
    rw [← hsc]
    exact hx.rights s hs h' (hid ▸ book_kept hmoves hbook)
  | @created id i hevents hbut hown =>
    rw [hevents,List.foldr_cons,List.foldr_nil] at hbook
    by_cases hid : s'.stId = id
    · have hnew : h' = ⟨l.code,x.seen.machine.policies i,[]⟩ := by
        simpa [Desk.note,hid,eq_comm] using hbook
      rw [hnew,hown s' hs' hid]
      rfl
    · obtain ⟨s,hs,hsid,hsc⟩ := hbut s' hs' hid
      have hthread : (Event.created id i).thread ≠ some s'.stId := fun h => hid (Option.some.inj h).symm
      rw [(note_other boot _ _ _ hthread x.desk).1,← hsid] at hbook
      rw [← hsc]
      exact hx.rights s hs h' hbook
  | @opened u fd s sc hevents hbut hs hsu hsc hown =>
    rw [hevents,List.foldr_cons,List.foldr_nil] at hbook
    by_cases hid : s'.stId = u
    · have hnew : ∃ h, x.desk.book u = some h ∧ {h with opened := fd::h.opened} = h' := by
        simpa [Desk.note,hid] using hbook
      obtain ⟨h,hold,rfl⟩ := hnew
      have hrights := hx.rights s hs h (hsu ▸ hold)
      rw [hown s' hs' hid,Handle.rights,List.foldrM_cons]
      exact bind_ok.mpr ⟨s.stSc,hrights,hsc⟩
    · obtain ⟨t,ht,htid,htsc⟩ := hbut s' hs' hid
      have hthread : (Event.opened u fd).thread ≠ some s'.stId := fun h => hid (Option.some.inj h).symm
      rw [(note_other boot _ _ _ hthread x.desk).1,← htid] at hbook
      rw [← htsc]
      exact hx.rights t ht h' hbook

theorem Booked.step (hx : Booked x) (halone : alone boot x.seen l = true)
    (h : x.step boot l = .ok y) : Booked y := by
  obtain ⟨hseen,-⟩ := Registry.step_ok h
  obtain ⟨hstep,-⟩ := Observed.step_ok hseen
  have hret : returnsToMaster boot x.seen.machine l = true := by
    rw [returnsToMaster,hx.flat.nested,Bool.and_false]
    rfl
  exact ⟨hx.lawful.step hret hseen,flat_step hx.lawful hx.flat halone hstep,
    fun tf id => (shows_step hx halone h id).between (lifeOf_ne_served _ _) tf,rights_step hx h⟩

end Steps

section Soundness
variable {boot : Boot} {m : Machine} {x : Registry} {l : Label} {id : CInt} {s : Sthread}

theorem Desk.Shows.isSome_iff {tf : TrapFrame} {d : Desk} {a : Life} (h : d.Shows tf id a) :
    (d.book id).isSome ↔ a ≠ .absent ∧ a ≠ .joined := by
  cases a with
  | absent | joined =>
    have hnone : d.book id = none := h
    simp [hnone]
  | executing | blocked | served =>
    obtain ⟨h,hbook,-⟩ := h
    simp [hbook]
  | exited v =>
    obtain ⟨h,hbook⟩ := h
    simp [hbook]

theorem Numbered.filter_eq {k : Kernel} (hn : Numbered k) (hf : k.find id = some s) :
    (k.sthreads.filter fun s => s.stId == id) = [s] := by
  obtain ⟨hs,hid⟩ := Kernel.find_mem hf
  have hall : ∀ t ∈ k.sthreads.filter fun s => s.stId == id, t = s := by
    intro t ht
    obtain ⟨hmem,htid⟩ := List.mem_filter.mp ht
    exact List.inj_on_of_nodup_map hn.ids hmem hs ((beq_iff_eq.mp htid).trans hid.symm)
  have hin : s ∈ k.sthreads.filter fun s => s.stId == id :=
    List.mem_filter.mpr ⟨hs,beq_iff_eq.mpr hid⟩
  have hnodup : (k.sthreads.filter fun s => s.stId == id).Nodup := hn.ids.of_map.filter _
  have hpos := List.length_pos_of_mem hin
  rw [List.eq_replicate_of_mem hall] at hnodup ⊢
  have hone := List.nodup_replicate.mp hnodup
  rw [show (k.sthreads.filter fun s => s.stId == id).length = 1 by omega]
  rfl

theorem dead_of_life {inside : Bool} (h : s.life inside = .absent ∨ s.life inside = .joined) :
    s.stState = .dead := by
  cases hstate : s.stState with
  | dead => rfl
  | zombie =>
    rw [life_exited hstate] at h
    simp at h
  | running => cases inside <;> simp [Sthread.life,hstate] at h

theorem created_mem_events {i : ℕ} (he : .created id i ∈ events boot m l) :
    ∃ cb arg r k, l = .create i cb arg r ∧
      sthreadCreate boot m.kernel (m.policies i) cb arg r = .ok (id,k) := by
  cases occurs_of_mem he with
  | created hk => exact ⟨_,_,_,_,rfl,hk⟩

theorem unknown_mem_events (he : .unknown id ∈ events boot m l) : m.kernel.find id = none := by
  cases occurs_of_mem he with
  | unknown hf => exact hf

theorem joined_mem_events {v : Word} (he : .joined id v ∈ events boot m l) :
    lifeOf m id = .exited v := by
  cases occurs_of_mem he with
  | joined _ hf hz => exact (lifeOf_some hf).trans (life_exited hz _)

theorem nextRunnable_isSome {k : Kernel} (hs : s ∈ k.sthreads) (hrun : s.stState = .running)
    (hcur : k.ksCurrent = none) : ∃ t, nextRunnable k = some t := by
  rw [← Option.isSome_iff_exists,nextRunnable,List.find?_isSome]
  exact ⟨s,hs,by simp [hcur,hrun]⟩

/-- A round of a join that finds the record exited returns, and one that finds it running
enters a thread. -/
theorem round_isOk {st : CInt} (hm : m.mode = .joining st) (hcur : m.kernel.ksCurrent = none)
    (hf : m.kernel.find st = some s) (hstate : s.stState ≠ .dead) (r : HostReply) :
    ∃ m', step boot m (.poll r) = .ok m' ∧
      if s.stState = .zombie then m'.mode = .master else ∃ t, m'.mode = .user t := by
  have hstep : step boot m (.poll r) = joinRound boot m st r := by simp only [step,hm]
  simp only [hstep,joinRound,hf]
  cases hs : s.stState with
  | dead => exact absurd hs hstate
  | zombie => exact ⟨_,rfl,rfl⟩
  | running =>
    -- the thread itself is runnable
    obtain ⟨t,ht⟩ := nextRunnable_isSome (Kernel.find_mem hf).1 hs hcur
    simp only [schedule,ht,reduceCtorEq,if_false]
    exact ⟨_,rfl,_,rfl⟩

/-- A round of a join that finds the record dead or no record is the only one that gives
up: one that finds it exited returns, any other enters a thread. -/
theorem poll_isOk {st : CInt} {r : HostReply} (ho : Orderly m) (hm : m.mode = .joining st)
    (habsent : lifeOf m st ≠ .absent) (hjoined : lifeOf m st ≠ .joined) :
    ∃ m', step boot m (.poll r) = .ok m' ∧ match some (lifeOf m st) with
      | some (.exited v) => m'.mode = .master ∧ events boot m (.poll r) = [.joined st v]
      | _ => ∃ t, m'.mode = .user t := by
  have hcur : m.kernel.ksCurrent = none := ((good_idle (by simp [hm])).mp ho.good).2
  cases hf : m.kernel.find st with
  | none => exact absurd (lifeOf_none hf) habsent
  | some s =>
    have hdead : s.stState ≠ .dead := fun hstate =>
      hjoined ((lifeOf_some hf).trans (life_joined hstate _))
    obtain ⟨m',hstep,hmode⟩ := round_isOk hm hcur hf hdead r
    refine ⟨m',hstep,?_⟩
    rw [lifeOf_some hf]
    cases hstate : s.stState with
    | zombie =>
      rw [if_pos hstate] at hmode
      rw [life_exited hstate]
      exact ⟨hmode,by simp [events,hm,hf,hstate]⟩
    | dead => exact absurd hstate hdead
    | running =>
      have hlife : s.life (m.mode == .user st) = .blocked s.stTf := by
        simp [Sthread.life,hstate,hm]
      rw [hlife]
      simpa [hstate] using hmode

theorem join_isOk {st : CInt} (hm : m.mode = .master) (habsent : lifeOf m st ≠ .absent) :
    ∃ m', step boot m (.join st) = .ok m' ∧ m'.mode = .joining st := by
  cases hf : m.kernel.find st with
  | none => exact absurd (lifeOf_none hf) habsent
  | some s =>
    simp only [step,hm,masterStep,hf]
    exact ⟨_,rfl,rfl⟩

theorem handlesSound_of_booked (boot : Boot) (hx : Booked x) : HandlesSound boot x := by
  have hn := hx.lawful.orderly.numbered
  refine ⟨hn.ids,hx.lawful.lives,fun id => (hx.shows {} id).isSome_iff,?_,?_,?_,?_,?_,?_⟩
  · intro l id i he
    obtain ⟨cb,arg,r,k,-,hk⟩ := created_mem_events he
    have hlife := created_life hn hk
    refine ⟨?_,fun s hf => ?_⟩
    · have hshows := hx.shows {} id
      rcases hlife with hl | hl <;> rw [hl] at hshows <;> exact hshows
    · rw [lifeOf_some hf] at hlife
      exact dead_of_life hlife
  · intro id h hbook
    have hsome : (x.desk.book id).isSome := by rw [hbook]; rfl
    have habsent := ((hx.shows {} id).isSome_iff.mp hsome).1
    cases hf : x.seen.machine.kernel.find id with
    | none => exact absurd (lifeOf_none hf) habsent
    | some s =>
      obtain ⟨hs,hid⟩ := Kernel.find_mem hf
      exact ⟨s,hn.filter_eq hf,hx.rights s hs h (by rw [hid,hbook])⟩
  · intro u hm
    have hshows := hx.shows {} u
    rw [hx.lawful.orderly.running u hm] at hshows
    exact hshows
  · intro l st hst
    refine ⟨fun he => ?_,fun v he => ?_⟩
    · exact ((hx.shows {} st).isSome_iff.mp hst).1 (lifeOf_none (unknown_mem_events he))
    · rw [hx.lawful.lives,joined_mem_events he]
  · intro st hm hst
    exact join_isOk hm ((hx.shows {} st).isSome_iff.mp hst).1
  · intro st r hm hst
    obtain ⟨habsent,hjoined⟩ := (hx.shows {} st).isSome_iff.mp hst
    rw [hx.lawful.lives st]
    exact poll_isOk hx.lawful.orderly hm habsent hjoined

end Soundness

section Runs
variable {rt : Runtime} {segments : List Segment} {pgroot : LeafTable Word} {mem : Mem}
  {r : InitReply} {boot : Boot} {m₀ : Machine} {x : Registry}

theorem booked_init (h : sthreadInit rt segments pgroot mem r = .ok (boot,m₀)) :
    Booked (Registry.start m₀) := by
  have hlawful := lawful_init h
  obtain ⟨-,-,rfl⟩ := sthreadInit_ok h
  exact ⟨hlawful,by simp [Flat,Registry.start],fun tf id => rfl,by simp [Registry.start]⟩

/-- In every run that spares the kernel's data and in which a thread reads only while no
other one waits for a read, handles are sound. -/
theorem runs_handles_sound {ls : List Label}
    (hinit : sthreadInit rt segments pgroot mem r = .ok (boot,m₀))
    (hruns : Runs (fun a l b => (alone boot a.seen l && sparesKernel boot a.seen.machine l &&
      keepsKernelTag boot l) = true ∧ a.step boot l = .ok b) (Registry.start m₀) ls x) :
    HandlesSound boot x := by
  refine handlesSound_of_booked boot ?_
  refine hruns.invariant (I := fun a _ => Booked a) (booked_init hinit) ?_
  rintro a ls l b ha ⟨hc,hstep⟩
  simp only [Bool.and_eq_true] at hc
  exact ha.step hc.1.1 hstep

end Runs

section Generations

def exitWith (v : Word) : TrapFrame := {rax := 666,rdi := v}

/-- A first thread waits for a read while a second one is created, exits and is joined;
then the first one is joined, and the second one's record is used again. -/
def threeCallbacks : List Label := [
  .create 0 0x401030 3 ⟨0x26000000,0x27000000,0x4000000⟩,
  .poll {},
  .syscall (exitWith 0x666) {},
  .poll {ret := 4},
  .join 1,
  .poll {},
  .join 2,
  .syscall (exitWith 0x667) {},
  .create 0 0x401020 2 ⟨0x24000000,0x25000000,0x3000000⟩,
  .syscall readFour {},
  .create 0 0x401010 1 ⟨0x22000000,0x23000000,0x2000000⟩,
  .scFdAdd 0 3 PROT_READ]

/-- The hypotheses hold of a run that uses a record twice. -/
theorem runs_handles_sound_threeCallbacks : ∃ boot m₀ x,
    sthreadInit flatRuntime oneSegment onePage (fun _ => 0) flatInit = .ok (boot,m₀) ∧
    Runs (fun a l b => (alone boot a.seen l && sparesKernel boot a.seen.machine l &&
      keepsKernelTag boot l) = true ∧ a.step boot l = .ok b) (Registry.start m₀) threeCallbacks x ∧
    x.seen.machine.mode = .user 2 ∧ x.desk.running = some (0x401030,3) ∧
    .joined 2 0x667 ∈ x.seen.history ∧ .joined 1 0x666 ∈ x.seen.history ∧ HandlesSound boot x := by
  obtain ⟨boot,m₀,x,hinit,hruns,hp⟩ := exists_of_replay flatRuntime oneSegment onePage
    (fun _ => 0) flatInit Registry.start Registry.step (fun boot a l => alone boot a.seen l &&
      sparesKernel boot a.seen.machine l && keepsKernelTag boot l) threeCallbacks
    (fun x => x.seen.machine.mode == .user 2 &&
      x.desk.running == some (0x401030,3) && decide (.joined 2 0x667 ∈ x.seen.history) &&
      decide (.joined 1 0x666 ∈ x.seen.history)) (by decide +kernel)
  simp only [Bool.and_eq_true,beq_iff_eq,decide_eq_true_eq] at hp
  obtain ⟨⟨⟨hmode,hcode⟩,hsecond⟩,hfirst⟩ := hp
  exact ⟨boot,m₀,x,hinit,hruns,hmode,hcode,hsecond,hfirst,runs_handles_sound hinit hruns⟩

end Generations

end Sthreads
end VmplApps

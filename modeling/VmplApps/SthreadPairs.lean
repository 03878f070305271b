import VmplApps.SthreadJoins

/-! How many threads there can be at once. The master runs only while at most one thread
is runnable, since a thread that reads next to a runnable one switches to it and not
back to the master. So there are never more than two runnable threads, and two that
have read at the same time keep the process to themselves: the call of the master that
started the second one never returns. -/
namespace VmplApps
namespace Sthreads

def Kernel.runnable (k : Kernel) : List CInt :=
  (k.sthreads.filter fun s => s.stState == .running).map Sthread.stId

section Runnable
variable {k : Kernel} {t : Sthread} {id : CInt}

theorem mem_runnable (hn : Numbered k) : id ∈ k.runnable ↔ k.status id = some .running := by
  constructor
  · intro h
    obtain ⟨s,hs,rfl⟩ := List.mem_map.mp h
    obtain ⟨hmem,hrun⟩ := List.mem_filter.mp hs
    rw [status_find (hn.find_of_mem hmem)]
    simpa using hrun
  · intro h
    obtain ⟨s,hf,hrun⟩ := Option.map_eq_some_iff.mp h
    obtain ⟨hmem,rfl⟩ := Kernel.find_mem hf
    exact List.mem_map.mpr ⟨s,List.mem_filter.mpr ⟨hmem,by simp [hrun]⟩,rfl⟩

theorem nodup_runnable (hn : Numbered k) : k.runnable.Nodup :=
  hn.ids.sublist (List.filter_sublist.map _)

theorem runnable_length_le (hn : Numbered k) (ids : List CInt)
    (h : ∀ id, k.status id = some .running → id ∈ ids) : k.runnable.length ≤ ids.length :=
  ((nodup_runnable hn).subperm fun _ hid => h _ ((mem_runnable hn).mp hid)).length_le

theorem nextRunnable_status (hn : Numbered k) (h : nextRunnable k = some t) :
    k.status t.stId = some .running ∧ k.ksCurrent ≠ some t.stId := by
  obtain ⟨hrun,hcur⟩ := nextRunnable_running h
  exact ⟨by rw [status_find (hn.find_of_mem (find_nextRunnable h)),hrun],hcur⟩

theorem current_of_nextRunnable (h : nextRunnable k = none) (hrun : k.status id = some .running) :
    k.ksCurrent = some id := by
  obtain ⟨s,hf,hs⟩ := Option.map_eq_some_iff.mp hrun
  obtain ⟨hmem,rfl⟩ := Kernel.find_mem hf
  have hskip := List.find?_eq_none.mp h s hmem
  simp only [hs,beq_self_eq_true,Bool.and_true,bne_iff_ne,ne_eq,not_not] at hskip
  exact hskip.symm

end Runnable

/-- What a step of thread `u` does to who runs and who may run: nothing; `u` exits; it
reads, and another thread is entered; or it reads while nobody else is runnable. -/
inductive Turned (m : Machine) (u : CInt) (m' : Machine) : Prop
  | calm : m'.mode = m.mode → m'.frames = m.frames → m'.kernel.ksCurrent = m.kernel.ksCurrent →
      m'.kernel.status = m.kernel.status → Turned m u m'
  | exit {c f fs} : m.kernel.ksCurrent = some c → m.frames = f::fs → m'.mode = f.caller.resume →
      m'.kernel.ksCurrent = none →
      (∀ id, m'.kernel.status id = if id = c then some .zombie else m.kernel.status id) →
      Turned m u m'
  | switch {c t} : m.kernel.ksCurrent = some c → m.kernel.status t = some .running → t ≠ c →
      m'.mode = .user t → m'.frames = ⟨t,.trap u⟩::m.frames → m'.kernel.ksCurrent = some t →
      m'.kernel.status = m.kernel.status → Turned m u m'
  | leave {c f fs} : m.kernel.ksCurrent = some c →
      (∀ id, m.kernel.status id = some .running → id = c) → m.frames = f::fs →
      m'.mode = f.caller.resume → m'.kernel.ksCurrent = none →
      m'.kernel.status = m.kernel.status → Turned m u m'

section Turns
variable {boot : Boot} {m m' : Machine} {l : Label} {u v c : CInt}

theorem turned_read {s s' : Sthread} {tf tf' : TrapFrame} {k₀ : Kernel} {r : HostReply}
    (hn : Numbered m.kernel) (hcur : m.kernel.ksCurrent = some c) (hf : m.kernel.find c = some s)
    (hcheck : syscallCheck boot k₀ s tf = .ok (s',some tf'))
    (h : schedule boot {m with kernel := m.kernel.update {s' with stTf := tf'}} (.trap u) r = .ok m') :
    Turned m u m' := by
  have hsaved : (m.kernel.update {s' with stTf := tf'}).status = m.kernel.status :=
    status_check hf hcheck _ _
  have hn' : Numbered (m.kernel.update {s' with stTf := tf'}) := hn.saved hf hcheck
  have hst := (schedule_current hn' h).1.trans hsaved
  rcases schedule_cases h with ⟨t,ht,rfl⟩ | ⟨hnone,-,hunw⟩
  · obtain ⟨hrun,hne⟩ := nextRunnable_status hn' ht
    have hrun' : m.kernel.status t.stId = some .running := by rwa [← hsaved]
    have hne' : t.stId ≠ c := by
      rintro rfl
      exact hne hcur
    exact .switch hcur hrun' hne' rfl rfl rfl hst
  · obtain ⟨f,fs,hframes,rfl⟩ := unwind_ok hunw
    refine .leave hcur (fun id hid => ?_) hframes rfl rfl hst
    have hid' : (m.kernel.update {s' with stTf := tf'}).status id = some .running := by rwa [hsaved]
    exact Option.some.inj ((current_of_nextRunnable hnone hid').symm.trans hcur)

theorem turned_step (hn : Numbered m.kernel) (hm : m.mode = .user u) (h : step boot m l = .ok m') :
    Turned m u m' := by
  cases stepped_of_step h with
  | remap | user => exact .calm rfl rfl rfl rfl
  | tagNew hmode | smalloc _ _ hmode | scInit _ hmode | scMemAdd hmode | scFdAdd hmode =>
    cases hm.symm.trans hmode
  | scSysAdd hmode | create hmode | joinNone hmode | joinSome hmode | collect _ hmode | wait hmode =>
    cases hm.symm.trans hmode
  | store _ hk => exact .calm rfl rfl (userStore_sthreads hk).1 (status_userStore hk)
  | blocked _ _ _ hf hc | opened _ _ _ hf hc | openFailed _ _ _ hf hc | passed _ _ _ hf hc =>
    exact .calm rfl rfl rfl (status_check hf hc _ _)
  | exited _ hcur hf hc _ hunw =>
    obtain ⟨f,fs,hframes,rfl⟩ := unwind_ok hunw
    exact .exit hcur hframes rfl rfl fun id => status_exit hf hc id
  | read hmode hcur hf hc _ hs =>
    obtain rfl := Mode.user.inj (hm.symm.trans hmode)
    exact turned_read hn hcur hf hc hs

theorem resume_outer {f : Frame} {fs : List Frame} (hn : nested m = false) (hf : m.frames = f::fs)
    (v : CInt) : f.caller.resume ≠ .user v := by
  obtain ⟨t,c⟩ := f
  cases c with
  | create | join => exact Mode.noConfusion
  | trap w => simp [nested,hf] at hn

end Turns

/-- The master runs, or waits in `sthread_join`. -/
structure Quiet (m : Machine) : Prop where
  mode : ∀ v, m.mode ≠ .user v
  one : ∀ a b, m.kernel.status a = some .running → m.kernel.status b = some .running → a = b

/-- Thread `u` runs in a jump that the master has made. -/
structure Single (m : Machine) (u : CInt) : Prop where
  mode : m.mode = .user u
  current : m.kernel.ksCurrent = some u
  outer : nested m = false
  other : ∀ a b, m.kernel.status a = some .running → m.kernel.status b = some .running →
    a ≠ u → b ≠ u → a = b

/-- Thread `u` runs in a jump out of a read of thread `v`. -/
structure Paired (m : Machine) (u v : CInt) : Prop where
  mode : m.mode = .user u
  current : m.kernel.ksCurrent = some u
  inside : ∃ fs, m.frames = ⟨u,.trap v⟩::fs
  apart : u ≠ v
  runnable : ∀ id, m.kernel.status id = some .running ↔ id = u ∨ id = v

/-- Thread `v` goes on after its read, with nobody current: the thread that it had
switched to has exited. -/
structure Stranded (m : Machine) (v : CInt) : Prop where
  mode : m.mode = .user v
  current : m.kernel.ksCurrent = none
  runnable : ∀ id, m.kernel.status id = some .running ↔ id = v

section Steps
variable {boot : Boot} {m m' : Machine} {l : Label} {u v : CInt}

theorem stranded_step (hn : Numbered m.kernel) (hx : Stranded m v) (h : step boot m l = .ok m') :
    Stranded m' v := by
  cases turned_step hn hx.mode h with
  | calm hmode _ hcur hst =>
    exact ⟨hmode.trans hx.mode,hcur.trans hx.current,by rw [hst]; exact hx.runnable⟩
  | exit hcur | switch hcur | leave hcur => cases hx.current.symm.trans hcur

/-- Of a pair, one keeps running, they take turns, or the running one exits. -/
theorem paired_step (hn : Numbered m.kernel) (hx : Paired m u v) (h : step boot m l = .ok m') :
    Paired m' u v ∨ Paired m' v u ∨ Stranded m' v := by
  obtain ⟨fs,hframes⟩ := hx.inside
  cases turned_step hn hx.mode h with
  | calm hmode hf hcur hst =>
    exact .inl ⟨hmode.trans hx.mode,hcur.trans hx.current,⟨fs,hf.trans hframes⟩,hx.apart,
      by rw [hst]; exact hx.runnable⟩
  | exit hcur hf hmode hcur' hst =>
    obtain rfl := Option.some.inj (hcur.symm.trans hx.current)
    obtain ⟨rfl,-⟩ := List.cons.inj (hf.symm.trans hframes)
    refine .inr (.inr ⟨hmode,hcur',fun id => ?_⟩)
    rw [hst]
    split_ifs with hid
    · simp [hid,hx.apart]
    · rw [hx.runnable]
      simp [hid]
  | switch hcur hrun hne hmode hf hcur' hst =>
    obtain rfl := Option.some.inj (hcur.symm.trans hx.current)
    obtain rfl := ((hx.runnable _).mp hrun).resolve_left hne
    refine .inr (.inl ⟨hmode,hcur',⟨_,hf⟩,hne,fun id => ?_⟩)
    rw [hst,hx.runnable,or_comm]
  | leave hcur hall =>
    -- the other thread of the pair is runnable
    obtain rfl := Option.some.inj (hcur.symm.trans hx.current)
    exact absurd (hall v ((hx.runnable v).mpr (.inr rfl))).symm hx.apart

theorem single_step (ht : Tidy m) (hx : Single m u) (h : step boot m l = .ok m') :
    Single m' u ∨ Quiet m' ∨ ∃ t, Paired m' t u := by
  cases turned_step ht.numbered hx.mode h with
  | calm hmode hf hcur hst =>
    have houter : nested m' = false := by rw [nested,hf]; exact hx.outer
    exact .inl ⟨hmode.trans hx.mode,hcur.trans hx.current,houter,by rw [hst]; exact hx.other⟩
  | @exit c f fs hcur hf hmode _ hst =>
    obtain rfl := Option.some.inj (hcur.symm.trans hx.current)
    refine .inr (.inl ⟨by rw [hmode]; exact resume_outer hx.outer hf,fun a b ha hb => ?_⟩)
    have hstill (id : CInt) (hid : m'.kernel.status id = some .running) :
        m.kernel.status id = some .running ∧ id ≠ c := by
      rw [hst] at hid
      split_ifs at hid with hgone
      · cases hid
      · exact ⟨hid,hgone⟩
    exact hx.other a b (hstill a ha).1 (hstill b hb).1 (hstill a ha).2 (hstill b hb).2
  | @switch c t hcur hrun hne hmode hf hcur' hst =>
    obtain rfl := Option.some.inj (hcur.symm.trans hx.current)
    refine .inr (.inr ⟨t,hmode,hcur',⟨_,hf⟩,hne,fun id => ?_⟩)
    rw [hst]
    constructor
    · intro hid
      by_cases hidc : id = c
      · exact .inr hidc
      · exact .inl (hx.other id t hid hrun hidc hne)
    · rintro (rfl | rfl)
      · exact hrun
      · exact ht.current _ hcur
  | leave hcur hall hf hmode _ hst =>
    refine .inr (.inl ⟨by rw [hmode]; exact resume_outer hx.outer hf,fun a b ha hb => ?_⟩)
    rw [hst] at ha hb
    rw [hall a ha,hall b hb]

theorem Quiet.kept (hx : Quiet m) (hmode : ∀ v, m'.mode ≠ .user v)
    (hst : ∀ id, m'.kernel.status id = some .running → m.kernel.status id = some .running) :
    Quiet m' :=
  ⟨hmode,fun a b ha hb => hx.one a b (hst a ha) (hst b hb)⟩

theorem create_status {k : Kernel} {i : ℕ} {cb arg : Word} {r : CreateReply} {id a : CInt}
    (h : sthreadCreate boot m.kernel (m.policies i) cb arg r = .ok (id,k)) (ha : a ≠ id) :
    k.status a = m.kernel.status a := by
  rw [Kernel.status,Kernel.status]
  rcases create_cases h with ⟨s,s',-,-,-,hl,hk⟩ | ⟨s,s',-,-,hs,hl,hk⟩
  · rw [find_others hk (hl.id ▸ ha)]
  · rw [find_others hk (hl.id ▸ ha)]
    have hne : (s.stId == a) = false := by simpa [hs] using ha.symm
    simp only [Kernel.find,List.find?_cons,hne]

theorem quiet_step (ht : Tidy m) (hx : Quiet m) (h : step boot m l = .ok m') :
    Quiet m' ∨ ∃ u, Single m' u := by
  cases stepped_of_step h with
  | remap | scInit | scMemAdd | scFdAdd | scSysAdd | joinNone => exact .inl (hx.kept hx.mode fun _ => id)
  | tagNew _ hk =>
    obtain ⟨mem,-,hk⟩ := bind_ok.mp hk
    cases hk
    exact .inl (hx.kept hx.mode fun _ => id)
  | smalloc tid sz _ =>
    rw [smalloc_eq]
    exact .inl (hx.kept hx.mode fun _ => id)
  | @create i cb arg r id k _ hk =>
    refine .inr ⟨id,rfl,(create_current ht.numbered hk).1,rfl,fun a b ha hb hne hne' => ?_⟩
    have ha' : k.status a = some .running := ha
    have hb' : k.status b = some .running := hb
    rw [create_status hk hne] at ha'
    rw [create_status hk hne'] at hb'
    exact hx.one a b ha' hb'
  | joinSome => exact .inl (hx.kept (fun v => Mode.noConfusion) fun _ => id)
  | @collect st s r _ hf _ =>
    refine .inl (hx.kept (fun v => Mode.noConfusion) fun id hid => ?_)
    obtain ⟨t,hfind,hrun⟩ := Option.map_eq_some_iff.mp hid
    obtain ⟨hmem,rfl⟩ := Kernel.find_mem hfind
    by_cases hst : t.stId = s.stId
    · -- the record that was collected is dead
      obtain rfl := Kernel.mem_update_same hmem hst
      cases hrun
    · have hsame : (m.kernel.update {s with stState := .dead}).find t.stId = m.kernel.find t.stId := by
        rw [Kernel.find_update,if_neg hst]
      rw [status_find (hsame.symm.trans hfind),hrun]
  | wait _ _ _ hs =>
    have hst := (schedule_current ht.numbered hs).1
    rcases schedule_cases hs with ⟨t,-,rfl⟩ | ⟨-,⟨w,hw⟩,-⟩
    · exact .inr ⟨t.stId,rfl,rfl,rfl,fun a b ha hb _ _ => hx.one a b (hst ▸ ha) (hst ▸ hb)⟩
    · cases hw
  | user hm | store hm | blocked _ hm | exited hm | read hm | opened _ hm => exact absurd hm (hx.mode _)
  | openFailed _ hm | passed _ hm => exact absurd hm (hx.mode _)

end Steps

/-- Where control can be, with the threads that may then be runnable. -/
inductive Crowd (m : Machine) : Prop
  | quiet : Quiet m → Crowd m
  | single (u) : Single m u → Crowd m
  | paired (u v) : Paired m u v → Crowd m
  | stranded (v) : Stranded m v → Crowd m

section Runs
variable {rt : Runtime} {segments : List Segment} {pgroot : LeafTable Word} {mem : Mem}
  {reply : InitReply} {boot : Boot} {m₀ m m' : Machine} {l : Label} {ls : List Label} {u v : CInt}

theorem Crowd.step (ht : Tidy m) (hx : Crowd m) (h : step boot m l = .ok m') : Crowd m' := by
  cases hx with
  | quiet hx =>
    rcases quiet_step ht hx h with hx | ⟨u,hx⟩
    · exact .quiet hx
    · exact .single u hx
  | single u hx =>
    rcases single_step ht hx h with hx | hx | ⟨t,hx⟩
    · exact .single u hx
    · exact .quiet hx
    · exact .paired t u hx
  | paired u v hx =>
    rcases paired_step ht.numbered hx h with hx | hx | hx
    · exact .paired u v hx
    · exact .paired v u hx
    · exact .stranded v hx
  | stranded v hx => exact .stranded v (stranded_step ht.numbered hx h)

theorem runs_crowd (hinit : sthreadInit rt segments pgroot mem reply = .ok (boot,m₀))
    (hruns : Runs (fun a l b => Sthreads.step boot a l = .ok b) m₀ ls m) : Tidy m ∧ Crowd m := by
  refine hruns.invariant (I := fun a _ => Tidy a ∧ Crowd a) ⟨tidy_init hinit,.quiet ?_⟩ ?_
  · obtain ⟨-,-,rfl⟩ := sthreadInit_ok hinit
    exact ⟨fun v => Mode.noConfusion,fun a b ha => by cases ha⟩
  · intro a ls l b ⟨ht,hx⟩ h
    exact ⟨ht.step h,hx.step ht h⟩

/-- The process belongs to threads `u` and `v`: one runs inside a read of the other, or
one of them is left with nobody current. -/
def Captured (u v : CInt) (m : Machine) : Prop :=
  Paired m u v ∨ Paired m v u ∨ Stranded m u ∨ Stranded m v

theorem Captured.step (hn : Numbered m.kernel) (hx : Captured u v m)
    (h : Sthreads.step boot m l = .ok m') : Captured u v m' := by
  rcases hx with hx | hx | hx | hx
  · rcases paired_step hn hx h with hx | hx | hx
    · exact .inl hx
    · exact .inr (.inl hx)
    · exact .inr (.inr (.inr hx))
  · rcases paired_step hn hx h with hx | hx | hx
    · exact .inr (.inl hx)
    · exact .inl hx
    · exact .inr (.inr (.inl hx))
  · exact .inr (.inr (.inl (stranded_step hn hx h)))
  · exact .inr (.inr (.inr (stranded_step hn hx h)))

theorem Captured.mode (hx : Captured u v m) : m.mode = .user u ∨ m.mode = .user v := by
  rcases hx with hx | hx | hx | hx
  · exact .inl hx.mode
  · exact .inr hx.mode
  · exact .inl hx.mode
  · exact .inr hx.mode

theorem Paired.length (hn : Numbered m.kernel) (hx : Paired m u v) : 2 ≤ m.kernel.runnable.length := by
  have hnodup : [u,v].Nodup := by simp [hx.apart]
  refine (hnodup.subperm fun id hid => (mem_runnable hn).mpr ((hx.runnable id).mpr ?_)).length_le
  simpa using hid

theorem stranded_syscall (hx : Stranded m v) (tf : TrapFrame) (r : HostReply) :
    Sthreads.step boot m (.syscall tf r) = .error (nullFault (tf.rax.setWidth 32)) := by
  simp [Sthreads.step,hx.mode,userStep,syscallHandler,hx.current]

theorem Captured.stranded (hn : Numbered m.kernel) (hx : Captured u v m)
    (hlen : m.kernel.runnable.length < 2) : ∃ w, Stranded m w := by
  rcases hx with hx | hx | hx | hx
  · exact absurd (hx.length hn) (by omega)
  · exact absurd (hx.length hn) (by omega)
  · exact ⟨u,hx⟩
  · exact ⟨v,hx⟩

theorem Tidy.frames (ht : Tidy m) (hmode : ∀ v, m.mode ≠ .user v) : m.frames = [] := by
  rcases ht.control with ⟨-,hf⟩ | ⟨c,-,hawaits⟩
  · exact hf
  · cases hm : m.mode with
    | master => exact absurd hm hawaits.ne_master
    | joining st => exact ((awaits_joining hm).mp hawaits).2
    | user w => exact absurd hm (hmode w)

theorem captured_of_nested (ht : Tidy m) (hx : Crowd m) (hnest : nested m = true) :
    ∃ u v, Captured u v m := by
  cases hx with
  | quiet hx =>
    rw [nested,ht.frames hx.mode] at hnest
    cases hnest
  | single u hx => cases hnest.symm.trans hx.outer
  | paired u v hx => exact ⟨u,v,.inl hx⟩
  | stranded v hx => exact ⟨v,v,.inr (.inr (.inl hx))⟩

theorem Quiet.length (hn : Numbered m.kernel) (hx : Quiet m) : m.kernel.runnable.length ≤ 1 := by
  by_cases hsome : ∃ a, m.kernel.status a = some .running
  · obtain ⟨a,ha⟩ := hsome
    exact runnable_length_le hn [a] fun id hid => by simp [hx.one id a hid ha]
  · exact (runnable_length_le hn [] fun id hid => absurd ⟨id,hid⟩ hsome).trans zero_le_one

theorem Single.length (hn : Numbered m.kernel) (hx : Single m u) : m.kernel.runnable.length ≤ 2 := by
  by_cases hother : ∃ a, m.kernel.status a = some .running ∧ a ≠ u
  · obtain ⟨a,ha,hau⟩ := hother
    refine runnable_length_le hn [u,a] fun id hid => ?_
    by_cases hidu : id = u
    · simp [hidu]
    · simp [hx.other id a hid ha hidu hau]
  · refine (runnable_length_le hn [u] fun id hid => ?_).trans one_le_two
    by_contra hidu
    exact hother ⟨id,hid,by simpa using hidu⟩

theorem Crowd.length (hn : Numbered m.kernel) (hx : Crowd m) : m.kernel.runnable.length ≤ 2 := by
  cases hx with
  | quiet hx => exact (hx.length hn).trans one_le_two
  | single u hx => exact hx.length hn
  | paired u v hx =>
    exact runnable_length_le hn [u,v] fun id hid => by simpa using (hx.runnable id).mp hid
  | stranded v hx =>
    exact (runnable_length_le hn [v] fun id hid => by simpa using (hx.runnable id).mp hid).trans
      one_le_two

theorem Crowd.quiet_of_mode (hx : Crowd m) (hmode : ∀ v, m.mode ≠ .user v) : Quiet m := by
  cases hx with
  | quiet hx => exact hx
  | single u hx => exact absurd hx.mode (hmode u)
  | paired u v hx => exact absurd hx.mode (hmode u)
  | stranded v hx => exact absurd hx.mode (hmode v)

/-- In every run at most two threads are runnable, and at most one while the master runs
or waits in `sthread_join`. Once a read has switched to another thread, only two threads
ever run again, and when one of them has exited every system call ends the process. -/
theorem two_runnable (hinit : sthreadInit rt segments pgroot mem reply = .ok (boot,m₀))
    (hruns : Runs (fun a l b => Sthreads.step boot a l = .ok b) m₀ ls m) :
    m.kernel.runnable.length ≤ 2 ∧
    ((∀ u, m.mode ≠ .user u) → m.kernel.runnable.length ≤ 1) ∧
    (nested m = true → ∃ u v, ∀ ls' m',
      Runs (fun a l b => Sthreads.step boot a l = .ok b) m ls' m' →
        (m'.mode = .user u ∨ m'.mode = .user v) ∧
        (m'.kernel.runnable.length < 2 → ∀ tf r,
          Sthreads.step boot m' (.syscall tf r) = .error (nullFault (tf.rax.setWidth 32)))) := by
  obtain ⟨ht,hx⟩ := runs_crowd hinit hruns
  refine ⟨hx.length ht.numbered,fun hmode => (hx.quiet_of_mode hmode).length ht.numbered,fun hnest => ?_⟩
  obtain ⟨u,v,hcap⟩ := captured_of_nested ht hx hnest
  refine ⟨u,v,fun ls' m' hruns' => ?_⟩
  have hlater : Numbered m'.kernel ∧ Captured u v m' := by
    refine hruns'.invariant (I := fun a _ => Numbered a.kernel ∧ Captured u v a) ⟨ht.numbered,hcap⟩ ?_
    intro a _ l b ⟨hn,ha⟩ h
    exact ⟨hn.step h,ha.step hn h⟩
  refine ⟨hlater.2.mode,fun hlen tf r => ?_⟩
  obtain ⟨w,hw⟩ := hlater.2.stranded hlater.1 hlen
  exact stranded_syscall hw tf r

/-- Two readers, the first of which was entered out of the read of the second. -/
theorem two_runnable_twoReaders : ∃ boot m₀ m,
    sthreadInit flatRuntime oneSegment onePage (fun _ => 0) flatInit = .ok (boot,m₀) ∧
    Runs (fun a l b => Sthreads.step boot a l = .ok b) m₀ twoReaders m ∧
    m.kernel.runnable.length = 2 ∧ ∃ u v, ∀ ls' m',
      Runs (fun a l b => Sthreads.step boot a l = .ok b) m ls' m' →
        m'.mode = .user u ∨ m'.mode = .user v := by
  obtain ⟨boot,m₀,m,hinit,hruns,hp⟩ := exists_of_play flatRuntime oneSegment onePage
    (fun _ => 0) flatInit (fun _ _ _ => true) twoReaders
    (fun m => nested m && m.kernel.runnable.length == 2) (by decide +kernel)
  simp only [Bool.and_eq_true,beq_iff_eq] at hp
  have hruns' : Runs (fun a l b => Sthreads.step boot a l = .ok b) m₀ twoReaders m :=
    hruns.mono fun a l b h => h.2
  obtain ⟨u,v,hcap⟩ := (two_runnable hinit hruns').2.2 hp.1
  exact ⟨boot,m₀,m,hinit,hruns',hp.2,u,v,fun ls' m' h => (hcap ls' m' h).1⟩

end Runs

end Sthreads
end VmplApps

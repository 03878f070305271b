import VmplApps.SthreadIdentity

/-! What a run of the protected-thread kernel looks like from outside: which policies
were extended, which threads were created, what they opened and closed, which reads
they issued and when those were performed, who left and who was joined. A thread has
a life, which the events about it drive; as long as no nested jump returns, the life
that the events describe is the one that the kernel's records show. -/
namespace VmplApps
namespace Sthreads

inductive Event
  | cleared (i : ℕ)
  | granted (i : ℕ) (fd : CInt)
  | created (id : CInt) (i : ℕ)
  | opened (id fd : CInt)
  | closed (id fd : CInt)
  | issued (id : CInt) (tf : TrapFrame)
  | performed (id : CInt) (tf : TrapFrame)
  | resumed (id : CInt)
  | exited (id : CInt) (v : Word)
  | joined (id : CInt) (v : Word)
  | unknown (id : CInt)
  deriving DecidableEq, Repr

def Event.thread : Event → Option CInt
  | .cleared _ | .granted _ _ => none
  | .created id _ | .opened id _ | .closed id _ | .issued id _ | .performed id _ | .resumed id
  | .exited id _ | .joined id _ | .unknown id => some id

/-- The frame that a system call of the current thread has after its checks, if it
passes them. -/
def passes (boot : Boot) (m : Machine) (tf : TrapFrame) : Option TrapFrame :=
  match m.kernel.ksCurrent.bind m.kernel.find with
  | none => none
  | some s =>
    match syscallCheck boot m.kernel s tf with
    | .ok (_,passed) => passed
    | .error _ => none

/-- When the innermost jump returns into a system-call handler, the thread that had
trapped there goes on. -/
def returned (m : Machine) : List Event :=
  match m.frames with
  | ⟨_,.trap v⟩::_ => [.resumed v]
  | _ => []

/-- `schedule` performs the read of the thread it has found and enters it. -/
def entered (s : Sthread) : List Event := [.resumed s.stId,.performed s.stId s.stTf]

/-- The events of a call by thread `u` that passes its checks with frame `passed`,
most recent first. -/
def callEvents (m : Machine) (u : CInt) (tf passed : TrapFrame) (r : HostReply) : List Event :=
  let num : CInt := tf.rax.setWidth 32
  let rc : CInt := r.ret.setWidth 32
  if num = 666 then returned m ++ [.exited u tf.arg0]
  else if num = SYS_read then
    (match nextRunnable m.kernel with
    | some s => entered s
    | none => returned m) ++ [.issued u passed]
  else if num = SYS_open then if 0 ≤ rc.toInt then [.opened u rc] else []
  else if num = SYS_close then if r.ret = 0 then [.closed u (tf.arg0.setWidth 32)] else []
  else []

def events (boot : Boot) (m : Machine) : Label → List Event
  | .scInit i => [.cleared i]
  | .scFdAdd i fd _ => [.granted i fd]
  | .create i cb arg r =>
    match sthreadCreate boot m.kernel (m.policies i) cb arg r with
    | .ok x => [.created x.1 i]
    | .error _ => []
  | .join st => if (m.kernel.find st).isNone then [.unknown st] else []
  | .poll _ =>
    match m.mode with
    | .joining st =>
      match m.kernel.find st with
      | none => []
      | some s =>
        if s.stState = .zombie then [.joined st s.stRet]
        else
          match nextRunnable m.kernel with
          | some t => entered t
          | none => []
    | _ => []
  | .syscall tf r =>
    match m.mode,passes boot m tf with
    | .user u,some passed => callEvents m u tf passed r
    | _,_ => []
  | _ => []

inductive Occurs (boot : Boot) (m : Machine) : Label → Event → Prop
  | cleared (i) : Occurs boot m (.scInit i) (.cleared i)
  | granted (i fd prot) : Occurs boot m (.scFdAdd i fd prot) (.granted i fd)
  | created {i cb arg r id k} : sthreadCreate boot m.kernel (m.policies i) cb arg r = .ok (id,k) →
      Occurs boot m (.create i cb arg r) (.created id i)
  | unknown {st} : m.kernel.find st = none → Occurs boot m (.join st) (.unknown st)
  | joined {r st s} : m.mode = .joining st → m.kernel.find st = some s → s.stState = .zombie →
      Occurs boot m (.poll r) (.joined st s.stRet)
  | performed {l t} : nextRunnable m.kernel = some t → Occurs boot m l (.performed t.stId t.stTf)
  | entered {l t} : nextRunnable m.kernel = some t → Occurs boot m l (.resumed t.stId)
  | returned {l v} : .resumed v ∈ returned m → Occurs boot m l (.resumed v)
  | exited {tf r u passed} : m.mode = .user u → passes boot m tf = some passed →
      tf.rax.setWidth 32 = (666 : CInt) → Occurs boot m (.syscall tf r) (.exited u tf.arg0)
  | issued {tf r u passed} : m.mode = .user u → passes boot m tf = some passed →
      tf.rax.setWidth 32 = SYS_read → Occurs boot m (.syscall tf r) (.issued u passed)
  | opened {tf r u passed} : m.mode = .user u → passes boot m tf = some passed →
      tf.rax.setWidth 32 = SYS_open → 0 ≤ (r.ret.setWidth 32 : CInt).toInt →
      Occurs boot m (.syscall tf r) (.opened u (r.ret.setWidth 32))
  | closed {tf r u passed} : m.mode = .user u → passes boot m tf = some passed →
      tf.rax.setWidth 32 = SYS_close → r.ret = 0 →
      Occurs boot m (.syscall tf r) (.closed u (tf.arg0.setWidth 32))

theorem occurs_of_entered {boot : Boot} {m : Machine} {l : Label} {t : Sthread} {e : Event}
    (ht : nextRunnable m.kernel = some t) (he : e ∈ entered t) : Occurs boot m l e := by
  have he : e = .resumed t.stId ∨ e = .performed t.stId t.stTf := by simpa [entered] using he
  rcases he with rfl | rfl
  · exact .entered ht
  · exact .performed ht

theorem occurs_of_returned {boot : Boot} {m : Machine} {l : Label} {e : Event}
    (he : e ∈ returned m) : Occurs boot m l e := by
  have hmem := he
  unfold returned at he
  split at he
  · obtain rfl := List.mem_singleton.mp he
    exact .returned hmem
  · cases he

theorem occurs_of_call {boot : Boot} {m : Machine} {u : CInt} {tf passed : TrapFrame}
    {r : HostReply} {e : Event} (hm : m.mode = .user u) (hpass : passes boot m tf = some passed)
    (he : e ∈ callEvents m u tf passed r) : Occurs boot m (.syscall tf r) e := by
  simp only [callEvents] at he
  split_ifs at he with h666 hread hopen hrc hclose hret
  · rcases List.mem_append.mp he with he | he
    · exact occurs_of_returned he
    · exact List.mem_singleton.mp he ▸ .exited hm hpass h666
  · rcases List.mem_append.mp he with he | he
    · split at he
      · exact occurs_of_entered ‹_› he
      · exact occurs_of_returned he
    · exact List.mem_singleton.mp he ▸ .issued hm hpass hread
  · exact List.mem_singleton.mp he ▸ .opened hm hpass hopen hrc
  · cases he
  · exact List.mem_singleton.mp he ▸ .closed hm hpass hclose hret
  · cases he
  · cases he

theorem occurs_of_mem {boot : Boot} {m : Machine} {l : Label} {e : Event}
    (he : e ∈ events boot m l) : Occurs boot m l e := by
  cases l with
  | scInit i => exact List.mem_singleton.mp he ▸ .cleared i
  | scFdAdd i fd prot => exact List.mem_singleton.mp he ▸ .granted i fd prot
  | create i cb arg r =>
    simp only [events] at he
    split at he
    · rename_i x hx
      exact List.mem_singleton.mp he ▸ .created hx
    · cases he
  | join st =>
    simp only [events] at he
    split_ifs at he with hnone
    · exact List.mem_singleton.mp he ▸ .unknown (Option.isNone_iff_eq_none.mp hnone)
    · cases he
  | poll r =>
    simp only [events] at he
    split at he
    · rename_i st hm
      split at he
      · cases he
      · rename_i s hf
        split_ifs at he with hz
        · exact List.mem_singleton.mp he ▸ .joined hm hf hz
        · split at he
          · exact occurs_of_entered ‹_› he
          · cases he
    · cases he
  | syscall tf r =>
    simp only [events] at he
    split at he
    · rename_i u passed hm hpass
      exact occurs_of_call hm hpass he
    · cases he
  | _ => cases he

/-- The machine with everything that has happened, most recent first. -/
structure Observed where
  machine : Machine
  history : List Event

def Observed.step (boot : Boot) (x : Observed) (l : Label) : Except Fault Observed := do
  let m ← Sthreads.step boot x.machine l
  .ok ⟨m,events boot x.machine l ++ x.history⟩

/-- Where a thread is between its creation and its join. -/
inductive Life
  | absent
  | executing
  | blocked (tf : TrapFrame)
  | served
  | exited (v : Word)
  | joined
  deriving DecidableEq, Repr

/-- How an event changes the life of its thread; nothing else may happen to it. -/
def Life.next : Event → Life → Option Life
  | .created _ _,.absent => some .executing
  | .created _ _,.joined => some .executing
  | .opened _ _,.executing => some .executing
  | .closed _ _,.executing => some .executing
  | .issued _ tf,.executing => some (.blocked tf)
  | .performed _ tf,.blocked tf' => if tf = tf' then some .served else none
  | .resumed _,.served => some .executing
  | .exited _ v,.executing => some (.exited v)
  | .joined _ v,.exited v' => if v = v' then some .joined else none
  | .unknown _,.absent => some .absent
  | _,_ => none

def Life.after (id : CInt) (e : Event) (l : Life) : Option Life :=
  if e.thread = some id then l.next e else some l

/-- The life of thread `id` after some events, most recent first, if each of them
was in order. -/
def lifeAlong (id : CInt) (start : Life) : List Event → Option Life
  | [] => some start
  | e::h => (lifeAlong id start h).bind (Life.after id e)

def Sthread.life (s : Sthread) (inside : Bool) : Life :=
  match s.stState with
  | .running => if inside then .executing else .blocked s.stTf
  | .zombie => .exited s.stRet
  | .dead => .joined

def lifeOf (m : Machine) (id : CInt) : Life :=
  match m.kernel.find id with
  | none => .absent
  | some s => s.life (m.mode == .user id)

/-- Ids are counted and name one record each. -/
structure Numbered (k : Kernel) : Prop where
  ids : (k.sthreads.map Sthread.stId).Nodup
  counted : ∀ s ∈ k.sthreads, s.stId.toNat ≤ k.sthreadId.toNat
  counter : k.sthreadId.toNat < 2^31

section Numbering
variable {boot : Boot} {k k' : Kernel} {m m' : Machine} {l : Label} {s : Sthread}

theorem Numbered.find_of_mem (h : Numbered k) (hs : s ∈ k.sthreads) : k.find s.stId = some s := by
  obtain ⟨t,ht⟩ := Kernel.find_isSome hs
  obtain ⟨hmem,hid⟩ := Kernel.find_mem ht
  rw [ht,List.inj_on_of_nodup_map h.ids hmem hs hid]

theorem Numbered.same (h : Numbered k) (hk : k'.sthreads = k.sthreads)
    (hid : k'.sthreadId = k.sthreadId) : Numbered k' :=
  ⟨by rw [hk]; exact h.ids,by rw [hk,hid]; exact h.counted,by rw [hid]; exact h.counter⟩

theorem Numbered.evolves (h : Numbered k) (hev : k.Evolves k') : Numbered k' := by
  refine ⟨by rw [hev.ids]; exact h.ids,fun s' hs' => ?_,by rw [hev.counter]; exact h.counter⟩
  obtain ⟨s,hs,hse⟩ := hev.records s' hs'
  rw [hse.id,hev.counter]
  exact h.counted s hs

theorem Numbered.next (h : Numbered k) (h0 : 0 ≤ (k.sthreadId + 1).toInt) :
    (k.sthreadId + 1).toNat = k.sthreadId.toNat + 1 ∧ k.sthreadId.toNat + 1 < 2^31 := by
  have hlt := h.counter
  have hsum : (k.sthreadId + 1).toNat = k.sthreadId.toNat + 1 := by
    have hone : (1 : CInt).toNat = 1 := rfl
    rw [BitVec.toNat_add,hone]
    exact Nat.mod_eq_of_lt (by omega)
  rw [BitVec.toInt_eq_toNat_cond,hsum] at h0
  split_ifs at h0 <;> omega

theorem Numbered.notMem (h : Numbered k) (h0 : 0 ≤ (k.sthreadId + 1).toInt) (hs : s ∈ k.sthreads) :
    s.stId ≠ k.sthreadId + 1 := by
  intro heq
  have hle := h.counted s hs
  have hnext := (h.next h0).1
  rw [heq] at hle
  omega

theorem Numbered.fresh (h : Numbered k) (h0 : 0 ≤ (k.sthreadId + 1).toInt)
    (hid : s.stId = k.sthreadId + 1) :
    Numbered {k with sthreads := s::k.sthreads,sthreadId := k.sthreadId + 1} := by
  obtain ⟨hnext,hbound⟩ := h.next h0
  refine ⟨?_,fun t ht => ?_,by rw [hnext]; exact hbound⟩
  · rw [List.map_cons,List.nodup_cons]
    refine ⟨fun hin => ?_,h.ids⟩
    obtain ⟨t,ht,heq⟩ := List.mem_map.mp hin
    exact h.notMem h0 ht (heq.trans hid)
  · rcases List.mem_cons.mp ht with rfl | ht
    · rw [hid]
    · have hle := h.counted t ht
      change t.stId.toNat ≤ (k.sthreadId + 1).toNat
      omega

theorem Numbered.prepared (h : Numbered m.kernel) (hp : Prepared boot m l k) : Numbered k := by
  cases hp with
  | same | remap | tag => exact h.same rfl rfl
  | bump tid sz => exact h.same (by rw [smalloc_eq]) (by rw [smalloc_eq])
  | @fresh i cb arg r k₁ _ hk h0 =>
    have hk₁ : Numbered k₁ := h.same (by rw [kmalloc_eq hk]) (by rw [kmalloc_eq hk])
    exact hk₁.fresh h0 rfl

theorem Numbered.step (h : Numbered m.kernel) (hs : step boot m l = .ok m') :
    Numbered m'.kernel := by
  obtain ⟨k₀,hp,hev⟩ := step_evolves hs
  exact (h.prepared hp).evolves hev

end Numbering

section Lives
variable {m m' : Machine} {id : CInt} {s s' : Sthread} {k k' : Kernel}

theorem lifeAlong_append (id : CInt) (start : Life) (es h : List Event) :
    lifeAlong id start (es ++ h) = (lifeAlong id start h).bind fun l => lifeAlong id l es := by
  induction es with
  | nil => simp [lifeAlong]
  | cons e es ih =>
    rw [List.cons_append,lifeAlong,ih,Option.bind_assoc]
    rfl

theorem lifeAlong_other {es : List Event} (h : ∀ e ∈ es, e.thread ≠ some id) (start : Life) :
    lifeAlong id start es = some start := by
  induction es with
  | nil => rfl
  | cons e es ih =>
    rw [lifeAlong,ih fun x hx => h x (List.mem_cons_of_mem _ hx),Option.bind_some,Life.after,
      if_neg (h e List.mem_cons_self)]

theorem find_congr (h : k'.sthreads = k.sthreads) (id : CInt) : k'.find id = k.find id := by
  rw [Kernel.find,Kernel.find,h]

theorem lifeOf_none (h : m.kernel.find id = none) : lifeOf m id = .absent := by
  rw [lifeOf,h]

theorem lifeOf_some (h : m.kernel.find id = some s) :
    lifeOf m id = s.life (m.mode == .user id) := by
  rw [lifeOf,h]

theorem lifeOf_congr (hfind : m'.kernel.find id = m.kernel.find id)
    (hmode : m'.mode = .user id ↔ m.mode = .user id) : lifeOf m' id = lifeOf m id := by
  have hbeq : (m'.mode == .user id) = (m.mode == .user id) := by
    rw [Bool.eq_iff_iff,beq_iff_eq,beq_iff_eq,hmode]
  rw [lifeOf,lifeOf,hfind,hbeq]

/-- A record that is running outside of user mode waits for its read. -/
theorem life_blocked (h : s.stState = .running) : s.life false = .blocked s.stTf := by
  simp [Sthread.life,h]

theorem life_executing (h : s.stState = .running) : s.life true = .executing := by
  simp [Sthread.life,h]

theorem life_exited (h : s.stState = .zombie) (inside : Bool) : s.life inside = .exited s.stRet := by
  rw [Sthread.life,h]

theorem life_joined (h : s.stState = .dead) (inside : Bool) : s.life inside = .joined := by
  rw [Sthread.life,h]

theorem lifeOf_entered (h : m.kernel.find id = some s) (hrun : s.stState = .running)
    (hm : m.mode = .user id) : lifeOf m id = .executing := by
  rw [lifeOf_some h,beq_iff_eq.mpr hm,life_executing hrun]

theorem lifeOf_waiting (h : m.kernel.find id = some s) (hrun : s.stState = .running)
    (hm : m.mode ≠ .user id) : lifeOf m id = .blocked s.stTf := by
  rw [lifeOf_some h,beq_eq_false_iff_ne.mpr hm,life_blocked hrun]

theorem found_of_blocked {tf : TrapFrame} (h : lifeOf m id = .blocked tf) :
    ∃ s, m.kernel.find id = some s ∧ s.stState = .running ∧ s.stTf = tf := by
  cases hf : m.kernel.find id with
  | none =>
    rw [lifeOf_none hf] at h
    cases h
  | some s =>
    rw [lifeOf_some hf] at h
    unfold Sthread.life at h
    split at h
    · rename_i hrun
      split_ifs at h
      exact ⟨s,rfl,hrun,Life.blocked.inj h⟩
    · cases h
    · cases h

theorem find_updated (h : k.find s'.stId = some s) (hk : k'.sthreads = (k.update s').sthreads) :
    k'.find s'.stId = some s' := by
  rw [find_congr hk,Kernel.find_update,if_pos rfl,h]
  rfl

theorem find_others (hk : k'.sthreads = (k.update s').sthreads) (hne : id ≠ s'.stId) :
    k'.find id = k.find id := by
  rw [find_congr hk,Kernel.find_update,if_neg hne]

theorem lifeOf_update (hf : m.kernel.find s'.stId = some s)
    (hk : m'.kernel.sthreads = (m.kernel.update s').sthreads) (hmode : m'.mode = m.mode)
    (hsame : s'.stState = s.stState ∧ s'.stTf = s.stTf ∧ s'.stRet = s.stRet) (id : CInt) :
    lifeOf m' id = lifeOf m id := by
  by_cases hid : id = s'.stId
  · subst hid
    rw [lifeOf_some (find_updated hf hk),lifeOf_some hf,hmode]
    simp only [Sthread.life,hsame]
  · exact lifeOf_congr (find_others hk hid) (by rw [hmode])

end Lives

section Checks
variable {boot : Boot} {m m' : Machine} {s s' : Sthread} {tf : TrapFrame}

theorem passes_of_check {c : CInt} {x : Option TrapFrame} (hc : m.kernel.ksCurrent = some c)
    (hf : m.kernel.find c = some s) (hcheck : syscallCheck boot m.kernel s tf = .ok (s',x)) :
    passes boot m tf = x := by
  simp only [passes,hc,Option.bind_some,hf,hcheck]

theorem events_syscall {u c : CInt} {x : Option TrapFrame} (hm : m.mode = .user u)
    (hc : m.kernel.ksCurrent = some c) (hf : m.kernel.find c = some s)
    (hcheck : syscallCheck boot m.kernel s tf = .ok (s',x)) (r : HostReply) :
    events boot m (.syscall tf r) = x.elim [] fun passed => callEvents m u tf passed r := by
  simp only [events,hm,passes_of_check hc hf hcheck]
  cases x <;> rfl

theorem syscallCheck_life {x : Option TrapFrame} (h : syscallCheck boot m.kernel s tf = .ok (s',x)) :
    s'.stState = s.stState ∧ s'.stTf = s.stTf ∧ s'.stRet = s.stRet := by
  cases checked_of_syscallCheck h <;> exact ⟨rfl,rfl,rfl⟩

theorem syscallCheck_frame {tf' : TrapFrame} (h : syscallCheck boot m.kernel s tf = .ok (s',some tf'))
    (hmem : memArg boot m.kernel s (tf.rax.setWidth 32) tf = none) : tf' = tf := by
  cases checked_of_syscallCheck h with
  | plain => rfl
  | walked _ harg => cases hmem.symm.trans harg

end Checks

theorem good_current {m : Machine} {u c : CInt} (hg : Good m) (hm : m.mode = .user u)
    (hc : m.kernel.ksCurrent = some c) : u = c :=
  Option.some.inj (((good_user hm).mp hg).2.1.symm.trans hc)

/-- No nested jump has returned so far: control is where it should be, ids name
threads, and whoever runs is a running thread. -/
structure Orderly (m : Machine) : Prop where
  good : Good m
  numbered : Numbered m.kernel
  running : ∀ u, m.mode = .user u → lifeOf m u = .executing

/-- The events of a step are in order for every thread and lead to the lives that the
records then show. -/
def LivesFollow (boot : Boot) (m : Machine) (l : Label) (m' : Machine) : Prop :=
  (∀ id, lifeAlong id (lifeOf m id) (events boot m l) = some (lifeOf m' id)) ∧
    ∀ u, m'.mode = .user u → lifeOf m' u = .executing

section Steps
variable {boot : Boot} {m m' : Machine} {l : Label} {u id : CInt} {s s' t : Sthread}

theorem LivesFollow.quiet (ho : Orderly m) (he : ∀ e ∈ events boot m l, e.thread = none)
    (hk : m'.kernel.sthreads = m.kernel.sthreads) (hmode : ∀ u, m'.mode = .user u ↔ m.mode = .user u) :
    LivesFollow boot m l m' := by
  have hsame (id : CInt) : lifeOf m' id = lifeOf m id := lifeOf_congr (find_congr hk id) (hmode id)
  refine ⟨fun id => ?_,fun u hu => ?_⟩
  · rw [hsame,lifeAlong_other fun e hmem => by simp [he e hmem]]
  · rw [hsame]
    exact ho.running u ((hmode u).mp hu)

theorem lifeAlong_single (id : CInt) (start : Life) (e : Event) :
    lifeAlong id start [e] = start.after id e := rfl

theorem after_eq {e : Event} {L : CInt → Life} {x : Life} (he : e.thread = some u)
    (hx : (L u).next e = some x) (id : CInt) :
    (L id).after id e = some (if id = u then x else L id) := by
  rw [Life.after,he]
  by_cases hid : id = u
  · subst hid
    rw [if_pos rfl,if_pos rfl,hx]
  · rw [if_neg hid,if_neg fun h => hid (Option.some.inj h).symm]

theorem lifeAlong_entered {L : CInt → Life} (ht : L t.stId = .blocked t.stTf) (id : CInt) :
    lifeAlong id (L id) (entered t) = some (if id = t.stId then .executing else L id) := by
  have hperf (x : CInt) : lifeAlong x (L x) [.performed t.stId t.stTf] =
      some (if x = t.stId then .served else L x) :=
    after_eq rfl (by rw [ht]; exact if_pos rfl) x
  have hres : (if id = t.stId then Life.served else L id).after id (.resumed t.stId) =
      some (if id = t.stId then .executing else if id = t.stId then .served else L id) :=
    after_eq (L := fun x => if x = t.stId then .served else L x) rfl (by rw [if_pos rfl]; rfl) id
  rw [entered,lifeAlong,hperf,Option.bind_some,hres]
  by_cases hid : id = t.stId <;> simp [hid]

/-- Nobody is in user mode after the record of a thread has been replaced, and no
other thread was before. -/
theorem lifeOf_leave (hm : ∀ v, m.mode = .user v → v = s'.stId) (hf : m.kernel.find s'.stId = some s)
    (hk : m'.kernel.sthreads = (m.kernel.update s').sthreads) (hmode : ∀ v, m'.mode ≠ .user v)
    (id : CInt) : lifeOf m' id = if id = s'.stId then s'.life false else lifeOf m id := by
  split_ifs with hx
  · subst hx
    rw [lifeOf_some (find_updated hf hk),beq_eq_false_iff_ne.mpr (hmode _)]
  · exact lifeOf_congr (find_others hk hx) (iff_of_false (hmode id) fun h => hx (hm id h))

theorem lifeOf_enter (hmode : ∀ v, m.mode ≠ .user v) (hf : m.kernel.find s'.stId = some s)
    (hk : m'.kernel.sthreads = (m.kernel.update s').sthreads) (hm : m'.mode = .user s'.stId)
    (hrun : s'.stState = .running) (id : CInt) :
    lifeOf m' id = if id = s'.stId then .executing else lifeOf m id := by
  split_ifs with hx
  · subst hx
    exact lifeOf_entered (find_updated hf hk) hrun hm
  · refine lifeOf_congr (find_others hk hx) (iff_of_false ?_ (hmode id))
    rw [hm]
    exact fun h => hx (Mode.user.inj h).symm

theorem nextRunnable_running {k : Kernel} (h : nextRunnable k = some t) :
    t.stState = .running ∧ k.ksCurrent ≠ some t.stId := by
  have hp := List.find?_some h
  simp only [Bool.and_eq_true,bne_iff_ne,beq_iff_eq] at hp
  exact ⟨hp.2,fun hcur => hp.1 hcur.symm⟩

theorem schedule_lives {caller : Caller} {r : HostReply} (hmode : ∀ v, m.mode ≠ .user v)
    (hn : Numbered m.kernel) (ht : nextRunnable m.kernel = some t)
    (h : schedule boot m caller r = .ok m') :
    (∀ id, lifeAlong id (lifeOf m id) (entered t) = some (lifeOf m' id)) ∧
      ∀ v, m'.mode = .user v → lifeOf m' v = .executing := by
  rcases schedule_cases h with ⟨t',ht',hm'⟩ | ⟨hnone,-,-⟩
  · obtain rfl := Option.some.inj (ht.symm.trans ht')
    obtain ⟨hrun,-⟩ := nextRunnable_running ht
    have hf := hn.find_of_mem (find_nextRunnable ht)
    have hlives (id : CInt) : lifeOf m' id = if id = t.stId then .executing else lifeOf m id := by
      set t' : Sthread := {t with stTf := {t.stTf with rax := r.ret}}
      have hf' : m.kernel.find t'.stId = some t := hf
      have hrun' : t'.stState = .running := hrun
      rw [hm']
      exact lifeOf_enter hmode hf' rfl rfl hrun' id
    refine ⟨fun id => ?_,fun v hv => ?_⟩
    · rw [lifeAlong_entered (lifeOf_waiting hf hrun (hmode _)),hlives]
    · rw [hm'] at hv
      rw [hlives,if_pos (Mode.user.inj hv).symm]
  · cases hnone.symm.trans ht

theorem returned_eq_nil (h : nested m = false) : returned m = [] := by
  unfold returned
  split
  · rename_i v fs hframes
    simp [nested,hframes] at h
  · rfl

structure Launched (sc : Sc) (id : CInt) (s : Sthread) : Prop where
  id : s.stId = id
  running : s.stState = .running
  policy : s.stSc = sc

/-- `sthread_create` launches the record of a dead thread, or adds one with the next
number. -/
theorem create_cases {k k' : Kernel} {sc : Sc} {cb arg : Word} {r : CreateReply}
    (h : sthreadCreate boot k sc cb arg r = .ok (id,k')) :
    (∃ s s', s ∈ k.sthreads ∧ s.stId = id ∧ s.stState = .dead ∧ Launched sc id s' ∧
      k'.sthreads = (k.update s').sthreads) ∨
    (∃ s s', id = k.sthreadId + 1 ∧ 0 ≤ (k.sthreadId + 1).toInt ∧ s.stId = id ∧ Launched sc id s' ∧
      k'.sthreads = (Kernel.update {k with sthreads := s::k.sthreads} s').sthreads) := by
  unfold sthreadCreate at h
  split at h
  · rename_i s hs
    obtain ⟨rfl,rfl⟩ := Prod.mk.inj (Except.ok.inj h)
    have hmatch := List.find?_some hs
    simp only [Bool.and_eq_true,beq_iff_eq] at hmatch
    exact .inl ⟨s,{s with stSc := sc,stState := .running},List.mem_of_find?_eq_some hs,rfl,hmatch.1,
      ⟨rfl,rfl,rfl⟩,rfl⟩
  · obtain ⟨⟨s,k₂⟩,hnew,h⟩ := bind_ok.mp h
    obtain ⟨rfl,rfl⟩ := Prod.mk.inj (Except.ok.inj h)
    obtain ⟨k₁,hk₁,h0,hs,rfl⟩ := createNewSthread_ok hnew
    have hsame : k₁.sthreads = k.sthreads := by rw [kmalloc_eq hk₁]
    have hcount : k₁.sthreadId = k.sthreadId := by rw [kmalloc_eq hk₁]
    have hid : s.stId = k.sthreadId + 1 := by
      rw [hs,← hcount]
      rfl
    have hsc : s.stSc = sc := by
      rw [hs]
      rfl
    refine .inr ⟨s,{s with stState := .running},hid,hcount ▸ h0,rfl,⟨rfl,rfl,hsc⟩,?_⟩
    simp only [launchSthread,Kernel.update,hsame]

theorem Numbered.find_next {k : Kernel} (h : Numbered k) (h0 : 0 ≤ (k.sthreadId + 1).toInt) :
    k.find (k.sthreadId + 1) = none := by
  rw [Kernel.find,List.find?_eq_none]
  intro t ht
  rw [beq_iff_eq]
  exact h.notMem h0 ht

theorem created_life {i : ℕ} {cb arg : Word} {r : CreateReply} {k : Kernel} (hn : Numbered m.kernel)
    (h : sthreadCreate boot m.kernel (m.policies i) cb arg r = .ok (id,k)) :
    lifeOf m id = .absent ∨ lifeOf m id = .joined := by
  rcases create_cases h with ⟨s,-,hs,rfl,hdead,-⟩ | ⟨-,-,rfl,h0,-⟩
  · exact .inr ((lifeOf_some (hn.find_of_mem hs)).trans (life_joined hdead _))
  · exact .inl (lifeOf_none (hn.find_next h0))

theorem create_lives {i : ℕ} {cb arg : Word} {r : CreateReply} {k : Kernel} {fs : List Frame}
    (hmode : ∀ v, m.mode ≠ .user v) (hn : Numbered m.kernel)
    (h : sthreadCreate boot m.kernel (m.policies i) cb arg r = .ok (id,k)) :
    LivesFollow boot m (.create i cb arg r) {m with kernel := k,mode := .user id,frames := fs} := by
  set m' : Machine := {m with kernel := k,mode := .user id,frames := fs}
  have hevents : events boot m (.create i cb arg r) = [.created id i] := by simp only [events,h]
  have hnext : (lifeOf m id).next (.created id i) = some .executing := by
    rcases created_life hn h with hl | hl <;> rw [hl] <;> rfl
  have hlives (x : CInt) : lifeOf m' x = if x = id then .executing else lifeOf m x := by
    rcases create_cases h with ⟨s,s',hmem,hs,-,⟨rfl,hrun,-⟩,hk⟩ | ⟨s,s',-,-,hs,⟨rfl,hrun,-⟩,hk⟩
    · exact lifeOf_enter hmode (hs ▸ hn.find_of_mem hmem) hk rfl hrun x
    · set m₂ : Machine := {m with kernel := {m.kernel with sthreads := s::m.kernel.sthreads}}
      have hmode₂ (v : CInt) : m₂.mode ≠ .user v := hmode v
      have hf : m₂.kernel.find s'.stId = some s := List.find?_cons_of_pos (beq_iff_eq.mpr hs)
      have henter : lifeOf m' x = if x = s'.stId then .executing else lifeOf m₂ x :=
        lifeOf_enter hmode₂ hf hk rfl hrun x
      rw [henter]
      split_ifs with hx
      · rfl
      · refine lifeOf_congr ?_ Iff.rfl
        exact List.find?_cons_of_neg (by simpa [hs] using Ne.symm hx)
  refine ⟨fun x => ?_,fun v hv => ?_⟩
  · rw [hevents,lifeAlong_single,after_eq rfl hnext,hlives]
  · rw [hlives,if_pos (Mode.user.inj hv).symm]

/-- A step whose events, if any, are about the running thread's work, and that changes
no more of its record than that. -/
theorem LivesFollow.kept (ho : Orderly m) (hf : m.kernel.find s'.stId = some s)
    (hsame : s'.stState = s.stState ∧ s'.stTf = s.stTf ∧ s'.stRet = s.stRet)
    (hk : m'.kernel.sthreads = (m.kernel.update s').sthreads) (hmode : m'.mode = m.mode)
    (he : ∀ id, lifeAlong id (lifeOf m id) (events boot m l) = some (lifeOf m id)) :
    LivesFollow boot m l m' := by
  have hlife := lifeOf_update hf hk hmode hsame
  refine ⟨fun id => by rw [he,hlife],fun u hu => ?_⟩
  rw [hlife]
  exact ho.running u (hmode ▸ hu)

theorem lifeAlong_work {e : Event} (hu : lifeOf m u = .executing) (he : e.thread = some u)
    (hnext : Life.executing.next e = some .executing) (id : CInt) :
    lifeAlong id (lifeOf m id) [e] = some (lifeOf m id) := by
  rw [lifeAlong_single,after_eq he (by rw [hu]; exact hnext)]
  split_ifs with hid
  · rw [hid,hu]
  · rfl

theorem userStore_sthreads {k k' : Kernel} {va : Word} {b : Byte}
    (h : userStore boot k u va b = .ok k') : k'.ksCurrent = k.ksCurrent ∧
      (k'.sthreads = k.sthreads ∨ ∃ s t, k.find u = some s ∧
        k'.sthreads = (k.update {s with table := t}).sthreads) := by
  unfold userStore at h
  split at h
  · cases h
  · rename_i s hs
    split_ifs at h
    · split at h
      · cases h
      · rename_i t mem _
        cases h
        exact ⟨rfl,.inr ⟨s,t,hs,rfl⟩⟩
    · split at h
      · cases h
      · cases h
        exact ⟨rfl,.inl rfl⟩

theorem callEvents_exit {tf passed : TrapFrame} {r : HostReply} (hn : nested m = false)
    (h : tf.rax.setWidth 32 = (666 : CInt)) :
    callEvents m u tf passed r = [.exited u tf.arg0] := by
  simp only [callEvents,h,if_true,returned_eq_nil hn,List.nil_append]

theorem callEvents_read {tf passed : TrapFrame} {r : HostReply}
    (h : tf.rax.setWidth 32 = SYS_read) :
    callEvents m u tf passed r = (match nextRunnable m.kernel with
      | some s => entered s
      | none => returned m) ++ [.issued u passed] := by
  have h666 : (SYS_read : CInt) ≠ 666 := by decide
  simp only [callEvents,h,h666,if_true,if_false]

theorem callEvents_other {tf passed : TrapFrame} {r : HostReply}
    (h666 : tf.rax.setWidth 32 ≠ (666 : CInt)) (hread : tf.rax.setWidth 32 ≠ SYS_read)
    (hopen : tf.rax.setWidth 32 ≠ SYS_open) : callEvents m u tf passed r =
      if tf.rax.setWidth 32 = SYS_close ∧ r.ret = 0 then [.closed u (tf.arg0.setWidth 32)] else [] := by
  simp only [callEvents,h666,hread,hopen,if_false,ite_and]

theorem callEvents_open {tf passed : TrapFrame} {r : HostReply}
    (h : tf.rax.setWidth 32 = SYS_open) : callEvents m u tf passed r =
      if 0 ≤ (r.ret.setWidth 32 : CInt).toInt then [.opened u (r.ret.setWidth 32)] else [] := by
  have h666 : (SYS_open : CInt) ≠ 666 := by decide
  have hread : (SYS_open : CInt) ≠ SYS_read := by decide
  simp only [callEvents,h,h666,hread,if_true,if_false]

theorem issued_lives (hu : lifeOf m s'.stId = .executing) (hm : ∀ v, m.mode = .user v → v = s'.stId)
    (hf : m.kernel.find s'.stId = some s) (hrun : s'.stState = .running)
    (hk : m'.kernel.sthreads = (m.kernel.update s').sthreads)
    (hmode : ∀ v, m'.mode ≠ .user v) (id : CInt) :
    lifeAlong id (lifeOf m id) [.issued s'.stId s'.stTf] = some (lifeOf m' id) := by
  rw [lifeAlong_single,after_eq rfl (by rw [hu]; rfl),lifeOf_leave hm hf hk hmode,life_blocked hrun]

theorem running_of_executing {inside : Bool} (h : s.life inside = .executing) :
    s.stState = .running := by
  unfold Sthread.life at h
  split at h
  · assumption
  · cases h
  · cases h

/-- A read saves its frame and enters another thread or leaves user mode. -/
theorem read_lives {tf tf' : TrapFrame} {r : HostReply} (ho : Orderly m)
    (hend : (endsJump boot m (.syscall tf r) && nested m) = false) (hm : m.mode = .user u)
    (hc : m.kernel.ksCurrent = some u) (hf : m.kernel.find u = some s)
    (hcheck : syscallCheck boot m.kernel s tf = .ok (s',some tf'))
    (hread : tf.rax.setWidth 32 = SYS_read)
    (h : schedule boot {m with kernel := m.kernel.update {s' with stTf := tf'}} (.trap u) r = .ok m') :
    LivesFollow boot m (.syscall tf r) m' := by
  have hu := ho.running u hm
  have hrun : s'.stState = .running := by
    rw [(syscallCheck_life hcheck).1]
    exact running_of_executing ((lifeOf_some hf).symm.trans hu)
  obtain rfl : s'.stId = u := (syscallCheck_evolves hcheck).id.trans (Kernel.find_mem hf).2
  set s'' : Sthread := {s' with stTf := tf'}
  -- the machine between saving the frame and what `schedule` then does
  set mid : Machine := {m with kernel := m.kernel.update s'',mode := .master}
  have hidle (v : CInt) : mid.mode ≠ .user v := Mode.noConfusion
  have hissued (id : CInt) : lifeAlong id (lifeOf m id) [.issued s''.stId s''.stTf] =
      some (lifeOf mid id) := by
    have hu' : lifeOf m s''.stId = .executing := hu
    have hf' : m.kernel.find s''.stId = some s := hf
    have hrun' : s''.stState = .running := hrun
    refine issued_lives hu' (fun v hv => ?_) hf' hrun' rfl hidle id
    exact (Mode.user.inj (hm.symm.trans hv)).symm
  have hnext : nextRunnable mid.kernel = nextRunnable m.kernel :=
    nextRunnable_update (hc.trans (congrArg some (Kernel.find_mem hf).2.symm))
      (Kernel.find_mem hf).2.symm
  have hnum : Numbered mid.kernel :=
    ho.numbered.evolves (Kernel.evolves_update (Kernel.find_mem hf).1
      ((syscallCheck_evolves hcheck).trans (s'.evolves_with s'.stState s'.stRet tf' s'.stWalk)) rfl)
  have hevents : events boot m (.syscall tf r) = (match nextRunnable m.kernel with
      | some s => entered s
      | none => returned m) ++ [.issued s''.stId s''.stTf] := by
    rw [events_syscall hm hc hf hcheck]
    exact callEvents_read hread
  rw [LivesFollow,hevents]
  rcases schedule_cases h with ⟨t,ht,-⟩ | ⟨hnone,-,hunw⟩
  · have hsched : schedule boot mid (.trap s'.stId) r = .ok m' := h
    have hlives := schedule_lives hidle hnum ht hsched
    simp only [hnext.symm.trans ht]
    refine ⟨fun id => ?_,hlives.2⟩
    rw [lifeAlong_append,hissued,Option.bind_some,hlives.1]
  · have hnone' : nextRunnable m.kernel = none := hnext.symm.trans hnone
    have hn : nested m = false := by
      rw [endsJump,permitted_of_check hc hf hcheck,hread,hnone'] at hend
      exact hend
    obtain ⟨hmode,-,-⟩ := unwind_idle ((good_user hm).mp ho.good).1 hn hunw
    obtain ⟨f,fs,-,hm'⟩ := unwind_ok hunw
    have hsame (id : CInt) : lifeOf m' id = lifeOf mid id := by
      refine lifeOf_congr (find_congr ?_ id) (iff_of_false (hmode id) (hidle id))
      rw [hm']
    simp only [hnone',returned_eq_nil hn,List.nil_append]
    exact ⟨fun id => by rw [hissued,hsame],fun v hv => absurd hv (hmode v)⟩

theorem exit_lives {tf tf' : TrapFrame} {r : HostReply} (ho : Orderly m)
    (hend : (endsJump boot m (.syscall tf r) && nested m) = false) (hm : m.mode = .user u)
    (hc : m.kernel.ksCurrent = some u) (hf : m.kernel.find u = some s)
    (hcheck : syscallCheck boot m.kernel s tf = .ok (s',some tf'))
    (h666 : tf.rax.setWidth 32 = (666 : CInt))
    (h : unwind boot {m with kernel := exitKernel boot m.kernel s' tf'.arg0} = .ok m') :
    LivesFollow boot m (.syscall tf r) m' := by
  have hn : nested m = false := by
    rw [endsJump,permitted_of_check hc hf hcheck,h666] at hend
    exact hend
  have hframe : tf' = tf := by
    refine syscallCheck_frame hcheck ?_
    rw [h666]
    rfl
  subst hframe
  have hu := ho.running u hm
  obtain ⟨hmode,-,-⟩ := unwind_idle ((good_user hm).mp ho.good).1 hn h
  obtain ⟨f,fs,-,hm'⟩ := unwind_ok h
  obtain rfl : s'.stId = u := (syscallCheck_evolves hcheck).id.trans (Kernel.find_mem hf).2
  set z : Sthread := {(recycle boot {s' with stRet := tf'.arg0} m.kernel.mem).1 with
    stState := .zombie}
  have hf' : m.kernel.find z.stId = some s := hf
  have hk : m'.kernel.sthreads = (m.kernel.update z).sthreads := by
    rw [hm']
    rfl
  have hz : z.life false = .exited tf'.arg0 := rfl
  have hu' : lifeOf m z.stId = .executing := hu
  have hevents : events boot m (.syscall tf' r) = [.exited z.stId tf'.arg0] := by
    rw [events_syscall hm hc hf hcheck]
    exact callEvents_exit hn h666
  have honly (v : CInt) (hv : m.mode = .user v) : v = z.stId :=
    (Mode.user.inj (hm.symm.trans hv)).symm
  refine ⟨fun id => ?_,fun v hv => absurd hv (hmode v)⟩
  rw [hevents,lifeAlong_single,lifeOf_leave honly hf' hk hmode,hz]
  exact after_eq rfl (by rw [hu']; rfl) id

theorem collect_lives {st : CInt} {r : HostReply} (hm : m.mode = .joining st)
    (hf : m.kernel.find st = some s) (hz : s.stState = .zombie) :
    LivesFollow boot m (.poll r)
      {m with kernel := m.kernel.update {s with stState := .dead},mode := .master} := by
  obtain rfl := (Kernel.find_mem hf).2
  set d : Sthread := {s with stState := .dead}
  have hevents : events boot m (.poll r) = [.joined d.stId s.stRet] := by
    simp only [events,hm,hf,hz,if_true]
    rfl
  have hlife : lifeOf m d.stId = .exited s.stRet := (lifeOf_some hf).trans (life_exited hz _)
  have hf' : m.kernel.find d.stId = some s := hf
  have hd : d.life false = .joined := rfl
  set m' : Machine := {m with kernel := m.kernel.update d,mode := .master}
  have hidle (v : CInt) : m'.mode ≠ .user v := Mode.noConfusion
  have honly (v : CInt) (hv : m.mode = .user v) : v = d.stId := by
    rw [hm] at hv
    cases hv
  refine ⟨fun id => ?_,fun v hv => absurd hv (hidle v)⟩
  rw [hevents,lifeAlong_single,lifeOf_leave honly hf' rfl hidle,hd]
  exact after_eq rfl (by rw [hlife]; exact if_pos rfl) id

theorem LivesFollow.served {tf : TrapFrame} {r : HostReply} {sc : Sc} {mem : Mem}
    {x : Option TrapFrame} (ho : Orderly m) (hm : m.mode = .user u)
    (hf : m.kernel.find u = some s) (hcheck : syscallCheck boot m.kernel s tf = .ok (s',x))
    (he : ∀ e ∈ events boot m (.syscall tf r), e.thread = some u ∧
      Life.executing.next e = some .executing)
    (hone : (events boot m (.syscall tf r)).length ≤ 1) :
    LivesFollow boot m (.syscall tf r)
      {m with kernel := {m.kernel.update {s' with stSc := sc} with mem := mem}} := by
  have hid : s'.stId = u := (syscallCheck_evolves hcheck).id.trans (Kernel.find_mem hf).2
  have hf' : m.kernel.find ({s' with stSc := sc} : Sthread).stId = some s := by rw [← hf,← hid]
  obtain ⟨hstate,hframe,hret⟩ := syscallCheck_life hcheck
  refine .kept ho hf' ⟨hstate,hframe,hret⟩ rfl rfl fun id => ?_
  match hevents : events boot m (.syscall tf r) with
  | [] => rfl
  | [e] =>
    obtain ⟨hthread,hnext⟩ := he e (by rw [hevents]; exact List.mem_singleton_self e)
    exact lifeAlong_work (ho.running u hm) hthread hnext id
  | _::_::_ =>
    rw [hevents] at hone
    simp at hone

/-- The events of every step are in order, unless a nested jump returns. -/
theorem lives_step (ho : Orderly m) (hend : (endsJump boot m l && nested m) = false)
    (h : step boot m l = .ok m') : LivesFollow boot m l m' := by
  cases stepped_of_step h with
  | remap pg => exact .quiet ho (by simp [events]) rfl fun u => Iff.rfl
  | tagNew hm hk =>
    obtain ⟨mem,-,hk⟩ := bind_ok.mp hk
    cases hk
    exact .quiet ho (by simp [events]) rfl fun u => Iff.rfl
  | smalloc tid sz hm => exact .quiet ho (by simp [events]) (by rw [smalloc_eq]) fun u => Iff.rfl
  | scInit | scMemAdd | scFdAdd | scSysAdd =>
    exact .quiet ho (by simp [events,Event.thread]) rfl fun u => Iff.rfl
  | create hm hk => exact create_lives (by simp [hm]) ho.numbered hk
  | @joinNone st hm hf =>
    have hevents : events boot m (.join st) = [.unknown st] := by simp [events,hf]
    refine ⟨fun id => ?_,ho.running⟩
    rw [hevents,lifeAlong_single,after_eq rfl (by rw [lifeOf_none hf]; rfl)]
    split_ifs with hid
    · rw [hid,lifeOf_none hf]
    · rfl
  | joinSome hm hf => exact .quiet ho (by simp [events,hf]) rfl (by simp [hm])
  | collect r hm hf hz => exact collect_lives hm hf hz
  | @wait st s r _ hm hf hz hsched =>
    have hmode (v : CInt) : m.mode ≠ .user v := by simp [hm]
    rcases schedule_cases hsched with ⟨t,ht,-⟩ | ⟨-,⟨v,hv⟩,-⟩
    · have hevents : events boot m (.poll r) = entered t := by simp [events,hm,hf,hz,ht]
      rw [LivesFollow,hevents]
      exact schedule_lives hmode ho.numbered ht hsched
    · cases hv
  | user hm => exact .quiet ho (by simp [events]) rfl fun u => Iff.rfl
  | @store u va b k hm hk =>
    rcases (userStore_sthreads hk).2 with hsame | ⟨s,t,hf,hsame⟩
    · exact .quiet ho (by simp [events]) hsame fun u => Iff.rfl
    · have hf' : m.kernel.find ({s with table := t} : Sthread).stId = some s := by
        rw [← hf,← (Kernel.find_mem hf).2]
      exact .kept ho hf' ⟨rfl,rfl,rfl⟩ hsame rfl fun id => rfl
  | blocked r hm hc hf hcheck =>
    obtain rfl := good_current ho.good hm hc
    have hevents := events_syscall hm hc hf hcheck r
    exact .served ho hm hf hcheck (by simp [hevents]) (by simp [hevents])
  | exited hm hc hf hcheck h666 hunw =>
    obtain rfl := good_current ho.good hm hc
    exact exit_lives ho hend hm hc hf hcheck h666 hunw
  | read hm hc hf hcheck hread hsched =>
    obtain rfl := good_current ho.good hm hc
    exact read_lives ho hend hm hc hf hcheck hread hsched
  | opened r hm hc hf hcheck hopen hsc hrc =>
    obtain rfl := good_current ho.good hm hc
    have hevents := events_syscall hm hc hf hcheck r
    rw [Option.elim_some,callEvents_open hopen,if_pos hrc] at hevents
    exact .served ho hm hf hcheck (by simp [hevents,Event.thread,Life.next]) (by simp [hevents])
  | openFailed r hm hc hf hcheck hopen hrc =>
    obtain rfl := good_current ho.good hm hc
    have hevents := events_syscall hm hc hf hcheck r
    rw [Option.elim_some,callEvents_open hopen,if_neg hrc] at hevents
    exact .served ho hm hf hcheck (by simp [hevents]) (by simp [hevents])
  | @passed u c s s' tf tf' r hm hc hf hcheck hnum hopen =>
    obtain rfl := good_current ho.good hm hc
    have hevents := events_syscall hm hc hf hcheck r
    rw [Option.elim_some,callEvents_other hnum.1 hnum.2 hopen] at hevents
    refine .served ho hm hf hcheck ?_ ?_ <;> rw [hevents] <;> split_ifs <;>
      simp [Event.thread,Life.next]

theorem Orderly.step (ho : Orderly m) (hend : (endsJump boot m l && nested m) = false)
    (h : step boot m l = .ok m') : Orderly m' :=
  ⟨good_step ho.good hend h,ho.numbered.step h,(lives_step ho hend h).2⟩

end Steps

/-- What has happened is in order for every thread, and is what the records show. -/
structure Lawful (x : Observed) : Prop where
  orderly : Orderly x.machine
  lives : ∀ id, lifeAlong id .absent x.history = some (lifeOf x.machine id)

section Histories
variable {rt : Runtime} {segments : List Segment} {pgroot : LeafTable Word} {mem : Mem}
  {r : InitReply} {boot : Boot} {m : Machine} {x y : Observed} {l : Label}

theorem Observed.step_ok (h : x.step boot l = .ok y) :
    Sthreads.step boot x.machine l = .ok y.machine ∧
      y.history = events boot x.machine l ++ x.history := by
  obtain ⟨m,hm,h⟩ := bind_ok.mp h
  cases h
  exact ⟨hm,rfl⟩

theorem lawful_init (h : sthreadInit rt segments pgroot mem r = .ok (boot,m)) : Lawful ⟨m,[]⟩ := by
  have hg := (good_init h).1
  obtain ⟨-,-,rfl⟩ := sthreadInit_ok h
  have hzero : (0 : CInt).toNat < 2^31 := by decide
  exact ⟨⟨hg,⟨List.nodup_nil,by simp,hzero⟩,fun u hu => by cases hu⟩,fun id => rfl⟩

theorem Lawful.step (hx : Lawful x) (hret : returnsToMaster boot x.machine l = true)
    (h : x.step boot l = .ok y) : Lawful y := by
  obtain ⟨hstep,hhistory⟩ := Observed.step_ok h
  have hend := (Bool.not_eq_true' _).mp hret
  refine ⟨hx.orderly.step hend hstep,fun id => ?_⟩
  rw [hhistory,lifeAlong_append,hx.lives,Option.bind_some]
  exact (lives_step hx.orderly hend hstep).1 id

theorem lawful_runs {ls : List Label} (hinit : sthreadInit rt segments pgroot mem r = .ok (boot,m))
    (hruns : Runs (fun a l b => returnsToMaster boot a.machine l = true ∧ a.step boot l = .ok b)
      ⟨m,[]⟩ ls x) : Lawful x := by
  refine hruns.invariant (I := fun a _ => Lawful a) (lawful_init hinit) ?_
  rintro a ls l b ha ⟨hret,hstep⟩
  exact ha.step hret hstep

/-- Between two steps nobody is inside `schedule`. -/
theorem lifeOf_ne_served (m : Machine) (id : CInt) : lifeOf m id ≠ .served := by
  unfold lifeOf Sthread.life
  split
  · exact Life.noConfusion
  · split
    · split_ifs <;> exact Life.noConfusion
    · exact Life.noConfusion
    · exact Life.noConfusion

end Histories

/-- Initialise and follow labels, most recent first, with a record kept beside the
machine. -/
def replay {S L : Type} (rt : Runtime) (segments : List Segment) (pgroot : LeafTable Word) (mem : Mem)
    (r : InitReply) (start : Machine → S) (next : Boot → S → L → Except Fault S)
    (cond : Boot → S → L → Bool) (ls : List L) : Option S :=
  match sthreadInit rt segments pgroot mem r with
  | .error _ => none
  | .ok x => follow (next x.1) (cond x.1) (start x.2) ls

theorem exists_of_replay {S L : Type} (rt : Runtime) (segments : List Segment)
    (pgroot : LeafTable Word) (mem : Mem) (r : InitReply) (start : Machine → S)
    (next : Boot → S → L → Except Fault S) (cond : Boot → S → L → Bool) (ls : List L) (p : S → Bool)
    (h : (replay rt segments pgroot mem r start next cond ls).any p = true) :
    ∃ boot m₀ x, sthreadInit rt segments pgroot mem r = .ok (boot,m₀) ∧
      Runs (fun a l b => cond boot a l = true ∧ next boot a l = .ok b) (start m₀) ls x ∧
      p x = true := by
  unfold replay at h
  cases hinit : sthreadInit rt segments pgroot mem r with
  | error e => simp [hinit] at h
  | ok y =>
    obtain ⟨x,hruns,hp⟩ := exists_of_follow (by simpa only [hinit] using h)
    exact ⟨y.1,y.2,x,rfl,hruns,hp⟩

end Sthreads
end VmplApps

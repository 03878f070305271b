import VmplApps.SthreadEvents

/-! How the policy in a thread's record changes: `sthread_create` puts it there, a
successful `open` adds a descriptor, and nothing else touches it. -/
namespace VmplApps
namespace Sthreads

def Event.moves : Event → Bool
  | .created _ _ | .opened _ _ => true
  | _ => false

def Label.moves : Label → Bool
  | .create _ _ _ _ => true
  | .syscall tf r => tf.rax.setWidth 32 == SYS_open && decide (0 ≤ (r.ret.setWidth 32 : CInt).toInt)
  | _ => false

/-- Every record is one that was there before, with the policy it had. -/
def ScKept (k k' : Kernel) : Prop :=
  ∀ s' ∈ k'.sthreads, ∃ s ∈ k.sthreads, s.stId = s'.stId ∧ s.stSc = s'.stSc

def ScKeptBut (id : CInt) (k k' : Kernel) : Prop :=
  ∀ s' ∈ k'.sthreads, s'.stId ≠ id → ∃ s ∈ k.sthreads, s.stId = s'.stId ∧ s.stSc = s'.stSc

inductive ScStep (boot : Boot) (m : Machine) (l : Label) (m' : Machine) : Prop
  | kept : (∀ e ∈ events boot m l, e.moves = false) → ScKept m.kernel m'.kernel →
      ScStep boot m l m'
  | created {id i} : events boot m l = [.created id i] → ScKeptBut id m.kernel m'.kernel →
      (∀ s' ∈ m'.kernel.sthreads, s'.stId = id → s'.stSc = m.policies i) → ScStep boot m l m'
  | opened {u fd s sc} : events boot m l = [.opened u fd] → ScKeptBut u m.kernel m'.kernel →
      s ∈ m.kernel.sthreads → s.stId = u → scFdAdd s.stSc fd (PROT_READ ||| PROT_WRITE) = .ok sc →
      (∀ s' ∈ m'.kernel.sthreads, s'.stId = u → s'.stSc = sc) → ScStep boot m l m'

def CurrentRuns (m : Machine) : Prop :=
  ∀ u c, m.mode = .user u → m.kernel.ksCurrent = some c → u = c

section Current
variable {boot : Boot} {m m' : Machine} {l : Label}

theorem CurrentRuns.same (h : CurrentRuns m) (hmode : m'.mode = m.mode)
    (hcur : m'.kernel.ksCurrent = m.kernel.ksCurrent) : CurrentRuns m' := by
  intro u c hu hc
  exact h u c (hmode ▸ hu) (hcur ▸ hc)

theorem currentRuns_unwind (h : unwind boot m = .ok m') : CurrentRuns m' := by
  obtain ⟨f,fs,-,rfl⟩ := unwind_ok h
  intro u c _ hc
  cases hc

theorem currentRuns_schedule {caller : Caller} {r : HostReply}
    (h : schedule boot m caller r = .ok m') : CurrentRuns m' := by
  rcases schedule_cases h with ⟨s,-,rfl⟩ | ⟨-,-,hunw⟩
  · intro u c hu hc
    exact (Mode.user.inj hu).symm.trans (Option.some.inj hc)
  · exact currentRuns_unwind hunw

theorem CurrentRuns.step (hx : CurrentRuns m) (h : step boot m l = .ok m') : CurrentRuns m' := by
  cases stepped_of_step h with
  | remap | scInit | scMemAdd | scFdAdd | scSysAdd | joinNone | user => exact hx.same rfl rfl
  | tagNew hm hk => exact hx.same rfl (tagNew_ksCurrent hk)
  | smalloc tid sz hm => exact hx.same rfl (by rw [smalloc_eq])
  | create hm hk =>
    intro u c hu hc
    exact Option.some.inj (((own_create hk).1.symm.trans hc).symm.trans
      (congrArg some (Mode.user.inj hu))) |>.symm
  | joinSome | collect =>
    intro u c hu
    cases hu
  | wait _ _ _ hsched => exact currentRuns_schedule hsched
  | store hm hk => exact hx.same rfl (userStore_sthreads hk).1
  | blocked | opened | openFailed | passed => exact hx.same rfl rfl
  | exited _ _ _ _ _ hunw => exact currentRuns_unwind hunw
  | read _ _ _ _ _ hsched => exact currentRuns_schedule hsched

end Current

section Kept
variable {boot : Boot} {k k' k'' : Kernel} {m m' : Machine} {l : Label} {s s' : Sthread}

theorem ScKept.same (h : k'.sthreads = k.sthreads) : ScKept k k' := by
  intro s hs
  exact ⟨s,h ▸ hs,rfl,rfl⟩

theorem ScKept.trans (h : ScKept k k') (h' : ScKept k' k'') : ScKept k k'' := by
  intro s'' hs''
  obtain ⟨s',hs',hid',hsc'⟩ := h' s'' hs''
  obtain ⟨s,hs,hid,hsc⟩ := h s' hs'
  exact ⟨s,hs,hid.trans hid',hsc.trans hsc'⟩

theorem scKeptBut_update (hk : k'.sthreads = (k.update s').sthreads) :
    ScKeptBut s'.stId k k' := by
  intro t ht hne
  rw [hk] at ht
  obtain ⟨t₀,ht₀,rfl⟩ := List.mem_map.mp ht
  split_ifs at hne ⊢ with heq
  · exact absurd rfl hne
  · exact ⟨t₀,ht₀,rfl,rfl⟩

theorem ScKept.update (hs : s ∈ k.sthreads) (hid : s'.stId = s.stId) (hsc : s'.stSc = s.stSc)
    (hk : k'.sthreads = (k.update s').sthreads) : ScKept k k' := by
  intro t ht
  by_cases ht' : t.stId = s'.stId
  · obtain rfl := Kernel.mem_update_same (hk ▸ ht) ht'
    exact ⟨s,hs,hid.symm,hsc.symm⟩
  · exact scKeptBut_update hk t ht ht'

theorem scKept_unwind (h : unwind boot m = .ok m') : ScKept m.kernel m'.kernel := by
  obtain ⟨f,fs,-,rfl⟩ := unwind_ok h
  exact .same rfl

theorem scKept_schedule {caller : Caller} {r : HostReply} (h : schedule boot m caller r = .ok m') :
    ScKept m.kernel m'.kernel := by
  rcases schedule_cases h with ⟨t,ht,rfl⟩ | ⟨-,-,hunw⟩
  · set t' : Sthread := {t with stTf := {t.stTf with rax := r.ret}}
    have hid : t'.stId = t.stId := rfl
    exact .update (find_nextRunnable ht) hid rfl rfl
  · exact scKept_unwind hunw

theorem scStep_create {i : ℕ} {cb arg : Word} {r : CreateReply} {id : CInt} {fs : List Frame}
    (h : sthreadCreate boot m.kernel (m.policies i) cb arg r = .ok (id,k)) :
    ScStep boot m (.create i cb arg r) {m with kernel := k,mode := .user id,frames := fs} := by
  have hevents : events boot m (.create i cb arg r) = [.created id i] := by simp only [events,h]
  rcases create_cases h with ⟨s,s',-,-,-,⟨rfl,-,hsc⟩,hk⟩ | ⟨s,s',-,-,hs,⟨rfl,-,hsc⟩,hk⟩
  · refine .created hevents (scKeptBut_update hk) fun t ht htid => ?_
    rw [Kernel.mem_update_same (hk ▸ ht) htid,hsc]
  · refine .created hevents (fun t ht hne => ?_) fun t ht htid => ?_
    · obtain ⟨t₀,ht₀,hid₀,hsc₀⟩ := scKeptBut_update hk t ht hne
      rcases List.mem_cons.mp ht₀ with rfl | ht₀
      · exact absurd (hid₀.symm.trans hs) hne
      · exact ⟨t₀,ht₀,hid₀,hsc₀⟩
    · rw [Kernel.mem_update_same (hk ▸ ht) htid,hsc]

theorem moves_eq_false {e : Event} (hl : l.moves = false) (he : e ∈ events boot m l) :
    e.moves = false := by
  cases occurs_of_mem he with
  | created => cases hl
  | opened _ _ hopen hrc =>
    rw [Label.moves,hopen,decide_eq_true hrc] at hl
    cases hl
  | _ => rfl

theorem ScStep.still (hl : l.moves = false) (hk : ScKept m.kernel m'.kernel) :
    ScStep boot m l m' :=
  .kept (fun _ => moves_eq_false hl) hk

theorem ScKept.checked {c : CInt} {tf : TrapFrame} {k₀ : Kernel} {passed : Option TrapFrame}
    {s'' : Sthread} (hf : k.find c = some s)
    (hcheck : syscallCheck boot k₀ s tf = .ok (s',passed)) (hid : s''.stId = s'.stId)
    (hsc : s''.stSc = s'.stSc) (hk : k'.sthreads = (k.update s'').sthreads) : ScKept k k' :=
  .update (Kernel.find_mem hf).1 (hid.trans (syscallCheck_evolves hcheck).id)
    (hsc.trans (syscallCheck_sc hcheck)) hk

theorem scStep_of_step (hcur : CurrentRuns m) (h : step boot m l = .ok m') :
    ScStep boot m l m' := by
  cases stepped_of_step h with
  | remap | user | scInit | scMemAdd | scFdAdd | scSysAdd | joinNone | joinSome =>
    exact .still rfl (.same rfl)
  | tagNew hm hk =>
    obtain ⟨mem,-,hk⟩ := bind_ok.mp hk
    cases hk
    exact .still rfl (.same rfl)
  | smalloc tid sz hm => exact .still rfl (.same (by rw [smalloc_eq]))
  | create hm hk => exact scStep_create hk
  | @collect st s r hm hf hz =>
    have hid : ({s with stState := .dead} : Sthread).stId = s.stId := rfl
    exact .still rfl (.update (Kernel.find_mem hf).1 hid rfl rfl)
  | wait _ _ _ hsched => exact .still rfl (scKept_schedule hsched)
  | @store u va b k hm hk =>
    rcases (userStore_sthreads hk).2 with hsame | ⟨s,t,hf,hsame⟩
    · exact .still rfl (.same hsame)
    · have hid : ({s with table := t} : Sthread).stId = s.stId := rfl
      exact .still rfl (.update (Kernel.find_mem hf).1 hid rfl hsame)
  | blocked r hm hc hf hcheck =>
    exact .kept (by simp [events_syscall hm hc hf hcheck]) (.checked hf hcheck rfl rfl rfl)
  | @exited u c s s' tf tf' r _ hm hc hf hcheck h666 hunw =>
    set z : Sthread := {(recycle boot {s' with stRet := tf'.arg0} m.kernel.mem).1 with
      stState := .zombie}
    have hz : z.stId = s'.stId := rfl
    refine .still (by simp [Label.moves,h666,SYS_open]) (ScKept.trans ?_ (scKept_unwind hunw))
    exact .checked hf hcheck hz rfl rfl
  | @read u c s s' tf tf' r _ hm hc hf hcheck hread hsched =>
    have hid : ({s' with stTf := tf'} : Sthread).stId = s'.stId := rfl
    refine .still (by simp [Label.moves,hread,SYS_read,SYS_open])
      (ScKept.trans ?_ (scKept_schedule hsched))
    exact .checked hf hcheck hid rfl rfl
  | @opened u c s s' tf tf' sc r hm hc hf hcheck hopen hsc hrc =>
    obtain rfl := hcur _ _ hm hc
    have hid : s'.stId = u := (syscallCheck_evolves hcheck).id.trans (Kernel.find_mem hf).2
    have hevents := events_syscall hm hc hf hcheck r
    rw [Option.elim_some,callEvents_open hopen,if_pos hrc] at hevents
    rw [syscallCheck_sc hcheck] at hsc
    set s'' : Sthread := {s' with stSc := sc}
    have hid' : s''.stId = u := hid
    refine .opened hevents (hid' ▸ scKeptBut_update rfl) (Kernel.find_mem hf).1 (Kernel.find_mem hf).2
      hsc fun t ht htid => ?_
    obtain rfl : t = s'' := Kernel.mem_update_same ht (htid.trans hid'.symm)
    rfl
  | openFailed r hm hc hf hcheck hopen hrc =>
    exact .still (by rw [Label.moves,decide_eq_false hrc,Bool.and_false]) (.checked hf hcheck rfl rfl rfl)
  | passed r hm hc hf hcheck hnum hopen =>
    exact .still (by simp [Label.moves,hopen]) (.checked hf hcheck rfl rfl rfl)

end Kept

end Sthreads
end VmplApps

import VmplApps.SthreadAnswers
import VmplApps.SthreadPolicies

/-! Descriptor rights. `sc_fd_add` fills the next free entry of a policy, before
creation and on every successful `open`; `close` is passed to the host and leaves the
entry where it is. The entries stand for the descriptors that a thread holds as long
as it closes nothing and nothing is granted twice. -/
namespace VmplApps
namespace Sthreads

/-- The descriptors that `sc_fd_add` has put into policy `i` since it was cleared. -/
def grantedTo (i : ℕ) : List Event → Finset CInt
  | [] => ∅
  | .cleared j::h => if j = i then ∅ else grantedTo i h
  | .granted j fd::h => if j = i then insert fd (grantedTo i h) else grantedTo i h
  | _::h => grantedTo i h

/-- The descriptors that thread `id` was given at its creation or has opened, and has
not closed since. -/
def heldBy (id : CInt) : List Event → Finset CInt
  | [] => ∅
  | .created id' i::h => if id' = id then grantedTo i h else heldBy id h
  | .opened id' fd::h => if id' = id then insert fd (heldBy id h) else heldBy id h
  | .closed id' fd::h => if id' = id then (heldBy id h).erase fd else heldBy id h
  | _::h => heldBy id h

/-- `has_fd_perm` succeeds only for descriptors that the thread holds. -/
def RightsHeld (x : Observed) : Prop :=
  ∀ s ∈ x.machine.kernel.sthreads, ∀ fd perm, hasFdPerm s fd perm = true → fd ∈ heldBy s.stId x.history

/-- A step that closes nothing, and grants no descriptor to a policy or a thread that
has it already. -/
def lasting (boot : Boot) (x : Observed) (l : Label) : Bool :=
  (events boot x.machine l).all fun e => match e with
    | .closed _ _ => false
    | .opened u fd => fd ∉ heldBy u x.history
    | .granted i fd => fd ∉ grantedTo i x.history
    | _ => true

def Listed (v : Vector Word 8) (g : Finset CInt) : Prop :=
  ∀ w ∈ v.toList, (w.setWidth 32 : CInt) ≠ 0 → (w.setWidth 32 : CInt).sshiftRight 8 ∈ g

def Counted (v : Vector Word 8) (g : Finset CInt) : Prop :=
  v.toList.countP (· != 0) ≤ g.card

section Entries
variable {sc sc' : Sc} {fd prot : CInt} {g : Finset CInt}

theorem fdPermLoop_mem {perm : CInt} {ws : List Word} (h : fdPermLoop fd perm ws = true) :
    ∃ w ∈ ws, (w.setWidth 32 : CInt) ≠ 0 ∧ (w.setWidth 32 : CInt).sshiftRight 8 = fd := by
  induction ws with
  | nil => cases h
  | cons w ws ih =>
    simp only [fdPermLoop] at h
    split_ifs at h with h0 hfd
    · exact ⟨w,List.mem_cons_self,h0,hfd⟩
    · obtain ⟨w',hw',hrest⟩ := ih h
      exact ⟨w',List.mem_cons_of_mem _ hw',hrest⟩

theorem Listed.mem {s : Sthread} {perm : CInt} (h : Listed s.stSc.scFd g)
    (hperm : hasFdPerm s fd perm = true) : fd ∈ g := by
  obtain ⟨w,hw,h0,rfl⟩ := fdPermLoop_mem hperm
  exact h w hw h0

theorem descriptor_of_word {x fd : CInt} (h : x.signExtend 64 >>> 8 = fd.signExtend 64) :
    ((x.signExtend 64).setWidth 32 : CInt).sshiftRight 8 = fd := by
  have hshift := congrArg BitVec.toNat h
  rw [BitVec.toNat_ushiftRight,Nat.shiftRight_eq_div_pow] at hshift
  -- the shifted word is less than 2^56, which no negative number extends to
  have hsmall : (x.signExtend 64).toNat = x.toNat ∧ x.toNat < 2^31 ∧ fd.toNat = x.toNat / 256 := by
    have hx := x.isLt
    have hfd := fd.isLt
    rcases Words.signExtend_toNat_cases x with hxs | hxs <;>
      rcases Words.signExtend_toNat_cases fd with hfs | hfs <;> omega
  obtain ⟨hext,hlt,hval⟩ := hsmall
  have hback : (x.signExtend 64).setWidth 32 = x := by
    refine BitVec.eq_of_toNat_eq ?_
    rw [BitVec.toNat_setWidth,hext,Nat.mod_eq_of_lt x.isLt]
  have hmsb : x.msb = false := by
    rw [BitVec.msb_eq_decide]
    exact decide_eq_false (by omega)
  rw [hback,BitVec.sshiftRight_eq_of_msb_false hmsb]
  refine BitVec.eq_of_toNat_eq ?_
  rw [BitVec.toNat_ushiftRight,Nat.shiftRight_eq_div_pow,hval]

theorem scFdAdd_ok (h : scFdAdd sc fd prot = .ok sc') :
    ∃ i w, sc.scFd.toList[i]? = some 0 ∧ sc'.scFd = sc.scFd.setIfInBounds i w ∧
      (w.setWidth 32 : CInt).sshiftRight 8 = fd := by
  obtain ⟨fds,hfds,h⟩ := bind_ok.mp h
  split_ifs at h with hassert
  cases h
  unfold setFirstZero at hfds
  split at hfds
  · cases hfds
  · rename_i i hi
    cases hfds
    obtain ⟨hlt,hzero,-⟩ := List.findIdx?_eq_some_iff_getElem.mp hi
    refine ⟨i,_,?_,rfl,descriptor_of_word hassert.1⟩
    rw [List.getElem?_eq_getElem hlt]
    exact congrArg some (by simpa using hzero)

theorem Listed.add (h : Listed sc.scFd g) (hadd : scFdAdd sc fd prot = .ok sc') :
    Listed sc'.scFd (insert fd g) := by
  obtain ⟨i,w,-,hfds,hfd⟩ := scFdAdd_ok hadd
  intro x hx h0
  rw [hfds,Vector.toList_setIfInBounds] at hx
  rcases List.mem_or_eq_of_mem_set hx with hx | rfl
  · exact Finset.mem_insert_of_mem (h x hx h0)
  · exact Finset.mem_insert.mpr (.inl hfd)

theorem Counted.add (h : Counted sc.scFd g) (hfd : fd ∉ g) (hadd : scFdAdd sc fd prot = .ok sc') :
    Counted sc'.scFd (insert fd g) := by
  obtain ⟨i,w,hzero,hfds,-⟩ := scFdAdd_ok hadd
  obtain ⟨hlt,-⟩ := List.getElem?_eq_some_iff.mp hzero
  rw [Counted,hfds,Vector.toList_setIfInBounds,List.countP_set hlt,Finset.card_insert_of_notMem hfd]
  have hle : sc.scFd.toList.countP (· != 0) ≤ g.card := h
  split_ifs <;> omega

theorem listed_scInit : Listed scInit.scFd ∅ := by
  intro w hw h0
  simp only [scInit,Vector.toList_replicate,List.mem_replicate] at hw
  rw [hw.2] at h0
  exact absurd rfl h0

theorem counted_scInit : Counted scInit.scFd ∅ := by
  simp [Counted,scInit]

end Entries

structure Recorded (P : Vector Word 8 → Finset CInt → Prop) (x : Observed) : Prop where
  policies : ∀ i, P (x.machine.policies i).scFd (grantedTo i x.history)
  threads : ∀ s ∈ x.machine.kernel.sthreads, P s.stSc.scFd (heldBy s.stId x.history)

def Grants (Q : Finset CInt → CInt → Prop) (h : List Event) : Event → Prop
  | .closed _ _ => False
  | .opened u fd => Q (heldBy u h) fd
  | .granted i fd => Q (grantedTo i h) fd
  | _ => True

section Steps
variable {boot : Boot} {m m' : Machine} {x y : Observed} {l : Label}
  {P : Vector Word 8 → Finset CInt → Prop} {Q : Finset CInt → CInt → Prop}

theorem heldBy_quiet {es : List Event} (hmoves : ∀ e ∈ es, e.moves = false)
    (hclosed : ∀ u fd, .closed u fd ∉ es) (id : CInt) (h : List Event) :
    heldBy id (es ++ h) = heldBy id h := by
  induction es with
  | nil => rfl
  | cons e es ih =>
    have hrest := ih (fun e he => hmoves e (List.mem_cons_of_mem _ he))
      fun u fd he => hclosed u fd (List.mem_cons_of_mem _ he)
    have hmove := hmoves e List.mem_cons_self
    cases e with
    | created | opened => cases hmove
    | closed u fd => exact absurd List.mem_cons_self (hclosed u fd)
    | _ => exact hrest

theorem grantedTo_quiet {es : List Event} (h : ∀ e ∈ es, e.thread ≠ none) (i : ℕ)
    (hist : List Event) : grantedTo i (es ++ hist) = grantedTo i hist := by
  induction es with
  | nil => rfl
  | cons e es ih =>
    have hrest := ih fun e he => h e (List.mem_cons_of_mem _ he)
    have hthread := h e List.mem_cons_self
    cases e with
    | cleared | granted => exact absurd rfl hthread
    | _ => exact hrest

theorem events_thread (hclear : ∀ i, l ≠ .scInit i) (hgrant : ∀ i fd prot, l ≠ .scFdAdd i fd prot) :
    ∀ e ∈ events boot m l, e.thread ≠ none := by
  intro e he
  cases occurs_of_mem he with
  | cleared i => exact absurd rfl (hclear i)
  | granted i fd prot => exact absurd rfl (hgrant i fd prot)
  | _ => exact Option.some_ne_none _

theorem unwind_policies (h : unwind boot m = .ok m') : m'.policies = m.policies := by
  obtain ⟨f,fs,-,rfl⟩ := unwind_ok h
  rfl

theorem scMemAdd_scFd {tags : List Tag} {sc sc' : Sc} {tid prot : CInt}
    (h : scMemAdd tags sc tid prot = .ok sc') : sc'.scFd = sc.scFd := by
  unfold scMemAdd at h
  split at h
  · cases h
  · obtain ⟨mem,-,h⟩ := bind_ok.mp h
    split_ifs at h
    cases h
    rfl

theorem scSysAdd_scFd {sc sc' : Sc} {sysno : CInt} (h : scSysAdd sc sysno = .ok sc') :
    sc'.scFd = sc.scFd := by
  unfold scSysAdd at h
  dsimp only at h
  split_ifs at h
  cases h
  rfl

theorem policies_step (hzero : P scInit.scFd ∅)
    (hadd : ∀ {sc sc' : Sc} {fd prot : CInt} {g : Finset CInt}, Q g fd → P sc.scFd g →
      scFdAdd sc fd prot = .ok sc' → P sc'.scFd (insert fd g))
    {hist : List Event} (hp : ∀ i, P (m.policies i).scFd (grantedTo i hist))
    (hnew : ∀ e ∈ events boot m l, Grants Q hist e) (h : step boot m l = .ok m') (i : ℕ) :
    P (m'.policies i).scFd (grantedTo i (events boot m l ++ hist)) := by
  have hquiet (hpol : (m'.policies i).scFd = (m.policies i).scFd)
      (he : ∀ e ∈ events boot m l, e.thread ≠ none) :
      P (m'.policies i).scFd (grantedTo i (events boot m l ++ hist)) := by
    rw [hpol,grantedTo_quiet he]
    exact hp i
  have hset {j : ℕ} {sc : Sc} (hsc : sc.scFd = (m.policies j).scFd) :
      ((setPolicy m j sc).policies i).scFd = (m.policies i).scFd := by
    by_cases hij : i = j
    · subst hij
      simpa [setPolicy] using hsc
    · simp [setPolicy,Function.update_of_ne hij]
  cases stepped_of_step h with
  | scInit j hm =>
    by_cases hij : j = i
    · subst hij
      simpa [setPolicy,events,grantedTo] using hzero
    · simpa [setPolicy,events,grantedTo,hij,Function.update_of_ne (Ne.symm hij)] using hp i
  | @scFdAdd j fd prot sc hm hsc =>
    by_cases hij : j = i
    · subst hij
      have hgrant : Q (grantedTo j hist) fd := hnew (.granted j fd) List.mem_cons_self
      simpa [setPolicy,events,grantedTo] using hadd hgrant (hp j) hsc
    · simpa [setPolicy,events,grantedTo,hij,Function.update_of_ne (Ne.symm hij)] using hp i
  | scMemAdd hm hsc => exact hquiet (hset (scMemAdd_scFd hsc)) (events_thread (by simp) (by simp))
  | scSysAdd hm hsc => exact hquiet (hset (scSysAdd_scFd hsc)) (events_thread (by simp) (by simp))
  | wait _ _ _ hsched =>
    exact hquiet (by rw [schedule_policies hsched]) (events_thread (by simp) (by simp))
  | exited _ _ _ _ _ hunw => exact hquiet (by rw [unwind_policies hunw]) (events_thread (by simp) (by simp))
  | read _ _ _ _ _ hsched =>
    exact hquiet (by rw [schedule_policies hsched]) (events_thread (by simp) (by simp))
  | _ => exact hquiet rfl (events_thread (by simp) (by simp))

/-- What a step does to everybody's entries. -/
theorem Recorded.step (hzero : P scInit.scFd ∅)
    (hadd : ∀ {sc sc' : Sc} {fd prot : CInt} {g : Finset CInt}, Q g fd → P sc.scFd g →
      scFdAdd sc fd prot = .ok sc' → P sc'.scFd (insert fd g))
    (hx : Recorded P x) (hcur : CurrentRuns x.machine)
    (hnew : ∀ e ∈ events boot x.machine l, Grants Q x.history e) (h : x.step boot l = .ok y) :
    Recorded P y := by
  obtain ⟨hstep,hhistory⟩ := Observed.step_ok h
  refine ⟨fun i => ?_,fun s' hs' => ?_⟩
  · rw [hhistory]
    exact policies_step hzero hadd hx.policies hnew hstep i
  rw [hhistory]
  cases scStep_of_step hcur hstep with
  | kept hmoves hkept =>
    obtain ⟨s,hs,hid,hsc⟩ := hkept s' hs'
    rw [heldBy_quiet hmoves fun u fd he => hnew _ he,← hid,← hsc]
    exact hx.threads s hs
  | @created id i hevents hbut hown =>
    rw [hevents]
    by_cases hid : s'.stId = id
    · simpa [heldBy,hid,hown s' hs' hid] using hx.policies i
    · obtain ⟨s,hs,hsid,hsc⟩ := hbut s' hs' hid
      have hthread := hx.threads s hs
      rw [hsid,hsc] at hthread
      simpa [heldBy,Ne.symm hid] using hthread
  | @opened u fd s sc hevents hbut hs hsu hsc hown =>
    rw [hevents]
    by_cases hid : s'.stId = u
    · have hgrant : Q (heldBy u x.history) fd :=
        hnew (.opened u fd) (by rw [hevents]; exact List.mem_cons_self)
      have hthread := hx.threads s hs
      rw [hsu] at hthread
      simpa [heldBy,hid,hown s' hs' hid] using hadd hgrant hthread hsc
    · obtain ⟨t,ht,htid,htsc⟩ := hbut s' hs' hid
      have hthread := hx.threads t ht
      rw [htid,htsc] at hthread
      simpa [heldBy,Ne.symm hid] using hthread

theorem recorded_listed_step (hx : Recorded Listed x) (hcur : CurrentRuns x.machine)
    (hclosed : ∀ u fd, .closed u fd ∉ events boot x.machine l) (h : x.step boot l = .ok y) :
    Recorded Listed y := by
  refine hx.step (Q := fun _ _ => True) listed_scInit (fun _ hsc hadd => hsc.add hadd) hcur ?_ h
  intro e he
  cases e with
  | closed u fd => exact hclosed u fd he
  | _ => trivial

theorem recorded_counted_step (hx : Recorded Counted x) (hcur : CurrentRuns x.machine)
    (hlast : lasting boot x l = true) (h : x.step boot l = .ok y) : Recorded Counted y := by
  refine hx.step (Q := fun g fd => fd ∉ g) counted_scInit
    (fun hfd hsc hadd => hsc.add hfd hadd) hcur (fun e he => ?_) h
  have hall := List.all_eq_true.mp hlast e he
  cases e with
  | closed u fd => cases hall
  | opened u fd =>
    have hnot : fd ∉ heldBy u x.history := of_decide_eq_true hall
    exact hnot
  | granted i fd =>
    have hnot : fd ∉ grantedTo i x.history := of_decide_eq_true hall
    exact hnot
  | _ => trivial

theorem lasting_closed (h : lasting boot x l = true) (u fd : CInt) :
    .closed u fd ∉ events boot x.machine l := by
  intro he
  cases List.all_eq_true.mp h _ he

theorem rightsHeld_of_listed (h : Recorded Listed x) : RightsHeld x := by
  intro s hs fd perm hperm
  exact (h.threads s hs).mem hperm

end Steps

section Stops
variable {boot : Boot} {m : Machine} {u : CInt} {tf : TrapFrame} {k₀ : Kernel} {r : HostReply}
  {s s' : Sthread}

theorem bind_error {α β : Type} {x : Except Fault α} {f : α → Except Fault β} {e : Fault} :
    (x >>= f) = .error e ↔ x = .error e ∨ ∃ a, x = .ok a ∧ f a = .error e := by
  cases x <;> simp [bind,Except.bind]

theorem canDoSys_error {num : CInt} {e : Fault} (h : canDoSys s num = .error e) : e = .canDoSys := by
  unfold canDoSys at h
  dsimp only at h
  split_ifs at h
  exact (Except.error.inj h).symm

theorem checkMem_error {num : CInt} {e : Fault} (h : checkMem boot k₀ s num tf = .error e) :
    e = .pathFault ∨ e = .walkAssert := by
  unfold checkMem at h
  split at h
  · cases h
  · exact .inl (Except.error.inj h).symm
  · dsimp only at h
    split_ifs at h
    exact .inr (Except.error.inj h).symm

theorem nullFault_ne_fdFull (num : CInt) : nullFault num ≠ .fdFull := by
  unfold nullFault
  dsimp only
  split_ifs <;> exact Fault.noConfusion

theorem syscallCheck_ne_fdFull : syscallCheck boot k₀ s tf ≠ .error .fdFull := by
  intro h
  rcases bind_error.mp h with h | ⟨ok,-,h⟩
  · cases canDoSys_error h
  · split_ifs at h
    have hmem : checkMem boot k₀ s (tf.rax.setWidth 32) tf ≠ .error .fdFull := by
      intro herr
      rcases checkMem_error herr with h | h <;> cases h
    split at h
    · split_ifs at h
      exact hmem h
    · exact hmem h

theorem unwind_error {e : Fault} (h : unwind boot m = .error e) : e = .notEnabled := by
  unfold unwind at h
  split at h
  · exact (Except.error.inj h).symm
  · cases h

theorem syscallServe_fdFull (h : syscallServe boot m u s tf r = .error .fdFull) :
    tf.rax.setWidth 32 = SYS_open ∧ 0 ≤ (r.ret.setWidth 32 : CInt).toInt ∧
      0 ∉ s.stSc.scFd.toList := by
  unfold syscallServe at h
  dsimp only at h
  split_ifs at h with hexit hread hopen hrc
  · cases unwind_error h
  · unfold schedule at h
    split at h
    · cases h
    · cases unwind_error h
  · refine ⟨hopen,hrc,fun hmem => ?_⟩
    rcases bind_error.mp h with h | ⟨sc,-,h⟩
    · rcases bind_error.mp h with h | ⟨fds,-,h⟩
      · obtain ⟨v,hv⟩ := (setFirstZero_ok_iff s.stSc.scFd
          (((r.ret.setWidth 32 : CInt) <<< 8 ||| (PROT_READ ||| PROT_WRITE)).signExtend 64)
          .fdFull).mpr hmem
        cases h.symm.trans hv
      · split_ifs at h
        cases h
    · cases h

theorem step_fdFull (hm : m.mode = .user u)
    (h : step boot m (.syscall tf r) = .error .fdFull) :
    ∃ c s, m.kernel.ksCurrent = some c ∧ m.kernel.find c = some s ∧
      0 ∉ s.stSc.scFd.toList ∧
      events boot m (.syscall tf r) = [.opened u (r.ret.setWidth 32)] := by
  have hhandler : syscallHandler boot m u tf r = .error .fdFull := by
    simpa only [step,hm,userStep] using h
  unfold syscallHandler at hhandler
  split at hhandler
  · exact absurd (Except.error.inj hhandler) (nullFault_ne_fdFull _)
  · rename_i s hs
    obtain ⟨c,hc,hf⟩ := Option.bind_eq_some_iff.mp hs
    rcases bind_error.mp hhandler with hcheck | ⟨⟨s',passed⟩,hcheck,hserve⟩
    · exact absurd hcheck syscallCheck_ne_fdFull
    · cases passed with
      | none => cases hserve
      | some tf' =>
        obtain ⟨hopen,hrc,hfull⟩ := syscallServe_fdFull hserve
        rw [syscallCheck_rax hcheck] at hopen
        rw [syscallCheck_sc hcheck] at hfull
        refine ⟨c,s,hc,hf,hfull,?_⟩
        rw [events_syscall hm hc hf hcheck,Option.elim_some,callEvents_open hopen,if_pos hrc]

theorem Counted.full {v : Vector Word 8} {g : Finset CInt} (h : Counted v g) (h0 : 0 ∉ v.toList) :
    8 ≤ g.card := by
  have hall : v.toList.countP (· != 0) = v.toList.length := by
    rw [List.countP_eq_length]
    intro w hw
    rw [bne_iff_ne]
    rintro rfl
    exact h0 hw
  have hle : v.toList.countP (· != 0) ≤ g.card := h
  rwa [hall,Vector.length_toList] at hle

theorem closed_mem_events {l : Label} {fd : CInt} (he : .closed u fd ∈ events boot m l) :
    ∃ tf r passed, l = .syscall tf r ∧ m.mode = .user u ∧
      passes boot m tf = some passed ∧ tf.rax.setWidth 32 = SYS_close ∧
      fd = tf.arg0.setWidth 32 ∧ events boot m l = [.closed u fd] := by
  cases occurs_of_mem he with
  | @closed tf r u passed hm hpass hclose hret =>
    refine ⟨tf,r,passed,rfl,hm,hpass,hclose,rfl,?_⟩
    simp only [events,hm,hpass]
    rw [callEvents_other (by rw [hclose]; decide) (by rw [hclose]; decide) (by rw [hclose]; decide),
      if_pos ⟨hclose,hret⟩]

theorem syscallCheck_close {passed : TrapFrame} (hclose : tf.rax.setWidth 32 = SYS_close)
    (h : syscallCheck boot k₀ s tf = .ok (s',some passed)) :
    hasFdPerm s (tf.arg0.setWidth 32) PROT_WRITE = true := by
  obtain ⟨ok,-,h⟩ := bind_ok.mp h
  have hfd : fdArg (tf.rax.setWidth 32) tf = some (tf.arg0.setWidth 32,PROT_WRITE) := by
    rw [hclose]
    rfl
  cases ok with
  | false => cases h
  | true =>
    simp only [Bool.not_true,Bool.false_eq_true,if_false,hfd] at h
    split_ifs at h with hperm
    · exact hperm
    · cases h

/-- A call that closes a descriptor had the right to, and still has it afterwards. -/
theorem closed_permitted {l : Label} {fd : CInt} {m' : Machine} (hcur : CurrentRuns m)
    (h : step boot m l = .ok m') (he : .closed u fd ∈ events boot m l) :
    ∃ s ∈ m'.kernel.sthreads, s.stId = u ∧ hasFdPerm s fd PROT_WRITE = true := by
  obtain ⟨tf,r,passed,rfl,hm,hpass,hclose,rfl,-⟩ := closed_mem_events he
  cases stepped_of_step h with
  | @passed v c s s' _ tf' _ hm' hc hf hcheck hnum hopen =>
    obtain rfl := hcur _ _ hm hc
    have hs : s'.stId = u := (syscallCheck_evolves hcheck).id.trans (Kernel.find_mem hf).2
    have hmem : s' ∈ (m.kernel.update s').sthreads :=
      Kernel.mem_update_self (Kernel.find_mem hf).1 (syscallCheck_evolves hcheck).id
    refine ⟨s',hmem,hs,?_⟩
    rw [hasFdPerm,syscallCheck_sc hcheck]
    exact syscallCheck_close hclose hcheck
  | blocked _ _ hc hf hcheck => cases (passes_of_check hc hf hcheck).symm.trans hpass
  | exited _ _ _ _ h666 _ => cases hclose.symm.trans h666
  | read _ _ _ _ hread _ => cases hclose.symm.trans hread
  | opened _ _ _ _ _ hopen _ _ => cases hclose.symm.trans hopen
  | openFailed _ _ _ _ _ hopen _ => cases hclose.symm.trans hopen

end Stops

section Runs
variable {rt : Runtime} {segments : List Segment} {pgroot : LeafTable Word} {mem : Mem}
  {r : InitReply} {boot : Boot} {m₀ : Machine} {x : Observed}

theorem recorded_init (P : Vector Word 8 → Finset CInt → Prop) (hzero : P scInit.scFd ∅)
    (h : sthreadInit rt segments pgroot mem r = .ok (boot,m₀)) : Recorded P ⟨m₀,[]⟩ := by
  obtain ⟨-,-,rfl⟩ := sthreadInit_ok h
  exact ⟨fun i => hzero,by simp⟩

theorem currentRuns_init (h : sthreadInit rt segments pgroot mem r = .ok (boot,m₀)) :
    CurrentRuns m₀ := by
  obtain ⟨-,-,rfl⟩ := sthreadInit_ok h
  intro u c hu
  cases hu

/-- A close takes a descriptor away that its thread may go on using. -/
theorem rightsHeld_step_iff {l : Label} {y : Observed} (hx : Recorded Listed x)
    (hcur : CurrentRuns x.machine) (h : x.step boot l = .ok y) :
    RightsHeld y ↔ ∀ u fd, .closed u fd ∉ events boot x.machine l := by
  obtain ⟨hstep,hhistory⟩ := Observed.step_ok h
  refine ⟨fun hy u fd he => ?_,fun hclosed => ?_⟩
  · obtain ⟨s,hs,hid,hperm⟩ := closed_permitted hcur hstep he
    have hheld := hy s hs fd PROT_WRITE hperm
    obtain ⟨_,_,_,-,-,-,-,-,hevents⟩ := closed_mem_events he
    rw [hhistory,hid,hevents] at hheld
    simp [heldBy] at hheld
  · exact rightsHeld_of_listed (recorded_listed_step hx hcur hclosed h)

/-- In every run in which nothing is closed and nothing is granted twice, rights are
held, the next step keeps them unless it closes a descriptor, and no call is stopped
for lack of an entry while its thread holds at most eight descriptors. Stores do not
reach the policies on this machine, so of the program this is said where every step
`sparesKernel`. -/
theorem runs_rights_held {ls : List Label} (hinit : sthreadInit rt segments pgroot mem r = .ok (boot,m₀))
    (hruns : Runs (fun a l b => lasting boot a l = true ∧ a.step boot l = .ok b) ⟨m₀,[]⟩ ls x) :
    RightsHeld x ∧
      (∀ l y, x.step boot l = .ok y →
        (RightsHeld y ↔ ∀ u fd, .closed u fd ∉ events boot x.machine l)) ∧
      ∀ u tf reply, x.machine.mode = .user u →
        lasting boot x (.syscall tf reply) = true →
        (heldBy u (events boot x.machine (.syscall tf reply) ++ x.history)).card ≤ 8 →
        x.step boot (.syscall tf reply) ≠ .error .fdFull := by
  have hinv : Recorded Listed x ∧ Recorded Counted x ∧ CurrentRuns x.machine := by
    refine hruns.invariant
      (I := fun a _ => Recorded Listed a ∧ Recorded Counted a ∧ CurrentRuns a.machine) ?_ ?_
    · exact ⟨recorded_init Listed listed_scInit hinit,recorded_init Counted counted_scInit hinit,
        currentRuns_init hinit⟩
    · rintro a ls l b ⟨hlisted,hcounted,hcur⟩ ⟨hlast,hstep⟩
      exact ⟨recorded_listed_step hlisted hcur (lasting_closed hlast) hstep,
        recorded_counted_step hcounted hcur hlast hstep,hcur.step (Observed.step_ok hstep).1⟩
  obtain ⟨hlisted,hcounted,hcur⟩ := hinv
  refine ⟨rightsHeld_of_listed hlisted,fun l y h => rightsHeld_step_iff hlisted hcur h,?_⟩
  intro u tf reply hm hlast hcard hfull
  have hstep : Sthreads.step boot x.machine (.syscall tf reply) = .error .fdFull := by
    rcases bind_error.mp hfull with h | ⟨_,-,h⟩
    · exact h
    · cases h
  obtain ⟨c,s,hc,hf,hzero,hevents⟩ := step_fdFull hm hstep
  obtain rfl := hcur _ _ hm hc
  have height : 8 ≤ (heldBy u x.history).card := by
    have hthread := hcounted.threads s (Kernel.find_mem hf).1
    rw [(Kernel.find_mem hf).2] at hthread
    exact hthread.full hzero
  have hnew : reply.ret.setWidth 32 ∉ heldBy u x.history := by
    rw [lasting,hevents] at hlast
    simpa using hlast
  rw [hevents] at hcard
  simp only [List.cons_append,List.nil_append,heldBy,if_true,
    Finset.card_insert_of_notMem hnew] at hcard
  omega

end Runs

section Reopening

/-- The host's descriptor table, which `open` and `close` change. -/
def hostTable (start : Finset CInt) : List Event → Finset CInt
  | [] => start
  | .opened _ fd::h => insert fd (hostTable start h)
  | .closed _ fd::h => (hostTable start h).erase fd
  | _::h => hostTable start h

/-- The host opens the lowest free descriptor and closes open ones. -/
def hostAnswers (start : Finset CInt) (boot : Boot) (x : Observed) (l : Label) : Bool :=
  (events boot x.machine l).all fun e => match e with
    | .opened _ fd => fd ∉ hostTable start x.history &&
        (List.range fd.toNat).all fun n => BitVec.ofNat 32 n ∈ hostTable start x.history
    | .closed _ fd => fd ∈ hostTable start x.history
    | _ => true

def openCall : TrapFrame := {rax := 2,rdi := 0x400000}

def closeThree : TrapFrame := {rax := 3,rdi := 3}

def openClose : ℕ → List Label → List Label
  | 0, ls => ls
  | n+1, ls => .syscall closeThree {}::.syscall openCall {ret := 3}::openClose n ls

def fileUser : List Label := [
  .create 0 0 0 ⟨0x22000000,0x23000000,0x2000000⟩,
  .scSysAdd 0 SYS_close,
  .scSysAdd 0 SYS_open]

def onePageBoot : Boot := {
  flatRuntime with
  segments := oneSegment,checkpointedMem := flatInit.checkpoint
  checkpointedSize := checkpointSize oneSegment,kernelTag := 0}

def stopsFull (boot : Boot) (x : Observed) (l : Label) : Bool :=
  match x.step boot l with
  | .error e => e == .fdFull
  | .ok _ => false

/-- The hypotheses hold of a thread that opens a file and keeps it. -/
theorem runs_rights_held_opened : ∃ boot m₀ x,
    sthreadInit flatRuntime oneSegment onePage (fun _ => 0) flatInit = .ok (boot,m₀) ∧
    Runs (fun a l b => lasting boot a l = true ∧ a.step boot l = .ok b) ⟨m₀,[]⟩
      (.syscall openCall {ret := 3}::fileUser) x ∧ heldBy 1 x.history = {3} ∧ RightsHeld x := by
  obtain ⟨boot,m₀,x,hinit,hruns,hp⟩ := exists_of_replay flatRuntime oneSegment onePage
    (fun _ => 0) flatInit (fun m => ⟨m,[]⟩) Observed.step lasting
    (.syscall openCall {ret := 3}::fileUser) (fun x => heldBy 1 x.history == {3})
    (by decide +kernel)
  exact ⟨boot,m₀,x,hinit,hruns,beq_iff_eq.mp hp,(runs_rights_held hinit hruns).1⟩

/-- A thread opens a file and closes it eight times over. It holds no descriptor, but
`has_fd_perm` still accepts descriptor 3, and the next `open` ends the process. -/
theorem closed_descriptor_stays : ∃ boot m₀ x,
    sthreadInit flatRuntime oneSegment onePage (fun _ => 0) flatInit = .ok (boot,m₀) ∧
    Runs (fun a l b => hostAnswers {0,1,2} boot a l = true ∧ a.step boot l = .ok b) ⟨m₀,[]⟩
      (openClose 8 fileUser) x ∧
    heldBy 1 x.history = ∅ ∧ (∀ h, h <:+ x.history → (heldBy 1 h).card ≤ 1) ∧
    (∃ s ∈ x.machine.kernel.sthreads, s.stId = 1 ∧ hasFdPerm s 3 PROT_READ = true) ∧
    x.step boot (.syscall openCall {ret := 3}) = .error .fdFull := by
  obtain ⟨boot,m₀,x,hinit,hruns,hp⟩ := exists_of_replay flatRuntime oneSegment onePage
    (fun _ => 0) flatInit (fun m => ⟨m,[]⟩) Observed.step (hostAnswers {0,1,2})
    (openClose 8 fileUser)
    (fun x => heldBy 1 x.history == ∅ && x.history.tails.all (fun h => (heldBy 1 h).card ≤ 1) &&
      x.machine.kernel.sthreads.any (fun s => s.stId == 1 && hasFdPerm s 3 PROT_READ) &&
      stopsFull onePageBoot x (.syscall openCall {ret := 3})) (by decide +kernel)
  simp only [Bool.and_eq_true,beq_iff_eq,List.all_eq_true,List.any_eq_true,List.mem_tails,
    decide_eq_true_eq] at hp
  obtain ⟨⟨⟨hheld,htails⟩,hperm⟩,hstop⟩ := hp
  obtain rfl : boot = onePageBoot := (sthreadInit_ok hinit).1
  refine ⟨onePageBoot,m₀,x,hinit,hruns,hheld,htails,hperm,?_⟩
  unfold stopsFull at hstop
  split at hstop
  · rename_i e he
    rw [he,beq_iff_eq.mp hstop]
  · cases hstop

end Reopening

end Sthreads
end VmplApps

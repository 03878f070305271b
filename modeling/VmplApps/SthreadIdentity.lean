import VmplApps.SthreadSteps

/-! Who runs. A read next to a runnable thread nests a jump inside the handler of
the reader. As long as nobody leaves user mode inside such a jump, the thread whose
code runs is the current one and has its own page table loaded; the first return
from a nested jump leaves the reader running as nobody. -/
namespace VmplApps
namespace Sthreads

/-- A system call that passes every check of the handler. -/
def permitted (boot : Boot) (m : Machine) (tf : TrapFrame) : Bool :=
  match m.kernel.ksCurrent.bind m.kernel.find with
  | none => false
  | some s =>
    match syscallCheck boot m.kernel s tf with
    | .ok (_,some _) => true
    | _ => false

/-- The innermost jump to user mode is about to return: the thread exits, or reads
while nobody else is runnable. -/
def endsJump (boot : Boot) (m : Machine) : Label → Bool
  | .syscall tf _ => permitted boot m tf && (tf.rax.setWidth 32 == (666 : CInt) ||
      tf.rax.setWidth 32 == SYS_read && (nextRunnable m.kernel).isNone)
  | _ => false

/-- The innermost jump was made by `schedule` inside a system call. -/
def nested (m : Machine) : Bool :=
  match m.frames with
  | ⟨_,.trap _⟩::_ => true
  | _ => false

/-- Thread `u` is the current one and its page table is loaded. -/
def Own (k : Kernel) (u : CInt) : Prop :=
  k.ksCurrent = some u ∧ ∃ s, k.find u = some s ∧ k.cr3 = s.cr3

/-- The jumps below the innermost one wait inside a system call, except the first,
which the master made. -/
def Stacked (u : CInt) (frames : List Frame) : Prop :=
  ∃ c fs, frames = ⟨u,c⟩::fs ∧ (fs = [] ↔ ∀ v, c ≠ .trap v)

/-- Control is where it should be: user code runs as itself, and outside user code
nobody is current. -/
def Good (m : Machine) : Prop :=
  match m.mode with
  | .user u => Stacked u m.frames ∧ Own m.kernel u
  | _ => m.frames = [] ∧ m.kernel.ksCurrent = none

section Control
variable {boot : Boot} {m m' : Machine} {u : CInt}

theorem good_user (hm : m.mode = .user u) :
    Good m ↔ Stacked u m.frames ∧ Own m.kernel u := by
  rw [Good,hm]

theorem good_idle (hm : ∀ v, m.mode ≠ .user v) :
    Good m ↔ m.frames = [] ∧ m.kernel.ksCurrent = none := by
  cases hmode : m.mode with
  | user v => exact absurd hmode (hm v)
  | master => rw [Good,hmode]
  | joining st => rw [Good,hmode]

theorem good_stay {k : Kernel} (hm : m.mode = .user u) (hf : Stacked u m.frames)
    (hown : Own k u) : Good {m with kernel := k} := by
  rw [Good]
  simp only [hm]
  exact ⟨hf,hown⟩

theorem own_update {k : Kernel} {s s' : Sthread} (h : Own k u) (hf : k.find u = some s)
    (hev : s.Evolves s') : Own (k.update s') u := by
  obtain ⟨hcur,t,ht,hcr3⟩ := h
  obtain rfl := Option.some.inj (hf.symm.trans ht)
  refine ⟨hcur,s',?_,hcr3.trans hev.cr3_eq.symm⟩
  have hid : u = s'.stId := (hev.id.trans (Kernel.find_mem hf).2).symm
  rw [Kernel.find_update,if_pos hid,hf]
  rfl

theorem unwind_idle {k : Kernel} (hf : Stacked u m.frames) (hn : nested m = false)
    (h : unwind boot {m with kernel := k} = .ok m') :
    (∀ v, m'.mode ≠ .user v) ∧ m'.frames = [] ∧ m'.kernel.ksCurrent = none := by
  obtain ⟨c,fs,hframes,hfs⟩ := hf
  have hc (v : CInt) : c ≠ .trap v := by
    rintro rfl
    simp [nested,hframes] at hn
  obtain rfl := hfs.mpr hc
  simp only [unwind,hframes,Except.ok.injEq] at h
  subst h
  refine ⟨fun v => ?_,rfl,rfl⟩
  cases c with
  | create => exact Mode.noConfusion
  | join st => exact Mode.noConfusion
  | trap w => exact absurd rfl (hc w)

theorem good_unwind {k : Kernel} (hf : Stacked u m.frames) (hn : nested m = false)
    (h : unwind boot {m with kernel := k} = .ok m') : Good m' := by
  obtain ⟨hmode,hframes,hnone⟩ := unwind_idle hf hn h
  exact (good_idle hmode).mpr ⟨hframes,hnone⟩

/-- Leaving user mode inside a nested jump resumes a thread that is not current. -/
theorem unwind_nested {k : Kernel} (hn : nested m = true)
    (h : unwind boot {m with kernel := k} = .ok m') :
    ∃ v, m'.mode = .user v ∧ m'.kernel.ksCurrent = none := by
  unfold nested at hn
  split at hn
  · rename_i f v fs hframes
    simp only [unwind,hframes,Except.ok.injEq] at h
    subst h
    exact ⟨v,rfl,rfl⟩
  · cases hn

theorem find_nextRunnable {k : Kernel} {s : Sthread} (h : nextRunnable k = some s) :
    s ∈ k.sthreads := List.mem_of_find?_eq_some h

theorem own_entered {k : Kernel} {s s' : Sthread} (hs : s ∈ k.sthreads) (hev : s.Evolves s')
    {k' : Kernel} (hk : k'.sthreads = (k.update s').sthreads) (hcur : k'.ksCurrent = some s.stId)
    (hcr3 : k'.cr3 = s.cr3) : Own k' s.stId := by
  obtain ⟨t,ht⟩ := Kernel.find_isSome hs
  refine ⟨hcur,s',?_,hcr3.trans hev.cr3_eq.symm⟩
  have hfind : k'.find s.stId = (k.update s').find s.stId := by
    rw [Kernel.find,Kernel.find,hk]
  rw [hfind,Kernel.find_update,if_pos hev.id.symm,ht]
  rfl

theorem good_schedule_join {st : CInt} {r : HostReply} (hf : m.frames = [])
    (h : schedule boot m (.join st) r = .ok m') : Good m' := by
  rcases schedule_cases h with ⟨s,hs,rfl⟩ | ⟨-,⟨u,hu⟩,-⟩
  · refine (good_user rfl).mpr ⟨⟨.join st,[],by simp [hf],by simp⟩,?_⟩
    exact own_entered (find_nextRunnable hs) (s.evolves_with _ _ _ _) rfl rfl rfl
  · cases hu

/-- Saving the registers of the current thread does not change whom `schedule` finds. -/
theorem nextRunnable_update {k : Kernel} {s s' : Sthread}
    (hcur : k.ksCurrent = some s.stId) (hid : s'.stId = s.stId) :
    nextRunnable (k.update s') = nextRunnable k := by
  simp only [nextRunnable,Kernel.update]
  induction k.sthreads with
  | nil => rfl
  | cons t rest ih =>
    by_cases ht : t.stId = s'.stId
    · have hskip : some t.stId = k.ksCurrent := by rw [ht,hid,hcur]
      have hskip' : some s'.stId = k.ksCurrent := by rw [hid,hcur]
      simpa [ht,hskip,hskip'] using ih
    · simp only [List.map_cons,ht,if_false,List.find?_cons,ih]

/-- A read either nests a jump to another thread, which then runs as itself, or
leaves user mode. -/
theorem read_cases {u c : CInt} {s s' : Sthread} {tf tf' : TrapFrame}
    {r : HostReply} (hc : m.kernel.ksCurrent = some c) (hf : m.kernel.find c = some s)
    (hstack : Stacked u m.frames) (hcheck : syscallCheck boot m.kernel s tf = .ok (s',some tf'))
    (h : schedule boot {m with kernel := m.kernel.update {s' with stTf := tf'}} (.trap u) r = .ok m') :
    (nextRunnable m.kernel ≠ none ∧ Good m') ∨ (nextRunnable m.kernel = none ∧
      unwind boot {m with kernel := m.kernel.update {s' with stTf := tf'}} = .ok m') := by
  have hcur : m.kernel.ksCurrent = some s.stId := by rw [(Kernel.find_mem hf).2,hc]
  have hnext : nextRunnable (m.kernel.update {s' with stTf := tf'}) = nextRunnable m.kernel :=
    nextRunnable_update hcur (syscallCheck_evolves hcheck).id
  rcases schedule_cases h with ⟨t,ht,rfl⟩ | ⟨hnone,-,h⟩
  · refine .inl ⟨by rw [← hnext,ht]; exact Option.some_ne_none t,(good_user rfl).mpr ⟨?_,?_⟩⟩
    · obtain ⟨c',fs,hframes,-⟩ := hstack
      exact ⟨.trap u,m.frames,rfl,by simp [hframes]⟩
    · exact own_entered (find_nextRunnable ht) (t.evolves_with _ _ _ _) rfl rfl rfl
  · exact .inr ⟨hnext ▸ hnone,h⟩

theorem own_userStore {va : Word} {b : Byte} {k : Kernel} (hown : Own m.kernel u)
    (h : userStore boot m.kernel u va b = .ok k) : Own k u := by
  obtain ⟨hcur,s,hf,hcr3⟩ := hown
  simp only [userStore,hf,hcr3,if_true] at h
  split at h
  · cases h
  · rename_i t mem hstore
    cases h
    have hev : s.Evolves {s with table := t} := ⟨rfl,rfl,rfl,rfl,rfl,storeVia_related hstore⟩
    exact own_update ⟨hcur,s,hf,hcr3⟩ hf hev

theorem own_launch {k : Kernel} {s s₀ : Sthread} {cb arg : Word} (hs : s₀ ∈ k.sthreads) (hev : s₀.Evolves s) :
    Own (launchSthread boot k s cb arg) s.stId := by
  have hrun := hev.trans (s.evolves_with .running s.stRet s.stTf s.stWalk)
  have h : Own (launchSthread boot k s cb arg) s₀.stId :=
    own_entered hs hrun rfl (by rw [← hev.id]; rfl) (by rw [← hev.cr3_eq]; rfl)
  rwa [← hev.id] at h

theorem own_create {k k' : Kernel} {sc : Sc} {cb arg : Word} {r : CreateReply} {id : CInt}
    (h : sthreadCreate boot k sc cb arg r = .ok (id,k')) : Own k' id := by
  unfold sthreadCreate at h
  split at h
  · rename_i s hs
    cases h
    have hmatch := List.find?_some hs
    simp only [Bool.and_eq_true,beq_iff_eq] at hmatch
    exact own_launch (List.mem_of_find?_eq_some hs)
      ⟨rfl,rfl,rfl,rfl,hmatch.2.symm,LeafTable.Related.refl DirtyOnly.refl _⟩
  · obtain ⟨⟨s,k₁⟩,hnew,h⟩ := bind_ok.mp h
    cases h
    obtain ⟨k₂,-,-,-,rfl⟩ := createNewSthread_ok hnew
    exact own_launch List.mem_cons_self (Sthread.Evolves.refl s)

theorem good_master {k : Kernel} {pol : ℕ → Sc} (hm : m.mode = .master) (hg : Good m)
    (hcur : k.ksCurrent = m.kernel.ksCurrent) :
    Good {m with kernel := k,policies := pol} := by
  obtain ⟨hframes,hnone⟩ := (good_idle (by simp [hm])).mp hg
  exact (good_idle (by simp [hm])).mpr ⟨hframes,hcur.trans hnone⟩

theorem tagNew_ksCurrent {k k' : Kernel} {addr : Word} {id : CInt}
    (h : tagNew k addr = .ok (id,k')) : k'.ksCurrent = k.ksCurrent := by
  obtain ⟨mem,-,h⟩ := bind_ok.mp h
  cases h
  rfl

theorem permitted_of_check {c : CInt} {s s' : Sthread} {tf tf' : TrapFrame}
    (hc : m.kernel.ksCurrent = some c) (hf : m.kernel.find c = some s)
    (hcheck : syscallCheck boot m.kernel s tf = .ok (s',some tf')) :
    permitted boot m tf = true := by
  simp [permitted,hc,hf,hcheck]

/-- Control stays where it should be as long as no nested jump returns. -/
theorem good_step {l : Label} (hg : Good m) (hend : (endsJump boot m l && nested m) = false)
    (h : step boot m l = .ok m') : Good m' := by
  cases stepped_of_step h with
  | remap pg => exact hg
  | tagNew hm hk => exact good_master hm hg (tagNew_ksCurrent hk)
  | smalloc tid sz hm => exact good_master hm hg (by rw [smalloc_eq])
  | scInit i hm => exact good_master hm hg rfl
  | scMemAdd hm _ => exact good_master hm hg rfl
  | scFdAdd hm _ => exact good_master hm hg rfl
  | scSysAdd hm _ => exact good_master hm hg rfl
  | create hm hk =>
    obtain ⟨hframes,-⟩ := (good_idle (by simp [hm])).mp hg
    exact (good_user rfl).mpr ⟨⟨.create,[],by simp [hframes],by simp⟩,own_create hk⟩
  | joinNone _ _ => exact hg
  | joinSome hm _ =>
    obtain ⟨hframes,hnone⟩ := (good_idle (by simp [hm])).mp hg
    exact (good_idle fun v => Mode.noConfusion).mpr ⟨hframes,hnone⟩
  | collect r hm _ _ =>
    obtain ⟨hframes,hnone⟩ := (good_idle (by simp [hm])).mp hg
    exact (good_idle fun v => Mode.noConfusion).mpr ⟨hframes,hnone⟩
  | wait hm _ _ hsched =>
    obtain ⟨hframes,-⟩ := (good_idle (by simp [hm])).mp hg
    exact good_schedule_join hframes hsched
  | user _ => exact hg
  | store hm hk =>
    obtain ⟨hframes,hown⟩ := (good_user hm).mp hg
    exact good_stay hm hframes (own_userStore hown hk)
  | blocked r hm hc hf hcheck | openFailed r hm hc hf hcheck | passed r hm hc hf hcheck =>
    obtain ⟨hframes,hown⟩ := (good_user hm).mp hg
    obtain rfl := Option.some.inj (hown.1.symm.trans hc)
    exact good_stay hm hframes (own_update hown hf (syscallCheck_evolves hcheck))
  | exited hm hc hf hcheck h666 hunw =>
    obtain ⟨hframes,-⟩ := (good_user hm).mp hg
    rw [endsJump,permitted_of_check hc hf hcheck,h666] at hend
    exact good_unwind hframes hend hunw
  | read hm hc hf hcheck hread hsched =>
    obtain ⟨hframes,-⟩ := (good_user hm).mp hg
    rcases read_cases hc hf hframes hcheck hsched with ⟨-,hgood⟩ | ⟨hnone,hunw⟩
    · exact hgood
    · rw [endsJump,permitted_of_check hc hf hcheck,hread,hnone] at hend
      exact good_unwind hframes hend hunw
  | opened r hm hc hf hcheck _ hsc =>
    obtain ⟨hframes,hown⟩ := (good_user hm).mp hg
    obtain rfl := Option.some.inj (hown.1.symm.trans hc)
    refine good_stay hm hframes (own_update hown hf ((syscallCheck_evolves hcheck).trans ?_))
    exact ⟨rfl,rfl,rfl,rfl,scFdAdd_scMem hsc,LeafTable.Related.refl DirtyOnly.refl _⟩

/-- The first return from a nested jump leaves a thread running as nobody. -/
theorem step_nested {l : Label} (hg : Good m) (hend : (endsJump boot m l && nested m) = true)
    (h : step boot m l = .ok m') : ∃ v, m'.mode = .user v ∧ m'.kernel.ksCurrent = none := by
  obtain ⟨hend,hn⟩ := Bool.and_eq_true_iff.mp hend
  cases stepped_of_step h with
  | exited hm hc hf hcheck h666 hunw => exact unwind_nested hn hunw
  | read hm hc hf hcheck hread hsched =>
    obtain ⟨hframes,-⟩ := (good_user hm).mp hg
    rcases read_cases hc hf hframes hcheck hsched with ⟨hsome,-⟩ | ⟨-,hunw⟩
    · rw [endsJump,permitted_of_check hc hf hcheck,hread] at hend
      simp [hsome,SYS_read] at hend
    · exact unwind_nested hn hunw
  | blocked r hm hc hf hcheck => simp [endsJump,permitted,hc,hf,hcheck] at hend
  | opened r hm hc hf hcheck hopen => simp [endsJump,hopen,SYS_open,SYS_read] at hend
  | openFailed r hm hc hf hcheck hopen => simp [endsJump,hopen,SYS_open,SYS_read] at hend
  | passed r hm hc hf hcheck hnum =>
    simp only [endsJump,Bool.and_eq_true,Bool.or_eq_true,beq_iff_eq] at hend
    exact absurd hend.2 (by tauto)
  | _ => cases hend

end Control

def cr3Root (cr3 : Word) : Word := cr3 &&& ~~~(CR3_NOFLUSH ||| 0xfff)

theorem cr3Root_cr3 {s : Sthread} (hroot : s.stPgroot &&& (CR3_NOFLUSH ||| 0xfff) = 0)
    (hid : s.stId.toNat < 4096) : cr3Root s.cr3 = s.stPgroot := by
  have hext := Words.signExtend_toNat (x := s.stId) (by omega)
  have hlow : s.stId.signExtend 64 &&& 0xfff = s.stId.signExtend 64 := by
    refine BitVec.eq_of_toNat_eq ?_
    have hand := Words.lowBits_toNat (by omega : 12 ≤ 64) (s.stId.signExtend 64)
    exact hand.trans (Nat.mod_eq_of_lt (by omega))
  rw [cr3Root,Sthread.cr3,← hlow]
  exact Words.or_fields_and_not hroot

/-- The kernel's tag has room for `n` records in the part handed out. -/
def RoomFor (tid : CInt) (tags : List Tag) (n : ℕ) : Prop :=
  ∃ t, findTag tags tid = some t ∧ t.tLen = 40960 ∧ 368*n ≤ (t.tP - t.tBuf).toNat ∧
    (t.tP - t.tBuf).toNat ≤ 40960

/-- What the master and the runtime library are trusted with: requests to the
kernel's tag do not wrap, its id is not used again, and the root of a cloned table
is a page whose address leaves the bits free that are added for CR3. -/
def trusted (boot : Boot) (m : Machine) : Label → Bool
  | .tagNew _ => m.kernel.tagId != boot.kernelTag
  | .smalloc tid sz => tid != boot.kernelTag || sz.toNat < 2^63
  | .create _ _ _ r => r.pgroot &&& (CR3_NOFLUSH ||| 0xfff) == 0
  | _ => true

/-- Ids are counted, the count is bounded by the kernel's memory, and every root is
a page. -/
structure Roster (boot : Boot) (k : Kernel) : Prop where
  room : RoomFor boot.kernelTag k.tags k.sthreadId.toNat
  ids : ∀ s ∈ k.sthreads, s.stId.toNat ≤ k.sthreadId.toNat
  roots : ∀ s ∈ k.sthreads, s.stPgroot &&& (CR3_NOFLUSH ||| 0xfff) = 0

section Roster
variable {boot : Boot} {k k' : Kernel} {m m' : Machine}

theorem RoomFor.bump {tid : CInt} {tags : List Tag} {t : Tag} {sz : Word} {n d : ℕ}
    (h : RoomFor tid tags n) (ht : findTag tags tid = some t) (hroom : t.exhausted sz = false)
    (hsz : sz.toNat < 2^63) (hd : 368*d ≤ sz.toNat) : RoomFor tid (bumpTag tid sz tags) (n+d) := by
  obtain ⟨t',ht',hlen,hlow,hhigh⟩ := h
  obtain rfl := Option.some.inj (ht.symm.trans ht')
  refine ⟨{t with tP := t.tP + sz},by simp [findTag_bumpTag,ht],hlen,?_⟩
  have hmoved : t.tP + sz - t.tBuf = t.tP - t.tBuf + sz := by bv_omega
  have hfit : (t.tP - t.tBuf + sz).toNat ≤ 40960 := by
    simpa [Tag.exhausted,hlen,BitVec.le_def] using hroom
  rw [hmoved]
  rcases Words.add_toNat_cases (t.tP - t.tBuf) sz with ⟨-,he⟩ | ⟨hw,-⟩
  · rw [he] at hfit ⊢
    omega
  · omega

theorem RoomFor.smalloc {tid kt : CInt} {sz : Word} {n : ℕ} (h : RoomFor kt k.tags n)
    (hsz : tid = kt → sz.toNat < 2^63) : RoomFor kt (smalloc k tid sz).2.tags n := by
  rcases smalloc_cases k tid sz with hs | ⟨t,ht,hroom,hs⟩ <;> rw [hs]
  · exact h
  · by_cases htid : tid = kt
    · subst htid
      exact h.bump (d := 0) ht hroom (hsz rfl) (Nat.zero_le _)
    · obtain ⟨t',ht',h'⟩ := h
      exact ⟨t',by rw [findTag_bumpTag,if_neg (Ne.symm htid),ht'],h'⟩

theorem RoomFor.kmalloc {n : ℕ} (h : RoomFor boot.kernelTag k.tags n)
    (hk : kmalloc boot k sizeofSthread = .ok k') : RoomFor boot.kernelTag k'.tags (n+1) := by
  obtain ⟨rfl,h0⟩ := kmalloc_ok hk
  rcases smalloc_cases k boot.kernelTag (sizeofSthread.signExtend 64) with hs | ⟨t,ht,hroom,hs⟩
  · rw [hs] at h0
    exact absurd rfl h0
  · rw [hs]
    exact h.bump ht hroom (by decide) (by decide)

theorem RoomFor.le {tid : CInt} {tags : List Tag} {n : ℕ} (h : RoomFor tid tags n) : n < 4096 := by
  obtain ⟨t,-,-,hlow,hhigh⟩ := h
  omega

theorem Roster.evolves (h : Roster boot k) (hev : k.Evolves k') : Roster boot k' := by
  refine ⟨by rw [hev.tags,hev.counter]; exact h.room,fun s' hs' => ?_,fun s' hs' => ?_⟩
  · obtain ⟨s,hs,hse⟩ := hev.records s' hs'
    rw [hse.id,hev.counter]
    exact h.ids s hs
  · obtain ⟨s,hs,hse⟩ := hev.records s' hs'
    rw [hse.pgroot]
    exact h.roots s hs

theorem Roster.prepared {l : Label} (h : Roster boot m.kernel) (ht : trusted boot m l = true)
    (hp : Prepared boot m l k) : Roster boot k := by
  cases hp with
  | same | remap => exact ⟨h.room,h.ids,h.roots⟩
  | tag hmap =>
    refine ⟨?_,h.ids,h.roots⟩
    obtain ⟨t,hfind,hrest⟩ := h.room
    refine ⟨t,?_,hrest⟩
    have hne : (m.kernel.tagId == boot.kernelTag) = false := by simpa [trusted] using ht
    rw [findTag,List.find?_cons,hne]
    exact hfind
  | bump tid sz =>
    have hsz : tid = boot.kernelTag → sz.toNat < 2^63 := by simpa [trusted,imp_iff_not_or] using ht
    have hroom := h.room.smalloc hsz
    rw [smalloc_eq]
    exact ⟨hroom,h.ids,h.roots⟩
  | @fresh i cb arg r k₁ _ hk hid =>
    have hroom := h.room.kmalloc hk
    have hcount : k₁.sthreadId = m.kernel.sthreadId := by rw [kmalloc_eq hk]
    have hrecs : k₁.sthreads = m.kernel.sthreads := by rw [kmalloc_eq hk]
    have hnext : (k₁.sthreadId + 1).toNat = m.kernel.sthreadId.toNat + 1 := by
      have := hroom.le
      rw [hcount,BitVec.toNat_add]
      simp
      omega
    refine ⟨by simpa only [hnext] using hroom,fun s hs => ?_,fun s hs => ?_⟩
    · rcases List.mem_cons.mp hs with rfl | hs
      · exact le_rfl
      · have := h.ids s (hrecs ▸ hs)
        simp only [hnext]
        omega
    · rcases List.mem_cons.mp hs with rfl | hs
      · have hroot : r.pgroot &&& (CR3_NOFLUSH ||| 0xfff) = 0 := by simpa [trusted] using ht
        exact hroot
      · exact h.roots s (hrecs ▸ hs)

theorem Roster.step {l : Label} (h : Roster boot m.kernel) (ht : trusted boot m l = true)
    (hs : step boot m l = .ok m') : Roster boot m'.kernel := by
  obtain ⟨k₀,hp,hev⟩ := step_evolves hs
  exact (h.prepared ht hp).evolves hev

end Roster

/-- The thread whose code runs is current, and CR3 carries its page table. -/
def AsItself (m : Machine) : Prop :=
  ∀ u, m.mode = .user u → m.kernel.ksCurrent = some u ∧
    ∃ s, m.kernel.find u = some s ∧ cr3Root m.kernel.cr3 = s.stPgroot

/-- No thread leaves user mode inside a nested jump. -/
def returnsToMaster (boot : Boot) (m : Machine) (l : Label) : Bool :=
  !(endsJump boot m l && nested m)

section Identity
variable {rt : Runtime} {segments : List Segment} {pgroot : LeafTable Word} {mem : Mem}
  {r : InitReply} {boot : Boot} {m₀ m m' : Machine}

theorem asItself_of_good (hg : Good m) (hr : Roster boot m.kernel) : AsItself m := by
  intro u hu
  obtain ⟨-,hcur,s,hf,hcr3⟩ := (good_user hu).mp hg
  have hs := (Kernel.find_mem hf).1
  have hid : s.stId.toNat < 4096 := lt_of_le_of_lt (hr.ids s hs) hr.room.le
  exact ⟨hcur,s,hf,by rw [hcr3,cr3Root_cr3 (hr.roots s hs) hid]⟩

theorem good_init (h : sthreadInit rt segments pgroot mem r = .ok (boot,m)) :
    Good m ∧ Roster boot m.kernel := by
  obtain ⟨rfl,-,rfl⟩ := sthreadInit_ok h
  refine ⟨(good_idle fun v => Mode.noConfusion).mpr ⟨rfl,rfl⟩,?_,by simp,by simp⟩
  refine ⟨⟨0,r.kernelTag,r.kernelTag + 376,40960⟩,rfl,rfl,Nat.zero_le _,?_⟩
  have hused : r.kernelTag + 376 - r.kernelTag = 376 := by bv_omega
  rw [hused]
  decide

/-- In every run that spares the kernel's data and in which no nested jump returns, user
code runs as itself; and the first return from a nested jump breaks this. -/
theorem runs_as_itself {ls : List Label} (hinit : sthreadInit rt segments pgroot mem r = .ok (boot,m₀))
    (hruns : Runs (fun a l b => (trusted boot a l && sparesKernel boot a l &&
      returnsToMaster boot a l) = true ∧ step boot a l = .ok b) m₀ ls m) :
    AsItself m ∧ ∀ l m', trusted boot m l = true → sparesKernel boot m l = true →
      step boot m l = .ok m' → (AsItself m' ↔ returnsToMaster boot m l = true) := by
  have hinv : Good m ∧ Roster boot m.kernel := by
    refine hruns.invariant (I := fun a _ => Good a ∧ Roster boot a.kernel) (good_init hinit) ?_
    rintro a ls l b ⟨hg,hr⟩ ⟨hc,hstep⟩
    simp only [Bool.and_eq_true] at hc
    obtain ⟨⟨ht,-⟩,hret⟩ := hc
    exact ⟨good_step hg ((Bool.not_eq_true' _).mp hret) hstep,hr.step ht hstep⟩
  obtain ⟨hg,hr⟩ := hinv
  refine ⟨asItself_of_good hg hr,fun l m' ht _ hstep => ⟨fun h => ?_,fun h => ?_⟩⟩
  · by_contra hret
    obtain ⟨v,hv,hnone⟩ := step_nested hg (by simpa [returnsToMaster] using hret) hstep
    rw [(h v hv).1] at hnone
    cases hnone
  · exact asItself_of_good (good_step hg ((Bool.not_eq_true' _).mp h) hstep) (hr.step ht hstep)

end Identity

def play (rt : Runtime) (segments : List Segment) (pgroot : LeafTable Word) (mem : Mem)
    (r : InitReply) (cond : Boot → Machine → Label → Bool) (ls : List Label) : Option Machine :=
  match sthreadInit rt segments pgroot mem r with
  | .error _ => none
  | .ok x => follow (step x.1) (cond x.1) x.2 ls

theorem exists_of_play (rt : Runtime) (segments : List Segment) (pgroot : LeafTable Word) (mem : Mem)
    (r : InitReply) (cond : Boot → Machine → Label → Bool) (ls : List Label) (p : Machine → Bool)
    (h : (play rt segments pgroot mem r cond ls).any p = true) :
    ∃ boot m₀ m, sthreadInit rt segments pgroot mem r = .ok (boot,m₀) ∧
      Runs (fun a l b => cond boot a l = true ∧ step boot a l = .ok b) m₀ ls m ∧ p m = true := by
  unfold play at h
  cases hinit : sthreadInit rt segments pgroot mem r with
  | error e => simp [hinit] at h
  | ok x =>
    obtain ⟨m,hruns,hp⟩ := exists_of_follow (by simpa only [hinit] using h)
    exact ⟨x.1,x.2,m,rfl,hruns,hp⟩

section TwoReaders

/-- A host whose frames are the addresses themselves. -/
def flatRuntime : Runtime where
  pgrootAddr := 0x1000000
  vaStart := 0
  vaEnd := -1
  vaToPa := id
  duneBoot := false
  mmapBase := 0
  trampoline := 0x401000
  kernelVars := [⟨0x400ff8,8⟩]

def oneSegment : List Segment := [⟨0x400000,0x401000,0x1000,3⟩]

def onePage : LeafTable Word := ⟨[(0x400,0x400007)],by simp⟩

def flatInit : InitReply := ⟨0x20000000,0x21000000⟩

def readFour : TrapFrame := {rdi := 3,rsi := 0x400000,rdx := 4}

def exitCall : TrapFrame := {rax := 666}

/-- A first thread blocks on a read, a second one is created and reads too: the
first one is entered again inside the second one's system call. -/
def twoReaders : List Label := [
  .syscall readFour {},
  .create 0 0 0 ⟨0x24000000,0x25000000,0x3000000⟩,
  .syscall readFour {},
  .create 0 0 0 ⟨0x22000000,0x23000000,0x2000000⟩,
  .scFdAdd 0 3 PROT_READ]

/-- The hypotheses hold of a run with a nested jump, and the nested thread is
itself. -/
theorem runs_as_itself_twoReaders : ∃ boot m₀ m,
    sthreadInit flatRuntime oneSegment onePage (fun _ => 0) flatInit = .ok (boot,m₀) ∧
    Runs (fun a l b => (trusted boot a l && sparesKernel boot a l &&
      returnsToMaster boot a l) = true ∧ step boot a l = .ok b) m₀ twoReaders m ∧
    m.mode = .user 1 ∧ nested m = true ∧ AsItself m := by
  obtain ⟨boot,m₀,m,hinit,hruns,hp⟩ := exists_of_play flatRuntime oneSegment onePage
    (fun _ => 0) flatInit (fun boot a l => trusted boot a l && sparesKernel boot a l &&
      returnsToMaster boot a l) twoReaders (fun m => m.mode == .user 1 && nested m) (by decide +kernel)
  simp only [Bool.and_eq_true,beq_iff_eq] at hp
  exact ⟨boot,m₀,m,hinit,hruns,hp.1,hp.2,(runs_as_itself hinit hruns).1⟩

/-- When the first thread then exits, the second one runs with nobody current and
the master's page table. -/
theorem nested_exit_runs_as_nobody : ∃ boot m₀ m,
    sthreadInit flatRuntime oneSegment onePage (fun _ => 0) flatInit = .ok (boot,m₀) ∧
    Runs (fun a l b => (trusted boot a l && sparesKernel boot a l) = true ∧ step boot a l = .ok b) m₀
      (.syscall exitCall {}::twoReaders) m ∧
    m.mode = .user 2 ∧ m.kernel.ksCurrent = none ∧ cr3Root m.kernel.cr3 = 0x1000000 ∧
      ¬AsItself m := by
  obtain ⟨boot,m₀,m,hinit,hruns,hp⟩ := exists_of_play flatRuntime oneSegment onePage
    (fun _ => 0) flatInit (fun boot a l => trusted boot a l && sparesKernel boot a l)
    (.syscall exitCall {}::twoReaders) (fun m => m.mode == .user 2 && m.kernel.ksCurrent == none &&
      cr3Root m.kernel.cr3 == 0x1000000) (by decide +kernel)
  simp only [Bool.and_eq_true,beq_iff_eq] at hp
  obtain ⟨⟨hmode,hnone⟩,hroot⟩ := hp
  refine ⟨boot,m₀,m,hinit,hruns,hmode,hnone,hroot,fun h => ?_⟩
  rw [(h 2 hmode).1] at hnone
  cases hnone

end TwoReaders

end Sthreads
end VmplApps

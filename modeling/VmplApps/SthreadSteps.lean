import VmplApps.SthreadMachine

/-! What a step of the kernel can do to a thread's record: create it, or change
it without touching its name, its memory, its tags, or anything in its page table
except dirty bits. Every invariant of the kernel is derived from this. -/
namespace VmplApps
namespace Sthreads

theorem bind_ok {α β : Type} {x : Except Fault α} {f : α → Except Fault β} {b : β} :
    (x >>= f) = .ok b ↔ ∃ a, x = .ok a ∧ f a = .ok b := by
  cases x <;> simp [bind,Except.bind]

/-- Two entries that differ in the dirty bit at most. -/
def DirtyOnly (a b : Word) : Prop := b ||| PTE_D = a ||| PTE_D

theorem DirtyOnly.refl (a : Word) : DirtyOnly a a := rfl

theorem DirtyOnly.trans (a b c : Word) (h : DirtyOnly a b) (h' : DirtyOnly b c) : DirtyOnly a c :=
  Eq.trans h' h

theorem DirtyOnly.and_eq {a b mask : Word} (h : DirtyOnly a b) (hm : PTE_D &&& mask = 0) :
    b &&& mask = a &&& mask := by
  rw [← Words.or_and_of_disjoint (x := b) hm,← Words.or_and_of_disjoint (x := a) hm]
  exact congrArg (· &&& mask) h

theorem dirtyOnly_clear (a : Word) : DirtyOnly a (a &&& ~~~PTE_D) := by
  unfold DirtyOnly
  ext i
  simp only [BitVec.getElem_or,BitVec.getElem_and,BitVec.getElem_not]
  cases a[i] <;> cases PTE_D[i] <;> rfl

theorem dirtyOnly_set (a : Word) : DirtyOnly a (a ||| PTE_D) := by
  unfold DirtyOnly
  rw [BitVec.or_assoc,BitVec.or_self]

/-- A later record of the same thread. -/
structure Sthread.Evolves (s s' : Sthread) : Prop where
  id : s'.stId = s.stId
  pgroot : s'.stPgroot = s.stPgroot
  stack : s'.stStack = s.stStack
  writable : s'.stWritable = s.stWritable
  tags : s'.stSc.scMem = s.stSc.scMem
  table : LeafTable.Related DirtyOnly s.table s'.table

theorem Sthread.Evolves.refl (s : Sthread) : s.Evolves s :=
  ⟨rfl,rfl,rfl,rfl,rfl,LeafTable.Related.refl DirtyOnly.refl _⟩

theorem Sthread.Evolves.trans {s t u : Sthread} (h : s.Evolves t) (h' : t.Evolves u) :
    s.Evolves u :=
  ⟨h'.id.trans h.id,h'.pgroot.trans h.pgroot,h'.stack.trans h.stack,h'.writable.trans h.writable,
    h'.tags.trans h.tags,h.table.trans DirtyOnly.trans h'.table⟩

theorem Sthread.evolves_with (s : Sthread) (st : Status) (ret : Word) (tf : TrapFrame) (w : Word) :
    s.Evolves {s with stState := st,stRet := ret,stTf := tf,stWalk := w} :=
  ⟨rfl,rfl,rfl,rfl,rfl,LeafTable.Related.refl DirtyOnly.refl _⟩

theorem Sthread.Evolves.cr3_eq {s s' : Sthread} (h : s.Evolves s') : s'.cr3 = s.cr3 := by
  rw [Sthread.cr3,Sthread.cr3,h.pgroot,h.id]

section Records
variable {boot : Boot} {s : Sthread}

theorem pageWalk_related {σ : Type} {cb : σ → ℕ → Word → ℤ × Word × σ}
    (hcb : ∀ x p e, DirtyOnly e (cb x p e).2.1) (t : LeafTable Word) (start stop : Word) (x : σ) :
    LeafTable.Related DirtyOnly t (pageWalk t start stop cb x).2.1 :=
  LeafTable.related_walk DirtyOnly.refl hcb t x

theorem walkWritable_relates {σ : Type} {R : Word → Word → Prop} (hr : ∀ e, R e e)
    (ht : ∀ a b c, R a b → R b c → R a c) {cb : σ → ℕ → Word → ℤ × Word × σ}
    (hcb : ∀ x p e, R e (cb x p e).2.1) (t : LeafTable Word) (x : σ) :
    LeafTable.Related R t (walkWritable boot cb t x).1 := by
  unfold walkWritable
  induction boot.segments.filter Segment.writable generalizing t x with
  | nil => exact LeafTable.Related.refl hr t
  | cons seg rest ih => exact (LeafTable.related_walk hr hcb t x).trans ht (ih _ _)

theorem walkWritable_related {σ : Type} {cb : σ → ℕ → Word → ℤ × Word × σ}
    (hcb : ∀ x p e, DirtyOnly e (cb x p e).2.1) (t : LeafTable Word) (x : σ) :
    LeafTable.Related DirtyOnly t (walkWritable boot cb t x).1 :=
  walkWritable_relates DirtyOnly.refl DirtyOnly.trans hcb t x

theorem walkRecycle_dirtyOnly (x : Word × Mem) (p : ℕ) (e : Word) :
    DirtyOnly e (walkRecycle boot s x p e).2.1 := by
  obtain ⟨w,m⟩ := x
  simp only [walkRecycle]
  split_ifs
  · exact DirtyOnly.refl e
  · exact dirtyOnly_clear e

theorem walkRecycleStack_same (x : Word × Mem) (p : ℕ) (e : Word) :
    (walkRecycleStack s x p e).2.1 = e := by
  obtain ⟨w,m⟩ := x
  simp only [walkRecycleStack]
  split_ifs <;> rfl

theorem walkCheckPerm_same (w : Word) (p : ℕ) (e : Word) : (walkCheckPerm boot w p e).2.1 = e := by
  unfold walkCheckPerm
  split_ifs <;> rfl

theorem recycle_evolves (s : Sthread) (m : Mem) : s.Evolves (recycle boot s m).1 := by
  refine ⟨rfl,rfl,rfl,rfl,rfl,?_⟩
  refine (walkWritable_related walkRecycle_dirtyOnly s.table (0,m)).trans DirtyOnly.trans
    (pageWalk_related (fun x p e => ?_) _ _ _ _)
  rw [walkRecycleStack_same]
  exact DirtyOnly.refl e

theorem hasMemPerm_evolves (s : Sthread) (ptr len : Word) :
    s.Evolves (hasMemPerm boot s ptr len).2 := by
  refine ⟨rfl,rfl,rfl,rfl,rfl,pageWalk_related (fun x p e => ?_) _ _ _ _⟩
  rw [walkCheckPerm_same]
  exact DirtyOnly.refl e

/-- The buffer that the handler checks, if the call gets that far. -/
def memChecked (boot : Boot) (k : Kernel) (s : Sthread) (tf : TrapFrame) :
    Option (Word × Option Word) :=
  let num : CInt := tf.rax.setWidth 32
  match canDoSys s num with
  | .ok true =>
    match fdArg num tf with
    | some (fd,perm) => if hasFdPerm s fd perm then memArg boot k s num tf else none
    | none => memArg boot k s num tf
  | _ => none

/-- What the checks of a system call do: nothing, or one walk over a buffer, after
which the call is blocked or its pointer rewritten. -/
inductive Checked (boot : Boot) (k : Kernel) (s : Sthread) (tf : TrapFrame) :
    Sthread → Option TrapFrame → Prop
  | blocked : Checked boot k s tf s none
  | plain : memArg boot k s (tf.rax.setWidth 32) tf = none → Checked boot k s tf s (some tf)
  | refused {ptr len : Word} : memChecked boot k s tf = some (ptr,some len) →
      Checked boot k s tf (hasMemPerm boot s ptr len).2 none
  | walked {ptr len : Word} : memChecked boot k s tf = some (ptr,some len) →
      memArg boot k s (tf.rax.setWidth 32) tf = some (ptr,some len) →
      (hasMemPerm boot s ptr len).1 = true →
      Checked boot k s tf (hasMemPerm boot s ptr len).2 (some (setMemArg (tf.rax.setWidth 32) tf
        ((hasMemPerm boot s ptr len).2.stWalk + (ptr &&& 0xfff))))

theorem checked_of_checkMem {tf : TrapFrame} {k : Kernel} {s' : Sthread} {x : Option TrapFrame}
    (hmem : memChecked boot k s tf = memArg boot k s (tf.rax.setWidth 32) tf)
    (h : checkMem boot k s (tf.rax.setWidth 32) tf = .ok (s',x)) :
    Checked boot k s tf s' x := by
  unfold checkMem at h
  split at h
  · rename_i harg
    cases h
    exact .plain harg
  · cases h
  · rename_i ptr len harg
    dsimp only at h
    split_ifs at h with hwalk hperm
    · cases h
      exact .walked (hmem.trans harg) harg hperm
    · cases h
      exact .refused (hmem.trans harg)

theorem checked_of_syscallCheck {tf : TrapFrame} {k : Kernel} {s' : Sthread}
    {x : Option TrapFrame} (h : syscallCheck boot k s tf = .ok (s',x)) :
    Checked boot k s tf s' x := by
  obtain ⟨ok,hok,h⟩ := bind_ok.mp h
  cases ok with
  | false =>
    cases h
    exact .blocked
  | true =>
    simp only [Bool.not_true,Bool.false_eq_true,if_false] at h
    split at h
    · rename_i fd perm hfd
      split_ifs at h with hperm
      · exact checked_of_checkMem (by simp only [memChecked,hok,hfd,hperm,if_true]) h
      · cases h
        exact .blocked
    · rename_i hfd
      exact checked_of_checkMem (by simp only [memChecked,hok,hfd]) h

theorem syscallCheck_evolves {tf : TrapFrame} {k : Kernel} {s' : Sthread}
    {x : Option TrapFrame} (h : syscallCheck boot k s tf = .ok (s',x)) : s.Evolves s' := by
  cases checked_of_syscallCheck h with
  | blocked | plain => exact Sthread.Evolves.refl s
  | refused | walked => exact hasMemPerm_evolves s _ _

theorem hasMemPerm_table (s : Sthread) (ptr len : Word) :
    (hasMemPerm boot s ptr len).2.table = s.table :=
  LeafTable.ext (LeafTable.visit_same walkCheckPerm_same _ _)

theorem syscallCheck_table {tf : TrapFrame} {k : Kernel} {s' : Sthread}
    {x : Option TrapFrame} (h : syscallCheck boot k s tf = .ok (s',x)) :
    s'.table = s.table ∧ s'.stState = s.stState := by
  cases checked_of_syscallCheck h with
  | blocked | plain => exact ⟨rfl,rfl⟩
  | refused | walked => exact ⟨hasMemPerm_table s _ _,rfl⟩

theorem syscallCheck_sc {tf : TrapFrame} {k : Kernel} {s' : Sthread}
    {x : Option TrapFrame} (h : syscallCheck boot k s tf = .ok (s',x)) : s'.stSc = s.stSc := by
  cases checked_of_syscallCheck h <;> rfl

theorem setMemArg_rax (num : CInt) (tf : TrapFrame) (v : Word) :
    (setMemArg num tf v).rax = tf.rax := by
  unfold setMemArg
  split_ifs <;> rfl

theorem syscallCheck_rax {tf tf' : TrapFrame} {k : Kernel} {s' : Sthread}
    (h : syscallCheck boot k s tf = .ok (s',some tf')) : tf'.rax = tf.rax := by
  cases checked_of_syscallCheck h with
  | plain => rfl
  | walked => exact setMemArg_rax _ tf _

theorem scFdAdd_scMem {sc sc' : Sc} {fd prot : CInt} (h : scFdAdd sc fd prot = .ok sc') :
    sc'.scMem = sc.scMem := by
  obtain ⟨fds,-,h⟩ := bind_ok.mp h
  split_ifs at h
  cases h
  rfl

theorem storeVia_some {t t' : LeafTable Word} {va : Word} {b : Byte} {m m' : Mem}
    (h : storeVia boot t va b m = some (t',m')) :
    ∃ e, (va.toNat / 4096,e) ∈ t.leaves ∧ (e &&& PTE_P ≠ 0 ∧ e &&& PTE_U ≠ 0 ∧ e &&& PTE_W ≠ 0) ∧
      t' = t.modify (va.toNat / 4096) (· ||| PTE_D) ∧
      m' = Function.update m ((hostAddr boot (pteAddr e)).toNat + va.toNat % 4096) b := by
  unfold storeVia at h
  split at h
  · cases h
  · rename_i e he
    split_ifs at h with hbits
    cases h
    exact ⟨e,LeafTable.mem_leaves.mpr he,hbits,rfl,rfl⟩

theorem storeVia_related {t t' : LeafTable Word} {va : Word} {b : Byte} {m m' : Mem}
    (h : storeVia boot t va b m = some (t',m')) : LeafTable.Related DirtyOnly t t' := by
  obtain ⟨e,-,-,rfl,-⟩ := storeVia_some h
  exact LeafTable.related_modify DirtyOnly.refl dirtyOnly_set t _

end Records

namespace Kernel

variable {k : Kernel} {s : Sthread} {id : CInt}

theorem find_mem (h : k.find id = some s) : s ∈ k.sthreads ∧ s.stId = id := by
  refine ⟨List.mem_of_find?_eq_some h,?_⟩
  simpa using List.find?_some h

theorem find_isSome (h : s ∈ k.sthreads) : ∃ t, k.find s.stId = some t := by
  rw [← Option.isSome_iff_exists,find,List.find?_isSome]
  exact ⟨s,h,by simp⟩

theorem find_update (s : Sthread) (id : CInt) :
    (k.update s).find id = if id = s.stId then (k.find id).map fun _ => s else k.find id := by
  simp only [find,update]
  induction k.sthreads with
  | nil => simp
  | cons t rest ih =>
    by_cases ht : t.stId = id <;> by_cases hs : t.stId = s.stId <;> by_cases hid : id = s.stId <;>
      simp_all

theorem mem_update_same {t : Sthread} (h : t ∈ (k.update s).sthreads) (hid : t.stId = s.stId) :
    t = s := by
  obtain ⟨t₀,-,rfl⟩ := List.mem_map.mp h
  by_cases ht : t₀.stId = s.stId
  · rw [if_pos ht]
  · rw [if_neg ht] at hid
    exact absurd hid ht

theorem mem_update_self {s₀ : Sthread} (h : s₀ ∈ k.sthreads) (hid : s.stId = s₀.stId) :
    s ∈ (k.update s).sthreads := List.mem_map.mpr ⟨s₀,h,if_pos hid.symm⟩

theorem update_update {s' : Sthread} (hid : s'.stId = s.stId) :
    (k.update s).update s' = k.update s' := by
  simp only [update,List.map_map]
  congr 1
  refine List.map_congr_left fun t _ => ?_
  by_cases ht : t.stId = s.stId <;> simp [ht,hid]

end Kernel

section Creation
variable {boot : Boot} {k k' : Kernel} {sc : Sc} {r : CreateReply} {s : Sthread}

theorem mmapAnon_ok {m m' : Mem} {addr : Word} {len : ℕ} (h : mmapAnon m addr len = .ok m') :
    addr ≠ MAP_FAILED ∧ m' = ByteMemory.fill m addr.toNat len 0 := by
  unfold mmapAnon at h
  split_ifs at h with hfail
  exact ⟨hfail,(Except.ok.inj h).symm⟩

def Boot.copySize (boot : Boot) : ℕ := (boot.checkpointedSize.signExtend 64).toNat

/-- The memory after the two mappings and the copy of `create_new_sthread`. -/
def freshMem (boot : Boot) (m : Mem) (r : CreateReply) : Mem :=
  ByteMemory.copy (ByteMemory.fill (ByteMemory.fill m r.stack.toNat 40960 0) r.writable.toNat
    boot.copySize 0) r.writable.toNat boot.checkpointedMem.toNat boot.copySize

/-- Everything a successful `create_new_sthread` does. -/
theorem createNewSthread_ok (h : createNewSthread boot k sc r = .ok (s,k')) :
    ∃ k₁, kmalloc boot k sizeofSthread = .ok k₁ ∧ 0 ≤ (k₁.sthreadId + 1).toInt ∧
      s = newSthread boot k₁ sc r (k₁.sthreadId + 1) ∧
      k' = {k₁ with
        sthreads := s::k₁.sthreads,sthreadId := k₁.sthreadId + 1,mem := freshMem boot k₁.mem r} := by
  obtain ⟨k₁,hk₁,h⟩ := bind_ok.mp h
  dsimp only at h
  split_ifs at h with hid
  obtain ⟨m₁,hm₁,h⟩ := bind_ok.mp h
  obtain ⟨m₂,hm₂,h⟩ := bind_ok.mp h
  cases h
  obtain ⟨-,rfl⟩ := mmapAnon_ok hm₁
  obtain ⟨-,rfl⟩ := mmapAnon_ok hm₂
  exact ⟨k₁,hk₁,by omega,rfl,rfl⟩

theorem kmalloc_ok {sz : CInt} (h : kmalloc boot k sz = .ok k') :
    k' = (smalloc k boot.kernelTag (sz.signExtend 64)).2 ∧
      (smalloc k boot.kernelTag (sz.signExtend 64)).1 ≠ 0 := by
  unfold kmalloc at h
  dsimp only at h
  split_ifs at h with h0
  exact ⟨(Except.ok.inj h).symm,h0⟩

theorem smalloc_eq (k : Kernel) (tid : CInt) (sz : Word) :
    (smalloc k tid sz).2 = {k with tags := (smalloc k tid sz).2.tags} := by
  unfold smalloc
  split
  · rfl
  · split_ifs <;> rfl

theorem kmalloc_eq {sz : CInt} (h : kmalloc boot k sz = .ok k') : k' = {k with tags := k'.tags} := by
  rw [(kmalloc_ok h).1,smalloc_eq]

theorem findTag_bumpTag (tid id : CInt) (sz : Word) (tags : List Tag) :
    findTag (bumpTag tid sz tags) id =
      if id = tid then (findTag tags id).map fun t => {t with tP := t.tP + sz}
      else findTag tags id := by
  induction tags with
  | nil => simp [bumpTag,findTag]
  | cons t rest ih =>
    simp only [findTag] at ih ⊢
    by_cases ht : t.tId = tid <;> by_cases hid : t.tId = id
    · subst hid
      simp [bumpTag,ht]
    · have hne : ¬id = tid := fun h => hid (ht.trans h.symm)
      simp [bumpTag,ht,hne,Ne.symm hne]
    · have hne : ¬id = tid := fun h => ht (hid.trans h)
      simp [bumpTag,hid,hne]
    · simp [bumpTag,ht,hid,ih]

theorem smalloc_cases (k : Kernel) (tid : CInt) (sz : Word) :
    smalloc k tid sz = (0,k) ∨ ∃ t, findTag k.tags tid = some t ∧ t.exhausted sz = false ∧
      smalloc k tid sz = (t.tP,{k with tags := bumpTag tid sz k.tags}) := by
  unfold smalloc
  split
  · exact .inl rfl
  · rename_i t ht
    split_ifs with hfull
    · exact .inl rfl
    · exact .inr ⟨t,ht,by simpa using hfull,rfl⟩

end Creation

section Init
variable {rt : Runtime} {segments : List Segment} {pgroot : LeafTable Word} {mem : Mem}
  {r : InitReply} {boot : Boot} {m : Machine}

def initMem (segments : List Segment) (mem : Mem) (r : InitReply) : Mem :=
  checkpointDo segments r.checkpoint.toNat (ByteMemory.fill (ByteMemory.fill mem
    r.checkpoint.toNat ((checkpointSize segments).signExtend 64).toNat 0) r.kernelTag.toNat 40960 0)

/-- Everything a successful `sthread_init` does. -/
theorem sthreadInit_ok (h : sthreadInit rt segments pgroot mem r = .ok (boot,m)) :
    boot = {rt with
      segments := segments,checkpointedMem := r.checkpoint
      checkpointedSize := checkpointSize segments,kernelTag := 0} ∧
    checkpointTotal segments ≤ boot.copySize ∧
    m = {
      kernel := {
        sthreads := [],ksCurrent := none,sthreadId := 0
        tags := [⟨0,r.kernelTag,r.kernelTag + 376,40960⟩],tagId := 1,cr3 := rt.pgrootAddr
        entry := {},pgroot := pgroot,mem := initMem segments mem r}
      mode := .master,frames := [],policies := fun _ => scInit} := by
  obtain ⟨m₁,hm₁,h⟩ := bind_ok.mp h
  obtain ⟨⟨id,k⟩,hk,h⟩ := bind_ok.mp h
  obtain ⟨m₂,hm₂,hk⟩ := bind_ok.mp hk
  cases hk
  obtain ⟨k₁,hk₁,h⟩ := bind_ok.mp h
  obtain ⟨-,rfl⟩ := mmapAnon_ok hm₁
  obtain ⟨-,rfl⟩ := mmapAnon_ok hm₂
  obtain ⟨rfl,h0⟩ := kmalloc_ok hk₁
  dsimp only at h
  split_ifs at h with htotal
  cases h
  refine ⟨rfl,not_lt.mp htotal,?_⟩
  rcases smalloc_cases _ _ _ with hs | ⟨t,-,-,hs⟩ <;> rw [hs] at h0
  · exact absurd rfl h0
  · rw [hs]
    rfl

end Init

/-- The kernel after thread `s` has left by call 666. -/
def exitKernel (boot : Boot) (k : Kernel) (s : Sthread) (ret : Word) : Kernel :=
  {k.update {(recycle boot {s with stRet := ret} k.mem).1 with stState := .zombie} with
    mem := (recycle boot {s with stRet := ret} k.mem).2}

/-- Every transition of the machine, with what was tested on the way. -/
inductive Stepped (boot : Boot) (m : Machine) : Label → Machine → Prop
  | remap (pg) : Stepped boot m (.remap pg) {m with kernel := {m.kernel with pgroot := pg}}
  | tagNew {addr id k} : m.mode = .master → tagNew m.kernel addr = .ok (id,k) →
      Stepped boot m (.tagNew addr) {m with kernel := k}
  | smalloc (tid sz) : m.mode = .master →
      Stepped boot m (.smalloc tid sz) {m with kernel := (smalloc m.kernel tid sz).2}
  | scInit (i) : m.mode = .master → Stepped boot m (.scInit i) (setPolicy m i scInit)
  | scMemAdd {i tid prot sc} : m.mode = .master →
      scMemAdd m.kernel.tags (m.policies i) tid prot = .ok sc →
      Stepped boot m (.scMemAdd i tid prot) (setPolicy m i sc)
  | scFdAdd {i fd prot sc} : m.mode = .master → scFdAdd (m.policies i) fd prot = .ok sc →
      Stepped boot m (.scFdAdd i fd prot) (setPolicy m i sc)
  | scSysAdd {i sysno sc} : m.mode = .master → scSysAdd (m.policies i) sysno = .ok sc →
      Stepped boot m (.scSysAdd i sysno) (setPolicy m i sc)
  | create {i cb arg r id k} : m.mode = .master →
      sthreadCreate boot m.kernel (m.policies i) cb arg r = .ok (id,k) →
      Stepped boot m (.create i cb arg r)
        {m with kernel := k,mode := .user id,frames := ⟨id,.create⟩::m.frames}
  | joinNone {st} : m.mode = .master → m.kernel.find st = none → Stepped boot m (.join st) m
  | joinSome {st s} : m.mode = .master → m.kernel.find st = some s →
      Stepped boot m (.join st) {m with mode := .joining st}
  | collect {st s} (r) : m.mode = .joining st → m.kernel.find st = some s → s.stState = .zombie →
      Stepped boot m (.poll r)
        {m with kernel := m.kernel.update {s with stState := .dead},mode := .master}
  | wait {st s r m'} : m.mode = .joining st → m.kernel.find st = some s → s.stState ≠ .zombie →
      schedule boot m (.join st) r = .ok m' → Stepped boot m (.poll r) m'
  | user {u} : m.mode = .user u → Stepped boot m .user m
  | store {u va b k} : m.mode = .user u → userStore boot m.kernel u va b = .ok k →
      Stepped boot m (.store va b) {m with kernel := k}
  | blocked {u c s s' tf} (r) : m.mode = .user u → m.kernel.ksCurrent = some c →
      m.kernel.find c = some s → syscallCheck boot m.kernel s tf = .ok (s',none) →
      Stepped boot m (.syscall tf r) {m with kernel := m.kernel.update s'}
  | exited {u c s s' tf tf' r m'} : m.mode = .user u → m.kernel.ksCurrent = some c →
      m.kernel.find c = some s → syscallCheck boot m.kernel s tf = .ok (s',some tf') →
      tf.rax.setWidth 32 = (666 : CInt) →
      unwind boot {m with kernel := exitKernel boot m.kernel s' tf'.arg0} = .ok m' →
      Stepped boot m (.syscall tf r) m'
  | read {u c s s' tf tf' r m'} : m.mode = .user u → m.kernel.ksCurrent = some c →
      m.kernel.find c = some s → syscallCheck boot m.kernel s tf = .ok (s',some tf') →
      tf.rax.setWidth 32 = SYS_read →
      schedule boot {m with kernel := m.kernel.update {s' with stTf := tf'}} (.trap u) r = .ok m' →
      Stepped boot m (.syscall tf r) m'
  | opened {u c s s' tf tf' sc} (r) : m.mode = .user u → m.kernel.ksCurrent = some c →
      m.kernel.find c = some s → syscallCheck boot m.kernel s tf = .ok (s',some tf') →
      tf.rax.setWidth 32 = SYS_open →
      scFdAdd s'.stSc (r.ret.setWidth 32) (PROT_READ ||| PROT_WRITE) = .ok sc →
      0 ≤ (r.ret.setWidth 32 : CInt).toInt →
      Stepped boot m (.syscall tf r)
        {m with kernel := m.kernel.update {s' with stSc := sc}}
  | openFailed {u c s s' tf tf'} (r) : m.mode = .user u → m.kernel.ksCurrent = some c →
      m.kernel.find c = some s → syscallCheck boot m.kernel s tf = .ok (s',some tf') →
      tf.rax.setWidth 32 = SYS_open → ¬0 ≤ (r.ret.setWidth 32 : CInt).toInt →
      Stepped boot m (.syscall tf r) {m with kernel := m.kernel.update s'}
  | passed {u c s s' tf tf'} (r) : m.mode = .user u → m.kernel.ksCurrent = some c →
      m.kernel.find c = some s → syscallCheck boot m.kernel s tf = .ok (s',some tf') →
      tf.rax.setWidth 32 ≠ (666 : CInt) ∧ tf.rax.setWidth 32 ≠ SYS_read →
      tf.rax.setWidth 32 ≠ SYS_open →
      Stepped boot m (.syscall tf r) {m with kernel :=
        {m.kernel.update s' with mem := ByteMemory.storeBytes m.kernel.mem r.stores}}

section Inversion
variable {boot : Boot} {m m' : Machine}

theorem stepped_of_syscall {u : CInt} {tf : TrapFrame} {r : HostReply}
    (hm : m.mode = .user u) (h : syscallHandler boot m u tf r = .ok m') :
    Stepped boot m (.syscall tf r) m' := by
  unfold syscallHandler at h
  split at h
  · cases h
  · rename_i s hs
    obtain ⟨c,hc,hf⟩ := Option.bind_eq_some_iff.mp hs
    obtain ⟨⟨s',passed⟩,hcheck,h⟩ := bind_ok.mp h
    cases passed with
    | none =>
      cases h
      exact .blocked r hm hc hf hcheck
    | some tf' =>
      simp only [syscallServe] at h
      rw [syscallCheck_rax hcheck] at h
      split_ifs at h with h666 hread hopen hrc
      · exact .exited hm hc hf hcheck h666 h
      · exact .read hm hc hf hcheck hread h
      · obtain ⟨sc,hsc,h⟩ := bind_ok.mp h
        cases h
        exact .opened r hm hc hf hcheck hopen hsc hrc
      · cases h
        exact .openFailed r hm hc hf hcheck hopen hrc
      · cases h
        exact .passed r hm hc hf hcheck ⟨h666,hread⟩ hopen

theorem stepped_of_poll {st : CInt} {r : HostReply} (hm : m.mode = .joining st)
    (h : joinRound boot m st r = .ok m') : Stepped boot m (.poll r) m' := by
  unfold joinRound at h
  split at h
  · cases h
  · rename_i s hs
    split_ifs at h with hz
    · cases h
      exact .collect r hm hs hz
    · exact .wait hm hs hz h

theorem stepped_of_master {l : Label} (hm : m.mode = .master)
    (h : masterStep boot m l = .ok m') : Stepped boot m l m' := by
  cases l with
  | tagNew addr =>
    obtain ⟨⟨id,k⟩,hk,h⟩ := bind_ok.mp h
    cases h
    exact .tagNew hm hk
  | smalloc tid sz =>
    cases h
    exact .smalloc tid sz hm
  | scInit i =>
    cases h
    exact .scInit i hm
  | scMemAdd i tid prot =>
    obtain ⟨sc,hsc,h⟩ := bind_ok.mp h
    cases h
    exact .scMemAdd hm hsc
  | scFdAdd i fd prot =>
    obtain ⟨sc,hsc,h⟩ := bind_ok.mp h
    cases h
    exact .scFdAdd hm hsc
  | scSysAdd i sysno =>
    obtain ⟨sc,hsc,h⟩ := bind_ok.mp h
    cases h
    exact .scSysAdd hm hsc
  | create i cb arg r =>
    obtain ⟨⟨id,k⟩,hk,h⟩ := bind_ok.mp h
    cases h
    exact .create hm hk
  | join st =>
    cases hf : m.kernel.find st <;> simp only [masterStep,hf] at h <;> cases h
    · exact .joinNone hm hf
    · exact .joinSome hm hf
  | poll | user | store | syscall | remap => cases h

theorem stepped_of_user {u : CInt} {l : Label} (hm : m.mode = .user u)
    (h : userStep boot m u l = .ok m') : Stepped boot m l m' := by
  cases l with
  | user =>
    cases h
    exact .user hm
  | store va b =>
    obtain ⟨k,hk,h⟩ := bind_ok.mp h
    cases h
    exact .store hm hk
  | syscall tf r => exact stepped_of_syscall hm h
  | tagNew | smalloc | scInit | scMemAdd | scFdAdd | scSysAdd | create | join | poll | remap =>
    cases h

theorem stepped_of_step {l : Label} (h : step boot m l = .ok m') : Stepped boot m l m' := by
  cases l with
  | remap pg =>
    cases h
    exact .remap pg
  | poll r =>
    cases hm : m.mode with
    | master => exact stepped_of_master hm (by simpa only [step,hm] using h)
    | joining st => exact stepped_of_poll hm (by simpa only [step,hm] using h)
    | user u => exact stepped_of_user hm (by simpa only [step,hm] using h)
  | _ =>
    cases hm : m.mode with
    | master => exact stepped_of_master hm (by simpa only [step,hm] using h)
    | joining st =>
      -- while joining, the machine only polls
      simp only [step,hm] at h
      cases h
    | user u => exact stepped_of_user hm (by simpa only [step,hm] using h)

/-- `schedule` enters the first other runnable thread, or returns to whoever waits. -/
theorem schedule_cases {caller : Caller} {r : HostReply}
    (h : schedule boot m caller r = .ok m') :
    (∃ s, nextRunnable m.kernel = some s ∧
      m' = {m with
        kernel := {m.kernel.update {s with stTf := {s.stTf with rax := r.ret}} with
          ksCurrent := some s.stId,cr3 := s.cr3,entry := {s.stTf with rax := r.ret}
          mem := ByteMemory.storeBytes m.kernel.mem r.stores}
        mode := .user s.stId
        frames := ⟨s.stId,caller⟩::m.frames}) ∨
    (nextRunnable m.kernel = none ∧ (∃ u, caller = .trap u) ∧ unwind boot m = .ok m') := by
  unfold schedule at h
  split at h
  · rename_i s hs
    cases h
    exact .inl ⟨s,hs,rfl⟩
  · rename_i hs
    cases caller with
    | trap u => exact .inr ⟨hs,⟨u,rfl⟩,h⟩
    | create => cases h
    | join st => cases h

theorem unwind_ok (h : unwind boot m = .ok m') :
    ∃ f fs, m.frames = f::fs ∧
      m' = {m with
        kernel := {m.kernel with ksCurrent := none,cr3 := boot.masterCr3}
        mode := f.caller.resume
        frames := fs} := by
  unfold unwind at h
  split at h
  · cases h
  · rename_i f fs hf
    cases h
    exact ⟨f,fs,hf,rfl⟩

end Inversion

/-- Later records of the same threads in the same order, with the same tags. -/
structure Kernel.Evolves (k k' : Kernel) : Prop where
  records : ∀ s' ∈ k'.sthreads, ∃ s ∈ k.sthreads, s.Evolves s'
  ids : k'.sthreads.map Sthread.stId = k.sthreads.map Sthread.stId
  counter : k'.sthreadId = k.sthreadId
  tags : k'.tags = k.tags
  tagId : k'.tagId = k.tagId
  pgroot : LeafTable.Related DirtyOnly k.pgroot k'.pgroot

/-- What a step may add before the records evolve: a tag, an allocation, a fresh
record, or a new table of the master. -/
inductive Prepared (boot : Boot) (m : Machine) : Label → Kernel → Prop
  | same (l) : Prepared boot m l m.kernel
  | remap (pg) : Prepared boot m (.remap pg) {m.kernel with pgroot := pg}
  | tag {addr} : addr ≠ MAP_FAILED → Prepared boot m (.tagNew addr) {m.kernel with
      tags := ⟨m.kernel.tagId,addr,addr,TAG_SIZE.setWidth 32⟩::m.kernel.tags
      tagId := m.kernel.tagId + 1}
  | bump (tid sz) : Prepared boot m (.smalloc tid sz) (smalloc m.kernel tid sz).2
  | fresh {i cb arg r k} : recyclable m.kernel (m.policies i) = none →
      kmalloc boot m.kernel sizeofSthread = .ok k → 0 ≤ (k.sthreadId + 1).toInt →
      Prepared boot m (.create i cb arg r) {k with
        sthreads := newSthread boot k (m.policies i) r (k.sthreadId + 1)::k.sthreads
        sthreadId := k.sthreadId + 1}

section Evolution
variable {boot : Boot} {k k' : Kernel}

namespace Kernel

theorem Evolves.same (h : k' = {k with ksCurrent := k'.ksCurrent,cr3 := k'.cr3,entry := k'.entry,mem := k'.mem}) :
    k.Evolves k' := by
  rw [h]
  exact ⟨fun s hs => ⟨s,hs,Sthread.Evolves.refl s⟩,rfl,rfl,rfl,rfl,
    LeafTable.Related.refl DirtyOnly.refl _⟩

theorem evolves_update {s s' : Sthread} (hs : s ∈ k.sthreads) (hev : s.Evolves s')
    (h : k' = {k.update s' with ksCurrent := k'.ksCurrent,cr3 := k'.cr3,entry := k'.entry,mem := k'.mem}) :
    k.Evolves k' := by
  rw [h]
  refine ⟨fun t' ht' => ?_,?_,rfl,rfl,rfl,LeafTable.Related.refl DirtyOnly.refl _⟩
  · obtain ⟨t,ht,rfl⟩ := List.mem_map.mp ht'
    by_cases heq : t.stId = s'.stId
    · rw [if_pos heq]
      exact ⟨s,hs,hev⟩
    · rw [if_neg heq]
      exact ⟨t,ht,Sthread.Evolves.refl t⟩
  · simp only [update,List.map_map]
    refine List.map_congr_left fun t _ => ?_
    by_cases heq : t.stId = s'.stId <;> simp [heq]

theorem Evolves.trans {k'' : Kernel} (h : k.Evolves k') (h' : k'.Evolves k'') :
    k.Evolves k'' := by
  refine ⟨fun s'' hs'' => ?_,h'.ids.trans h.ids,h'.counter.trans h.counter,h'.tags.trans h.tags,
    h'.tagId.trans h.tagId,h.pgroot.trans DirtyOnly.trans h'.pgroot⟩
  obtain ⟨s',hs',hev'⟩ := h'.records s'' hs''
  obtain ⟨s,hs,hev⟩ := h.records s' hs'
  exact ⟨s,hs,hev.trans hev'⟩

end Kernel

theorem launchSthread_evolves {s s' : Sthread} {cb arg : Word} (hs : s ∈ k.sthreads)
    (hev : s.Evolves s') : k.Evolves (launchSthread boot k s' cb arg) :=
  Kernel.evolves_update hs (hev.trans (s'.evolves_with .running s'.stRet s'.stTf s'.stWalk)) rfl

theorem sthreadCreate_evolves {m : Machine} {i : ℕ} {cb arg : Word} {r : CreateReply} {id : CInt}
    (h : sthreadCreate boot m.kernel (m.policies i) cb arg r = .ok (id,k')) :
    ∃ k₀, Prepared boot m (.create i cb arg r) k₀ ∧ k₀.Evolves k' := by
  unfold sthreadCreate at h
  split at h
  · rename_i s hs
    cases h
    have hmatch := List.find?_some hs
    simp only [Bool.and_eq_true,beq_iff_eq] at hmatch
    refine ⟨m.kernel,.same _,launchSthread_evolves (List.mem_of_find?_eq_some hs) ?_⟩
    exact ⟨rfl,rfl,rfl,rfl,hmatch.2.symm,LeafTable.Related.refl DirtyOnly.refl _⟩
  · rename_i hnone
    obtain ⟨⟨s,k₂⟩,hnew,h⟩ := bind_ok.mp h
    cases h
    obtain ⟨k₁,hk₁,hid,rfl,rfl⟩ := createNewSthread_ok hnew
    exact ⟨_,.fresh hnone hk₁ hid,(Kernel.Evolves.same rfl).trans
      (launchSthread_evolves List.mem_cons_self (Sthread.Evolves.refl _))⟩

theorem userStore_evolves {u : CInt} {va : Word} {b : Byte}
    (h : userStore boot k u va b = .ok k') : k.Evolves k' := by
  unfold userStore at h
  split at h
  · cases h
  · rename_i s hs
    split_ifs at h
    · split at h
      · cases h
      · rename_i t mem hstore
        cases h
        have hev : s.Evolves {s with table := t} := ⟨rfl,rfl,rfl,rfl,rfl,storeVia_related hstore⟩
        exact Kernel.evolves_update (Kernel.find_mem hs).1 hev rfl
    · split at h
      · cases h
      · rename_i t mem hstore
        cases h
        exact ⟨fun s hs => ⟨s,hs,Sthread.Evolves.refl s⟩,rfl,rfl,rfl,rfl,storeVia_related hstore⟩

theorem unwind_evolves {m m' : Machine} (h : unwind boot m = .ok m') :
    m.kernel.Evolves m'.kernel := by
  obtain ⟨f,fs,-,rfl⟩ := unwind_ok h
  exact Kernel.Evolves.same rfl

theorem schedule_evolves {m m' : Machine} {caller : Caller} {r : HostReply}
    (h : schedule boot m caller r = .ok m') : m.kernel.Evolves m'.kernel := by
  rcases schedule_cases h with ⟨s,hs,rfl⟩ | ⟨-,-,h⟩
  · exact Kernel.evolves_update (List.mem_of_find?_eq_some hs) (s.evolves_with _ _ _ _) rfl
  · exact unwind_evolves h

theorem exitKernel_evolves {s s' : Sthread} {ret : Word} (hs : s ∈ k.sthreads)
    (hev : s.Evolves s') : k.Evolves (exitKernel boot k s' ret) := by
  have hret := s'.evolves_with s'.stState ret s'.stTf s'.stWalk
  have hrec : Sthread.Evolves _ (recycle boot {s' with stRet := ret} k.mem).1 :=
    recycle_evolves {s' with stRet := ret} k.mem
  set t := (recycle boot {s' with stRet := ret} k.mem).1
  have hz := t.evolves_with .zombie t.stRet t.stTf t.stWalk
  exact Kernel.evolves_update hs (((hev.trans hret).trans hrec).trans hz) rfl

/-- Every step keeps the records it finds, after at most one addition. -/
theorem step_evolves {m m' : Machine} {l : Label} (h : step boot m l = .ok m') :
    ∃ k₀, Prepared boot m l k₀ ∧ k₀.Evolves m'.kernel := by
  cases stepped_of_step h with
  | remap pg => exact ⟨_,.remap pg,Kernel.Evolves.same rfl⟩
  | tagNew _ hk =>
    obtain ⟨mem,hmem,hk⟩ := bind_ok.mp hk
    cases hk
    exact ⟨_,.tag (mmapAnon_ok hmem).1,Kernel.Evolves.same rfl⟩
  | smalloc tid sz _ => exact ⟨_,.bump tid sz,Kernel.Evolves.same rfl⟩
  | create _ hk => exact sthreadCreate_evolves hk
  | scInit | scMemAdd | scFdAdd | scSysAdd | joinNone | joinSome | user =>
    exact ⟨_,.same _,Kernel.Evolves.same rfl⟩
  | @collect st s r _ hf _ =>
    exact ⟨_,.same _,Kernel.evolves_update (Kernel.find_mem hf).1 (s.evolves_with _ _ _ _) rfl⟩
  | wait _ _ _ hs => exact ⟨_,.same _,schedule_evolves hs⟩
  | store _ hk => exact ⟨_,.same _,userStore_evolves hk⟩
  | blocked _ _ _ hf hc | openFailed _ _ _ hf hc | passed _ _ _ hf hc =>
    exact ⟨_,.same _,Kernel.evolves_update (Kernel.find_mem hf).1 (syscallCheck_evolves hc) rfl⟩
  | exited _ _ hf hc _ hu =>
    exact ⟨_,.same _,(exitKernel_evolves (Kernel.find_mem hf).1 (syscallCheck_evolves hc)).trans
      (unwind_evolves hu)⟩
  | @read u c s s' tf tf' _ _ _ _ hf hc _ hs =>
    have hev := (syscallCheck_evolves hc).trans (s'.evolves_with s'.stState s'.stRet tf' s'.stWalk)
    exact ⟨_,.same _,(Kernel.evolves_update (Kernel.find_mem hf).1 hev rfl).trans
      (schedule_evolves hs)⟩
  | opened _ _ _ hf hc _ hsc =>
    refine ⟨_,.same _,Kernel.evolves_update (Kernel.find_mem hf).1
      ((syscallCheck_evolves hc).trans ?_) rfl⟩
    exact ⟨rfl,rfl,rfl,rfl,scFdAdd_scMem hsc,LeafTable.Related.refl DirtyOnly.refl _⟩

end Evolution

end Sthreads
end VmplApps

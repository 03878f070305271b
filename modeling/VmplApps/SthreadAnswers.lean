import VmplApps.SthreadRecycle

/-! System calls that end the process. `st_walk` is scratch: creation and recycling
leave a number of bytes in it and the memory check an address, and the next memory
check insists that it is not zero. `strlen` goes through the path of an `open` before
anything has been checked. A call is answered as long as its number is in the table, the
path can be read, a new descriptor fits the policy, and no earlier check has come to
nothing. -/
namespace VmplApps
namespace Sthreads

open ByteMemory

/-- The numbers for which `can_do_sys` looks into the policy, or need not. -/
def InRange (num : CInt) : Prop :=
  num = 666 ∨ num = SYS_read ∨ num = SYS_write ∨ (0 ≤ num.toInt.tdiv 8 ∧ num.toInt.tdiv 8 ≤ 16)

/-- The policy has a free entry, and the descriptor survives being shifted. -/
def FdRoom (sc : Sc) (fd : CInt) : Prop := 0 ∈ sc.scFd.toList ∧ fd.toInt < 2^23

/-- From the pointer on, the kernel can read up to a zero byte. -/
def Readable (boot : Boot) (t : LeafTable Word) (m : Mem) (ptr : Word) : Prop :=
  ∃ n < 2^64, (∃ a, translate boot t (ptr + BitVec.ofNat 64 n).toNat = some a ∧ m a = 0) ∧
    ∀ i < n, ∃ a, translate boot t (ptr + BitVec.ofNat 64 i).toNat = some a

def mapped (t : LeafTable Word) (start stop : Word) : Bool :=
  t.leaves.any fun x => inWalk start stop x.1 x.2

/-- The first page that a memory check meets is one that user code may write, and its
frame is not at address zero. -/
def startsWritable (boot : Boot) (t : LeafTable Word) (ptr len : Word) : Bool :=
  match t.leaves.find? fun x => inWalk ptr (ptr + len) x.1 x.2 with
  | none => false
  | some x => x.2 &&& PTE_U != 0 && x.2 &&& PTE_W != 0 && hostOf boot x.2 != 0

/-- Scratch is left nonzero: a checked buffer starts on a page that the thread may
write, and a fresh thread has a page in a writable segment and one in its stack. -/
def steady (boot : Boot) (m : Machine) : Label → Bool
  | .create i _ _ r => (recyclable m.kernel (m.policies i)).isSome ||
      (boot.writableSegments.any fun seg => mapped m.kernel.pgroot seg.sStart (seg.sEnd - 4096)) &&
      mapped m.kernel.pgroot r.stack (r.stack + STACK_SIZE - 4096)
  | .syscall tf _ =>
    match m.kernel.ksCurrent.bind m.kernel.find with
    | none => true
    | some s => (memChecked boot m.kernel s tf).all fun x => x.2.all (startsWritable boot s.table x.1)
  | _ => true

/-- The next memory check will not fail its assertion, nor will the first one after
the thread has been recycled. -/
structure Ready (s : Sthread) : Prop where
  walk : s.stWalk ≠ 0
  stack : mapped s.table s.stStack (s.stStack + STACK_SIZE - 4096) = true

section Scratch
variable {boot : Boot} {t t' : LeafTable Word} {start stop ptr len : Word} {s s' : Sthread}

theorem mapped_iff : mapped t start stop = true ↔
    ∃ p e, (p,e) ∈ t.leaves ∧ inWalk start stop p e = true := by
  simp [mapped]

def StaysPresent (e e' : Word) : Prop := e &&& PTE_P ≠ 0 → e' &&& PTE_P ≠ 0

theorem mapped_related (h : mapped t start stop = true)
    (hr : LeafTable.Related StaysPresent t t') : mapped t' start stop = true := by
  obtain ⟨p,e,he,hw⟩ := mapped_iff.mp h
  obtain ⟨hin,hp⟩ := inWalk_iff.mp hw
  obtain ⟨e',he',hee⟩ := hr.mem_left he
  exact mapped_iff.mpr ⟨p,e',he',inWalk_iff.mpr ⟨hin,hee hp⟩⟩

theorem mapped_dirtyOnly (h : mapped t start stop = true)
    (hr : LeafTable.Related DirtyOnly t t') : mapped t' start stop = true := by
  refine mapped_related h (hr.mono fun e e' hd (hp : e &&& PTE_P ≠ 0) => ?_)
  have hP : e' &&& PTE_P = e &&& PTE_P := hd.and_eq rfl
  rwa [hP]

theorem selected_pos (h : mapped t start stop = true) :
    0 < (LeafTable.selected (inWalk start stop) t.leaves).length := by
  obtain ⟨p,e,he,hw⟩ := mapped_iff.mp h
  exact List.length_pos_of_mem (List.mem_filter.mpr ⟨he,hw⟩)

theorem Ready.evolves (h : Ready s) (hev : s.Evolves s') (hwalk : s'.stWalk ≠ 0) : Ready s' := by
  refine ⟨hwalk,?_⟩
  rw [hev.stack]
  exact mapped_dirtyOnly h.stack hev.table

theorem ofNat_pages_ne_zero {n : ℕ} (h0 : 0 < n) (hn : n < 2^52) :
    BitVec.ofNat 64 (4096*n) ≠ 0 := by
  intro h
  have hv := congrArg BitVec.toNat h
  rw [BitVec.toNat_ofNat,Nat.mod_eq_of_lt (by omega)] at hv
  have hz : (0 : Word).toNat = 0 := rfl
  omega

theorem remap_offset (boot : Boot) (s : Sthread) {segs : List Segment}
    (hwf : ∀ seg ∈ segs, seg.WellFormed) (t : LeafTable Word) (n : ℕ) :
    ∃ k ≤ segmentPages segs,
      (segs.foldl (fun x seg => (pageWalk x.1 seg.sStart (seg.sEnd - 4096) (walkRemap boot s)
        x.2).2) (t,BitVec.ofNat 64 (4096*n))).2 = BitVec.ofNat 64 (4096*(n+k)) ∧
      ((∃ seg ∈ segs, mapped t seg.sStart (seg.sEnd - 4096) = true) → 0 < k) := by
  induction segs generalizing t n with
  | nil => exact ⟨0,Nat.zero_le _,rfl,fun ⟨_,h,_⟩ => absurd h List.not_mem_nil⟩
  | cons seg rest ih =>
    have hpages := segmentPages_cons seg rest
    have hc := (hwf seg List.mem_cons_self).selected_le t
    have hstate := remap_segment_state boot s seg t n
    have hpos : mapped t seg.sStart (seg.sEnd - 4096) = true → _ := selected_pos
    set c := (LeafTable.selected (inWalk seg.sStart (seg.sEnd - 4096)) t.leaves).length
    set r := (pageWalk t seg.sStart (seg.sEnd - 4096) (walkRemap boot s)
      (BitVec.ofNat 64 (4096*n))).2
    obtain ⟨k,hk,hfold,hmap⟩ := ih (fun x hx => hwf x (List.mem_cons_of_mem _ hx)) r.1 (n+c)
    rw [← hstate] at hfold
    refine ⟨c+k,by omega,?_,?_⟩
    · rw [List.foldl_cons]
      exact hfold.trans (by rw [Nat.add_assoc])
    · rintro ⟨x,hx,hin⟩
      rcases List.mem_cons.mp hx with rfl | hx
      · have := hpos hin
        omega
      · have hin' : mapped r.1 x.sStart (x.sEnd - 4096) = true :=
          mapped_related hin (LeafTable.related_walk (fun _ h => h)
            (fun w p e _ => walkRemap_present boot s w p e) t _)
        have := hmap ⟨x,hx,hin'⟩
        omega

/-- A fresh thread is ready when its table has a page in a writable segment and one
in its stack. -/
theorem newSthread_ready {k : Kernel} {sc : Sc} {r : CreateReply} {id : CInt}
    (hwf : ∀ seg ∈ boot.segments, seg.WellFormed)
    (hsize : segmentPages boot.writableSegments < 2^52)
    (hseg : ∃ seg ∈ boot.writableSegments, mapped k.pgroot seg.sStart (seg.sEnd - 4096) = true)
    (hstack : mapped k.pgroot r.stack (r.stack + STACK_SIZE - 4096) = true) :
    Ready (newSthread boot k sc r id) := by
  set t := (pageWalk k.pgroot boot.vaStart boot.vaEnd
    (walkProtect boot (blankSthread k sc r id)) ()).2.1
  -- neither pass makes an entry absent
  have hprot : LeafTable.Related StaysPresent k.pgroot t := by
    refine LeafTable.related_walk (fun _ h => h) (fun _ p e hp => ?_) _ _
    have hP : protectEntry boot (blankSthread k sc r id) p e &&& PTE_P = e &&& PTE_P :=
      protectEntry_and rfl rfl e
    exact hP ▸ hp
  have hremap : LeafTable.Related StaysPresent t
      (walkWritable boot (walkRemap boot (blankSthread k sc r id)) t 0).1 :=
    walkWritable_relates (fun _ h => h) (fun _ _ _ h h' hp => h' (h hp))
      (fun w p e _ => walkRemap_present boot (blankSthread k sc r id) w p e) t 0
  obtain ⟨seg,hmem,hmap⟩ := hseg
  obtain ⟨n,hn,hwalk,hpos⟩ := remap_offset boot (blankSthread k sc r id)
    (fun x hx => hwf x (List.mem_filter.mp hx).1) t 0
  refine ⟨?_,?_⟩
  · have hw : (newSthread boot k sc r id).stWalk = BitVec.ofNat 64 (4096*(0+n)) := hwalk
    rw [hw,Nat.zero_add]
    exact ofNat_pages_ne_zero (hpos ⟨seg,hmem,mapped_related hmap hprot⟩)
      (lt_of_le_of_lt hn hsize)
  · exact mapped_related (mapped_related hstack hprot) hremap

theorem stack_pages (a : Word) : (a + STACK_SIZE - 4096).toNat / 4096 + 1 - a.toNat / 4096 ≤ 10 := by
  have hsum : a + STACK_SIZE - 4096 = a + 36864 := by
    rw [BitVec.sub_eq_add_neg,BitVec.add_assoc]
    rfl
  rw [hsum]
  have h36 : (36864 : Word).toNat = 36864 := rfl
  rcases Words.add_toNat_cases a 36864 with h | h <;> omega

/-- The last walk of `recycle` counts the pages of the stack that are present. -/
theorem recycleStack_offset (s : Sthread) (t : LeafTable Word) (start stop : Word) (m : Mem) :
    (pageWalk t start stop (walkRecycleStack s) (0,m)).2.2.1 =
      BitVec.ofNat 64 (4096*(LeafTable.selected (inWalk start stop) t.leaves).length) := by
  have hstep (n : ℕ) (x : Word × Mem) (p : ℕ) (e : Word) (hx : x.1 = BitVec.ofNat 64 (4096*n)) :
      (walkRecycleStack s x p e).2.2.1 = BitVec.ofNat 64 (4096*(n+1)) := by
    obtain ⟨w,mem⟩ := x
    obtain rfl : w = BitVec.ofNat 64 (4096*n) := hx
    simp only [walkRecycleStack,next_offset]
    split_ifs <;> rfl
  have hlen : 0 + (LeafTable.selected (inWalk start stop) t.leaves).length ≤
      (LeafTable.selected (inWalk start stop) t.leaves).length := by omega
  have h := LeafTable.visit_counted (J := fun n x => x.1 = BitVec.ofNat 64 (4096*n))
    walkRecycleStack_rc (fun n x p e _ _ hx => hstep n x p e hx) hlen (s := (0,m)) rfl
  rwa [Nat.zero_add] at h

theorem recycle_ready (h : Ready s) (m : Mem) : Ready (recycle boot s m).1 := by
  refine h.evolves (recycle_evolves s m) ?_
  set t := (walkWritable boot (walkRecycle boot s) s.table (0,m)).1
  have hmap : mapped t s.stStack (s.stStack + STACK_SIZE - 4096) = true :=
    mapped_dirtyOnly h.stack (walkWritable_related walkRecycle_dirtyOnly s.table (0,m))
  have hten : (LeafTable.selected (inWalk s.stStack (s.stStack + STACK_SIZE - 4096))
      t.leaves).length ≤ 10 :=
    (LeafTable.length_selected_le t.sorted fun _ _ hw => (inWalk_iff.mp hw).1).trans
      (stack_pages s.stStack)
  have hw : (recycle boot s m).1.stWalk = _ := recycleStack_offset s t _ _ _
  rw [hw]
  exact ofNat_pages_ne_zero (selected_pos hmap) (by omega)

theorem checkPerm_keeps {sel : ℕ → Word → Bool} {w : Word} (hw : w ≠ 0) (l : List (ℕ × Word)) :
    (LeafTable.visit sel (walkCheckPerm boot) w l).2.2 = w := by
  induction l with
  | nil => rfl
  | cons x rest ih =>
    obtain ⟨p,e⟩ := x
    have hcb : (walkCheckPerm boot w p e).2.2 = w := by
      unfold walkCheckPerm
      split_ifs <;> rfl
    simp only [LeafTable.visit,hcb]
    split_ifs
    · rfl
    · exact ih
    · exact ih

theorem startsWritable_walk (h : startsWritable boot s.table ptr len = true) :
    (hasMemPerm boot s ptr len).2.stWalk ≠ 0 := by
  change (LeafTable.visit (inWalk ptr (ptr + len)) (walkCheckPerm boot) 0 s.table.leaves).2.2 ≠ 0
  unfold startsWritable at h
  generalize s.table.leaves = l at h ⊢
  induction l with
  | nil => cases h
  | cons x rest ih =>
    obtain ⟨p,e⟩ := x
    cases hw : inWalk ptr (ptr + len) p e with
    | false =>
      rw [List.find?_cons_of_neg (by simpa using hw)] at h
      simpa only [LeafTable.visit,hw,Bool.false_eq_true,if_false] using ih h
    | true =>
      rw [List.find?_cons_of_pos (by simpa using hw)] at h
      simp only [Bool.and_eq_true,bne_iff_ne] at h
      obtain ⟨⟨hu,hwr⟩,hhost⟩ := h
      have hcb : walkCheckPerm boot 0 p e = (0,e,hostOf boot e) := by
        rw [walkCheckPerm,if_neg hu,if_neg (inWalk_iff.mp hw).2,if_neg hwr,if_pos rfl]
        rfl
      simp only [LeafTable.visit,hw,if_true,hcb,ne_eq,not_true,if_false]
      rwa [checkPerm_keeps hhost]

end Scratch

def AllReady (k : Kernel) : Prop := ∀ s ∈ k.sthreads, Ready s

section Steps
variable {boot : Boot} {k k' : Kernel} {m m' : Machine} {s s' : Sthread}

theorem AllReady.update (h : AllReady k) (hs : Ready s) : AllReady (k.update s) := by
  intro t ht
  obtain ⟨t₀,ht₀,rfl⟩ := List.mem_map.mp ht
  by_cases heq : t₀.stId = s.stId
  · rwa [if_pos heq]
  · rw [if_neg heq]
    exact h t₀ ht₀

theorem AllReady.same (h : AllReady k) (hk : k'.sthreads = k.sthreads) : AllReady k' := by
  intro s hs
  exact h s (hk ▸ hs)

theorem syscallCheck_ready {tf : TrapFrame} {x : Option TrapFrame} (h : Ready s)
    (hmem : (memChecked boot k s tf).all (fun y => y.2.all (startsWritable boot s.table y.1)) = true)
    (hc : syscallCheck boot k s tf = .ok (s',x)) : Ready s' := by
  have hev := syscallCheck_evolves hc
  cases checked_of_syscallCheck hc with
  | blocked | plain => exact h
  | refused hbuf | walked hbuf =>
    rw [hbuf] at hmem
    exact h.evolves hev (startsWritable_walk hmem)

theorem unwind_ready (h : AllReady m.kernel) (hu : unwind boot m = .ok m') : AllReady m'.kernel := by
  obtain ⟨f,fs,-,rfl⟩ := unwind_ok hu
  exact h.same rfl

theorem schedule_ready {caller : Caller} {r : HostReply} (h : AllReady m.kernel)
    (hs : schedule boot m caller r = .ok m') : AllReady m'.kernel := by
  rcases schedule_cases hs with ⟨t,ht,rfl⟩ | ⟨-,-,hu⟩
  · have hready := h t (find_nextRunnable ht)
    have hentered : Ready {t with stTf := {t.stTf with rax := r.ret}} := ⟨hready.walk,hready.stack⟩
    exact (h.update hentered).same rfl
  · exact unwind_ready h hu

theorem userStore_ready {u : CInt} {va : Word} {b : Byte} (h : AllReady k)
    (hs : userStore boot k u va b = .ok k') : AllReady k' := by
  unfold userStore at hs
  split at hs
  · cases hs
  · rename_i s hf
    have hready := h s (Kernel.find_mem hf).1
    split_ifs at hs
    · split at hs
      · cases hs
      · rename_i t mem hstore
        cases hs
        have hev : s.Evolves {s with table := t} := ⟨rfl,rfl,rfl,rfl,rfl,storeVia_related hstore⟩
        exact (h.update (hready.evolves hev hready.walk)).same rfl
    · split at hs
      · cases hs
      · cases hs
        exact h.same rfl

theorem launch_ready {cb arg : Word} (h : AllReady k) (hs : Ready s) :
    AllReady (launchSthread boot k s cb arg) :=
  (h.update (hs.evolves (s.evolves_with .running _ _ _) hs.walk)).same rfl

theorem create_ready {i : ℕ} {cb arg : Word} {r : CreateReply} {id : CInt}
    (hwf : ∀ seg ∈ boot.segments, seg.WellFormed)
    (hsize : segmentPages boot.writableSegments < 2^52) (h : AllReady m.kernel)
    (hsteady : steady boot m (.create i cb arg r) = true)
    (hc : sthreadCreate boot m.kernel (m.policies i) cb arg r = .ok (id,k')) : AllReady k' := by
  unfold sthreadCreate at hc
  split at hc
  · rename_i s hs
    cases hc
    have hready := h s (List.mem_of_find?_eq_some hs)
    exact launch_ready h ⟨hready.walk,hready.stack⟩
  · rename_i hnone
    obtain ⟨⟨s,k₂⟩,hnew,hc⟩ := bind_ok.mp hc
    cases hc
    obtain ⟨k₁,hk₁,-,rfl,rfl⟩ := createNewSthread_ok hnew
    simp only [steady,hnone,Option.isSome_none,Bool.false_or,Bool.and_eq_true,
      List.any_eq_true] at hsteady
    have hpg : k₁.pgroot = m.kernel.pgroot := by rw [kmalloc_eq hk₁]
    have hsame : k₁.sthreads = m.kernel.sthreads := by rw [kmalloc_eq hk₁]
    have hready : Ready (newSthread boot k₁ (m.policies i) r (k₁.sthreadId + 1)) :=
      newSthread_ready hwf hsize (hpg ▸ hsteady.1) (hpg ▸ hsteady.2)
    refine launch_ready (fun t ht => ?_) hready
    rcases List.mem_cons.mp ht with rfl | ht
    · exact hready
    · exact h t (hsame ▸ ht)

theorem ready_step {l : Label} (hwf : ∀ seg ∈ boot.segments, seg.WellFormed)
    (hsize : segmentPages boot.writableSegments < 2^52) (h : AllReady m.kernel)
    (hsteady : steady boot m l = true) (hs : step boot m l = .ok m') : AllReady m'.kernel := by
  have hchecked {c : CInt} {s s' : Sthread} {tf : TrapFrame} {r : HostReply}
      {x : Option TrapFrame} (hl : l = .syscall tf r) (hc : m.kernel.ksCurrent = some c)
      (hf : m.kernel.find c = some s) (hcheck : syscallCheck boot m.kernel s tf = .ok (s',x)) :
      Ready s' := by
    subst hl
    simp only [steady,hc,Option.bind_some,hf] at hsteady
    exact syscallCheck_ready (h s (Kernel.find_mem hf).1) hsteady hcheck
  cases stepped_of_step hs with
  | remap | scInit | scMemAdd | scFdAdd | scSysAdd | joinNone | joinSome | user => exact h.same rfl
  | tagNew _ hk =>
    obtain ⟨mem,-,hk⟩ := bind_ok.mp hk
    cases hk
    exact h.same rfl
  | smalloc tid sz _ => exact h.same (by rw [smalloc_eq])
  | create _ hk => exact create_ready hwf hsize h hsteady hk
  | @collect st s r _ hf _ =>
    have hready := h s (Kernel.find_mem hf).1
    exact h.update ⟨hready.walk,hready.stack⟩
  | wait _ _ _ hsched => exact schedule_ready h hsched
  | store _ hk => exact userStore_ready h hk
  | blocked _ _ hc hf hcheck | openFailed _ _ hc hf hcheck | passed _ _ hc hf hcheck =>
    exact (h.update (hchecked rfl hc hf hcheck)).same rfl
  | @exited u c s s' tf tf' r _ _ hc hf hcheck _ hu =>
    have hready := hchecked rfl hc hf hcheck
    have hret : Ready {s' with stRet := tf'.arg0} := ⟨hready.walk,hready.stack⟩
    have hrec : Ready (recycle boot {s' with stRet := tf'.arg0} m.kernel.mem).1 :=
      recycle_ready hret m.kernel.mem
    have hzombie : Ready {(recycle boot {s' with stRet := tf'.arg0} m.kernel.mem).1 with
        stState := .zombie} := ⟨hrec.walk,hrec.stack⟩
    have hexit : AllReady (exitKernel boot m.kernel s' tf'.arg0) := (h.update hzombie).same rfl
    exact unwind_ready (m := {m with kernel := exitKernel boot m.kernel s' tf'.arg0}) hexit hu
  | @read u c s s' tf tf' _ _ _ hc hf hcheck _ hsched =>
    have hready := hchecked rfl hc hf hcheck
    exact schedule_ready (m := {m with kernel := m.kernel.update {s' with stTf := tf'}})
      (h.update ⟨hready.walk,hready.stack⟩) hsched
  | opened _ _ hc hf hcheck _ _ =>
    have hready := hchecked rfl hc hf hcheck
    exact h.update ⟨hready.walk,hready.stack⟩

end Steps

section Answers
variable {boot : Boot} {k : Kernel} {m : Machine} {s : Sthread} {tf : TrapFrame}

theorem canDoSys_ok_iff (s : Sthread) (num : CInt) :
    (∃ b, canDoSys s num = .ok b) ↔ InRange num := by
  unfold canDoSys InRange
  dsimp only
  split_ifs with hdefault hrange
  · exact iff_of_true ⟨_,rfl⟩ (by tauto)
  · refine iff_of_false (fun ⟨_,h⟩ => by cases h) ?_
    rintro (h | h | h | h)
    · exact hdefault (.inl h)
    · exact hdefault (.inr (.inl h))
    · exact hdefault (.inr (.inr h))
    · omega
  · exact iff_of_true ⟨_,rfl⟩ (.inr (.inr (.inr (by omega))))

theorem next_byte (ptr : Word) (i : ℕ) :
    ptr + BitVec.ofNat 64 (i+1) = ptr + 1 + BitVec.ofNat 64 i := by
  rw [BitVec.ofNat_add,BitVec.add_comm (BitVec.ofNat 64 i),← BitVec.add_assoc]
  rfl

/-- `strlen` returns when it meets a zero byte before a page that is not present. -/
theorem strlenLoop_isSome {t : LeafTable Word} {mem : Mem} {fuel : ℕ} {ptr n : Word} :
    (∃ len, strlenLoop boot t mem fuel ptr n = some len) ↔ ∃ i < fuel,
      (∃ a, translate boot t (ptr + BitVec.ofNat 64 i).toNat = some a ∧ mem a = 0) ∧
      ∀ j < i, ∃ a, translate boot t (ptr + BitVec.ofNat 64 j).toNat = some a := by
  induction fuel generalizing ptr n with
  | zero => simp [strlenLoop]
  | succ fuel ih =>
    -- the zero is the first byte, or it comes later and the first byte can be read
    have hfirst : ptr + BitVec.ofNat 64 0 = ptr := BitVec.add_zero ptr
    simp only [strlenLoop,Nat.exists_lt_succ_left,Nat.forall_lt_succ_left,next_byte,hfirst,
      Nat.not_lt_zero,false_implies,implies_true,and_true]
    cases hone : translate boot t ptr.toNat with
    | none => simp
    | some a =>
      by_cases hzero : mem a = 0
      · simp [hzero]
      · simp only [Option.some.injEq,exists_eq_left',exists_eq',true_and,hzero,false_or,if_false,ih]

theorem checkMem_ok {num : CInt} (h : s.stWalk ≠ 0)
    (harg : ∀ ptr, memArg boot k s num tf ≠ some (ptr,none)) :
    ∃ x, checkMem boot k s num tf = .ok x := by
  unfold checkMem
  split
  · exact ⟨_,rfl⟩
  · exact absurd ‹_› (harg _)
  · rw [if_neg h]
    dsimp only
    split_ifs <;> exact ⟨_,rfl⟩

/-- Once scratch is nonzero, the memory check fails only on the path of an `open`. -/
theorem checkMem_ok_iff (h : s.stWalk ≠ 0) (num : CInt) :
    (∃ x, checkMem boot k s num tf = .ok x) ↔
      (num = SYS_open → Readable boot (loadedTable k s) k.mem tf.rdi) := by
  by_cases hopen : num = SYS_open
  · have harg : memArg boot k s num tf = some (tf.rdi,pathLength boot k s tf.rdi) := if_pos hopen
    have hlen : (∃ len, pathLength boot k s tf.rdi = some len) ↔
      Readable boot (loadedTable k s) k.mem tf.rdi := strlenLoop_isSome
    rw [← hlen,forall_prop_of_true hopen]
    cases hpath : pathLength boot k s tf.rdi with
    | none => simp [checkMem,harg,hpath]
    | some len => exact iff_of_true (checkMem_ok h (by simp [harg,hpath])) ⟨len,rfl⟩
  · refine iff_of_true (checkMem_ok h fun ptr harg => ?_) fun heq => absurd heq hopen
    rw [memArg,if_neg hopen] at harg
    split_ifs at harg
    cases harg

/-- With scratch left nonzero, only the number of a call and the path of an `open` that
the policy allows can make the checks fail. -/
theorem syscallCheck_ok_iff (h : s.stWalk ≠ 0) :
    (∃ x, syscallCheck boot k s tf = .ok x) ↔ InRange (tf.rax.setWidth 32) ∧
      (tf.rax.setWidth 32 = SYS_open → canDoSys s SYS_open = .ok true →
        Readable boot (loadedTable k s) k.mem tf.rdi) := by
  rw [← canDoSys_ok_iff s]
  set num : CInt := tf.rax.setWidth 32 with hnum
  cases hsys : canDoSys s num with
  | error e =>
    refine iff_of_false ?_ (fun ⟨⟨_,h⟩,_⟩ => by cases h)
    rintro ⟨x,hx⟩
    obtain ⟨ok,hok,-⟩ := bind_ok.mp hx
    cases hsys.symm.trans hok
  | ok allowed =>
    rw [and_iff_right ⟨allowed,rfl⟩]
    cases allowed with
    | false =>
      refine iff_of_true ⟨(s,none),?_⟩ fun hopen hallowed => ?_
      · simp [syscallCheck,← hnum,hsys,bind,Except.bind]
      rw [hopen,hallowed] at hsys
      cases hsys
    | true =>
      simp only [syscallCheck,← hnum,hsys,bind,Except.bind,Bool.not_true,Bool.false_eq_true,if_false]
      have hmem : (∃ x, checkMem boot k s num tf = .ok x) ↔ _ := checkMem_ok_iff h num
      cases hfd : fdArg num tf with
      | none =>
        refine hmem.trans ⟨fun hread hopen _ => hread hopen,fun hread hopen => hread hopen ?_⟩
        rw [← hopen]
        exact hsys
      | some x =>
        have hopen : num ≠ SYS_open := by
          rintro heq
          rw [heq] at hfd
          cases hfd
        refine iff_of_true ?_ fun heq => absurd heq hopen
        dsimp only
        split_ifs
        · exact hmem.mpr fun heq => absurd heq hopen
        · exact ⟨_,rfl⟩

theorem canDoSys_of_check {tf' : TrapFrame} {s' : Sthread}
    (h : syscallCheck boot k s tf = .ok (s',some tf')) :
    canDoSys s (tf.rax.setWidth 32) = .ok true := by
  obtain ⟨ok,hok,h⟩ := bind_ok.mp h
  cases ok with
  | false => cases h
  | true => exact hok

theorem setFirstZero_ok_iff {n : ℕ} (v : Vector Word n) (w : Word) (full : Fault) :
    (∃ v', setFirstZero v w full = .ok v') ↔ 0 ∈ v.toList := by
  unfold setFirstZero
  split
  · rename_i hnone
    refine iff_of_false (fun ⟨_,h⟩ => by cases h) fun hmem => ?_
    exact absurd (List.findIdx?_eq_none_iff.mp hnone 0 hmem) (by decide)
  · rename_i i hi
    refine iff_of_true ⟨_,rfl⟩ ?_
    obtain ⟨hlt,hzero,-⟩ := List.findIdx?_eq_some_iff_getElem.mp hi
    have h0 : v.toList[i] = 0 := by simpa using hzero
    exact h0 ▸ List.getElem_mem hlt

theorem fdWord_iff {fd : CInt} (h0 : 0 ≤ fd.toInt) :
    (((fd <<< 8) ||| (PROT_READ ||| PROT_WRITE)).signExtend 64 >>> 8 = fd.signExtend 64 ∧
      ((fd <<< 8) ||| (PROT_READ ||| PROT_WRITE)).signExtend 64 &&& 0xf =
        (PROT_READ ||| PROT_WRITE : CInt).signExtend 64) ↔ fd.toInt < 2^23 := by
  have hfd : fd.toInt = fd.toNat ∧ fd.toNat < 2^31 := by
    have := fd.isLt
    rw [BitVec.toInt_eq_toNat_cond] at h0 ⊢
    split_ifs at h0 ⊢ <;> omega
  set x : CInt := (fd <<< 8) ||| (PROT_READ ||| PROT_WRITE) with hx
  have hword : x.toNat = fd.toNat % 2^24 * 256 + 3 := by
    have hshift : fd.toNat <<< 8 % 2^32 = (fd.toNat % 2^24) <<< 8 := by
      rw [Nat.shiftLeft_eq,Nat.shiftLeft_eq]
      omega
    have hor := Nat.shiftLeft_add_eq_or_of_lt (show 3 < 2^8 by decide) (fd.toNat % 2^24)
    rw [hx,BitVec.toNat_or,BitVec.toNat_shiftLeft,hshift]
    exact hor.symm.trans (by rw [Nat.shiftLeft_eq])
  have hhigh : (x.signExtend 64 >>> 8).toNat = (x.signExtend 64).toNat / 256 := by
    rw [BitVec.toNat_ushiftRight,Nat.shiftRight_eq_div_pow]
  have hlow : (x.signExtend 64 &&& 0xf).toNat = (x.signExtend 64).toNat % 16 :=
    Words.lowBits_toNat (by omega : 4 ≤ 64) (x.signExtend 64)
  have hthree : ((PROT_READ ||| PROT_WRITE : CInt).signExtend 64).toNat = 3 := by decide
  rw [← BitVec.toNat_inj,← BitVec.toNat_inj,hhigh,hlow,hthree,hfd.1]
  rcases Words.signExtend_toNat_cases x with hxs | hxs <;>
    rcases Words.signExtend_toNat_cases fd with hfs | hfs <;> omega

theorem scFdAdd_ok_iff (sc : Sc) {fd : CInt} (h0 : 0 ≤ fd.toInt) :
    (∃ sc', scFdAdd sc fd (PROT_READ ||| PROT_WRITE) = .ok sc') ↔ FdRoom sc fd := by
  rw [FdRoom,← fdWord_iff h0,← setFirstZero_ok_iff sc.scFd
    (((fd <<< 8) ||| (PROT_READ ||| PROT_WRITE)).signExtend 64) .fdFull]
  constructor
  · rintro ⟨sc',h⟩
    obtain ⟨fds,hfds,h⟩ := bind_ok.mp h
    split_ifs at h with hassert
    exact ⟨⟨fds,hfds⟩,hassert⟩
  · rintro ⟨⟨fds,hfds⟩,hassert⟩
    exact ⟨{sc with scFd := fds},bind_ok.mpr ⟨fds,hfds,if_pos hassert⟩⟩

theorem unwind_isOk (h : m.frames ≠ []) : ∃ m', unwind boot m = .ok m' := by
  unfold unwind
  split
  · exact absurd ‹_› h
  · exact ⟨_,rfl⟩

theorem schedule_isOk (h : m.frames ≠ []) (u : CInt) (r : HostReply) :
    ∃ m', schedule boot m (.trap u) r = .ok m' := by
  unfold schedule
  split
  · exact ⟨_,rfl⟩
  · exact unwind_isOk h

theorem syscallServe_ok_iff (h : m.frames ≠ []) (u : CInt) (r : HostReply) :
    (∃ m', syscallServe boot m u s tf r = .ok m') ↔
      (tf.rax.setWidth 32 = SYS_open → 0 ≤ (r.ret.setWidth 32 : CInt).toInt →
        FdRoom s.stSc (r.ret.setWidth 32)) := by
  unfold syscallServe
  dsimp only
  split_ifs with hexit hread hopen hrc
  · refine iff_of_true (unwind_isOk h) fun ho => ?_
    rw [hexit] at ho
    cases ho
  · have hsched : ∃ m', schedule boot {m with kernel := m.kernel.update {s with stTf := tf}}
        (.trap u) r = .ok m' := by
      apply schedule_isOk
      exact h
    refine iff_of_true hsched fun ho => ?_
    rw [hread] at ho
    cases ho
  · rw [← scFdAdd_ok_iff s.stSc hrc]
    constructor
    · rintro ⟨m',hm'⟩ - -
      obtain ⟨sc,hsc,-⟩ := bind_ok.mp hm'
      exact ⟨sc,hsc⟩
    · intro hroom
      obtain ⟨sc,hsc⟩ := hroom hopen hrc
      exact ⟨_,bind_ok.mpr ⟨sc,hsc,rfl⟩⟩
  · exact iff_of_true ⟨_,rfl⟩ fun _ hge => absurd hge hrc
  · exact iff_of_true ⟨_,rfl⟩ fun ho => absurd ho hopen

theorem syscallHandler_ok_iff {u : CInt} {r : HostReply}
    (hlook : m.kernel.ksCurrent.bind m.kernel.find = some s) :
    (∃ m', syscallHandler boot m u tf r = .ok m') ↔ ∃ s' passed,
      syscallCheck boot m.kernel s tf = .ok (s',passed) ∧
        ∀ tf' ∈ passed, ∃ m', syscallServe boot m u s' tf' r = .ok m' := by
  simp only [syscallHandler,hlook,bind_ok,Prod.exists]
  constructor
  · rintro ⟨m',s',passed,hcheck,hserve⟩
    refine ⟨s',passed,hcheck,?_⟩
    rintro tf' rfl
    exact ⟨m',hserve⟩
  · rintro ⟨s',passed,hcheck,hserve⟩
    cases passed with
    | none => exact ⟨_,s',none,hcheck,rfl⟩
    | some tf' =>
      obtain ⟨m',hm'⟩ := hserve tf' rfl
      exact ⟨m',s',some tf',hcheck,hm'⟩

theorem syscall_ok_iff {u : CInt} {r : HostReply} (hm : m.mode = .user u) (hg : Good m)
    (hready : AllReady m.kernel) :
    (∃ m', step boot m (.syscall tf r) = .ok m') ↔ InRange (tf.rax.setWidth 32) ∧
      ∀ s, m.kernel.find u = some s → tf.rax.setWidth 32 = SYS_open →
        canDoSys s SYS_open = .ok true → Readable boot s.table m.kernel.mem tf.rdi ∧
          (permitted boot m tf = true → 0 ≤ (r.ret.setWidth 32 : CInt).toInt →
            FdRoom s.stSc (r.ret.setWidth 32)) := by
  obtain ⟨⟨c,fs,hframes,-⟩,hcur,s,hf,hcr3⟩ := (good_user hm).mp hg
  have hne : m.frames ≠ [] := by
    rw [hframes]
    exact List.cons_ne_nil _ _
  have hwalk := (hready s (Kernel.find_mem hf).1).walk
  have hstep : step boot m (.syscall tf r) = syscallHandler boot m u tf r := by
    simp only [step,hm,userStep]
  have hlook : m.kernel.ksCurrent.bind m.kernel.find = some s := by
    rw [hcur,Option.bind_some,hf]
  have hchecks : (∃ x, syscallCheck boot m.kernel s tf = .ok x) ↔ _ := syscallCheck_ok_iff hwalk
  have htable : loadedTable m.kernel s = s.table := if_pos hcr3
  rw [htable] at hchecks
  rw [hstep,syscallHandler_ok_iff hlook]
  constructor
  · rintro ⟨s',passed,hcheck,hserve⟩
    obtain ⟨hrange,hread⟩ := hchecks.mp ⟨_,hcheck⟩
    refine ⟨hrange,fun t ht hopen hallowed => ?_⟩
    obtain rfl := Option.some.inj (hf.symm.trans ht)
    refine ⟨hread hopen hallowed,fun hperm hrc => ?_⟩
    cases passed with
    | none => simp [permitted,hcur,hf,hcheck] at hperm
    | some tf' =>
      have hroom := (syscallServe_ok_iff hne u r).mp (hserve tf' rfl)
      rw [syscallCheck_rax hcheck,syscallCheck_sc hcheck] at hroom
      exact hroom hopen hrc
  · rintro ⟨hrange,hopens⟩
    obtain ⟨⟨s',passed⟩,hcheck⟩ :=
      hchecks.mpr ⟨hrange,fun hopen hallowed => (hopens s hf hopen hallowed).1⟩
    refine ⟨s',passed,hcheck,?_⟩
    rintro tf' rfl
    have hperm := permitted_of_check hcur hf hcheck
    rw [syscallServe_ok_iff hne u r,syscallCheck_rax hcheck,syscallCheck_sc hcheck]
    intro hopen
    have hallowed : canDoSys s SYS_open = .ok true := by
      rw [← hopen]
      exact canDoSys_of_check hcheck
    exact (hopens s hf hopen hallowed).2 hperm

end Answers

section Runs
variable {rt : Runtime} {segments : List Segment} {pgroot : LeafTable Word} {mem : Mem}
  {r : InitReply} {boot : Boot} {m₀ m : Machine}

/-- In every run that spares the kernel's data, in which no nested jump returns and scratch
is left nonzero, the next system call is answered exactly when its number is in the table
and, for an `open` that the policy allows, the path can be read and a descriptor that the
call opens fits the policy. -/
theorem runs_answered_iff {ls : List Label}
    (hinit : sthreadInit rt segments pgroot mem r = .ok (boot,m₀))
    (hwf : ∀ seg ∈ segments, seg.WellFormed)
    (hruns : Runs (fun a l b => (returnsToMaster boot a l && steady boot a l &&
      sparesKernel boot a l) = true ∧ step boot a l = .ok b) m₀ ls m)
    {u : CInt} (hm : m.mode = .user u) (tf : TrapFrame) (reply : HostReply) :
    sparesKernel boot m (.syscall tf reply) = true →
    ((∃ m', step boot m (.syscall tf reply) = .ok m') ↔ InRange (tf.rax.setWidth 32) ∧
      ∀ s, m.kernel.find u = some s → tf.rax.setWidth 32 = SYS_open →
        canDoSys s SYS_open = .ok true → Readable boot s.table m.kernel.mem tf.rdi ∧
          (permitted boot m tf = true → 0 ≤ (reply.ret.setWidth 32 : CInt).toInt →
            FdRoom s.stSc (reply.ret.setWidth 32))) := by
  intro _
  obtain ⟨hboot,htotal,hm₀⟩ := sthreadInit_ok hinit
  have hsegs : boot.segments = segments := by rw [hboot]
  have hwf' : ∀ seg ∈ boot.segments, seg.WellFormed := by rwa [hsegs]
  have hsize : segmentPages boot.writableSegments < 2^52 := by
    have hpages := segmentPages_mul (segments.filter Segment.writable)
      fun seg hseg => hwf seg (List.mem_filter.mp hseg).1
    have hlt : boot.copySize < 2^64 := BitVec.isLt _
    rw [Boot.writableSegments,hsegs]
    rw [← checkpointTotal] at hpages
    omega
  have hinv : Good m ∧ AllReady m.kernel := by
    refine hruns.invariant (I := fun a _ => Good a ∧ AllReady a.kernel) ?_ ?_
    · exact ⟨(good_init hinit).1,by rw [hm₀]; exact List.forall_mem_nil _⟩
    · rintro a ls l b ⟨hg,hready⟩ ⟨hc,hstep⟩
      simp only [Bool.and_eq_true] at hc
      obtain ⟨⟨hret,hsteady⟩,-⟩ := hc
      exact ⟨good_step hg ((Bool.not_eq_true' _).mp hret) hstep,
        ready_step hwf' hsize hready hsteady hstep⟩
  exact syscall_ok_iff hm hinv.1 hinv.2

end Runs

section Writer

def writeFour : TrapFrame := {rax := 1,rdi := 3,rsi := 0x400000,rdx := 4}

/-- `open(0x400000)`, where the thread's memory has the empty path. -/
def openEmpty : TrapFrame := {rax := 2,rdi := 0x400000}

def writerWrites : List Label := [
  .syscall writeFour {},
  .create 0 0 0 ⟨0x23000000,0x24000000,0x2000000⟩,
  .scSysAdd 0 SYS_open,
  .scFdAdd 0 3 PROT_WRITE]

/-- A second write is answered as well, and so is an `open` that fails. -/
theorem runs_answered_iff_writerWrites : ∃ boot m₀ m,
    sthreadInit flatRuntime oneSegment stackPages (fun _ => 0) flatInit = .ok (boot,m₀) ∧
    Runs (fun a l b => (returnsToMaster boot a l && steady boot a l && sparesKernel boot a l) = true ∧
      step boot a l = .ok b) m₀ writerWrites m ∧ m.mode = .user 1 ∧
    (∃ m', step boot m (.syscall writeFour {}) = .ok m') ∧
    ∃ m', step boot m (.syscall openEmpty {ret := -1}) = .ok m' := by
  obtain ⟨boot,m₀,m,hinit,hruns,hp⟩ := exists_of_play flatRuntime oneSegment stackPages
    (fun _ => 0) flatInit (fun boot a l => returnsToMaster boot a l && steady boot a l &&
      sparesKernel boot a l) writerWrites (fun m => m.mode == .user 1 && (m.kernel.find 1).any
        fun s => (translate flatBoot s.table 0x400000).any fun a => m.kernel.mem a == 0)
    (by decide +kernel)
  simp only [Bool.and_eq_true,beq_iff_eq,Option.any_eq_true] at hp
  obtain ⟨hmode,s,hs,a,ha,hzero⟩ := hp
  have hwf : ∀ seg ∈ oneSegment, seg.WellFormed := by
    intro seg hseg
    rw [List.mem_singleton.mp hseg]
    exact ⟨by decide,by decide,by decide,by decide⟩
  refine ⟨boot,m₀,m,hinit,hruns,hmode,?_,?_⟩
  · refine (runs_answered_iff hinit hwf hruns hmode writeFour {} rfl).mpr ⟨.inr (.inr (.inl rfl)),?_⟩
    intro _ _ hopen
    exact absurd hopen (by decide)
  · refine (runs_answered_iff hinit hwf hruns hmode openEmpty {ret := -1} rfl).mpr
      ⟨.inr (.inr (.inr (by decide))),fun t ht _ _ => ⟨?_,fun _ hrc => absurd hrc (by decide)⟩⟩
    obtain rfl := Option.some.inj (hs.symm.trans ht)
    refine ⟨0,by decide,⟨a,?_,hzero⟩,fun i hi => absurd hi (Nat.not_lt_zero i)⟩
    rw [(sthreadInit_ok hinit).1]
    exact ha

/-- The first call of a fresh thread has number 1000: `can_do_sys` exits. -/
theorem largeNumber_exits : ∃ boot m₀ m,
    sthreadInit flatRuntime oneSegment stackPages (fun _ => 0) flatInit = .ok (boot,m₀) ∧
    Runs (fun a l b => trusted boot a l = true ∧ step boot a l = .ok b) m₀
      [.create 0 0 0 ⟨0x23000000,0x24000000,0x2000000⟩] m ∧ m.mode = .user 1 ∧
    step boot m (.syscall {rax := 1000} {}) = .error .canDoSys := by
  obtain ⟨boot,m₀,m,hinit,hruns,hp⟩ := exists_of_play flatRuntime oneSegment stackPages
    (fun _ => 0) flatInit trusted [.create 0 0 0 ⟨0x23000000,0x24000000,0x2000000⟩]
    (fun m => m.mode == .user 1 && (m.kernel.ksCurrent.bind m.kernel.find).isSome)
    (by decide +kernel)
  rw [Bool.and_eq_true,beq_iff_eq] at hp
  obtain ⟨s,hs⟩ := Option.isSome_iff_exists.mp hp.2
  have hsys : canDoSys s 1000 = .error .canDoSys := rfl
  refine ⟨boot,m₀,m,hinit,hruns,hp.1,?_⟩
  simp only [step,hp.1,userStep,syscallHandler,hs,syscallCheck]
  change (canDoSys s 1000 >>= _) >>= _ = _
  rw [hsys]
  rfl

end Writer

end Sthreads
end VmplApps

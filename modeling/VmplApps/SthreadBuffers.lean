import VmplApps.SthreadMachine
import VmplApps.SthreadSteps

/-! Buffers of a thread's system calls. The check walks the pages from the pointer
to its end, whose sum may wrap, looks only at entries that are present, and keeps
the host address of the first page; the rest of the buffer is assumed to follow
it. The translation is faithful exactly when that is so. -/
namespace VmplApps
namespace Sthreads

/-- Byte by byte, the buffer is mapped for writing by user code, and the pointer `q`
leads to the host address of what the table maps. -/
def Faithful (boot : Boot) (t : LeafTable Word) (ptr len q : Word) : Prop :=
  ∀ i < len.toNat, ptr.toNat + i < 2^64 ∧
    ∃ e, t.get? ((ptr.toNat + i) / 4096) = some e ∧
      (e &&& PTE_P ≠ 0 ∧ e &&& PTE_U ≠ 0 ∧ e &&& PTE_W ≠ 0) ∧
      q + BitVec.ofNat 64 i = hostOf boot e + BitVec.ofNat 64 ((ptr.toNat + i) % 4096)

/-- The buffer does not wrap, each of its pages is present, and their host addresses
follow the first one, which is not mistaken for an unset one. -/
def Contiguous (boot : Boot) (t : LeafTable Word) (ptr len : Word) : Prop :=
  ptr.toNat + len.toNat < 2^64 ∧ ∃ e₀, t.get? (ptr.toNat / 4096) = some e₀ ∧
    (hostOf boot e₀ ≠ 0 ∨ ∀ p e, (p,e) ∈ t.leaves → inWalk ptr (ptr + len) p e = true →
      hostOf boot e = 0) ∧
    ∀ p, ptr.toNat / 4096 ≤ p → p*4096 < ptr.toNat + len.toNat →
      ∃ e, t.get? p = some e ∧ e &&& PTE_P ≠ 0 ∧
        hostOf boot e = hostOf boot e₀ + BitVec.ofNat 64 (4096*(p - ptr.toNat / 4096))

section Check
variable {boot : Boot} {sel : ℕ → Word → Bool}

/-- A walk that nothing stops has seen only entries that user code may write, and
keeps the state it has. -/
theorem checkPerm_visit {w : Word} {l : List (ℕ × Word)}
    (h : (LeafTable.visit sel (walkCheckPerm boot) w l).1 = 0) :
    (∀ x ∈ l, sel x.1 x.2 = true → x.2 &&& PTE_U ≠ 0 ∧ x.2 &&& PTE_W ≠ 0) ∧
    (w ≠ 0 → (LeafTable.visit sel (walkCheckPerm boot) w l).2.2 = w) := by
  induction l generalizing w with
  | nil => exact ⟨by simp,fun _ => rfl⟩
  | cons x rest ih =>
    obtain ⟨p,e⟩ := x
    simp only [LeafTable.visit,List.forall_mem_cons] at h ⊢
    split_ifs at h ⊢ with hsel hrc
    · exact absurd h hrc
    · have hstep : e &&& PTE_U ≠ 0 ∧ e &&& PTE_W ≠ 0 ∧ (w ≠ 0 → (walkCheckPerm boot w p e).2.2 = w) := by
        unfold walkCheckPerm at hrc ⊢
        split_ifs at hrc ⊢ with hu hp hw h0
        · exact absurd one_ne_zero hrc
        · exact absurd one_ne_zero hrc
        · exact absurd one_ne_zero hrc
        · exact ⟨hu,hw,fun h => absurd h0 h⟩
        · exact ⟨hu,hw,fun _ => rfl⟩
      obtain ⟨hrest,hkeep⟩ := ih h
      refine ⟨⟨fun _ => ⟨hstep.1,hstep.2.1⟩,hrest⟩,fun h0 => ?_⟩
      have hw := hstep.2.2 h0
      rw [hkeep (by rwa [hw]),hw]
    · exact ⟨⟨fun hs => absurd hs hsel,(ih h).1⟩,(ih h).2⟩

theorem walkCheckPerm_unset {p : ℕ} {e : Word} (h : (walkCheckPerm boot 0 p e).1 = 0) :
    (walkCheckPerm boot 0 p e).2.2 = hostOf boot e := by
  unfold walkCheckPerm at h ⊢
  split_ifs at h ⊢
  · exact absurd h one_ne_zero
  · exact absurd h one_ne_zero
  · exact absurd h one_ne_zero
  · rfl
  · contradiction

/-- Nothing is kept only if every visited entry has host address zero. -/
theorem checkPerm_zero_iff {l : List (ℕ × Word)}
    (h : (LeafTable.visit sel (walkCheckPerm boot) 0 l).1 = 0) :
    (LeafTable.visit sel (walkCheckPerm boot) 0 l).2.2 = 0 ↔
      ∀ x ∈ l, sel x.1 x.2 = true → hostOf boot x.2 = 0 := by
  induction l with
  | nil => simp [LeafTable.visit]
  | cons x rest ih =>
    obtain ⟨p,e⟩ := x
    simp only [LeafTable.visit,List.forall_mem_cons] at h ⊢
    split_ifs at h ⊢ with hsel hrc
    · exact absurd h hrc
    · have hkept := walkCheckPerm_unset (not_not.mp hrc)
      simp only [hkept] at h ⊢
      by_cases h0 : hostOf boot e = 0
      · simp only [h0] at h ⊢
        simpa [hsel] using ih h
      · rw [(checkPerm_visit h).2 h0]
        exact ⟨fun h => absurd h h0,fun h => absurd (h.1 hsel) h0⟩
    · simpa [hsel] using ih h

theorem checkPerm_first {l : List (ℕ × Word)} {p₀ : ℕ} {e₀ : Word}
    (hl : (l.map Prod.fst).Pairwise (· < ·)) (hmem : (p₀,e₀) ∈ l) (hsel₀ : sel p₀ e₀ = true)
    (hmin : ∀ p e, sel p e = true → p₀ ≤ p) (h0 : hostOf boot e₀ ≠ 0)
    (h : (LeafTable.visit sel (walkCheckPerm boot) 0 l).1 = 0) :
    (LeafTable.visit sel (walkCheckPerm boot) 0 l).2.2 = hostOf boot e₀ := by
  induction l with
  | nil => cases hmem
  | cons x rest ih =>
    obtain ⟨p,e⟩ := x
    rw [List.map_cons,List.pairwise_cons] at hl
    simp only [LeafTable.visit] at h ⊢
    split_ifs at h ⊢ with hsel hrc
    · exact absurd h hrc
    · have hkept := walkCheckPerm_unset (not_not.mp hrc)
      simp only [hkept] at h ⊢
      rcases List.mem_cons.mp hmem with heq | hrest
      · obtain ⟨rfl,rfl⟩ := Prod.mk.inj heq
        exact (checkPerm_visit h).2 h0
      · have hlt : p < p₀ := hl.1 p₀ (List.mem_map_of_mem hrest)
        exact absurd (hmin p e hsel) (not_le.mpr hlt)
    · rcases List.mem_cons.mp hmem with heq | hrest
      · obtain ⟨rfl,rfl⟩ := Prod.mk.inj heq
        exact absurd hsel₀ hsel
      · exact ih hl.2 hrest h

theorem checkPerm_first_iff {l : List (ℕ × Word)} {p₀ : ℕ} {e₀ : Word}
    (hl : (l.map Prod.fst).Pairwise (· < ·)) (hmem : (p₀,e₀) ∈ l) (hsel₀ : sel p₀ e₀ = true)
    (hmin : ∀ p e, sel p e = true → p₀ ≤ p)
    (h : (LeafTable.visit sel (walkCheckPerm boot) 0 l).1 = 0) :
    (LeafTable.visit sel (walkCheckPerm boot) 0 l).2.2 = hostOf boot e₀ ↔
      hostOf boot e₀ ≠ 0 ∨ ∀ x ∈ l, sel x.1 x.2 = true → hostOf boot x.2 = 0 := by
  by_cases h0 : hostOf boot e₀ = 0
  · rw [h0,checkPerm_zero_iff h]
    simp
  · exact ⟨fun _ => .inl h0,fun _ => checkPerm_first hl hmem hsel₀ hmin h0 h⟩

end Check

section Faithful
variable {boot : Boot} {s : Sthread} {ptr len : Word}

/-- What a passed memory check says about the entries, and which address it keeps. -/
theorem hasMemPerm_pass (h : (hasMemPerm boot s ptr len).1 = true) :
    (∀ p e, s.table.get? p = some e → inWalk ptr (ptr + len) p e = true →
      e &&& PTE_U ≠ 0 ∧ e &&& PTE_W ≠ 0) ∧
    ∀ e₀, s.table.get? (ptr.toNat / 4096) = some e₀ →
      inWalk ptr (ptr + len) (ptr.toNat / 4096) e₀ = true →
      ((hasMemPerm boot s ptr len).2.stWalk = hostOf boot e₀ ↔
        hostOf boot e₀ ≠ 0 ∨ ∀ p e, (p,e) ∈ s.table.leaves → inWalk ptr (ptr + len) p e = true →
          hostOf boot e = 0) := by
  have hrc : (LeafTable.visit (inWalk ptr (ptr + len)) (walkCheckPerm boot) 0 s.table.leaves).1 = 0 :=
    beq_iff_eq.mp h
  refine ⟨fun p e he hw => (checkPerm_visit hrc).1 _ (LeafTable.mem_leaves.mpr he) hw,
    fun e₀ he₀ hw₀ => ?_⟩
  have hmin (p : ℕ) (e : Word) (hw : inWalk ptr (ptr + len) p e = true) : ptr.toNat / 4096 ≤ p := by
    simp only [inWalk,Bool.and_eq_true,decide_eq_true_eq] at hw
    exact hw.1.1
  refine (checkPerm_first_iff s.table.sorted (LeafTable.mem_leaves.mpr he₀) hw₀ hmin hrc).trans ?_
  rw [Prod.forall]

theorem ofNat_low (x : Word) : x &&& 0xfff = BitVec.ofNat 64 (x.toNat % 4096) := by
  refine BitVec.eq_of_toNat_eq ?_
  have hlow := Words.lowBits_toNat (by omega : 12 ≤ 64) x
  rw [BitVec.toNat_ofNat]
  exact hlow.trans (Nat.mod_eq_of_lt (by omega)).symm

theorem inWalk_of_page {p : ℕ} {e : Word} (hfit : ptr.toNat + len.toNat < 2^64)
    (hlo : ptr.toNat / 4096 ≤ p) (hhi : p*4096 < ptr.toNat + len.toNat) (hp : e &&& PTE_P ≠ 0) :
    inWalk ptr (ptr + len) p e = true := by
  have hsum : (ptr + len).toNat = ptr.toNat + len.toNat := Words.add_toNat_exact hfit
  have hle : p ≤ (ptr + len).toNat / 4096 := by omega
  simp only [inWalk,Bool.and_eq_true,decide_eq_true_eq,bne_iff_ne]
  exact ⟨⟨hlo,hle⟩,hp⟩

theorem faithful_of_contiguous (h : (hasMemPerm boot s ptr len).1 = true)
    (hc : Contiguous boot s.table ptr len) :
    Faithful boot s.table ptr len ((hasMemPerm boot s ptr len).2.stWalk + (ptr &&& 0xfff)) := by
  obtain ⟨hfit,e₀,he₀,hzero,hpages⟩ := hc
  obtain ⟨hperm,hkept⟩ := hasMemPerm_pass h
  intro i hi
  have hpage : (ptr.toNat + i) / 4096 * 4096 < ptr.toNat + len.toNat :=
    lt_of_le_of_lt (Nat.div_mul_le_self _ _) (by omega)
  have hfirst : ptr.toNat / 4096 * 4096 < ptr.toNat + len.toNat :=
    lt_of_le_of_lt (Nat.div_mul_le_self _ _) (by omega)
  obtain ⟨e,he,hp,hhost⟩ := hpages ((ptr.toNat + i) / 4096) (by omega) hpage
  have hperm := hperm _ e he (inWalk_of_page hfit (by omega) hpage hp)
  obtain ⟨e₁,he₁,hp₁,-⟩ := hpages (ptr.toNat / 4096) (le_refl _) hfirst
  obtain rfl := Option.some.inj (he₀.symm.trans he₁)
  have hkept := (hkept e₀ he₀ (inWalk_of_page hfit (le_refl _) hfirst hp₁)).mpr hzero
  refine ⟨by omega,e,he,⟨hp,hperm⟩,?_⟩
  rw [hkept,hhost,ofNat_low,BitVec.add_assoc,BitVec.add_assoc,← BitVec.ofNat_add,← BitVec.ofNat_add]
  congr 2
  omega

theorem contiguous_of_faithful (h : (hasMemPerm boot s ptr len).1 = true)
    (htop : s.table.get? (2^52-1) = none) (hlen : len ≠ 0)
    (hf : Faithful boot s.table ptr len ((hasMemPerm boot s ptr len).2.stWalk + (ptr &&& 0xfff))) :
    Contiguous boot s.table ptr len := by
  have hpos : 0 < len.toNat := by
    rcases Nat.eq_zero_or_pos len.toNat with h0 | hpos
    · exact absurd (BitVec.eq_of_toNat_eq h0) hlen
    · exact hpos
  have hfit : ptr.toNat + len.toNat < 2^64 := by
    obtain ⟨hlast,e,he,-⟩ := hf (len.toNat - 1) (by omega)
    by_contra hge
    have hpage : (ptr.toNat + (len.toNat - 1)) / 4096 = 2^52-1 := by omega
    rw [hpage,htop] at he
    cases he
  obtain ⟨-,e₀,he₀,⟨hp₀,-⟩,hq₀⟩ := hf 0 hpos
  rw [Nat.add_zero] at he₀ hq₀
  have hwalk : (hasMemPerm boot s ptr len).2.stWalk = hostOf boot e₀ := by
    rw [ofNat_low,BitVec.add_zero] at hq₀
    exact (BitVec.add_left_inj _).mp hq₀
  have hfirst : ptr.toNat / 4096 * 4096 < ptr.toNat + len.toNat := by omega
  refine ⟨hfit,e₀,he₀,?_,fun p hlo hhi => ?_⟩
  · exact ((hasMemPerm_pass h).2 e₀ he₀ (inWalk_of_page hfit (le_refl _) hfirst hp₀)).mp hwalk
  · rcases Nat.eq_or_lt_of_le hlo with rfl | hlt
    · exact ⟨e₀,he₀,hp₀,by simp⟩
    · -- the first byte of page `p`
      obtain ⟨-,e,he,⟨hp,-⟩,hq⟩ := hf (p*4096 - ptr.toNat) (by omega)
      have haddr : ptr.toNat + (p*4096 - ptr.toNat) = p*4096 := by omega
      rw [haddr,Nat.mul_div_cancel _ (by omega : 0 < 4096)] at he
      rw [haddr,Nat.mul_mod_left,BitVec.add_zero,hwalk,ofNat_low,BitVec.add_assoc,
        ← BitVec.ofNat_add] at hq
      refine ⟨e,he,hp,hq.symm.trans ?_⟩
      congr 2
      omega

/-- A read or write that passes the handler's checks has passed the memory check,
and its pointer was rewritten from the address that check kept. -/
theorem syscallCheck_buffer {tf tf' : TrapFrame} {k : Kernel} {s' : Sthread}
    (hnum : tf.rax.setWidth 32 = SYS_read ∨ tf.rax.setWidth 32 = SYS_write)
    (h : syscallCheck boot k s tf = .ok (s',some tf')) :
    (hasMemPerm boot s tf.rsi tf.rdx).1 = true ∧
      tf'.rsi = (hasMemPerm boot s tf.rsi tf.rdx).2.stWalk + (tf.rsi &&& 0xfff) := by
  have hne : tf.rax.setWidth 32 ≠ SYS_open := by
    rcases hnum with hnum | hnum <;> rw [hnum] <;> decide
  have hmem : memArg boot k s (tf.rax.setWidth 32) tf = some (tf.rsi,some tf.rdx) := by
    rw [memArg,if_neg hne,if_pos hnum.symm]
    rfl
  cases checked_of_syscallCheck h with
  | plain hnone =>
    rw [hmem] at hnone
    cases hnone
  | walked _ harg hpass =>
    cases hmem.symm.trans harg
    exact ⟨hpass,by rw [setMemArg,if_neg hne]⟩

/-- Of the reads and writes that pass, exactly those with an empty or a contiguous
buffer are translated faithfully. -/
theorem syscallCheck_faithful_iff {tf tf' : TrapFrame} {k : Kernel} {s' : Sthread}
    (hnum : tf.rax.setWidth 32 = SYS_read ∨ tf.rax.setWidth 32 = SYS_write)
    (htop : s.table.get? (2^52-1) = none)
    (h : syscallCheck boot k s tf = .ok (s',some tf')) :
    Faithful boot s.table tf.rsi tf.rdx tf'.rsi ↔
      tf.rdx = 0 ∨ Contiguous boot s.table tf.rsi tf.rdx := by
  obtain ⟨hpass,hptr⟩ := syscallCheck_buffer hnum h
  rw [hptr]
  constructor
  · intro hf
    by_cases hlen : tf.rdx = 0
    · exact .inl hlen
    · exact .inr (contiguous_of_faithful hpass htop hlen hf)
  · rintro (hlen | hc)
    · intro i hi
      rw [hlen] at hi
      exact absurd hi (Nat.not_lt_zero i)
    · exact faithful_of_contiguous hpass hc

end Faithful

section TwoPages

/-- Frames are host addresses. -/
def flatBoot : Boot where
  pgrootAddr := 0x1000000
  vaStart := 0
  vaEnd := -1
  vaToPa := id
  duneBoot := false
  mmapBase := 0
  trampoline := 0x401000
  kernelVars := []
  segments := []
  checkpointedMem := 0x20000000
  checkpointedSize := 0
  kernelTag := 0

def flatKernel (s : Sthread) : Kernel where
  sthreads := [s]
  ksCurrent := some s.stId
  sthreadId := 1
  tags := []
  tagId := 1
  cr3 := s.cr3
  entry := {}
  pgroot := s.table
  mem := fun _ => 0

def twoPageReader (frame : Word) : Sthread where
  stId := 1
  stState := .running
  stRet := 0
  stStack := 0x22000000
  stPgroot := 0x2000000
  table := ⟨[(0x400,0x10007),(0x401,frame ||| 7)],by simp⟩
  stTf := {}
  stSc := {scInit with scFd := (Vector.replicate 8 0).set 0 0x301}
  stWritable := 0x23000000
  stWalk := 0x1000

/-- `read(3, 0x400ff0, 32)`, across the end of the first page. -/
def readAcross : TrapFrame := {rdi := 3,rsi := 0x400ff0,rdx := 32}

theorem twoPageReader_passes (frame : Word)
    (h : (match syscallCheck flatBoot (flatKernel (twoPageReader frame)) (twoPageReader frame)
      readAcross with | .ok (_,some tf) => tf.rsi == 0x10ff0 | _ => false) = true) :
    ∃ s' tf', syscallCheck flatBoot (flatKernel (twoPageReader frame)) (twoPageReader frame)
      readAcross = .ok (s',some tf') ∧ tf'.rsi = 0x10ff0 := by
  split at h
  · rename_i s' tf' heq
    exact ⟨s',tf',heq,beq_iff_eq.mp h⟩
  · cases h

/-- With neighbouring frames the read is faithful. -/
theorem syscallCheck_faithful_iff_neighbours : ∃ s' tf',
    syscallCheck flatBoot (flatKernel (twoPageReader 0x11000)) (twoPageReader 0x11000) readAcross =
      .ok (s',some tf') ∧
    Faithful flatBoot (twoPageReader 0x11000).table 0x400ff0 32 tf'.rsi := by
  obtain ⟨s',tf',hcheck,-⟩ := twoPageReader_passes 0x11000 (by decide +kernel)
  refine ⟨s',tf',hcheck,(syscallCheck_faithful_iff (.inl rfl) rfl hcheck).mpr (.inr ?_)⟩
  refine ⟨by decide,0x10007,rfl,.inl (by decide),fun p hlo hhi => ?_⟩
  have hp : p = 0x400 ∨ p = 0x401 := by
    have hlo : 0x400 ≤ p := hlo
    have hhi : p*4096 < 0x401010 := hhi
    omega
  rcases hp with rfl | rfl
  · exact ⟨0x10007,rfl,by decide,by decide⟩
  · exact ⟨0x11007,by decide,by decide,by decide⟩

/-- With another frame behind the second page, the check passes and the second half
of the read goes to memory that the thread does not map there. -/
theorem twoPageReader_misdirected : ∃ s' tf',
    syscallCheck flatBoot (flatKernel (twoPageReader 0x30000)) (twoPageReader 0x30000) readAcross =
      .ok (s',some tf') ∧
    tf'.rsi + 16 = 0x11000 ∧
    (twoPageReader 0x30000).table.get? ((0x400ff0 + 16) / 4096) = some 0x30007 ∧
    ¬Faithful flatBoot (twoPageReader 0x30000).table 0x400ff0 32 tf'.rsi := by
  obtain ⟨s',tf',hcheck,hrsi⟩ := twoPageReader_passes 0x30000 (by decide +kernel)
  refine ⟨s',tf',hcheck,by rw [hrsi]; decide,by decide,fun h => ?_⟩
  obtain ⟨-,e,he,-,hq⟩ := h 16 (by decide)
  have hget : (twoPageReader 0x30000).table.get? 0x401 = some 0x30007 := by decide
  obtain rfl := Option.some.inj (hget.symm.trans he)
  rw [hrsi] at hq
  exact absurd hq (by decide)

end TwoPages

end Sthreads
end VmplApps

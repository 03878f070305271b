import VmplApps.HostPrograms
import VmplApps.SandboxAccesses

/-! `check_iovec` step by step. Its loop counts a signed `int` down to zero, and a count below
zero would take it through nearly all values of that type. The test before the loop takes the
count modulo `2^64` and refuses all of these, so that the loop makes at most one round for each
entry and reads no others. -/
namespace VmplApps
namespace SyscallParams

open AppRegion ByteMemory SandboxAccesses

/-- Where `check_iovec` is: at its start, before a test of `num--`, or returned. -/
inductive IovecState
  | called (iov : Word) (num : CInt)
  | looping (iov : Word) (num : CInt)
  | returned (v : Word)
  deriving DecidableEq, Repr

/-- One step, with the address of the entry that it reads. -/
def iovecStep (mmapBase : Word) (m : Mem) : IovecState → Option (Option Word × IovecState)
  | .called iov num =>
    if checkExtent mmapBase iov (size sizeofIovec * num.signExtend 64) ≠ 0 then
      some (none,.returned (-EFAULT))
    else some (none,.looping iov num)
  | .looping iov num =>
    if num = 0 then some (none,.returned 0)
    else if checkExtent mmapBase (iovBase m iov 0) (iovLen m iov 0) ≠ 0 then
      some (some iov,.returned (-EFAULT))
    else some (some iov,.looping (iov + size sizeofIovec) (num-1))
  | .returned _ => none

def IovecStep (mmapBase : Word) (m : Mem) (s : IovecState) (l : Option Word) (s' : IovecState) :
    Prop := iovecStep mmapBase m s = some (l,s')

def ArraySafe (mmapBase iov : Word) (num : CInt) : Prop :=
  0 ≤ num.toInt ∧ memRefIsSafe mmapBase iov (BitVec.ofInt 64 (16*num.toInt)) = true

def VectorSafe (mmapBase : Word) (m : Mem) (iov : Word) (num : CInt) : Prop :=
  ArraySafe mmapBase iov num ∧ ∀ i : ℕ, i < num.toInt →
    memRefIsSafe mmapBase (iovBase m iov i) (iovLen m iov i) = true

structure IovecExact (mmapBase : Word) (m : Mem) (iov : Word) (num : CInt) : Prop where
  bounded : ∀ ls s, Runs (IovecStep mmapBase m) (.called iov num) ls s →
    ls.length ≤ num.toInt.toNat + 2
  returns : ∃ ls v, Runs (IovecStep mmapBase m) (.called iov num) ls (.returned v)
  result : ∀ ls v, Runs (IovecStep mmapBase m) (.called iov num) ls (.returned v) →
    (v = 0 ↔ VectorSafe mmapBase m iov num)
  reads : ∀ ls s a, Runs (IovecStep mmapBase m) (.called iov num) ls s → some a ∈ ls →
    ArraySafe mmapBase iov num ∧ ∃ i : ℕ, i < num.toInt ∧ a = iov + BitVec.ofNat 64 (16*i)
  counts : ∀ ls iov' num', Runs (IovecStep mmapBase m) (.called iov num) ls (.looping iov' num') →
    0 ≤ num'.toInt

section Checked
variable {mmapBase : Word} {m : Mem} {iov : Word} {num : CInt}

theorem toInt_nonneg_iff (x : CInt) : 0 ≤ x.toInt ↔ x.toNat < 2^31 := by
  have hx := x.isLt
  rw [BitVec.toInt_eq_toNat_cond]
  split_ifs <;> omega

theorem toInt_of_small {x : CInt} (h : x.toNat < 2^31) : x.toInt = x.toNat :=
  BitVec.toInt_eq_toNat_of_lt (by omega)

/-- The wrapped product is accepted only where it is the exact one. -/
theorem arraySafe_iff : ArraySafe mmapBase iov num ↔
    checkExtent mmapBase iov (size sizeofIovec * num.signExtend 64) = 0 := by
  have hprod : BitVec.ofInt 64 (16*num.toInt) = size sizeofIovec * num.signExtend 64 :=
    BitVec.ofInt_mul _ _
  rw [ArraySafe,hprod,checkExtent_eq_zero,toInt_nonneg_iff]
  exact ⟨And.right,fun hsafe => ⟨(vector_length hsafe).1,hsafe⟩⟩

theorem checkIovec_eq_zero_iff : checkIovec mmapBase m iov num = 0 ↔
    VectorSafe mmapBase m iov num := by
  rw [VectorSafe,checkIovec]
  split_ifs with hrefused
  · exact iff_of_false neg_EFAULT_ne_zero fun h => hrefused (arraySafe_iff.mp h.1)
  · have harray := arraySafe_iff.mpr (not_not.mp hrefused)
    have hcount := toInt_of_small ((toInt_nonneg_iff num).mp harray.1)
    rw [iovecLoop_eq_zero_iff,and_iff_right harray,hcount]
    simp only [Nat.cast_lt]

def EntriesOf (mmapBase iov : Word) (num : CInt) (ls : List (Option Word)) : Prop :=
  ∀ a, some a ∈ ls → ArraySafe mmapBase iov num ∧
    ∃ i : ℕ, i < num.toInt ∧ a = iov + BitVec.ofNat 64 (16*i)

/-- Where a call can be: in the loop, the rounds made and the rounds left are those of the
vector, and the rounds left decide the result. -/
def IovecReached (mmapBase : Word) (m : Mem) (iov : Word) (num : CInt) :
    IovecState → List (Option Word) → Prop
  | .called iov' num', ls => iov' = iov ∧ num' = num ∧ ls = []
  | .looping iov' num', ls => ArraySafe mmapBase iov num ∧
      checkIovec mmapBase m iov num = iovecLoop mmapBase m iov' num'.toNat ∧
      ∃ i, i + num'.toNat = num.toNat ∧ iov' = iov + BitVec.ofNat 64 (16*i) ∧ ls.length = i+1
  | .returned v, ls => v = checkIovec mmapBase m iov num ∧ ls.length ≤ num.toInt.toNat + 2

theorem pred_toNat {x : CInt} (h0 : x ≠ 0) : (x-1).toNat + 1 = x.toNat := by
  have hpos : x.toNat ≠ 0 := fun h => h0 (BitVec.eq_of_toNat_eq h)
  have hone : (1 : CInt).toNat = 1 := rfl
  rw [BitVec.toNat_sub_of_le (by rw [BitVec.le_def]; omega),hone]
  omega

theorem iovecReached_step {s s' : IovecState} {ls : List (Option Word)} {l : Option Word}
    (h : IovecReached mmapBase m iov num s ls) (hreads : EntriesOf mmapBase iov num ls)
    (hstep : IovecStep mmapBase m s l s') :
    IovecReached mmapBase m iov num s' (l::ls) ∧ EntriesOf mmapBase iov num (l::ls) := by
  have hquiet : EntriesOf mmapBase iov num (none::ls) := fun a ha =>
    hreads a ((List.mem_cons.mp ha).resolve_left nofun)
  cases s with
  | called iov' num' =>
    obtain ⟨rfl,rfl,rfl⟩ := h
    simp only [IovecStep,iovecStep] at hstep
    split_ifs at hstep with hrefused
    · cases hstep
      exact ⟨⟨by rw [checkIovec,if_pos hrefused],by simp⟩,hquiet⟩
    · cases hstep
      refine ⟨⟨arraySafe_iff.mpr (not_not.mp hrefused),?_,0,by simp,by simp,rfl⟩,hquiet⟩
      rw [checkIovec,if_neg hrefused]
  | looping iov' num' =>
    obtain ⟨harray,hvalue,i,hleft,rfl,hlen⟩ := h
    have hcount := toInt_of_small ((toInt_nonneg_iff num).mp harray.1)
    simp only [IovecStep,iovecStep] at hstep
    by_cases h0 : num' = 0
    · rw [if_pos h0] at hstep
      cases hstep
      refine ⟨⟨?_,?_⟩,hquiet⟩
      · rw [hvalue,h0]
        rfl
      · rw [List.length_cons,hlen,hcount]
        omega
    · rw [if_neg h0] at hstep
      have hpred := pred_toNat h0
      have hread : EntriesOf mmapBase iov num (some (iov + BitVec.ofNat 64 (16*i))::ls) := by
        intro a ha
        rcases List.mem_cons.mp ha with heq | ha
        · obtain rfl := Option.some.inj heq
          exact ⟨harray,i,by omega,rfl⟩
        · exact hreads a ha
      rw [← hpred,iovecLoop] at hvalue
      split_ifs at hstep hvalue with hbad
      · cases hstep
        refine ⟨⟨hvalue.symm,?_⟩,hread⟩
        rw [List.length_cons,hlen]
        omega
      · cases hstep
        refine ⟨⟨harray,hvalue,i+1,by omega,?_,congrArg Nat.succ hlen⟩,hread⟩
        rw [BitVec.add_assoc,size,← BitVec.ofNat_add]
        rfl
  | returned v => cases hstep

theorem runs_iovecReached {s : IovecState} {ls : List (Option Word)}
    (h : Runs (IovecStep mmapBase m) (.called iov num) ls s) :
    IovecReached mmapBase m iov num s ls ∧ EntriesOf mmapBase iov num ls :=
  h.invariant (I := fun s ls => IovecReached mmapBase m iov num s ls ∧ EntriesOf mmapBase iov num ls)
    ⟨⟨rfl,rfl,rfl⟩,nofun⟩ fun _ _ _ _ hi hstep => iovecReached_step hi.1 hi.2 hstep

theorem runs_bounded {s : IovecState} {ls : List (Option Word)}
    (h : Runs (IovecStep mmapBase m) (.called iov num) ls s) : ls.length ≤ num.toInt.toNat + 2 := by
  have hreached := (runs_iovecReached h).1
  cases s with
  | called iov' num' =>
    rw [hreached.2.2]
    exact Nat.zero_le _
  | looping iov' num' =>
    obtain ⟨harray,-,i,hleft,-,hlen⟩ := hreached
    have hcount := toInt_of_small ((toInt_nonneg_iff num).mp harray.1)
    omega
  | returned v => exact hreached.2

theorem returned_of_last {s : IovecState} (h : ∀ l s', ¬IovecStep mmapBase m s l s') :
    ∃ v, s = .returned v := by
  cases s with
  | called iov' num' =>
    simp only [IovecStep,iovecStep] at h
    split_ifs at h <;> exact absurd rfl (h _ _)
  | looping iov' num' =>
    simp only [IovecStep,iovecStep] at h
    split_ifs at h <;> exact absurd rfl (h _ _)
  | returned v => exact ⟨v,rfl⟩

end Checked

/-- For every pointer, count and memory, `check_iovec` returns, accepts exactly the vectors
that are safe as a whole, reads only their entries and never counts below zero. -/
theorem checkIovec_exact (mmapBase : Word) (m : Mem) (iov : Word) (num : CInt) :
    IovecExact mmapBase m iov num where
  bounded _ _ h := runs_bounded h
  returns := by
    obtain ⟨ls,s,hruns,hlast⟩ := Runs.exists_last fun ls s h => runs_bounded h
    obtain ⟨v,rfl⟩ := returned_of_last hlast
    exact ⟨ls,v,hruns⟩
  result ls v h := by
    rw [(runs_iovecReached h).1.1]
    exact checkIovec_eq_zero_iff
  reads ls s a h ha := (runs_iovecReached h).2 a ha
  counts ls iov' num' h := by
    obtain ⟨⟨hcount,-⟩,-,i,hleft,-,-⟩ := (runs_iovecReached h).1
    rw [toInt_nonneg_iff] at hcount ⊢
    omega

end SyscallParams
end VmplApps

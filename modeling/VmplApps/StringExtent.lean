import VmplApps.AppRegion

/-! Two region tests for one string. `check_string` looks for the terminator up to the end
of the window that holds the pointer, `check_extent` compares the end address of a range
with the windows' ends, modulo `2^64`. -/
namespace VmplApps
namespace AppRegion

open ByteMemory

/-- The string at `ptr` has its terminator at offset `n`. -/
structure FirstNul (m : Mem) (ptr : Word) (n : ℕ) : Prop where
  fits : ptr.toNat + n < 2^64
  nul : m (ptr.toNat + n) = 0
  before : ∀ i < n, m (ptr.toNat + i) ≠ 0

section FirstNul
variable {m : Mem} {ptr : Word} {n : ℕ}

theorem FirstNul.byteAt_ne (h : FirstNul m ptr (n+1)) : byteAt m ptr ≠ 0 :=
  h.before 0 (by omega)

theorem FirstNul.tail (h : FirstNul m ptr (n+1)) : FirstNul m (ptr+1) n := by
  have hfits := h.fits
  have hone : (1 : Word).toNat = 1 := rfl
  have hnext : (ptr+1).toNat = ptr.toNat + 1 := Words.add_toNat_exact (by omega)
  refine ⟨by omega,?_,fun i hi => ?_⟩
  · rw [hnext,Nat.add_assoc,Nat.add_comm 1 n]
    exact h.nul
  · rw [hnext,Nat.add_assoc,Nat.add_comm 1 i]
    exact h.before (i+1) (by omega)

theorem FirstNul.hasNul_iff (h : FirstNul m ptr n) (k : ℕ) : hasNul m ptr k = true ↔ n < k := by
  induction k generalizing ptr n with
  | zero => simp [hasNul]
  | succ k ih =>
    rw [hasNul,Bool.or_eq_true,beq_iff_eq]
    cases n with
    | zero => exact iff_of_true (.inl h.nul) (Nat.succ_pos k)
    | succ n =>
      rw [ih h.tail,or_iff_right h.byteAt_ne]
      omega

end FirstNul

section Checks
variable {mmapBase : Word} {m : Mem} {ptr : Word} {n : ℕ}

theorem fault_eq_zero {P : Prop} [Decidable P] : (if P then 0 else -EFAULT : Word) = 0 ↔ P := by
  split_ifs with hP
  · exact iff_of_true rfl hP
  · exact iff_of_false (by decide) hP

theorem checkString_eq_zero (hp : Placed mmapBase) (h : FirstNul m ptr n) :
    checkString mmapBase m ptr = 0 ↔
      ptr.toNat + n < 0x70000000 ∨
      (0x70000000 ≤ ptr.toNat ∧ mmapBase.toNat ≤ ptr.toNat ∧
        ptr.toNat + n < mmapBase.toNat + 0x200000000) := by
  have hend := hp.windowEnd
  have hfault : (-EFAULT : Word) ≠ 0 := by decide
  simp only [checkString,ge_iff_le,BitVec.le_def,BitVec.lt_def,hend,appMaxElfVaddr_toNat,
    h.hasNul_iff]
  by_cases hlow : ptr.toNat < 0x70000000
  · have hmax : (appMaxElfVaddr - ptr).toNat = 0x70000000 - ptr.toNat :=
      Words.sub_toNat_exact (le_of_lt hlow)
    rw [if_pos hlow,hmax,fault_eq_zero]
    omega
  · rw [if_neg hlow]
    by_cases habove : mmapBase.toNat ≤ ptr.toNat
    · rw [if_pos habove]
      by_cases hpast : mmapBase.toNat + 0x200000000 ≤ ptr.toNat
      · rw [if_pos hpast]
        exact iff_of_false hfault (by omega)
      · have hmax : (mmapBase + appMmapLen - ptr).toNat =
            mmapBase.toNat + 0x200000000 - ptr.toNat := by
          rw [Words.sub_toNat_exact (by omega),hend]
        rw [if_neg hpast,hmax,fault_eq_zero]
        omega
    · rw [if_neg habove]
      exact iff_of_false hfault (by omega)

theorem extentLen_toNat (h : FirstNul m ptr n) : (BitVec.ofNat 64 (n+1)).toNat =
    if n+1 = 2^64 then 0 else n+1 := by
  have hfits := h.fits
  rw [BitVec.toNat_ofNat]
  split_ifs <;> omega

theorem checkExtent_string (hp : Placed mmapBase) (h : FirstNul m ptr n) :
    checkExtent mmapBase ptr (BitVec.ofNat 64 (n+1)) = 0 ↔
      ptr.toNat + n < 0x70000000 ∨
      (mmapBase.toNat ≤ ptr.toNat ∧ ptr.toNat + n + 1 < mmapBase.toNat + 0x200000000) ∨
      (ptr.toNat + n + 1 = 2^64 ∧ (n < 0x200000000 ∨ ptr = 0)) := by
  have hfits := h.fits
  have hzero : ptr = 0 ↔ ptr.toNat = 0 := ⟨fun h => by rw [h]; rfl,fun h => BitVec.eq_of_toNat_eq h⟩
  rw [checkExtent_eq_zero,memRefIsSafe_iff hp,extentLen_toNat h,hzero]
  split_ifs <;> omega

/-- The string ends with the mapping window; or it starts below the end of the program's
window, where the mapping window reaches, and passes that end; or it ends with the address
space and is short enough for a window or is all of it. -/
def OnEdge (mmapBase ptr : Word) (n : ℕ) : Prop :=
  (0x70000000 ≤ ptr.toNat ∧ mmapBase.toNat ≤ ptr.toNat ∧
    ptr.toNat + n + 1 = mmapBase.toNat + 0x200000000) ∨
  (mmapBase.toNat ≤ ptr.toNat ∧ ptr.toNat < 0x70000000 ∧ 0x70000000 ≤ ptr.toNat + n ∧
    ptr.toNat + n + 1 < mmapBase.toNat + 0x200000000) ∨
  (ptr.toNat + n + 1 = 2^64 ∧ (n < 0x200000000 ∨ ptr = 0))

theorem checks_agree_iff (hp : Placed mmapBase) (h : FirstNul m ptr n) :
    (checkString mmapBase m ptr = 0 ↔ checkExtent mmapBase ptr (BitVec.ofNat 64 (n+1)) = 0) ↔
      ¬OnEdge mmapBase ptr n := by
  have hfits := hp.fits
  rw [checkString_eq_zero hp h,checkExtent_string hp h,OnEdge]
  by_cases hwrap : ptr.toNat + n + 1 = 2^64 ∧ (n < 0x200000000 ∨ ptr = 0)
  · refine iff_of_false (fun hiff => ?_) (not_not.mpr (.inr (.inr hwrap)))
    have hin := hiff.mpr (.inr (.inr hwrap))
    omega
  · simp only [hwrap,or_false]
    omega

end Checks

def twoBytes : Mem := fun a => if a = 0x500000000 ∨ a = 0x500000001 then 0x61 else 0

def zeroMem : Mem := fun _ => 0

/-- Two bytes and a terminator inside the mapping window. -/
theorem checks_agree_iff_twoBytes :
    checkString 0x400000000 twoBytes 0x500000000 = 0 ↔ checkExtent 0x400000000 0x500000000 3 = 0 := by
  have hstr : FirstNul twoBytes 0x500000000 2 := ⟨by decide,by decide,by decide⟩
  apply (checks_agree_iff ⟨by decide,by decide⟩ hstr).mpr
  rw [OnEdge]
  decide

/-- The empty string in the last byte of the mapping window. -/
theorem lastByte_disagrees :
    FirstNul zeroMem 0x5ffffffff 0 ∧ checkString 0x400000000 zeroMem 0x5ffffffff = 0 ∧
      checkExtent 0x400000000 0x5ffffffff 1 = -EFAULT :=
  ⟨⟨by decide,rfl,by simp⟩,by decide,by decide⟩

end AppRegion
end VmplApps

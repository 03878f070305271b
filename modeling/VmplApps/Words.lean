import Mathlib.Tactic

/-! Fixed-width words and the power-of-two masks applied to them.
Every lemma turns a masked or wrapping word into exact natural arithmetic, so
that later modules finish with linear reasoning only. -/
namespace VmplApps

/-- The 64-bit machine word of addresses, lengths and registers. -/
abbrev Word := BitVec 64

/-- A C `int`; signed readings go through `BitVec.toInt`. -/
abbrev CInt := BitVec 32

abbrev Byte := BitVec 8

namespace Words

def alignDown (k : ℕ) (x : Word) : Word := x &&& ~~~(BitVec.ofNat 64 (2^k-1))

def lowBits (k : ℕ) (x : Word) : Word := x &&& BitVec.ofNat 64 (2^k-1)

/-- Round up by adding the mask before clearing it; the addition may wrap. -/
def alignUp (k : ℕ) (x : Word) : Word := alignDown k (x + BitVec.ofNat 64 (2^k-1))

theorem mask_toNat {k : ℕ} (hk : k ≤ 64) : (BitVec.ofNat 64 (2^k-1)).toNat = 2^k-1 := by
  have hp : 2^k ≤ 2^64 := Nat.pow_le_pow_right (by omega) hk
  have h1 : 1 ≤ 2^k := Nat.one_le_two_pow
  rw [BitVec.toNat_ofNat,Nat.mod_eq_of_lt (by omega)]

theorem lowBits_toNat {k : ℕ} (hk : k ≤ 64) (x : Word) : (lowBits k x).toNat = x.toNat % 2^k := by
  rw [lowBits,BitVec.toNat_and,mask_toNat hk,Nat.and_two_pow_sub_one_eq_mod]

/-- A word is the disjoint union of its cleared and its retained part. -/
theorem alignDown_add_lowBits (k : ℕ) (x : Word) :
    (alignDown k x).toNat + (lowBits k x).toNat = x.toNat := by
  have hd : alignDown k x &&& lowBits k x = 0 := by
    ext i
    simp only [alignDown,lowBits,BitVec.getElem_and,BitVec.getElem_not]
    cases x[i] <;> simp
  have hj : alignDown k x ||| lowBits k x = x := by
    ext i
    simp only [alignDown,lowBits,BitVec.getElem_or,BitVec.getElem_and,BitVec.getElem_not]
    cases x[i] <;> simp
  rw [← BitVec.toNat_add_of_and_eq_zero hd,BitVec.add_eq_or_of_and_eq_zero _ _ hd,hj]

theorem alignDown_toNat {k : ℕ} (hk : k ≤ 64) (x : Word) :
    (alignDown k x).toNat = x.toNat / 2^k * 2^k := by
  have h := alignDown_add_lowBits k x
  rw [lowBits_toNat hk] at h
  have := Nat.div_add_mod x.toNat (2^k)
  rw [Nat.mul_comm]
  omega

theorem alignUp_toNat {k : ℕ} (hk : k ≤ 64) (x : Word) (hx : x.toNat + (2^k-1) < 2^64) :
    (alignUp k x).toNat = (x.toNat + (2^k-1)) / 2^k * 2^k := by
  rw [alignUp,alignDown_toNat hk,BitVec.toNat_add,mask_toNat hk,Nat.mod_eq_of_lt hx]

theorem add_toNat_cases (x y : Word) :
    (x.toNat + y.toNat < 2^64 ∧ (x+y).toNat = x.toNat + y.toNat) ∨
    (2^64 ≤ x.toNat + y.toNat ∧ (x+y).toNat + 2^64 = x.toNat + y.toNat) := by
  have hx := x.isLt
  have hy := y.isLt
  rw [BitVec.toNat_add]
  omega

theorem add_toNat_exact {x y : Word} (h : x.toNat + y.toNat < 2^64) :
    (x+y).toNat = x.toNat + y.toNat := by
  rw [BitVec.toNat_add,Nat.mod_eq_of_lt h]

theorem sub_toNat_exact {x y : Word} (h : y.toNat ≤ x.toNat) :
    (x-y).toNat = x.toNat - y.toNat := BitVec.toNat_sub_of_le h

/-- Fields placed in bits that a word leaves clear can be masked off again. -/
theorem or_fields_and_not {x f g y : Word} (hx : x &&& (f ||| g) = 0) :
    (x ||| f ||| (y &&& g)) &&& ~~~(f ||| g) = x := by
  ext i hi
  have hbit : (x &&& (f ||| g))[i] = false := by
    rw [hx]
    exact BitVec.getElem_zero hi
  simp only [BitVec.getElem_and,BitVec.getElem_or] at hbit
  simp only [BitVec.getElem_and,BitVec.getElem_or,BitVec.getElem_not]
  revert hbit
  cases x[i] <;> cases f[i] <;> cases g[i] <;> simp

theorem signExtend_toNat_cases (x : CInt) :
    (x.toNat < 2^31 ∧ (x.signExtend 64).toNat = x.toNat) ∨
    (2^31 ≤ x.toNat ∧ (x.signExtend 64).toNat = x.toNat + (2^64 - 2^32)) := by
  have hx := x.isLt
  rw [BitVec.toNat_signExtend,BitVec.toNat_setWidth,Nat.mod_eq_of_lt (by omega),BitVec.msb_eq_decide]
  by_cases h : 2^31 ≤ x.toNat
  · exact .inr ⟨h,by rw [if_pos (decide_eq_true h)]⟩
  · exact .inl ⟨by omega,by rw [if_neg (by simpa using h)]; rfl⟩

theorem signExtend_toNat {x : CInt} (h : x.toNat < 2^31) : (x.signExtend 64).toNat = x.toNat := by
  rcases signExtend_toNat_cases x with hx | hx
  · exact hx.2
  · omega

section Masks
variable {x f m : Word}

theorem and_not_and_self (x m : Word) : x &&& ~~~m &&& m = 0 := by
  ext i
  simp only [BitVec.getElem_and,BitVec.getElem_not]
  cases m[i] <;> simp

theorem or_and_of_disjoint (h : f &&& m = 0) : (x ||| f) &&& m = x &&& m := by
  have hd : (x ||| f) &&& m = (x &&& m) ||| (f &&& m) := by
    ext i
    simp only [BitVec.getElem_or,BitVec.getElem_and]
    cases x[i] <;> cases f[i] <;> cases m[i] <;> rfl
  rw [hd,h]
  exact BitVec.or_zero

theorem and_not_and_of_disjoint (h : f &&& m = 0) : x &&& ~~~f &&& m = x &&& m := by
  have hsplit : x &&& ~~~f ||| f = x ||| f := by
    ext i
    simp only [BitVec.getElem_or,BitVec.getElem_and,BitVec.getElem_not]
    cases x[i] <;> cases f[i] <;> rfl
  rw [← or_and_of_disjoint (x := x &&& ~~~f) h,hsplit,or_and_of_disjoint h]

end Masks

end Words
end VmplApps

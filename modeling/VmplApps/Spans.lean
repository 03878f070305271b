import Mathlib.Order.Interval.Set.Basic
import Mathlib.Tactic
import Mathlib.Order.CompletePartialOrder

/-! Half-open ranges of exact natural addresses. A span never wraps: its end is
a natural number, so a range that runs past the last machine address is visible
as such. -/
namespace VmplApps

structure Span where
  start : ℕ
  len : ℕ
  deriving DecidableEq, Repr

namespace Span

def stop (s : Span) : ℕ := s.start + s.len

def bytes (s : Span) : Set ℕ := Set.Ico s.start s.stop

theorem mem_bytes {s : Span} {a : ℕ} : a ∈ s.bytes ↔ s.start ≤ a ∧ a < s.stop := Iff.rfl

instance (s : Span) (a : ℕ) : Decidable (a ∈ s.bytes) :=
  inferInstanceAs (Decidable (s.start ≤ a ∧ a < s.stop))

def Inside (s : Span) (lo hi : ℕ) : Prop := lo ≤ s.start ∧ s.stop ≤ hi

instance (s : Span) (lo hi : ℕ) : Decidable (s.Inside lo hi) :=
  inferInstanceAs (Decidable (_ ∧ _))

/-- One of the two ends where, or before, the other starts. -/
def Apart (s t : Span) : Prop := s.stop ≤ t.start ∨ t.stop ≤ s.start

instance (s t : Span) : Decidable (s.Apart t) := inferInstanceAs (Decidable (_ ∨ _))

theorem Apart.symm {s t : Span} (h : s.Apart t) : t.Apart s := Or.symm h

theorem Apart.disjoint {s t : Span} (h : s.Apart t) : Disjoint s.bytes t.bytes := by
  rw [Set.disjoint_left]
  rintro a ⟨hs,hs'⟩ ⟨ht,ht'⟩
  rcases h with h | h <;> omega

theorem Apart.not_mem {s t : Span} {a : ℕ} (h : s.Apart t) (ha : a ∈ s.bytes) : a ∉ t.bytes :=
  Set.disjoint_left.mp h.disjoint ha

/-- The smallest span of whole `p`-byte pages that contains `s`. -/
def outward (p : ℕ) (s : Span) : Span where
  start := s.start / p * p
  len := (s.stop + (p-1)) / p * p - s.start / p * p

theorem outward_start (p : ℕ) (s : Span) : (s.outward p).start = s.start / p * p := rfl

theorem outward_stop (p : ℕ) (s : Span) :
    (s.outward p).stop = (s.stop + (p-1)) / p * p := by
  have hle : s.start / p * p ≤ (s.stop + (p-1)) / p * p :=
    Nat.mul_le_mul_right p (Nat.div_le_div_right (by simp only [stop]; omega))
  simp only [stop,outward] at hle ⊢
  omega

/-- Rounding outward does not leave a region made of whole pages. -/
theorem outward_inside_iff {p lo hi : ℕ} (hp : 0 < p) (hlo : p ∣ lo) (hhi : p ∣ hi) (s : Span) :
    (s.outward p).Inside lo hi ↔ s.Inside lo hi := by
  obtain ⟨a,rfl⟩ := hlo
  obtain ⟨b,rfl⟩ := hhi
  unfold Inside
  rw [outward_start,outward_stop]
  have hl : p*a ≤ s.start / p * p ↔ p*a ≤ s.start := by
    rw [Nat.mul_comm p a,Nat.mul_le_mul_right_iff hp,Nat.le_div_iff_mul_le hp]
  have hh : (s.stop + (p-1)) / p * p ≤ p*b ↔ s.stop ≤ p*b := by
    rw [Nat.mul_comm p b,Nat.mul_le_mul_right_iff hp,← Nat.lt_add_one_iff,Nat.div_lt_iff_lt_mul hp]
    rw [Nat.add_mul]
    omega
  rw [hl,hh]

def OnPage (p : ℕ) (s : Span) (n : ℕ) : Prop := ∃ a ∈ s.bytes, a / p = n

theorem onPage_iff {p : ℕ} (hp : 0 < p) (s : Span) (n : ℕ) :
    s.OnPage p n ↔ s.start < s.stop ∧ s.start < (n+1)*p ∧ n*p < s.stop := by
  constructor
  · rintro ⟨a,⟨hlo,hhi⟩,rfl⟩
    have hle := Nat.div_mul_le_self a p
    have hlt := Nat.lt_div_mul_add (a := a) hp
    rw [Nat.add_mul,Nat.one_mul]
    omega
  · rintro ⟨hne,hlo,hhi⟩
    by_cases hin : s.start ≤ n*p
    · exact ⟨n*p,⟨hin,hhi⟩,Nat.mul_div_cancel n hp⟩
    · refine ⟨s.start,⟨Nat.le_refl _,hne⟩,?_⟩
      rw [Nat.div_eq_iff hp]
      rw [Nat.add_mul,Nat.one_mul] at hlo
      omega

instance (p : ℕ) [NeZero p] (s : Span) (n : ℕ) : Decidable (s.OnPage p n) :=
  decidable_of_iff _ (onPage_iff (NeZero.pos p) s n).symm

end Span
end VmplApps

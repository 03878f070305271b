import VmplApps.Words

/-! Byte-addressed memory. Addresses computed by the program are words, so an
access that steps past the last address continues at zero. -/
namespace VmplApps

/-- Memory contents; only addresses below `2^64` are ever consulted. -/
abbrev Mem := ℕ → Byte

namespace ByteMemory

def byteAt (m : Mem) (a : Word) : Byte := m a.toNat

/-- Little-endian load of `n` consecutive bytes. -/
def loadLE (m : Mem) : Word → ℕ → ℕ
  | _, 0 => 0
  | a, n+1 => (byteAt m a).toNat + 256 * loadLE m (a+1) n

def load16 (m : Mem) (a : Word) : BitVec 16 := BitVec.ofNat 16 (loadLE m a 2)

def load32 (m : Mem) (a : Word) : BitVec 32 := BitVec.ofNat 32 (loadLE m a 4)

def load64 (m : Mem) (a : Word) : Word := BitVec.ofNat 64 (loadLE m a 8)

/-- `memchr(a, 0, n)` finds a terminator. -/
def hasNul (m : Mem) : Word → ℕ → Bool
  | _, 0 => false
  | a, n+1 => byteAt m a == 0 || hasNul m (a+1) n

/-- `memcpy` of `n` bytes between ranges that do not overlap. -/
def copy (m : Mem) (dst src n : ℕ) : Mem :=
  fun a => if dst ≤ a ∧ a < dst+n then m (src + (a-dst)) else m a

/-- `memset` of `n` bytes. -/
def fill (m : Mem) (dst n : ℕ) (b : Byte) : Mem := fun a => if dst ≤ a ∧ a < dst+n then b else m a

def storeBytes (m : Mem) (bs : List (ℕ × Byte)) : Mem :=
  bs.foldl (fun m x => Function.update m x.1 x.2) m

section Frame
variable {m : Mem} {dst src n a : ℕ}

theorem copy_out (h : ¬(dst ≤ a ∧ a < dst+n)) : copy m dst src n a = m a := if_neg h

theorem fill_out {b : Byte} (h : ¬(dst ≤ a ∧ a < dst+n)) : fill m dst n b a = m a := if_neg h

theorem storeBytes_cases (m : Mem) (bs : List (ℕ × Byte)) (a : ℕ) :
    storeBytes m bs a = m a ∨ ∃ x ∈ bs, x.1 = a := by
  induction bs generalizing m with
  | nil => exact .inl rfl
  | cons x rest ih =>
    rcases ih (Function.update m x.1 x.2) with h | ⟨y,hy,ha⟩
    · by_cases hx : x.1 = a
      · exact .inr ⟨x,List.mem_cons_self,hx⟩
      · rw [Function.update_of_ne (Ne.symm hx)] at h
        exact .inl h
    · exact .inr ⟨y,List.mem_cons_of_mem _ hy,ha⟩

end Frame

end ByteMemory
end VmplApps

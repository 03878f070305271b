import VmplApps.ByteMemory

/-! Blocks of bytes at exact addresses: writing a list, reading one back, and
little-endian words as blocks of eight. Blocks written one after the other make one
block, and blocks that do not meet can be written in any order. -/
namespace VmplApps
namespace ByteMemory

def writeBytes (m : Mem) (a : ℕ) (bs : List Byte) : Mem :=
  fun x => if a ≤ x then (bs[x-a]?).getD (m x) else m x

def BytesAt (m : Mem) : ℕ → List Byte → Prop
  | _, [] => True
  | a, b::bs => m a = b ∧ BytesAt m (a+1) bs

instance instDecidableBytesAt (m : Mem) : (a : ℕ) → (bs : List Byte) → Decidable (BytesAt m a bs)
  | _, [] => isTrue trivial
  | a, _::bs =>
    letI := instDecidableBytesAt m (a+1) bs
    inferInstanceAs (Decidable (_ ∧ _))

/-- The low `k` bytes of a number, lowest first. -/
def natBytes : ℕ → ℕ → List Byte
  | 0, _ => []
  | k+1, n => BitVec.ofNat 8 n::natBytes k (n/256)

/-- The number that `k` bytes denote, lowest first. -/
def leNat (m : Mem) : ℕ → ℕ → ℕ
  | 0, _ => 0
  | k+1, a => (m a).toNat + 256 * leNat m k (a+1)

def wordBytes (w : Word) : List Byte := natBytes 8 w.toNat

def wordAt (m : Mem) (a : ℕ) : Word := BitVec.ofNat 64 (leNat m 8 a)

def WordsAt (m : Mem) : ℕ → List Word → Prop
  | _, [] => True
  | a, w::ws => wordAt m a = w ∧ WordsAt m (a+8) ws

section Write
variable {m : Mem} {a b x : ℕ} {bs cs : List Byte}

theorem writeBytes_in (h : a ≤ x) (hx : x - a < bs.length) : writeBytes m a bs x = bs[x-a] := by
  rw [writeBytes,if_pos h,List.getElem?_eq_getElem hx]
  rfl

theorem writeBytes_out (h : x < a ∨ a + bs.length ≤ x) : writeBytes m a bs x = m x := by
  rw [writeBytes]
  split_ifs with hx
  · rw [List.getElem?_eq_none (by omega)]
    rfl
  · rfl

@[simp] theorem writeBytes_nil : writeBytes m a [] = m := by
  funext x
  exact writeBytes_out (by rw [List.length_nil]; omega)

theorem writeBytes_append :
    writeBytes (writeBytes m a bs) (a + bs.length) cs = writeBytes m a (bs ++ cs) := by
  funext x
  by_cases hlo : a ≤ x
  · by_cases hbs : x < a + bs.length
    · rw [writeBytes_out (.inl hbs),writeBytes_in hlo (by omega),
        writeBytes_in hlo (by rw [List.length_append]; omega),List.getElem_append_left]
    · by_cases hcs : x < a + bs.length + cs.length
      · rw [writeBytes_in (by omega) (by omega),
          writeBytes_in hlo (by rw [List.length_append]; omega),List.getElem_append_right (by omega)]
        exact getElem_congr rfl (by omega) _
      · rw [writeBytes_out (.inr (by omega)),writeBytes_out (.inr (by omega)),
          writeBytes_out (.inr (by rw [List.length_append]; omega))]
  · rw [writeBytes_out (.inl (by omega)),writeBytes_out (.inl (by omega)),
      writeBytes_out (.inl (by omega))]

theorem writeBytes_comm (h : a + bs.length ≤ b ∨ b + cs.length ≤ a) :
    writeBytes (writeBytes m a bs) b cs = writeBytes (writeBytes m b cs) a bs := by
  funext x
  by_cases ha : a ≤ x ∧ x < a + bs.length
  · rw [writeBytes_out (by omega),writeBytes_in ha.1 (by omega),writeBytes_in ha.1 (by omega)]
  · rw [writeBytes_out (a := a) (by omega)]
    by_cases hb : b ≤ x ∧ x < b + cs.length
    · rw [writeBytes_in hb.1 (by omega),writeBytes_in hb.1 (by omega)]
    · rw [writeBytes_out (by omega),writeBytes_out (by omega),writeBytes_out (by omega)]

theorem bytesAt_iff : BytesAt m a bs ↔ ∀ i (h : i < bs.length), m (a+i) = bs[i] := by
  induction bs generalizing a with
  | nil => simp [BytesAt]
  | cons b bs ih =>
    have hnext (i : ℕ) : a+1+i = a+(i+1) := by omega
    simp only [BytesAt,ih,hnext]
    refine ⟨fun h i hi => ?_,fun h => ⟨h 0 (by simp),fun i hi => h (i+1) (by simpa using hi)⟩⟩
    cases i with
    | zero => exact h.1
    | succ i => exact h.2 i (by simpa using hi)

theorem bytesAt_writeBytes : BytesAt (writeBytes m a bs) a bs := by
  refine bytesAt_iff.mpr fun i hi => ?_
  rw [writeBytes_in (by omega) (by omega)]
  exact getElem_congr rfl (by omega) _

theorem bytesAt_append :
    BytesAt m a (bs ++ cs) ↔ BytesAt m a bs ∧ BytesAt m (a + bs.length) cs := by
  induction bs generalizing a with
  | nil => simp [BytesAt]
  | cons b bs ih =>
    rw [List.cons_append,BytesAt,BytesAt,ih,and_assoc,List.length_cons,Nat.add_assoc,
      Nat.add_comm 1]

end Write

section Words
variable {m : Mem} {a : ℕ}

@[simp] theorem length_natBytes (k n : ℕ) : (natBytes k n).length = k := by
  induction k generalizing n with
  | zero => rfl
  | succ k ih => rw [natBytes,List.length_cons,ih]

@[simp] theorem length_wordBytes (w : Word) : (wordBytes w).length = 8 := length_natBytes 8 _

theorem leNat_lt (m : Mem) (k a : ℕ) : leNat m k a < 256^k := by
  induction k generalizing a with
  | zero => simp [leNat]
  | succ k ih =>
    have := ih (a+1)
    have := (m a).isLt
    rw [leNat,Nat.pow_succ]
    omega

theorem bytesAt_natBytes {k n : ℕ} (hn : n < 256^k) :
    BytesAt m a (natBytes k n) ↔ leNat m k a = n := by
  induction k generalizing a n with
  | zero =>
    simp [natBytes,BytesAt,leNat]
    omega
  | succ k ih =>
    have hlt := (m a).isLt
    rw [Nat.pow_succ] at hn
    rw [natBytes,BytesAt,ih (by omega),leNat,BitVec.toNat_eq,BitVec.toNat_ofNat]
    omega

theorem bytesAt_wordBytes {w : Word} : BytesAt m a (wordBytes w) ↔ wordAt m a = w := by
  have hlt : leNat m 8 a < 2^64 := leNat_lt m 8 a
  rw [wordBytes,bytesAt_natBytes w.isLt,wordAt,BitVec.toNat_eq,BitVec.toNat_ofNat,
    Nat.mod_eq_of_lt hlt]

theorem wordsAt_iff {ws : List Word} : WordsAt m a ws ↔ BytesAt m a (ws.flatMap wordBytes) := by
  induction ws generalizing a with
  | nil => rfl
  | cons w ws ih =>
    rw [WordsAt,ih,List.flatMap_cons,bytesAt_append,bytesAt_wordBytes,length_wordBytes]

theorem length_flatMap_wordBytes (ws : List Word) : (ws.flatMap wordBytes).length = 8*ws.length := by
  induction ws with
  | nil => rfl
  | cons w ws ih =>
    rw [List.flatMap_cons,List.length_append,length_wordBytes,ih,List.length_cons]
    omega

theorem wordsAt_append {ws vs : List Word} :
    WordsAt m a (ws ++ vs) ↔ WordsAt m a ws ∧ WordsAt m (a + 8*ws.length) vs := by
  rw [wordsAt_iff,wordsAt_iff,wordsAt_iff,List.flatMap_append,bytesAt_append,
    length_flatMap_wordBytes]

end Words

end ByteMemory
end VmplApps

import VmplApps.SthreadDescriptors

/-! What a list of descriptor grants allows. `sc_fd_add` packs a descriptor and its
rights into one word behind the words already there; `has_fd_perm` stops at the first
word of its descriptor, so that rights granted later for the same descriptor count
only if the first grant had them. -/
namespace VmplApps
namespace Sthreads

structure FdGrant where
  fd : CInt
  prot : CInt
  deriving DecidableEq, Repr

/-- The descriptor leaves room for the rights, of which there is at least one. -/
structure FdGrant.Fits (g : FdGrant) : Prop where
  fdLow : 0 ≤ g.fd.toInt
  fdHigh : g.fd.toInt < 2^23
  protLow : 1 ≤ g.prot.toInt
  protHigh : g.prot.toInt ≤ 15

def FdGrant.entry (g : FdGrant) : CInt := (g.fd <<< 8) ||| g.prot

def FdGrant.word (g : FdGrant) : Word := g.entry.signExtend 64

def grantAll (gs : List FdGrant) (sc : Sc) : Except Fault Sc :=
  gs.foldlM (fun sc g => scFdAdd sc g.fd g.prot) sc

/-- `has_fd_perm` answers by the union of all grants. -/
def RightsAdd (gs : List FdGrant) (s : Sthread) : Prop :=
  ∀ fd perm, hasFdPerm s fd perm = true ↔ ∃ g ∈ gs, g.fd = fd ∧ g.prot &&& perm ≠ 0

def firstGrant (gs : List FdGrant) (fd : CInt) : Option FdGrant := gs.find? fun g => g.fd == fd

/-- The first grant of a descriptor has all rights that later ones name. -/
def FirstCovers (gs : List FdGrant) : Prop :=
  ∀ g ∈ gs, ∀ f ∈ firstGrant gs g.fd, g.prot &&& f.prot = g.prot

instance (gs : List FdGrant) : Decidable (FirstCovers gs) :=
  inferInstanceAs (Decidable (∀ g ∈ gs, ∀ f ∈ firstGrant gs g.fd, g.prot &&& f.prot = g.prot))

section Packing
variable {g : FdGrant}

theorem toNat_of_toInt {x : CInt} {n : ℕ} (h0 : 0 ≤ x.toInt) (hn : x.toInt ≤ n) :
    x.toNat ≤ n ∧ x.toInt = x.toNat := by
  rw [BitVec.toInt_eq_toNat_cond] at *
  split_ifs at * <;> omega

theorem FdGrant.Fits.toNat (h : g.Fits) :
    g.fd.toNat < 2^23 ∧ 1 ≤ g.prot.toNat ∧ g.prot.toNat ≤ 15 := by
  have hlow := h.protLow
  have hhigh := h.fdHigh
  have hfd := toNat_of_toInt (n := 2^23-1) h.fdLow (by omega)
  have hprot := toNat_of_toInt (n := 15) (by omega) h.protHigh
  omega

theorem FdGrant.Fits.entry_toNat (h : g.Fits) : g.entry.toNat = g.fd.toNat*256 + g.prot.toNat := by
  obtain ⟨hfd,-,hprot⟩ := h.toNat
  have hshift : (g.fd <<< 8).toNat = 2^8*g.fd.toNat := by
    rw [BitVec.toNat_shiftLeft,Nat.shiftLeft_eq,Nat.mod_eq_of_lt (by omega),Nat.mul_comm]
  rw [FdGrant.entry,BitVec.toNat_or,hshift,← Nat.two_pow_add_eq_or_of_lt (by omega)]
  omega

theorem FdGrant.Fits.word_toNat (h : g.Fits) : g.word.toNat = g.fd.toNat*256 + g.prot.toNat := by
  obtain ⟨hfd,-,hprot⟩ := h.toNat
  have hentry := h.entry_toNat
  rw [FdGrant.word,Words.signExtend_toNat (by omega),hentry]

theorem FdGrant.Fits.word_ne (h : g.Fits) : g.word ≠ 0 := by
  intro h0
  have hword := h.word_toNat
  rw [h0] at hword
  have := h.toNat
  simp at hword
  omega

theorem FdGrant.Fits.asserts (h : g.Fits) :
    g.word >>> 8 = g.fd.signExtend 64 ∧ g.word &&& 0xf = g.prot.signExtend 64 := by
  obtain ⟨hfd,-,hprot⟩ := h.toNat
  have hword := h.word_toNat
  constructor <;> apply BitVec.eq_of_toNat_eq
  · rw [BitVec.toNat_ushiftRight,Nat.shiftRight_eq_div_pow,hword,Words.signExtend_toNat (by omega)]
    omega
  · rw [Words.signExtend_toNat (by omega)]
    have hlow := Words.lowBits_toNat (by omega : 4 ≤ 64) g.word
    refine hlow.trans ?_
    omega

theorem FdGrant.Fits.decode (h : g.Fits) : g.word.setWidth 32 = g.entry := by
  obtain ⟨hfd,-,hprot⟩ := h.toNat
  apply BitVec.eq_of_toNat_eq
  rw [BitVec.toNat_setWidth,h.word_toNat,h.entry_toNat]
  omega

theorem FdGrant.Fits.entry_fd (h : g.Fits) : g.entry.sshiftRight 8 = g.fd := by
  have hfd := descriptor_of_word h.asserts.1
  change (g.word.setWidth 32).sshiftRight 8 = g.fd at hfd
  rwa [h.decode] at hfd

theorem FdGrant.Fits.entry_prot (h : g.Fits) : g.entry &&& 0xf = g.prot := by
  obtain ⟨hfd,-,hprot⟩ := h.toNat
  apply BitVec.eq_of_toNat_eq
  rw [BitVec.toNat_and,h.entry_toNat]
  have hmod := Nat.and_two_pow_sub_one_eq_mod (g.fd.toNat*256 + g.prot.toNat) 4
  refine hmod.trans ?_
  omega

theorem FdGrant.Fits.entry_ne (h : g.Fits) : g.entry ≠ 0 := by
  intro h0
  apply h.word_ne
  rw [FdGrant.word,h0]
  rfl

end Packing

section Tables
variable {sc : Sc} {g : FdGrant} {gs : List FdGrant} {fd perm : CInt}

theorem setFirstZero_append {n : ℕ} {v : Vector Word n} {ws rest : List Word} (w : Word) (full : Fault)
    (hv : v.toList = ws ++ 0::rest) (hws : ∀ x ∈ ws, x ≠ 0) :
    ∃ v', setFirstZero v w full = .ok v' ∧ v'.toList = ws ++ w::rest := by
  have hidx : v.toList.findIdx? (· == 0) = some ws.length := by
    rw [hv,List.findIdx?_append]
    have hnone : ws.findIdx? (· == 0) = none := by
      rw [List.findIdx?_eq_none_iff]
      intro x hx
      simpa using hws x hx
    rw [hnone]
    simp [List.findIdx?_cons]
  refine ⟨v.setIfInBounds ws.length w,?_,?_⟩
  · simp only [setFirstZero,hidx]
  · rw [Vector.toList_setIfInBounds,hv,List.set_append_right _ _ le_rfl]
    simp

theorem scFdAdd_append {ws rest : List Word} (hg : g.Fits) (hv : sc.scFd.toList = ws ++ 0::rest)
    (hws : ∀ x ∈ ws, x ≠ 0) :
    ∃ sc', scFdAdd sc g.fd g.prot = .ok sc' ∧ sc'.scFd.toList = ws ++ g.word::rest := by
  obtain ⟨v,hset,hlist⟩ := setFirstZero_append g.word .fdFull hv hws
  have hadd : scFdAdd sc g.fd g.prot = (do
      let fds ← setFirstZero sc.scFd g.word .fdFull
      if g.word >>> 8 = g.fd.signExtend 64 ∧ g.word &&& 0xf = g.prot.signExtend 64 then
        .ok {sc with scFd := fds} else .error .fdAssert) := rfl
  rw [hadd,hset]
  exact ⟨{sc with scFd := v},if_pos hg.asserts,hlist⟩

theorem grantAll_append {done : List FdGrant} {n : ℕ} (hlen : gs.length ≤ n)
    (hdone : ∀ g ∈ done, g.Fits) (hgs : ∀ g ∈ gs, g.Fits)
    (hv : sc.scFd.toList = done.map FdGrant.word ++ List.replicate n 0) :
    ∃ sc', grantAll gs sc = .ok sc' ∧
      sc'.scFd.toList = (done ++ gs).map FdGrant.word ++ List.replicate (n - gs.length) 0 := by
  induction gs generalizing sc done n with
  | nil => exact ⟨sc,rfl,by simpa using hv⟩
  | cons g gs ih =>
    obtain ⟨n,rfl⟩ : ∃ k, n = k+1 := ⟨n-1,by simp at hlen; omega⟩
    have hg := hgs g List.mem_cons_self
    have hws : ∀ x ∈ done.map FdGrant.word, x ≠ 0 := by
      intro x hx
      obtain ⟨d,hd,rfl⟩ := List.mem_map.mp hx
      exact (hdone d hd).word_ne
    obtain ⟨sc₁,hadd,hv₁⟩ := scFdAdd_append hg (by simpa [List.replicate_succ] using hv) hws
    have hdone' : ∀ d ∈ done ++ [g], d.Fits := by
      intro d hd
      rcases List.mem_append.mp hd with hd | hd
      · exact hdone d hd
      · rwa [List.mem_singleton.mp hd]
    obtain ⟨sc₂,hall,hv₂⟩ := ih (by simpa using hlen) hdone'
      (fun d hd => hgs d (List.mem_cons_of_mem g hd)) (by simpa using hv₁)
    refine ⟨sc₂,?_,by simpa using hv₂⟩
    rw [grantAll,List.foldlM_cons,hadd]
    exact hall

/-- The search finds the first grant of the descriptor and looks at no other. -/
theorem fdPermLoop_grants (hgs : ∀ g ∈ gs, g.Fits) (n : ℕ) :
    fdPermLoop fd perm (gs.map FdGrant.word ++ List.replicate n 0) =
      (firstGrant gs fd).any fun f => f.prot &&& perm != 0 := by
  induction gs with
  | nil => cases n <;> simp [fdPermLoop,firstGrant,List.replicate_succ]
  | cons g gs ih =>
    have hg := hgs g List.mem_cons_self
    have hrest := ih fun d hd => hgs d (List.mem_cons_of_mem g hd)
    simp only [List.map_cons,List.cons_append,fdPermLoop,hg.decode,hg.entry_fd,hg.entry_prot]
    rw [if_neg hg.entry_ne,hrest]
    by_cases hfd : g.fd = fd
    · simp [firstGrant,hfd]
    · simp [firstGrant,hfd]

theorem rightsAdd_iff {s : Sthread}
    (hperm : ∀ fd perm, hasFdPerm s fd perm = (firstGrant gs fd).any fun f => f.prot &&& perm != 0) :
    RightsAdd gs s ↔ FirstCovers gs := by
  constructor
  · intro h g hg f hf
    -- ask for the rights that the first grant does not have
    have hno : ¬∃ d ∈ gs, d.fd = g.fd ∧ d.prot &&& ~~~f.prot ≠ 0 := by
      rw [← h g.fd (~~~f.prot),hperm,hf]
      simp
    have hzero : g.prot &&& ~~~f.prot = 0 := by
      by_contra hne
      exact hno ⟨g,hg,rfl,hne⟩
    ext i hi
    have hbit := congrArg (fun x : CInt => x[i]) hzero
    simp only [BitVec.getElem_and,BitVec.getElem_not,BitVec.ofNat_eq_ofNat,BitVec.getElem_zero] at hbit
    rw [BitVec.getElem_and]
    revert hbit
    cases g.prot[i] <;> cases f.prot[i] <;> simp
  · intro h fd perm
    rw [hperm]
    constructor
    · intro hany
      obtain ⟨f,hf,hbits⟩ := (Option.any_eq_true _ _).mp hany
      have hfd : f.fd = fd := by simpa using List.find?_some hf
      exact ⟨f,List.mem_of_find?_eq_some hf,hfd,by simpa using hbits⟩
    · rintro ⟨g,hg,rfl,hbits⟩
      obtain ⟨f,hf⟩ : ∃ f, firstGrant gs g.fd = some f := by
        rw [← Option.isSome_iff_exists,firstGrant,List.find?_isSome]
        exact ⟨g,hg,by simp⟩
      rw [hf,Option.any_some,bne_iff_ne]
      intro h0
      apply hbits
      rw [← h g hg f hf,BitVec.and_assoc,h0]
      exact BitVec.and_zero

end Tables

/-- At most eight grants that fit are all recorded, and rights add up exactly if the
first grant of each descriptor has every right granted for it. -/
theorem rights_add_iff (gs : List FdGrant) (hlen : gs.length ≤ 8) (hgs : ∀ g ∈ gs, g.Fits) :
    ∃ sc, grantAll gs scInit = .ok sc ∧ ∀ s : Sthread, s.stSc = sc →
      (RightsAdd gs s ↔ FirstCovers gs) := by
  have hempty : scInit.scFd.toList = ([] : List FdGrant).map FdGrant.word ++ List.replicate 8 0 := rfl
  obtain ⟨sc,hall,hv⟩ := grantAll_append hlen (by simp) hgs hempty
  refine ⟨sc,hall,fun s hs => rightsAdd_iff fun fd perm => ?_⟩
  rw [hasFdPerm,hs,hv]
  exact fdPermLoop_grants hgs _

def readWriteFirst : List FdGrant := [⟨3,3⟩,⟨4,1⟩,⟨3,1⟩]

theorem rights_add_iff_readWriteFirst : ∃ sc, grantAll readWriteFirst scInit = .ok sc ∧
    ∀ s : Sthread, s.stSc = sc → RightsAdd readWriteFirst s := by
  have hcovers : FirstCovers readWriteFirst := by decide
  obtain ⟨sc,hall,hiff⟩ := rights_add_iff readWriteFirst (by decide) (by
    intro g hg
    fin_cases hg <;> constructor <;> decide)
  exact ⟨sc,hall,fun s hs => (hiff s hs).mpr hcovers⟩

/-- The right to write is granted after the right to read, and is not found. -/
theorem second_grant_ignored : ∃ sc, grantAll [⟨3,PROT_READ⟩,⟨3,PROT_WRITE⟩] scInit = .ok sc ∧
    ∀ s : Sthread, s.stSc = sc → hasFdPerm s 3 PROT_WRITE = false ∧
      ¬RightsAdd [⟨3,PROT_READ⟩,⟨3,PROT_WRITE⟩] s := by
  refine ⟨⟨Vector.replicate 8 0,#v[0x301,0x302,0,0,0,0,0,0],Vector.replicate 16 0⟩,by decide +kernel,?_⟩
  intro s hs
  have hno : hasFdPerm s 3 PROT_WRITE = false := by
    rw [hasFdPerm,hs]
    decide
  refine ⟨hno,fun h => ?_⟩
  have hyes := (h 3 PROT_WRITE).mpr ⟨⟨3,PROT_WRITE⟩,by simp,rfl,by decide⟩
  rw [hno] at hyes
  cases hyes

end Sthreads
end VmplApps

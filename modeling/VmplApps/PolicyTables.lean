import VmplApps.SthreadSteps

/-! The three tables of a policy and every access to them. A scan for a free word has
no bound of its own: behind the last word of its table it goes on through the rest of
the structure and what follows it. The bit set lets one position too many pass. -/
namespace VmplApps
namespace Sthreads

inductive Access
  | mem (i : ℕ)
  | fd (i : ℕ)
  | sys (i : ℕ)
  deriving DecidableEq, Repr

def Access.InBounds : Access → Prop
  | .mem i => i < 8
  | .fd i => i < 8
  | .sys i => i < 16

instance (a : Access) : Decidable a.InBounds := by
  cases a <;> exact inferInstanceAs (Decidable (_ < _))

/-- What a call does: the elements it touches, the policy when it returns or exits,
and why it exits. -/
structure Outcome where
  accesses : List Access
  sc : Sc
  exit : Option Fault

def Outcome.result (o : Outcome) : Except Fault Sc :=
  match o.exit with
  | some e => .error e
  | none => .ok o.sc

/-- `while (*p) p++;` over the words from the start of a table to the end of the
memory that can be read: the indices read, and where it stops. -/
def scan : ℕ → List Word → List ℕ × Option ℕ
  | i,[] => ([i],none)
  | i,w::ws => if w = 0 then ([i],some i) else (i::(scan (i+1) ws).1,(scan (i+1) ws).2)

def wordOf (bs : List Byte) : Word := bs.foldr (fun b w => w <<< 8 ||| b.setWidth 64) 0

/-- The words behind `sc_fd`: the bit set. -/
def Sc.afterFd (sc : Sc) : List Word :=
  [wordOf (sc.scSys.toList.take 8),wordOf (sc.scSys.toList.drop 8)]

def Sc.afterMem (sc : Sc) : List Word := sc.scFd.toList ++ sc.afterFd

/-- Look for a free word in table `v`, whose elements are `f`; past the end of the
table the process exits. `rest` is the memory behind the table. -/
def scanTable (f : ℕ → Access) (v : Vector Word 8) (rest : List Word) (sc : Sc) (full : Fault)
    (store : ℕ → Outcome) : Outcome :=
  let r := scan 0 (v.toList ++ rest)
  let seen := r.1.map f
  match r.2 with
  | none => ⟨seen,sc,some full⟩
  | some i =>
    if i ≥ 8 then ⟨seen,sc,some full⟩
    else ⟨seen ++ (store i).accesses,(store i).sc,(store i).exit⟩

/-- The end of `sc_mem_add`: the tag is checked, then stored. -/
def memStore (sc : Sc) (t : Tag) (prot : CInt) (i : ℕ) : Outcome :=
  let addr := t.tBuf &&& 0xfffffffffffffff0
  if addr = t.tBuf ∧ prot &&& 0xf = prot then
    ⟨[.mem i],{sc with scMem := sc.scMem.setIfInBounds i (addr ||| prot.signExtend 64)},none⟩
  else ⟨[],sc,some .memAssert⟩

/-- The end of `sc_fd_add`: the word is stored, then read back and checked. -/
def fdStore (sc : Sc) (fd prot : CInt) (i : ℕ) : Outcome :=
  let f : Word := ((fd <<< 8) ||| prot).signExtend 64
  let sc := {sc with scFd := sc.scFd.setIfInBounds i f}
  if f >>> 8 = fd.signExtend 64 ∧ f &&& 0xf = prot.signExtend 64 then
    ⟨[.fd i,.fd i,.fd i],sc,none⟩
  else ⟨[.fd i,.fd i,.fd i],sc,some .fdAssert⟩

/-- `sc_mem_add` with its accesses; `behind` is the memory behind the policy. -/
def memAdd (tags : List Tag) (behind : List Word) (sc : Sc) (tid prot : CInt) : Outcome :=
  match findTag tags tid with
  | none => ⟨[],sc,some .noTag⟩
  | some t => scanTable .mem sc.scMem (sc.afterMem ++ behind) sc .memFull (memStore sc t prot)

def fdAdd (behind : List Word) (sc : Sc) (fd prot : CInt) : Outcome :=
  scanTable .fd sc.scFd (sc.afterFd ++ behind) sc .fdFull (fdStore sc fd prot)

def sysAdd (sc : Sc) (sysno : CInt) : Outcome :=
  let pos := sysno.toInt.tdiv 8
  if pos < 0 ∨ pos > 16 then ⟨[],sc,some .sysRange⟩
  else
    let old := sc.scSys.toList.getD pos.toNat 0
    ⟨[.sys pos.toNat,.sys pos.toNat],
      {sc with scSys := sc.scSys.setIfInBounds pos.toNat (old ||| (sysBit sysno).setWidth 8)},none⟩

def canDoSysAccesses (sysno : CInt) : List Access :=
  if sysno = 666 ∨ sysno = SYS_read ∨ sysno = SYS_write then []
  else
    let pos := sysno.toInt.tdiv 8
    if pos < 0 ∨ pos > 16 then [] else [.sys pos.toNat]

inductive PolicyCall
  | memAdd (tid prot : CInt)
  | fdAdd (fd prot : CInt)
  | sysAdd (sysno : CInt)
  deriving DecidableEq, Repr

namespace PolicyCall

def outcome (tags : List Tag) (behind : List Word) (sc : Sc) : PolicyCall → Outcome
  | .memAdd tid prot => Sthreads.memAdd tags behind sc tid prot
  | .fdAdd fd prot => Sthreads.fdAdd behind sc fd prot
  | .sysAdd sysno => Sthreads.sysAdd sc sysno

def grant (tags : List Tag) (sc : Sc) : PolicyCall → Except Fault Sc
  | .memAdd tid prot => scMemAdd tags sc tid prot
  | .fdAdd fd prot => scFdAdd sc fd prot
  | .sysAdd sysno => scSysAdd sc sysno

def Admitted (tags : List Tag) : PolicyCall → Prop
  | .memAdd tid prot => prot &&& 0xf = prot ∧
      ∃ t, findTag tags tid = some t ∧ t.tBuf &&& 0xfffffffffffffff0 = t.tBuf
  | .fdAdd fd prot => (((fd <<< 8) ||| prot).signExtend 64 : Word) >>> 8 = fd.signExtend 64 ∧
      (((fd <<< 8) ||| prot).signExtend 64 : Word) &&& 0xf = prot.signExtend 64
  | .sysAdd _ => True

def Recordable (sc : Sc) : PolicyCall → Prop
  | .memAdd _ _ => 0 ∈ sc.scMem.toList
  | .fdAdd _ _ => 0 ∈ sc.scFd.toList
  | .sysAdd sysno => 0 ≤ sysno.toInt ∧ sysno.toInt < 128

/-- A free word is left; the number is in the bit set, or far enough from it to be
refused. -/
def Clear (sc : Sc) : PolicyCall → Prop
  | .memAdd _ _ => 0 ∈ sc.scMem.toList
  | .fdAdd _ _ => 0 ∈ sc.scFd.toList
  | .sysAdd sysno => sysno.toInt ≤ -8 ∨ (0 ≤ sysno.toInt ∧ sysno.toInt < 128) ∨ 136 ≤ sysno.toInt

instance (sc : Sc) (c : PolicyCall) : Decidable (c.Clear sc) := by
  cases c <;> unfold Clear <;> infer_instance

end PolicyCall

def runCalls (tags : List Tag) (behind : List Word) : Sc → List PolicyCall → Outcome
  | sc,[] => ⟨[],sc,none⟩
  | sc,c::cs =>
    let o := c.outcome tags behind sc
    match o.exit with
    | some _ => o
    | none =>
      let r := runCalls tags behind o.sc cs
      ⟨o.accesses ++ r.accesses,r.sc,r.exit⟩

def Made (tags : List Tag) (behind : List Word) (calls : List PolicyCall) (c : PolicyCall) (sc : Sc) :
    Prop :=
  ∃ done rest, calls = done ++ c::rest ∧ (runCalls tags behind scInit done).exit = none ∧
    (runCalls tags behind scInit done).sc = sc

/-- The tables are exact and no access leaves them, for these calls and the question
about system call `n`. -/
structure TablesExact (tags : List Tag) (behind : List Word) (calls : List PolicyCall) (n : CInt) :
    Prop where
  inBounds : ∀ a ∈ (runCalls tags behind scInit calls).accesses, a.InBounds
  unrecorded : ∀ c sc, Made tags behind calls c sc → ¬c.Recordable sc →
    (c.outcome tags behind sc).exit ≠ none ∧ (c.outcome tags behind sc).sc = sc
  answers : (runCalls tags behind scInit calls).exit = none →
    (∀ a ∈ canDoSysAccesses n, a.InBounds) ∧
    ∀ s : Sthread, s.stSc = (runCalls tags behind scInit calls).sc →
      (canDoSys s n = .ok true ↔
        n = 666 ∨ n = SYS_read ∨ n = SYS_write ∨ PolicyCall.sysAdd n ∈ calls)

section Scans
variable {ws : List Word}

theorem scan_stop (i : ℕ) (ws : List Word) :
    (scan i ws).2 = (ws.findIdx? (· == 0)).map (· + i) := by
  induction ws generalizing i with
  | nil => rfl
  | cons w ws ih =>
    by_cases hw : w = 0
    · have hw' : (w == 0) = true := by simpa using hw
      simp only [scan,if_pos hw,List.findIdx?_cons,hw',if_true,Option.map_some,Nat.zero_add]
    · have hw' : (w == 0) = false := by simpa using hw
      simp only [scan,if_neg hw,ih,List.findIdx?_cons,hw']
      cases ws.findIdx? (· == 0) with
      | none => rfl
      | some j => simp only [Option.map_some,Bool.false_eq_true,if_false]; congr 1; omega

/-- Every index up to the first zero is read, and no other. -/
theorem scan_seen (i : ℕ) (ws : List Word) :
    (scan i ws).1 = List.range' i (ws.findIdx (· == 0) + 1) := by
  induction ws generalizing i with
  | nil => rfl
  | cons w ws ih =>
    by_cases hw : w = 0
    · have hw' : (w == 0) = true := by simpa using hw
      simp only [scan,if_pos hw,List.findIdx_cons,hw',cond_true]
      rfl
    · have hw' : (w == 0) = false := by simpa using hw
      simp only [scan,if_neg hw,ih,List.findIdx_cons,hw',cond_false]
      rfl

theorem findIdx_append_lt (rest : List Word) : (ws ++ rest).findIdx (· == (0 : Word)) < ws.length ↔ 0 ∈ ws := by
  rw [List.findIdx_append]
  constructor
  · intro h
    by_contra hno
    have hge : ws.findIdx (· == (0 : Word)) = ws.length := by
      rw [List.findIdx_eq_length]
      intro x hx
      have hx0 : x ≠ 0 := fun h0 => hno (h0 ▸ hx)
      simpa using hx0
    rw [hge] at h
    simp at h
  · intro h
    have hlt : ws.findIdx (· == (0 : Word)) < ws.length := List.findIdx_lt_length_of_exists ⟨0,h,by simp⟩
    rw [if_pos hlt]
    exact hlt

theorem scan_within (rest : List Word) (h : ws.length = 8) :
    (∀ j ∈ (scan 0 (ws ++ rest)).1, j < 8) ↔ 0 ∈ ws := by
  rw [scan_seen,← findIdx_append_lt rest,h]
  constructor
  · intro hall
    apply hall
    rw [List.mem_range'_1]
    omega
  · intro hlt j hj
    rw [List.mem_range'_1] at hj
    omega

/-- The scan either runs out of a full table, or stops at the word that
`setFirstZero` replaces. -/
theorem scan_cases (v : Vector Word 8) (rest : List Word) (full : Fault) :
    (0 ∉ v.toList ∧ (∀ w, setFirstZero v w full = .error full) ∧
      ∀ i, (scan 0 (v.toList ++ rest)).2 = some i → i ≥ 8) ∨
    ∃ i, i < 8 ∧ 0 ∈ v.toList ∧ (scan 0 (v.toList ++ rest)).2 = some i ∧
      ∀ w, setFirstZero v w full = .ok (v.setIfInBounds i w) := by
  have hlen : v.toList.length = 8 := by simp
  rw [scan_stop,List.findIdx?_append]
  cases hidx : v.toList.findIdx? (· == 0) with
  | none =>
    refine .inl ⟨fun h0 => ?_,fun w => by simp only [setFirstZero,hidx],fun i hi => ?_⟩
    · have hno := List.findIdx?_eq_none_iff.mp hidx 0 h0
      cases hno
    · rw [Option.none_or] at hi
      obtain ⟨j,hj,rfl⟩ := Option.map_eq_some_iff.mp hi
      obtain ⟨k,-,rfl⟩ := Option.map_eq_some_iff.mp hj
      omega
  | some i =>
    obtain ⟨hlt,hzero,-⟩ := List.findIdx?_eq_some_iff_getElem.mp hidx
    refine .inr ⟨i,by omega,?_,rfl,fun w => by simp only [setFirstZero,hidx]⟩
    have hget : v.toList[i] = 0 := by simpa using hzero
    exact hget ▸ List.getElem_mem hlt

end Scans

section Calls
variable {tags : List Tag} {behind rest : List Word} {sc : Sc} {v : Vector Word 8}
  {f : ℕ → Access} {full : Fault} {store : ℕ → Outcome}

theorem scanTable_result {w : Word} {k : Vector Word 8 → Except Fault Sc}
    (hstore : ∀ i, (store i).result = k (v.setIfInBounds i w)) :
    (scanTable f v rest sc full store).result = setFirstZero v w full >>= k := by
  unfold scanTable
  dsimp only
  rcases scan_cases v rest full with ⟨-,hset,hstop⟩ | ⟨i,hlt,-,hstop,hset⟩
  · rw [hset]
    cases hi : (scan 0 (v.toList ++ rest)).2 with
    | none => rfl
    | some i =>
      simp only [if_pos (hstop i hi)]
      rfl
  · simp only [hset,hstop,if_neg (show ¬i ≥ 8 by omega)]
    exact hstore i

theorem scanTable_inBounds (rest : List Word) (sc : Sc) (full : Fault)
    (hf : ∀ i, (f i).InBounds ↔ i < 8) (hstore : ∀ i < 8, ∀ a ∈ (store i).accesses, a.InBounds) :
    (∀ a ∈ (scanTable f v rest sc full store).accesses, a.InBounds) ↔ 0 ∈ v.toList := by
  have hlen : v.toList.length = 8 := by simp
  have hseen : (∀ a ∈ (scan 0 (v.toList ++ rest)).1.map f, a.InBounds) ↔ 0 ∈ v.toList := by
    rw [← scan_within rest hlen]
    simp only [List.mem_map,forall_exists_index,and_imp,forall_apply_eq_imp_iff₂,hf]
  unfold scanTable
  dsimp only
  rcases scan_cases v rest full with ⟨-,-,hstop⟩ | ⟨i,hlt,hfree,hstop,-⟩
  · cases hi : (scan 0 (v.toList ++ rest)).2 with
    | none => exact hseen
    | some i =>
      simp only [if_pos (hstop i hi)]
      exact hseen
  · refine iff_of_true ?_ hfree
    simp only [hstop,if_neg (show ¬i ≥ 8 by omega)]
    intro a ha
    rcases List.mem_append.mp ha with ha | ha
    · exact hseen.mpr hfree a ha
    · exact hstore i hlt a ha

theorem outcome_result (tags : List Tag) (behind : List Word) (sc : Sc) (c : PolicyCall) :
    (c.outcome tags behind sc).result = c.grant tags sc := by
  cases c with
  | memAdd tid prot =>
    change (memAdd tags behind sc tid prot).result = scMemAdd tags sc tid prot
    unfold memAdd scMemAdd
    cases findTag tags tid with
    | none => rfl
    | some t =>
      apply scanTable_result
      intro i
      unfold memStore
      dsimp only
      split_ifs <;> rfl
  | fdAdd fd prot =>
    apply scanTable_result
    intro i
    unfold fdStore
    dsimp only
    split_ifs <;> rfl
  | sysAdd sysno =>
    change (sysAdd sc sysno).result = scSysAdd sc sysno
    unfold sysAdd scSysAdd
    dsimp only
    split_ifs <;> rfl

end Calls

section Numbers

/-- Division towards zero keeps the numbers from −7 to −1 at position 0. -/
theorem tdiv_eight (z : ℤ) : (z.tdiv 8 < 0 ↔ z ≤ -8) ∧ (16 < z.tdiv 8 ↔ 136 ≤ z) ∧
    (0 ≤ z → z.tdiv 8 = z / 8) ∧ (-8 < z → z < 0 → z.tdiv 8 = 0) := by
  rcases le_or_gt 0 z with hz | hz
  · have hdiv := Int.tdiv_eq_ediv_of_nonneg (b := 8) hz
    omega
  · have hdiv : z.tdiv 8 = -((-z) / 8) := by
      rw [← Int.tdiv_eq_ediv_of_nonneg (by omega),Int.neg_tdiv,neg_neg]
    omega

theorem toNat_eq_toInt (n : CInt) :
    (n.toNat : ℤ) = if n.toInt < 0 then n.toInt + 2^32 else n.toInt := by
  have hlt := n.isLt
  rw [BitVec.toInt_eq_toNat_cond]
  split_ifs <;> omega

theorem sysAdd_cases (sc : Sc) (n : CInt) :
    ((n.toInt ≤ -8 ∨ 136 ≤ n.toInt) ∧ sysAdd sc n = ⟨[],sc,some .sysRange⟩) ∨
    ((-8 < n.toInt ∧ n.toInt < 136) ∧ (sysAdd sc n).exit = none ∧
      (sysAdd sc n).accesses = [.sys (n.toInt.tdiv 8).toNat,.sys (n.toInt.tdiv 8).toNat]) := by
  obtain ⟨hneg,hbig,-⟩ := tdiv_eight n.toInt
  unfold sysAdd
  dsimp only
  split_ifs with h
  · exact .inl ⟨by omega,rfl⟩
  · exact .inr ⟨by omega,rfl,rfl⟩

theorem sys_inBounds {z : ℤ} (h : -8 < z) : (Access.sys (z.tdiv 8).toNat).InBounds ↔ z < 128 := by
  obtain ⟨hneg,hbig,hpos,hzero⟩ := tdiv_eight z
  change (z.tdiv 8).toNat < 16 ↔ z < 128
  rcases le_or_gt 0 z with hz | hz
  · rw [hpos hz]
    omega
  · rw [hzero h hz]
    omega

end Numbers

structure Confined (tags : List Tag) (behind : List Word) (sc : Sc) (c : PolicyCall) : Prop where
  inBounds : ∀ a ∈ (c.outcome tags behind sc).accesses, a.InBounds
  unrecorded : ¬c.Recordable sc →
    (c.outcome tags behind sc).exit ≠ none ∧ (c.outcome tags behind sc).sc = sc

section Confinement
variable {tags : List Tag} {behind : List Word} {sc : Sc} {c : PolicyCall}

theorem memStore_inBounds (sc : Sc) (t : Tag) (prot : CInt) (i : ℕ) (hi : i < 8) :
    ∀ a ∈ (memStore sc t prot i).accesses, a.InBounds := by
  unfold memStore
  dsimp only
  split_ifs
  · intro a ha
    rw [List.mem_singleton.mp ha]
    exact hi
  · intro a ha
    cases ha

theorem fdStore_inBounds (sc : Sc) (fd prot : CInt) (i : ℕ) (hi : i < 8) :
    ∀ a ∈ (fdStore sc fd prot i).accesses, a.InBounds := by
  have hall : (fdStore sc fd prot i).accesses = [.fd i,.fd i,.fd i] := by
    unfold fdStore
    dsimp only
    split_ifs <;> rfl
  rw [hall]
  intro a ha
  have ha' : a = .fd i := by simpa using ha
  rw [ha']
  exact hi

theorem confined_scan {f : ℕ → Access} {v : Vector Word 8} {rest : List Word} {full : Fault}
    {store : ℕ → Outcome} (hf : ∀ i, (f i).InBounds ↔ i < 8)
    (hstore : ∀ i < 8, ∀ a ∈ (store i).accesses, a.InBounds)
    (hout : c.outcome tags behind sc = scanTable f v rest sc full store)
    (hrec : c.Recordable sc ↔ 0 ∈ v.toList) : Confined tags behind sc c ↔ 0 ∈ v.toList := by
  have hclear := scanTable_inBounds (v := v) rest sc full hf hstore
  rw [← hout] at hclear
  exact ⟨fun hc => hclear.mp hc.inBounds,fun hfree => ⟨hclear.mpr hfree,fun hno =>
    absurd (hrec.mpr hfree) hno⟩⟩

/-- A call whose tag exists keeps to the tables exactly if it is clear of their ends. -/
theorem confined_iff (h : c.Admitted tags) : Confined tags behind sc c ↔ c.Clear sc := by
  cases c with
  | memAdd tid prot =>
    obtain ⟨-,t,ht,-⟩ := h
    have hout : (PolicyCall.memAdd tid prot).outcome tags behind sc =
        scanTable .mem sc.scMem (sc.afterMem ++ behind) sc .memFull (memStore sc t prot) := by
      simp only [PolicyCall.outcome,memAdd,ht]
    exact confined_scan (fun i => Iff.rfl) (memStore_inBounds sc t prot) hout Iff.rfl
  | fdAdd fd prot =>
    exact confined_scan (fun i => Iff.rfl) (fdStore_inBounds sc fd prot) rfl Iff.rfl
  | sysAdd n =>
    change Confined tags behind sc (.sysAdd n) ↔
      n.toInt ≤ -8 ∨ (0 ≤ n.toInt ∧ n.toInt < 128) ∨ 136 ≤ n.toInt
    have hout : (PolicyCall.sysAdd n).outcome tags behind sc = sysAdd sc n := rfl
    have hrec : (PolicyCall.sysAdd n).Recordable sc ↔ 0 ≤ n.toInt ∧ n.toInt < 128 := Iff.rfl
    rcases sysAdd_cases sc n with ⟨hfar,hexit⟩ | ⟨hnear,hreturn,hseen⟩
    · refine iff_of_true ⟨?_,fun _ => ?_⟩ (by omega)
      · rw [hout,hexit]
        intro a ha
        cases ha
      · rw [hout,hexit]
        exact ⟨Option.some_ne_none _,rfl⟩
    · constructor
      · intro hc
        by_contra hno
        refine (hc.unrecorded ?_).1 hreturn
        rw [hrec]
        omega
      · intro hclear
        refine ⟨?_,fun hno => absurd (hrec.mpr (by omega)) hno⟩
        rw [hout,hseen]
        intro a ha
        have ha' : a = .sys (n.toInt.tdiv 8).toNat := by simpa using ha
        rw [ha',sys_inBounds hnear.1]
        omega

end Confinement

def Sc.has (sc : Sc) (k : ℕ) : Bool := (sc.scSys.toList.getD (k/8) 0).getLsbD (k%8)

section Bits
variable {tags : List Tag} {behind : List Word} {sc : Sc} {c : PolicyCall}

theorem sysBit_eq (n : CInt) : sysBit n = BitVec.twoPow 32 (n.toNat % 8) := rfl

theorem toInt_ofNat_small {k : ℕ} (hk : k < 128) :
    (BitVec.ofNat 32 k).toInt = k ∧ (BitVec.ofNat 32 k).toNat = k := by
  have hnat : (BitVec.ofNat 32 k).toNat = k := by
    rw [BitVec.toNat_ofNat]
    omega
  rw [BitVec.toInt_eq_toNat_cond,hnat,if_pos (by omega)]
  exact ⟨rfl,rfl⟩

theorem place_iff {n : CInt} {k : ℕ} (hk : k < 128) (hlow : 0 ≤ n.toInt) :
    ((n.toInt.tdiv 8).toNat = k/8 ∧ n.toNat % 8 = k%8) ↔ n = BitVec.ofNat 32 k := by
  obtain ⟨-,-,hpos,-⟩ := tdiv_eight n.toInt
  obtain ⟨hint,hnat⟩ := toInt_ofNat_small hk
  have hval := toNat_eq_toInt n
  rw [if_neg (by omega)] at hval
  rw [hpos hlow]
  constructor
  · rintro ⟨hdiv,hmod⟩
    apply BitVec.eq_of_toInt_eq
    rw [hint]
    omega
  · rintro rfl
    omega

theorem getLsbD_or_sysBit (b : Byte) (n : CInt) {j : ℕ} (hj : j < 8) :
    (b ||| (sysBit n).setWidth 8).getLsbD j = (b.getLsbD j || n.toNat % 8 == j) := by
  have hlt : n.toNat % 8 < 32 := by omega
  rw [BitVec.getLsbD_or,BitVec.getLsbD_setWidth,sysBit_eq,BitVec.getLsbD_twoPow,decide_eq_true hj,
    decide_eq_true hlt]
  simp [Bool.beq_eq_decide_eq]

theorem has_sysAdd (sc : Sc) (n : CInt) {k : ℕ} (hk : k < 128) (hlow : 0 ≤ n.toInt)
    (hexit : (sysAdd sc n).exit = none) :
    (sysAdd sc n).sc.has k = (sc.has k || n == BitVec.ofNat 32 k) := by
  rcases sysAdd_cases sc n with ⟨-,hfar⟩ | ⟨hnear,-,-⟩
  · rw [hfar] at hexit
    cases hexit
  obtain ⟨hneg,hbig,-⟩ := tdiv_eight n.toInt
  have hplace := place_iff hk hlow
  have hin : ¬(n.toInt.tdiv 8 < 0 ∨ n.toInt.tdiv 8 > 16) := by omega
  simp only [sysAdd,if_neg hin,Sc.has,Vector.toList_setIfInBounds,List.getD_eq_getElem?_getD]
  by_cases hbyte : (n.toInt.tdiv 8).toNat = k/8
  · have hlen : (n.toInt.tdiv 8).toNat < sc.scSys.toList.length := by
      simp
      omega
    rw [← hbyte,List.getElem?_set_self hlen,Option.getD_some,getLsbD_or_sysBit _ _ (by omega)]
    congr 1
    rw [Bool.eq_iff_iff,beq_iff_eq,beq_iff_eq,← hplace]
    exact (and_iff_right hbyte).symm
  · rw [List.getElem?_set_ne hbyte]
    have hne : (n == BitVec.ofNat 32 k) = false := by
      rw [beq_eq_false_iff_ne,ne_eq,← hplace]
      exact fun h => hbyte h.1
    rw [hne,Bool.or_false]

theorem has_scanTable {f : ℕ → Access} {v : Vector Word 8} {rest : List Word} {full : Fault}
    {store : ℕ → Outcome} (hstore : ∀ i, (store i).sc.scSys = sc.scSys) :
    (scanTable f v rest sc full store).sc.scSys = sc.scSys := by
  unfold scanTable
  dsimp only
  split
  · rfl
  · split_ifs
    · rfl
    · exact hstore _

theorem has_outcome {k : ℕ} (hk : k < 128) (hlow : ∀ n, c = .sysAdd n → 0 ≤ n.toInt)
    (hexit : (c.outcome tags behind sc).exit = none) :
    (c.outcome tags behind sc).sc.has k = (sc.has k || c == .sysAdd (BitVec.ofNat 32 k)) := by
  cases c with
  | memAdd tid prot =>
    have hsame : (memAdd tags behind sc tid prot).sc.scSys = sc.scSys := by
      unfold memAdd
      split
      · rfl
      · apply has_scanTable
        intro i
        unfold memStore
        dsimp only
        split_ifs <;> rfl
    simp [PolicyCall.outcome,Sc.has,hsame]
  | fdAdd fd prot =>
    have hsame : (fdAdd behind sc fd prot).sc.scSys = sc.scSys := by
      apply has_scanTable
      intro i
      unfold fdStore
      dsimp only
      split_ifs <;> rfl
    simp [PolicyCall.outcome,Sc.has,hsame]
  | sysAdd n =>
    rw [PolicyCall.outcome,has_sysAdd sc n hk (hlow n rfl) hexit]
    simp [Bool.beq_eq_decide_eq]

theorem and_sysBit (b : Byte) (n : CInt) :
    (b.setWidth 32 &&& sysBit n != 0) = b.getLsbD (n.toNat % 8) := by
  set i := n.toNat % 8
  have hlt : i < 32 := by omega
  have hne : BitVec.twoPow 32 i ≠ 0 := by
    intro h0
    have hbit := congrArg (fun x : CInt => x.getLsbD i) h0
    simp [hlt] at hbit
  rw [sysBit_eq,BitVec.and_twoPow,BitVec.getLsbD_setWidth,decide_eq_true hlt,Bool.true_and]
  cases b.getLsbD i with
  | false => rfl
  | true =>
    rw [if_pos rfl]
    exact bne_iff_ne.mpr hne

/-- The number whose place in the set `can_do_sys` looks at; for those from −7 to −1 it is
the one eight above. -/
def askedPlace (n : CInt) : CInt := if n.toInt < 0 then n + 8 else n

theorem askedPlace_eq {n : CInt} (hlow : -8 < n.toInt) :
    (askedPlace n).toNat / 8 = (n.toInt.tdiv 8).toNat ∧ (askedPlace n).toNat % 8 = n.toNat % 8 := by
  obtain ⟨-,-,hpos,hzero⟩ := tdiv_eight n.toInt
  have hval := toNat_eq_toInt n
  unfold askedPlace
  split_ifs at hval ⊢ with hneg
  · rw [hzero hlow hneg,BitVec.toNat_add,show (8 : CInt).toNat = 8 from rfl]
    omega
  · rw [hpos (by omega)]
    omega

theorem canDoSys_iff {s : Sthread} {n : CInt} (hn : ¬(n = 666 ∨ n = SYS_read ∨ n = SYS_write))
    (hcase : n.toInt < 128 ∨ 136 ≤ n.toInt) :
    canDoSys s n = .ok true ↔
      -8 < n.toInt ∧ n.toInt < 128 ∧ s.stSc.has (askedPlace n).toNat = true := by
  obtain ⟨hneg,hbig,hpos,hzero⟩ := tdiv_eight n.toInt
  unfold canDoSys
  rw [if_neg hn]
  dsimp only
  split_ifs with hrange
  · exact iff_of_false (fun h => nomatch h) (by omega)
  · obtain ⟨hdiv,hmod⟩ := askedPlace_eq (n := n) (by omega)
    have hlen : (n.toInt.tdiv 8).toNat < s.stSc.scSys.toList.length := by
      simp
      rcases le_or_gt 0 n.toInt with h0 | h0
      · have := hpos h0
        omega
      · have := hzero (by omega) h0
        omega
    rw [and_sysBit,Except.ok.injEq,Sc.has,hdiv,hmod,List.getD_eq_getElem?_getD,
      List.getD_eq_getElem?_getD,List.getElem?_eq_getElem hlen]
    exact ⟨fun h => ⟨by omega,by omega,h⟩,fun h => h.2.2⟩

end Bits

section Runs
variable {tags : List Tag} {behind : List Word} {calls : List PolicyCall} {n : CInt}

theorem runCalls_exit_cons {sc : Sc} {c : PolicyCall} :
    (runCalls tags behind sc (c::calls)).exit = none ↔ (c.outcome tags behind sc).exit = none ∧
      (runCalls tags behind (c.outcome tags behind sc).sc calls).exit = none := by
  simp only [runCalls]
  cases hexit : (c.outcome tags behind sc).exit with
  | none => simp
  | some e => simp [hexit]

theorem runCalls_sc_cons {sc : Sc} {c : PolicyCall} (h : (c.outcome tags behind sc).exit = none) :
    (runCalls tags behind sc (c::calls)).sc =
      (runCalls tags behind (c.outcome tags behind sc).sc calls).sc := by
  simp only [runCalls,h]

theorem mem_runCalls_cons {sc : Sc} {c : PolicyCall} {a : Access} :
    a ∈ (runCalls tags behind sc (c::calls)).accesses ↔ a ∈ (c.outcome tags behind sc).accesses ∨
      ((c.outcome tags behind sc).exit = none ∧
        a ∈ (runCalls tags behind (c.outcome tags behind sc).sc calls).accesses) := by
  simp only [runCalls]
  cases hexit : (c.outcome tags behind sc).exit with
  | none => simp
  | some e => simp

theorem runCalls_split (sc : Sc) (done : List PolicyCall) (c : PolicyCall) (rest : List PolicyCall)
    (h : (runCalls tags behind sc (done ++ c::rest)).exit = none) :
    (runCalls tags behind sc done).exit = none ∧
      (c.outcome tags behind (runCalls tags behind sc done).sc).exit = none := by
  induction done generalizing sc with
  | nil => exact ⟨rfl,(runCalls_exit_cons.mp h).1⟩
  | cons d done ih =>
    obtain ⟨hd,hrest⟩ := runCalls_exit_cons.mp h
    obtain ⟨hdone,hc⟩ := ih _ hrest
    rw [runCalls_sc_cons hd]
    exact ⟨runCalls_exit_cons.mpr ⟨hd,hdone⟩,hc⟩

theorem mem_runCalls {a : Access} (sc : Sc) (calls : List PolicyCall) :
    a ∈ (runCalls tags behind sc calls).accesses ↔ ∃ done c rest, calls = done ++ c::rest ∧
      (runCalls tags behind sc done).exit = none ∧
      a ∈ (c.outcome tags behind (runCalls tags behind sc done).sc).accesses := by
  induction calls generalizing sc with
  | nil => simp [runCalls]
  | cons d calls ih =>
    -- a call that is made is the first one, or it is made after the first one returned
    rw [mem_runCalls_cons]
    constructor
    · rintro (ha | ⟨hd,ha⟩)
      · exact ⟨[],d,calls,rfl,rfl,ha⟩
      · obtain ⟨done,c,rest,rfl,hexit,ha⟩ := (ih _).mp ha
        refine ⟨d::done,c,rest,rfl,runCalls_exit_cons.mpr ⟨hd,hexit⟩,?_⟩
        rwa [runCalls_sc_cons hd]
    · rintro ⟨done,c,rest,heq,hexit,ha⟩
      cases done with
      | nil =>
        obtain ⟨rfl,rfl⟩ := List.cons.inj heq
        exact .inl ha
      | cons d' done =>
        obtain ⟨rfl,rfl⟩ := List.cons.inj heq
        obtain ⟨hd,hdone⟩ := runCalls_exit_cons.mp hexit
        rw [runCalls_sc_cons hd] at ha
        exact .inr ⟨hd,(ih _).mpr ⟨done,c,rest,rfl,hdone,ha⟩⟩

/-- After a run that returns, the set holds exactly the numbers added. -/
theorem has_runCalls (sc : Sc) (calls : List PolicyCall) {k : ℕ} (hk : k < 128)
    (hlow : ∀ m, PolicyCall.sysAdd m ∈ calls → 0 ≤ m.toInt)
    (h : (runCalls tags behind sc calls).exit = none) :
    (runCalls tags behind sc calls).sc.has k =
      (sc.has k || calls.contains (.sysAdd (BitVec.ofNat 32 k))) := by
  induction calls generalizing sc with
  | nil => simp [runCalls]
  | cons d calls ih =>
    obtain ⟨hd,hrest⟩ := runCalls_exit_cons.mp h
    have hfirst : ∀ m, d = .sysAdd m → 0 ≤ m.toInt := fun m hm => hlow m (by simp [hm])
    rw [runCalls_sc_cons hd,ih _ (fun m hm => hlow m (List.mem_cons_of_mem d hm)) hrest,
      has_outcome hk hfirst hd,List.contains_cons,Bool.or_assoc,Bool.beq_comm]

theorem scInit_has (k : ℕ) : scInit.has k = false := by
  have hzero : scInit.scSys.toList.getD (k/8) 0 = 0 := by
    simp only [scInit,Vector.toList_replicate,List.getD_eq_getElem?_getD,List.getElem?_replicate]
    split_ifs <;> rfl
  rw [Sc.has,hzero]
  exact BitVec.getLsbD_zero

theorem canDoSysAccesses_inBounds (n : CInt) :
    (∀ a ∈ canDoSysAccesses n, a.InBounds) ↔ ¬(128 ≤ n.toInt ∧ n.toInt < 136) := by
  obtain ⟨hneg,hbig,-⟩ := tdiv_eight n.toInt
  unfold canDoSysAccesses
  dsimp only
  split_ifs with hn hrange
  · refine iff_of_true (fun a ha => nomatch ha) ?_
    rcases hn with rfl | rfl | rfl <;> decide
  · exact iff_of_true (fun a ha => nomatch ha) (by omega)
  · simp only [List.mem_singleton,forall_eq]
    rw [sys_inBounds (by omega)]
    omega

theorem added_range (hclear : ∀ c sc, Made tags behind calls c sc → c.Clear sc)
    (hexit : (runCalls tags behind scInit calls).exit = none) {m : CInt}
    (hmem : PolicyCall.sysAdd m ∈ calls) : 0 ≤ m.toInt ∧ m.toInt < 128 := by
  obtain ⟨done,rest,heq⟩ := List.append_of_mem hmem
  have hsplit := runCalls_split scInit done (.sysAdd m) rest (heq ▸ hexit)
  have hc : m.toInt ≤ -8 ∨ (0 ≤ m.toInt ∧ m.toInt < 128) ∨ 136 ≤ m.toInt :=
    hclear (.sysAdd m) _ ⟨done,rest,heq,hsplit.1,rfl⟩
  rcases sysAdd_cases (runCalls tags behind scInit done).sc m with ⟨-,hfar⟩ | ⟨hnear,-⟩
  · have hreturn := hsplit.2
    rw [PolicyCall.outcome,hfar] at hreturn
    cases hreturn
  · omega

/-- After calls clear of the ends that all return, `can_do_sys` finds a number that is not
let through by default exactly if its place is that of a number added. -/
theorem canDoSys_runCalls {s : Sthread} (hclear : ∀ c sc, Made tags behind calls c sc → c.Clear sc)
    (hexit : (runCalls tags behind scInit calls).exit = none)
    (hs : s.stSc = (runCalls tags behind scInit calls).sc)
    (hdefault : ¬(n = 666 ∨ n = SYS_read ∨ n = SYS_write)) (hn : ¬(128 ≤ n.toInt ∧ n.toInt < 136)) :
    canDoSys s n = .ok true ↔ -8 < n.toInt ∧ PolicyCall.sysAdd (askedPlace n) ∈ calls := by
  rw [canDoSys_iff hdefault (by omega),hs]
  have hhas (hlt : (askedPlace n).toNat < 128) :
      (runCalls tags behind scInit calls).sc.has (askedPlace n).toNat = true ↔
        PolicyCall.sysAdd (askedPlace n) ∈ calls := by
    rw [has_runCalls scInit calls hlt (fun m hm => (added_range hclear hexit hm).1) hexit,
      scInit_has,Bool.false_or,BitVec.ofNat_toNat,BitVec.setWidth_eq]
    exact List.contains_iff_mem
  constructor
  · rintro ⟨hlow,hhigh,hset⟩
    refine ⟨hlow,(hhas ?_).mp hset⟩
    have hval := toNat_eq_toInt n
    unfold askedPlace
    split_ifs at hval ⊢
    · rw [BitVec.toNat_add,show (8 : CInt).toNat = 8 from rfl]
      omega
    · omega
  · rintro ⟨hlow,hmem⟩
    obtain ⟨h0,h1⟩ := added_range hclear hexit hmem
    have hval := toNat_eq_toInt (askedPlace n)
    rw [if_neg (by omega)] at hval
    refine ⟨hlow,?_,(hhas (by omega)).mpr hmem⟩
    unfold askedPlace at h1
    split_ifs at h1 <;> omega

def policyThread (sc : Sc) : Sthread where
  stId := 0
  stState := .dead
  stRet := 0
  stStack := 0
  stPgroot := 0
  table := ⟨[],by simp⟩
  stTf := {}
  stSc := sc
  stWritable := 0
  stWalk := 0

/-- The number asked about is not past the end of the bit set, and not a negative one whose
place is that of a number added. -/
def AskedClear (calls : List PolicyCall) (n : CInt) : Prop :=
  ¬(128 ≤ n.toInt ∧ n.toInt < 136) ∧
    ¬(-8 < n.toInt ∧ n.toInt < 0 ∧ PolicyCall.sysAdd (n + 8) ∈ calls)

instance (calls : List PolicyCall) (n : CInt) : Decidable (AskedClear calls n) :=
  inferInstanceAs (Decidable (_ ∧ _))

theorem answers_iff {s : Sthread} (hclear : ∀ c sc, Made tags behind calls c sc → c.Clear sc)
    (hexit : (runCalls tags behind scInit calls).exit = none)
    (hs : s.stSc = (runCalls tags behind scInit calls).sc) (hn : ¬(128 ≤ n.toInt ∧ n.toInt < 136)) :
    (canDoSys s n = .ok true ↔
        n = 666 ∨ n = SYS_read ∨ n = SYS_write ∨ PolicyCall.sysAdd n ∈ calls) ↔
      ¬(-8 < n.toInt ∧ n.toInt < 0 ∧ PolicyCall.sysAdd (n + 8) ∈ calls) := by
  by_cases hdefault : n = 666 ∨ n = SYS_read ∨ n = SYS_write
  · refine iff_of_true (iff_of_true ?_ (by tauto)) ?_
    · unfold canDoSys
      rw [if_pos hdefault]
    · rcases hdefault with rfl | rfl | rfl <;> rintro ⟨-,hneg,-⟩ <;> exact absurd hneg (by decide)
  · have hmem : (n = 666 ∨ n = SYS_read ∨ n = SYS_write ∨ PolicyCall.sysAdd n ∈ calls) ↔
        PolicyCall.sysAdd n ∈ calls := by tauto
    rw [canDoSys_runCalls hclear hexit hs hdefault hn,hmem]
    have hadded : PolicyCall.sysAdd n ∈ calls → 0 ≤ n.toInt ∧ n.toInt < 128 :=
      added_range hclear hexit
    unfold askedPlace
    split_ifs with hneg
    · have hno : PolicyCall.sysAdd n ∉ calls := fun hm => absurd (hadded hm).1 (by omega)
      tauto
    · refine iff_of_true ⟨fun h => h.2,fun h => ⟨by have := hadded h; omega,h⟩⟩ ?_
      rintro ⟨-,hlt,-⟩
      exact hneg hlt

/-- The tables are exact and stay in bounds exactly if every search finds a free word
in its table, no number added is next to the ends of the bit set, and the number asked
about is neither, nor one below zero that shares its place with a number added. -/
theorem tables_exact_iff (tags : List Tag) (behind : List Word) (calls : List PolicyCall) (n : CInt)
    (hadmitted : ∀ c ∈ calls, c.Admitted tags) :
    TablesExact tags behind calls n ↔ (∀ c sc, Made tags behind calls c sc → c.Clear sc) ∧
      ((runCalls tags behind scInit calls).exit = none → AskedClear calls n) := by
  have hcall {c : PolicyCall} {sc : Sc} (hmade : Made tags behind calls c sc) :
      Confined tags behind sc c ↔ c.Clear sc := by
    obtain ⟨done,rest,rfl,-⟩ := hmade
    exact confined_iff (hadmitted c (by simp))
  constructor
  · intro h
    have hclear : ∀ c sc, Made tags behind calls c sc → c.Clear sc := by
      intro c sc hmade
      refine (hcall hmade).mp ⟨fun a ha => ?_,h.unrecorded c sc hmade⟩
      obtain ⟨done,rest,heq,hexit,rfl⟩ := hmade
      exact h.inBounds a ((mem_runCalls scInit calls).mpr ⟨done,c,rest,heq,hexit,ha⟩)
    refine ⟨hclear,fun hexit => ?_⟩
    have hn := (canDoSysAccesses_inBounds n).mp (h.answers hexit).1
    have hanswer := (h.answers hexit).2 (policyThread (runCalls tags behind scInit calls).sc) rfl
    exact ⟨hn,(answers_iff hclear hexit rfl hn).mp hanswer⟩
  · rintro ⟨hclear,hn⟩
    refine ⟨fun a ha => ?_,fun c sc hmade => ?_,fun hexit => ⟨?_,fun s hs => ?_⟩⟩
    · obtain ⟨done,c,rest,heq,hexit,ha⟩ := (mem_runCalls scInit calls).mp ha
      have hmade : Made tags behind calls c _ := ⟨done,rest,heq,hexit,rfl⟩
      exact ((hcall hmade).mpr (hclear c _ hmade)).inBounds a ha
    · exact ((hcall hmade).mpr (hclear c sc hmade)).unrecorded
    · exact (canDoSysAccesses_inBounds n).mpr (hn hexit).1
    · exact (answers_iff hclear hexit hs (hn hexit).1).mpr (hn hexit).2

end Runs

section Samples
variable {tags : List Tag} {behind : List Word}

def clearCalls (tags : List Tag) (behind : List Word) : Sc → List PolicyCall → Bool
  | _,[] => true
  | sc,c::cs => decide (c.Clear sc) && match (c.outcome tags behind sc).exit with
    | some _ => true
    | none => clearCalls tags behind (c.outcome tags behind sc).sc cs

theorem clear_of_clearCalls (sc : Sc) (done : List PolicyCall) (c : PolicyCall)
    (rest : List PolicyCall) (h : clearCalls tags behind sc (done ++ c::rest) = true)
    (hexit : (runCalls tags behind sc done).exit = none) :
    c.Clear (runCalls tags behind sc done).sc := by
  induction done generalizing sc with
  | nil =>
    simp only [List.nil_append,clearCalls,Bool.and_eq_true,decide_eq_true_eq] at h
    exact h.1
  | cons d done ih =>
    obtain ⟨hd,hdone⟩ := runCalls_exit_cons.mp hexit
    simp only [List.cons_append,clearCalls,hd,Bool.and_eq_true] at h
    rw [runCalls_sc_cons hd]
    exact ih _ h.2 hdone

def oneTag : List Tag := [⟨1,0x21000000,0x21000000,40960⟩]

def smallPolicy : List PolicyCall := [.memAdd 1 3,.fdAdd 3 1,.sysAdd 2,.sysAdd 127]

theorem tables_exact_iff_smallPolicy : TablesExact oneTag [] smallPolicy 127 := by
  apply (tables_exact_iff oneTag [] smallPolicy 127 ?_).mpr
  · refine ⟨?_,fun _ => by decide⟩
    rintro c sc ⟨done,rest,heq,hexit,rfl⟩
    have hclear : clearCalls oneTag [] scInit smallPolicy = true := by decide +kernel
    exact clear_of_clearCalls scInit done c rest (heq ▸ hclear) hexit
  · intro c hc
    have htag : findTag oneTag 1 = some ⟨1,0x21000000,0x21000000,40960⟩ := by decide
    fin_cases hc
    · exact ⟨by decide,_,htag,by decide⟩
    · exact ⟨by decide,by decide⟩
    · trivial
    · trivial

def nineDescriptors : List PolicyCall := List.replicate 9 (.fdAdd 3 1)

/-- The ninth descriptor makes the scan read past its table, number 128 is stored past the
bit set, number −1 is accepted and grants 7, and once 2 has been added −6 is granted. -/
theorem tables_overrun :
    (Access.fd 8 ∈ (runCalls [] [] scInit nineDescriptors).accesses ∧
      ¬TablesExact [] [] nineDescriptors 5) ∧
    (Access.sys 16 ∈ (runCalls [] [] scInit [.sysAdd 128]).accesses ∧
      ¬TablesExact [] [] [.sysAdd 128] 5) ∧
    (canDoSys (policyThread (runCalls [] [] scInit [.sysAdd (-1)]).sc) 7 = .ok true ∧
      ¬TablesExact [] [] [.sysAdd (-1)] 7) ∧
    (canDoSys (policyThread (runCalls [] [] scInit [.sysAdd 2]).sc) (-6) = .ok true ∧
      ¬TablesExact [] [] [.sysAdd 2] (-6)) := by
  have hfd : Access.fd 8 ∈ (runCalls [] [] scInit nineDescriptors).accesses := by decide +kernel
  have hsys : Access.sys 16 ∈ (runCalls [] [] scInit [.sysAdd 128]).accesses := by decide +kernel
  have hseven : canDoSys (policyThread (runCalls [] [] scInit [.sysAdd (-1)]).sc) 7 = .ok true := rfl
  have hsix : canDoSys (policyThread (runCalls [] [] scInit [.sysAdd 2]).sc) (-6) = .ok true := rfl
  refine ⟨⟨hfd,fun h => ?_⟩,⟨hsys,fun h => ?_⟩,⟨hseven,fun h => ?_⟩,hsix,fun h => ?_⟩
  · exact absurd (h.inBounds _ hfd) (by decide)
  · exact absurd (h.inBounds _ hsys) (by decide)
  · exact absurd (((h.answers rfl).2 _ rfl).mp hseven) (by decide)
  · exact absurd (((h.answers rfl).2 _ rfl).mp hsix) (by decide)

end Samples

end Sthreads
end VmplApps

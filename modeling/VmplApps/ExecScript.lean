import VmplApps.InitialStack
import VmplApps.SandboxAccesses

/-! How `exec_execev` reads the start of a program file. The page it reads into is part of
the state, every index that is used on it is recorded, and three scans share one index over
the first line of a script. -/
namespace VmplApps
namespace ExecScript

open SandboxAccesses
open InitialStack (StringAt)

/-- The page on the stack, with whatever lies behind it, and the indices used on it. -/
structure Buffer where
  page : ℕ → Byte
  used : List ℕ := []

def Buffer.Inside (s : Buffer) : Prop := ∀ i ∈ s.used, i < EXECPGSIZE

abbrev Scan := StateM Buffer

def readAt (i : ℕ) : Scan Byte := fun s => (s.page i,{s with used := i::s.used})

def writeAt (i : ℕ) (b : Byte) : Scan Unit := fun s =>
  ((),⟨Function.update s.page i b,i::s.used⟩)

/-- `page[i] == b`. -/
def holds (i : ℕ) (b : Byte) : Scan Bool := do return (← readAt i) == b

def both (p q : Scan Bool) : Scan Bool := do if ← p then q else pure false

def either (p q : Scan Bool) : Scan Bool := do if ← p then pure true else q

/-- A loop over `i` that breaks where a test holds, with `n` rounds left. -/
def seekFrom (stop : Byte → Bool) : ℕ → ℕ → Scan ℕ
  | i, 0 => pure i
  | i, n+1 => do
    if stop (← readAt i) then pure i else seekFrom stop (i+1) n

def newline : Byte := 0x0a

def endsBlanks (b : Byte) : Bool := !ExecFile.isBlank b
def endsInterp (b : Byte) : Bool := ExecFile.isBlank b || b == newline || b == 0
def endsLine (b : Byte) : Bool := b == newline || b == 0

/-- The strings in the page that are passed on: the interpreter and, if there is one, its
argument. -/
structure Strings where
  interpBegin : ℕ
  argBegin : Option ℕ
  deriving DecidableEq, Repr

/-- What follows the two loops that find the interpreter; `none` is the return of
`-ENOEXEC`. -/
def takeStrings (interpBegin interpEnd : ℕ) : Scan (Option Strings) := do
  if interpBegin = interpEnd then pure none
  else if ← holds interpBegin 0 then pure none
  else if ← holds interpEnd newline then
    writeAt interpEnd 0
    pure (some ⟨interpBegin,none⟩)
  else
    let argEnd ← seekFrom endsLine interpEnd (EXECPGSIZE - interpEnd)
    writeAt argEnd 0
    writeAt interpEnd 0
    pure (some ⟨interpBegin,some (interpEnd+1)⟩)

def parseScript : Scan (Option Strings) := do
  let interpBegin ← seekFrom endsBlanks 2 (EXECPGSIZE - 2)
  let interpEnd ← seekFrom endsInterp interpBegin (EXECPGSIZE - interpBegin)
  takeStrings interpBegin interpEnd

inductive Plan
  | refused
  | elf
  | script (strings : Option Strings)
  deriving DecidableEq, Repr

def elfTest : Scan Bool :=
  both (holds 0 0x7f) (both (holds 1 0x45) (both (holds 2 0x4c) (holds 3 0x46)))

/-- `page[0] == '#' || page[1] == '!'`. -/
def scriptTest : Scan Bool := either (holds 0 0x23) (holds 1 0x21)

/-- `if (len < EXECPGSIZE) page[len] = 0`. -/
def terminate (len : ℤ) : Scan Unit :=
  if len < EXECPGSIZE then writeAt len.toNat 0 else pure ()

/-- `exec_execev` from the `read` that returned `len` on. -/
def execPlan (len : ℤ) : Scan Plan := do
  if len < 2 then pure .refused
  else
    terminate len
    if ← elfTest then pure .elf
    else if ← scriptTest then return .script (← parseScript)
    else pure .refused

section FirstStop
variable {page : ℕ → Byte} {stop : Byte → Bool}

theorem le_firstStop (i n : ℕ) : i ≤ firstStop page stop i n := by
  induction n generalizing i with
  | zero => rfl
  | succ n ih =>
    rw [firstStop]
    split_ifs
    · rfl
    · exact le_trans (Nat.le_succ i) (ih (i+1))

theorem firstStop_le (i n : ℕ) : firstStop page stop i n ≤ i + n := by
  induction n generalizing i with
  | zero => rfl
  | succ n ih =>
    rw [firstStop]
    split_ifs
    · omega
    · have := ih (i+1)
      omega

theorem not_stop_before {i n j : ℕ} (hi : i ≤ j) (hj : j < firstStop page stop i n) :
    stop (page j) = false := by
  induction n generalizing i with
  | zero => exact absurd hj (Nat.not_lt.mpr hi)
  | succ n ih =>
    rw [firstStop] at hj
    split_ifs at hj with hstop
    · exact absurd hj (Nat.not_lt.mpr hi)
    · by_cases hij : i = j
      · rw [← hij]
        exact Bool.eq_false_iff.mpr hstop
      · exact ih (by omega) hj

theorem stop_at {i n : ℕ} (h : firstStop page stop i n < i + n) :
    stop (page (firstStop page stop i n)) = true := by
  induction n generalizing i with
  | zero => exact absurd h (lt_irrefl i)
  | succ n ih =>
    rw [firstStop] at h ⊢
    split_ifs with hstop
    · exact hstop
    · rw [if_neg hstop] at h
      exact ih (by omega)

theorem firstStop_eq {i n j : ℕ} (hi : i ≤ j) (hj : j < i + n) (hstop : stop (page j) = true)
    (hbefore : ∀ k, i ≤ k → k < j → stop (page k) = false) : firstStop page stop i n = j := by
  apply le_antisymm
  · by_contra hlt
    have hno := not_stop_before hi (not_le.mp hlt)
    rw [hstop] at hno
    cases hno
  · by_contra hlt
    rw [not_le] at hlt
    have hat : stop (page (firstStop page stop i n)) = true := stop_at (lt_trans hlt hj)
    rw [hbefore _ (le_firstStop i n) hlt] at hat
    cases hat

theorem firstStop_none {i n : ℕ} (h : ∀ k, i ≤ k → k < i + n → stop (page k) = false) :
    firstStop page stop i n = i + n := by
  apply le_antisymm (firstStop_le i n)
  by_contra hlt
  rw [not_le] at hlt
  have hat := stop_at hlt
  rw [h _ (le_firstStop i n) hlt] at hat
  cases hat

end FirstStop

/-- A piece of the scan that only reads, inside the page, and gives a value of it. -/
structure Peeks {α : Type} (x : Scan α) (v : (ℕ → Byte) → α) : Prop where
  value : ∀ s, (x s).1 = v s.page
  page : ∀ s, (x s).2.page = s.page
  inside : ∀ s, (x s).2.Inside ↔ s.Inside

section Peeks
variable {p q : Scan Bool} {v w : (ℕ → Byte) → Bool}

theorem inside_cons {page : ℕ → Byte} {used : List ℕ} {i : ℕ} :
    (⟨page,i::used⟩ : Buffer).Inside ↔ i < EXECPGSIZE ∧ (⟨page,used⟩ : Buffer).Inside :=
  List.forall_mem_cons

theorem peeks_holds {i : ℕ} (hi : i < EXECPGSIZE) (b : Byte) :
    Peeks (holds i b) fun page => page i == b :=
  ⟨fun _ => rfl,fun _ => rfl,fun _ => inside_cons.trans (and_iff_right hi)⟩

theorem Peeks.both (hp : Peeks p v) (hq : Peeks q w) :
    Peeks (both p q) fun page => v page && w page := by
  have heq (s : Buffer) : ExecScript.both p q s = if v s.page then q (p s).2 else (false,(p s).2) := by
    rw [← hp.value]
    change (if (p s).1 = true then q else pure false) (p s).2 = _
    split_ifs <;> rfl
  refine ⟨fun s => ?_,fun s => ?_,fun s => ?_⟩ <;> rw [heq] <;> split_ifs with hv
  · rw [hq.value,hp.page,hv,Bool.true_and]
  · rw [Bool.eq_false_iff.mpr hv,Bool.false_and]
  · rw [hq.page,hp.page]
  · rw [hp.page]
  · rw [hq.inside,hp.inside]
  · rw [hp.inside]

theorem Peeks.either (hp : Peeks p v) (hq : Peeks q w) :
    Peeks (either p q) fun page => v page || w page := by
  have heq (s : Buffer) : ExecScript.either p q s = if v s.page then (true,(p s).2) else q (p s).2 := by
    rw [← hp.value]
    change (if (p s).1 = true then pure true else q) (p s).2 = _
    split_ifs <;> rfl
  refine ⟨fun s => ?_,fun s => ?_,fun s => ?_⟩ <;> rw [heq] <;> split_ifs with hv
  · rw [hv,Bool.true_or]
  · rw [hq.value,hp.page,Bool.eq_false_iff.mpr hv,Bool.false_or]
  · rw [hp.page]
  · rw [hq.page,hp.page]
  · rw [hp.inside]
  · rw [hq.inside,hp.inside]

theorem peeks_seekFrom (stop : Byte → Bool) {i n : ℕ} (h : i + n ≤ EXECPGSIZE) :
    Peeks (seekFrom stop i n) fun page => firstStop page stop i n := by
  induction n generalizing i with
  | zero => exact ⟨fun _ => rfl,fun _ => rfl,fun _ => Iff.rfl⟩
  | succ n ih =>
    have hrest := ih (i := i+1) (by omega)
    have hread (s : Buffer) : Buffer.Inside {s with used := i::s.used} ↔ s.Inside :=
      inside_cons.trans (and_iff_right (by omega))
    have heq (s : Buffer) : seekFrom stop i (n+1) s =
        if stop (s.page i) then (i,{s with used := i::s.used})
        else seekFrom stop (i+1) n {s with used := i::s.used} := by
      change (if stop (s.page i) = true then pure i else seekFrom stop (i+1) n)
        {s with used := i::s.used} = _
      split_ifs <;> rfl
    refine ⟨fun s => ?_,fun s => ?_,fun s => ?_⟩ <;> rw [heq] <;> split_ifs with hstop
    · rw [firstStop,if_pos hstop]
    · rw [firstStop,if_neg hstop,hrest.value]
    · rfl
    · rw [hrest.page]
    · exact hread s
    · rw [hrest.inside,hread]

end Peeks

theorem Peeks.step {α : Type} {x : Scan α} {v : (ℕ → Byte) → α} (hx : Peeks x v) (s : Buffer) :
    ∃ s' : Buffer, x s = (v s.page,s') ∧ s'.page = s.page ∧ (s'.Inside ↔ s.Inside) :=
  ⟨(x s).2,Prod.ext (hx.value s) rfl,hx.page s,hx.inside s⟩

theorem bind_eq {α β : Type} {x : Scan α} {k : α → Scan β} {a : α} {s s' : Buffer}
    (h : x s = (a,s')) : (x >>= k) s = k a s' := by
  change k (x s).1 (x s).2 = _
  rw [h]

section Positions
variable (text : ℕ → Byte)

def interpBegin : ℕ := firstStop text endsBlanks 2 (EXECPGSIZE - 2)

def interpEnd : ℕ := firstStop text endsInterp (interpBegin text) (EXECPGSIZE - interpBegin text)

def argEnd : ℕ := firstStop text endsLine (interpEnd text) (EXECPGSIZE - interpEnd text)

theorem interpBegin_le : interpBegin text ≤ EXECPGSIZE := firstStop_le 2 (EXECPGSIZE - 2)

theorem begin_le_end : interpBegin text ≤ interpEnd text := le_firstStop _ _

theorem interpEnd_le : interpEnd text ≤ EXECPGSIZE := by
  have hend : interpEnd text ≤ interpBegin text + (EXECPGSIZE - interpBegin text) := firstStop_le _ _
  have hbegin := interpBegin_le text
  omega

theorem end_le_argEnd : interpEnd text ≤ argEnd text := le_firstStop _ _

variable {text}

theorem interp_byte {j : ℕ} (hlo : interpBegin text ≤ j) (hhi : j < interpEnd text) :
    endsInterp (text j) = false := not_stop_before hlo hhi

theorem interpEnd_stop (h : interpEnd text < EXECPGSIZE) :
    endsInterp (text (interpEnd text)) = true := by
  have hbegin := interpBegin_le text
  have hroom : interpEnd text < interpBegin text + (EXECPGSIZE - interpBegin text) := by omega
  exact stop_at hroom

def cutPage (text : ℕ → Byte) : ℕ → Byte :=
  Function.update (Function.update text (argEnd text) 0) (interpEnd text) 0

theorem cutPage_interpEnd (text : ℕ → Byte) : cutPage text (interpEnd text) = 0 :=
  Function.update_self _ _ _

theorem cutPage_argEnd (text : ℕ → Byte) : cutPage text (argEnd text) = 0 := by
  by_cases heq : argEnd text = interpEnd text
  · rw [heq]
    exact cutPage_interpEnd text
  · rw [cutPage,Function.update_of_ne heq,Function.update_self]

theorem cutPage_of_ne {text : ℕ → Byte} {j : ℕ} (he : j ≠ interpEnd text) (ha : j ≠ argEnd text) :
    cutPage text j = text j := by
  rw [cutPage,Function.update_of_ne he,Function.update_of_ne ha]

theorem begin_ne_zero (hlt : interpBegin text < interpEnd text) : text (interpBegin text) ≠ 0 := by
  intro hzero
  have hbyte := interp_byte le_rfl hlt
  rw [hzero] at hbyte
  cases hbyte

end Positions

section Parsing
variable {s : Buffer}

theorem parseScript_seeks (s : Buffer) : ∃ s' : Buffer, s'.page = s.page ∧
    (s'.Inside ↔ s.Inside) ∧
    parseScript s = takeStrings (interpBegin s.page) (interpEnd s.page) s' := by
  have hfirst := peeks_seekFrom endsBlanks (show 2 + (EXECPGSIZE - 2) ≤ EXECPGSIZE by decide)
  have hbegin := interpBegin_le s.page
  have hsecond := peeks_seekFrom endsInterp
    (show interpBegin s.page + (EXECPGSIZE - interpBegin s.page) ≤ EXECPGSIZE by omega)
  obtain ⟨s₁,h₁,hp₁,hi₁⟩ := hfirst.step s
  obtain ⟨s₂,h₂,hp₂,hi₂⟩ := hsecond.step s₁
  refine ⟨s₂,hp₂.trans hp₁,hi₂.trans hi₁,?_⟩
  rw [hp₁] at h₂
  rw [parseScript,bind_eq h₁]
  exact bind_eq h₂

section Take
variable {b e : ℕ}

theorem takeStrings_nonempty (hlt : b < e) (he : e ≤ EXECPGSIZE) (hbyte : s.page b ≠ 0) :
    ∃ s' : Buffer, s'.page = s.page ∧ (s'.Inside ↔ e < EXECPGSIZE ∧ s.Inside) ∧
      takeStrings b e s = (if s.page e == newline then do
          writeAt e 0
          pure (some ⟨b,none⟩)
        else do
          let argEnd ← seekFrom endsLine e (EXECPGSIZE - e)
          writeAt argEnd 0
          writeAt e 0
          pure (some ⟨b,some (e+1)⟩) : Scan (Option Strings)) s' := by
  obtain ⟨s₁,h₁,hp₁,hi₁⟩ := (peeks_holds (lt_of_lt_of_le hlt he) 0).step s
  have hno : (s.page b == 0) = false := beq_eq_false_iff_ne.mpr hbyte
  have hread : holds e newline s₁ = (s₁.page e == newline,⟨s₁.page,e::s₁.used⟩) := rfl
  refine ⟨⟨s₁.page,e::s₁.used⟩,hp₁,inside_cons.trans (and_congr_right fun _ => hi₁),?_⟩
  rw [takeStrings,if_neg hlt.ne,bind_eq h₁]
  simp only [hno,Bool.false_eq_true,if_false]
  rw [bind_eq hread,hp₁]

theorem takeStrings_newline (hlt : b < e) (he : e ≤ EXECPGSIZE) (hbyte : s.page b ≠ 0)
    (hnl : s.page e = newline) : ∃ s' : Buffer, takeStrings b e s = (some ⟨b,none⟩,s') ∧
      s'.page = Function.update s.page e 0 ∧ (s'.Inside ↔ e < EXECPGSIZE ∧ s.Inside) := by
  obtain ⟨s₁,hp₁,hi₁,heq⟩ := takeStrings_nonempty hlt he hbyte
  refine ⟨⟨Function.update s₁.page e 0,e::s₁.used⟩,?_,by rw [hp₁],?_⟩
  · rw [heq,hnl]
    rfl
  · rw [inside_cons]
    exact (and_congr_right fun _ => hi₁).trans and_self_left

theorem takeStrings_args (hlt : b < e) (he : e ≤ EXECPGSIZE) (hbyte : s.page b ≠ 0)
    (hnl : s.page e ≠ newline) : ∃ s' : Buffer, takeStrings b e s = (some ⟨b,some (e+1)⟩,s') ∧
      s'.page = Function.update
        (Function.update s.page (firstStop s.page endsLine e (EXECPGSIZE - e)) 0) e 0 ∧
      (s'.Inside ↔ firstStop s.page endsLine e (EXECPGSIZE - e) < EXECPGSIZE ∧ s.Inside) := by
  obtain ⟨s₁,hp₁,hi₁,heq⟩ := takeStrings_nonempty hlt he hbyte
  obtain ⟨s₂,h₂,hp₂,hi₂⟩ := (peeks_seekFrom endsLine
    (show e + (EXECPGSIZE - e) ≤ EXECPGSIZE by omega)).step s₁
  rw [hp₁] at h₂ hp₂
  have hle : e ≤ firstStop s.page endsLine e (EXECPGSIZE - e) := le_firstStop _ _
  refine ⟨⟨Function.update (Function.update s₂.page _ 0) e 0,
    e::firstStop s.page endsLine e (EXECPGSIZE - e)::s₂.used⟩,?_,by rw [hp₂],?_⟩
  · rw [heq,beq_eq_false_iff_ne.mpr hnl]
    exact bind_eq h₂
  · rw [inside_cons,inside_cons]
    change _ ∧ _ ∧ s₂.Inside ↔ _
    rw [hi₂,hi₁]
    exact ⟨fun h => ⟨h.2.1,h.2.2.2⟩,fun h => ⟨by omega,h.1,by omega,h.2⟩⟩

end Take

/-- The three ways through the first line: no interpreter, an interpreter alone, and an
interpreter with something behind it. -/
theorem parseScript_cases (s : Buffer) :
    (interpBegin s.page = interpEnd s.page ∧ (parseScript s).1 = none ∧
      ((parseScript s).2.Inside ↔ s.Inside)) ∨
    (interpBegin s.page < interpEnd s.page ∧ s.page (interpEnd s.page) = newline ∧
      (parseScript s).1 = some ⟨interpBegin s.page,none⟩ ∧
      (parseScript s).2.page = Function.update s.page (interpEnd s.page) 0 ∧
      ((parseScript s).2.Inside ↔ interpEnd s.page < EXECPGSIZE ∧ s.Inside)) ∨
    (interpBegin s.page < interpEnd s.page ∧ s.page (interpEnd s.page) ≠ newline ∧
      (parseScript s).1 = some ⟨interpBegin s.page,some (interpEnd s.page + 1)⟩ ∧
      (parseScript s).2.page = cutPage s.page ∧
      ((parseScript s).2.Inside ↔ argEnd s.page < EXECPGSIZE ∧ s.Inside)) := by
  obtain ⟨s₁,hp₁,hi₁,heq⟩ := parseScript_seeks s
  have hend := interpEnd_le s.page
  rcases eq_or_lt_of_le (begin_le_end s.page) with hbe | hlt
  · rw [heq,takeStrings,if_pos hbe]
    exact .inl ⟨hbe,rfl,hi₁⟩
  · have hbyte : s₁.page (interpBegin s.page) ≠ 0 := by
      rw [hp₁]
      exact begin_ne_zero hlt
    by_cases hnl : s.page (interpEnd s.page) = newline
    · obtain ⟨s₂,hrun,hp₂,hi₂⟩ := takeStrings_newline hlt hend hbyte (by rw [hp₁,hnl])
      rw [heq,hrun]
      exact .inr (.inl ⟨hlt,hnl,rfl,by rw [hp₂,hp₁],by rw [hi₂,hi₁]⟩)
    · obtain ⟨s₂,hrun,hp₂,hi₂⟩ := takeStrings_args hlt hend hbyte (by rw [hp₁]; exact hnl)
      rw [hp₁] at hp₂ hi₂
      rw [heq,hrun]
      exact .inr (.inr ⟨hlt,hnl,rfl,hp₂,by rw [hi₂,hi₁]; rfl⟩)

end Parsing

section Running
variable (f : ExecFile)

theorem text_of_len {f : ExecFile} (h2 : 0 ≤ f.len) (hlt : f.len < EXECPGSIZE) :
    Function.update f.page f.len.toNat 0 = f.text := by
  funext i
  rw [ExecFile.text,Function.update_apply]
  congr 1
  exact propext ⟨fun h => ⟨hlt,by omega⟩,fun h => by omega⟩

theorem text_of_full {f : ExecFile} (h : ¬f.len < EXECPGSIZE) : f.text = f.page := by
  funext i
  rw [ExecFile.text,if_neg (fun hlt => h hlt.1)]

theorem peeks_elfTest : Peeks elfTest fun page =>
    page 0 == 0x7f && (page 1 == 0x45 && (page 2 == 0x4c && page 3 == 0x46)) :=
  (peeks_holds (by decide) _).both ((peeks_holds (by decide) _).both
    ((peeks_holds (by decide) _).both (peeks_holds (by decide) _)))

theorem peeks_scriptTest : Peeks scriptTest fun page => page 0 == 0x23 || page 1 == 0x21 :=
  (peeks_holds (by decide) _).either (peeks_holds (by decide) _)

theorem execPlan_run (h2 : 2 ≤ f.len) : ∃ s : Buffer, s.page = f.text ∧ s.Inside ∧
    execPlan f.len ⟨f.page,[]⟩ =
      if f.isElf then (.elf,s)
      else if f.isScript then (.script (parseScript s).1,(parseScript s).2)
      else (.refused,s) := by
  obtain ⟨s₀,h₀,hp₀,hi₀⟩ : ∃ s₀ : Buffer, terminate f.len ⟨f.page,[]⟩ = ((),s₀) ∧
      s₀.page = f.text ∧ s₀.Inside := by
    rw [terminate]
    split_ifs with hlt
    · refine ⟨_,rfl,text_of_len (by omega) hlt,?_⟩
      exact inside_cons.mpr ⟨by omega,by simp [Buffer.Inside]⟩
    · exact ⟨_,rfl,(text_of_full hlt).symm,by simp [Buffer.Inside]⟩
  obtain ⟨s₁,h₁,hp₁,hi₁⟩ := peeks_elfTest.step s₀
  obtain ⟨s₂,h₂,hp₂,hi₂⟩ := peeks_scriptTest.step s₁
  have helf : (s₀.page 0 == 0x7f && (s₀.page 1 == 0x45 && (s₀.page 2 == 0x4c &&
      s₀.page 3 == 0x46))) = f.isElf := by
    rw [hp₀,ExecFile.isElf,Bool.and_assoc,Bool.and_assoc]
  have hscript : (s₁.page 0 == 0x23 || s₁.page 1 == 0x21) = f.isScript := by
    rw [hp₁,hp₀,ExecFile.isScript]
  rw [helf] at h₁
  rw [hscript] at h₂
  rw [execPlan,if_neg (by omega),bind_eq h₀,bind_eq h₁]
  cases f.isElf with
  | true => exact ⟨s₁,hp₁.trans hp₀,hi₁.mpr hi₀,rfl⟩
  | false =>
    refine ⟨s₂,hp₂.trans (hp₁.trans hp₀),hi₂.mpr (hi₁.mpr hi₀),?_⟩
    simp only [Bool.false_eq_true,if_false]
    rw [bind_eq h₂]
    cases f.isScript <;> rfl

theorem namesInterpreter_iff :
    f.namesInterpreter = true ↔ interpBegin f.text < interpEnd f.text := by
  have hle := begin_le_end f.text
  change (!(interpBegin f.text == interpEnd f.text || f.text (interpBegin f.text) == 0)) = true ↔ _
  simp only [Bool.not_eq_true',Bool.or_eq_false_iff,beq_eq_false_iff_ne]
  exact ⟨fun h => lt_of_le_of_ne hle h.1,fun h => ⟨h.ne,begin_ne_zero h⟩⟩

/-- The plan is the one along which the memory accesses of `exec_execev` are listed. -/
theorem execPlan_kind (h2 : 2 ≤ f.len) : match (execPlan f.len ⟨f.page,[]⟩).1 with
    | .elf => f.isElf = true
    | .script strings =>
      f.isElf = false ∧ f.isScript = true ∧ (strings.isSome = true ↔ f.namesInterpreter = true)
    | .refused => f.isElf = false ∧ f.isScript = false := by
  obtain ⟨s,hpage,-,heq⟩ := execPlan_run f h2
  rw [heq]
  cases helf : f.isElf with
  | true => rfl
  | false =>
    cases hscript : f.isScript with
    | false => exact ⟨rfl,rfl⟩
    | true =>
      refine ⟨rfl,rfl,?_⟩
      rw [namesInterpreter_iff,← hpage]
      rcases parseScript_cases s with ⟨hbe,hnone,-⟩ | ⟨hlt,-,hsome,-⟩ | ⟨hlt,-,hsome,-⟩
      · rw [hnone,hbe]
        simp
      · rw [hsome]
        simp [hlt]
      · rw [hsome]
        simp [hlt]

end Running

def Plan.starts : Plan → List ℕ
  | .script (some strings) => strings.interpBegin::strings.argBegin.toList
  | _ => []

/-- A string ends inside the page and is made of bytes that were read. -/
def Terminated (f : ExecFile) (page : ℕ → Byte) (start : ℕ) : Prop :=
  start < EXECPGSIZE ∧ ∃ z, start ≤ z ∧ z < EXECPGSIZE ∧ page z = 0 ∧
    ∀ j, start ≤ j → j < z → page j ≠ 0 ∧ (j : ℤ) < f.len

def StaysInside (f : ExecFile) : Prop :=
  (execPlan f.len ⟨f.page,[]⟩).2.Inside ∧
    ∀ start ∈ (execPlan f.len ⟨f.page,[]⟩).1.starts,
      Terminated f (execPlan f.len ⟨f.page,[]⟩).2.page start

/-- What stands behind an interpreter that a terminator ends: at the end of the file
another terminator, which is then not part of the file; inside the file any terminator,
for which a full page has to provide. -/
def Closed (f : ExecFile) (e : ℕ) : Prop :=
  ((e : ℤ) = f.len → e + 1 < EXECPGSIZE ∧ f.text (e+1) = 0) ∧
    (f.len = EXECPGSIZE → ∃ z, e < z ∧ z < EXECPGSIZE ∧ f.text z = 0)

/-- The page holds a whole first line: the interpreter ends inside the page, with a newline,
with a blank and a line that ends inside the page, or with a terminator that is followed by
another one. -/
def HoldsLine (f : ExecFile) : Prop :=
  interpEnd f.text < EXECPGSIZE ∧
    (f.text (interpEnd f.text) = newline ∨
      (ExecFile.isBlank (f.text (interpEnd f.text)) = true ∧ argEnd f.text < EXECPGSIZE) ∨
      (f.text (interpEnd f.text) = 0 ∧ Closed f (interpEnd f.text)))

section Staying
variable {f : ExecFile}

theorem text_len (hlt : f.len < EXECPGSIZE) {i : ℕ} (hi : (i : ℤ) = f.len) : f.text i = 0 :=
  if_pos ⟨hlt,hi⟩

theorem firstStop_le_len {stop : Byte → Bool} (hstop : stop 0 = true) {i n : ℕ}
    (hlen : f.len ≤ EXECPGSIZE) (hi : (i : ℤ) ≤ f.len) (hn : i + n ≤ EXECPGSIZE) :
    (firstStop f.text stop i n : ℤ) ≤ f.len := by
  by_contra hlt
  rw [not_le] at hlt
  have hle : firstStop f.text stop i n ≤ i + n := firstStop_le i n
  obtain ⟨k,hk⟩ := Int.eq_ofNat_of_zero_le (show 0 ≤ f.len by omega)
  have hno : stop (f.text k) = false := not_stop_before (i := i) (n := n) (by omega) (by omega)
  rw [text_len (by omega) hk.symm,hstop] at hno
  cases hno

theorem interpEnd_le_len (h2 : 2 ≤ f.len) (hlen : f.len ≤ EXECPGSIZE) :
    (interpEnd f.text : ℤ) ≤ f.len := by
  have hbegin := interpBegin_le f.text
  exact firstStop_le_len rfl hlen (firstStop_le_len rfl hlen h2 (by decide)) (by omega)

theorem argEnd_le_len (h2 : 2 ≤ f.len) (hlen : f.len ≤ EXECPGSIZE) :
    (argEnd f.text : ℤ) ≤ f.len := by
  have hend := interpEnd_le f.text
  exact firstStop_le_len rfl hlen (interpEnd_le_len h2 hlen) (by omega)

theorem terminated_of_stretch {page : ℕ → Byte} {start z : ℕ} (hz : start ≤ z)
    (hlim : z < EXECPGSIZE) (hlen : (z : ℤ) ≤ f.len) (hend : page z = 0)
    (hbytes : ∀ j, start ≤ j → j < z → page j ≠ 0) : Terminated f page start :=
  ⟨by omega,z,hz,hlim,hend,fun j hlo hhi => ⟨hbytes j hlo hhi,by omega⟩⟩

theorem interp_terminated (h2 : 2 ≤ f.len) (hlen : f.len ≤ EXECPGSIZE) {page : ℕ → Byte}
    (hin : interpEnd f.text < EXECPGSIZE) (hsame : ∀ j < interpEnd f.text, page j = f.text j)
    (hend : page (interpEnd f.text) = 0) : Terminated f page (interpBegin f.text) := by
  apply terminated_of_stretch (begin_le_end f.text) hin (interpEnd_le_len h2 hlen) hend
  intro j hlo hhi hzero
  have hbyte := interp_byte hlo hhi
  rw [← hsame j hhi,hzero] at hbyte
  cases hbyte

theorem lt_argEnd (hin : interpEnd f.text < EXECPGSIZE)
    (hblank : ExecFile.isBlank (f.text (interpEnd f.text)) = true) :
    interpEnd f.text < argEnd f.text := by
  apply lt_of_le_of_ne (end_le_argEnd f.text)
  intro heq
  have hstop : endsLine (f.text (argEnd f.text)) = true :=
    stop_at (show argEnd f.text < interpEnd f.text + (EXECPGSIZE - interpEnd f.text) by omega)
  rw [← heq] at hstop
  simp only [ExecFile.isBlank,endsLine,newline,Bool.or_eq_true,beq_iff_eq] at hblank hstop
  rcases hblank with h | h <;> rw [h] at hstop <;> revert hstop <;> decide

theorem arg_terminated (h2 : 2 ≤ f.len) (hlen : f.len ≤ EXECPGSIZE) {page : ℕ → Byte}
    (hlt : interpEnd f.text < argEnd f.text) (hin : argEnd f.text < EXECPGSIZE)
    (hsame : ∀ j, interpEnd f.text < j → j < argEnd f.text → page j = f.text j)
    (hend : page (argEnd f.text) = 0) : Terminated f page (interpEnd f.text + 1) := by
  apply terminated_of_stretch hlt hin (argEnd_le_len h2 hlen) hend
  intro j hlo hhi hzero
  have hbyte : endsLine (f.text j) = false := not_stop_before (Nat.le_of_succ_le hlo) hhi
  rw [← hsame j hlo hhi,hzero] at hbyte
  cases hbyte

theorem terminated_iff_closed (hlen : f.len ≤ EXECPGSIZE) {e : ℕ} (hle : (e : ℤ) ≤ f.len) : Terminated f f.text (e+1) ↔ Closed f e := by
  constructor
  · rintro ⟨hlt,z,hz,hlim,hend,hbytes⟩
    refine ⟨fun heq => ⟨hlt,?_⟩,fun _ => ⟨z,hz,hlim,hend⟩⟩
    rcases Nat.lt_or_eq_of_le hz with hgap | rfl
    · have hread := (hbytes (e+1) le_rfl hgap).2
      omega
    · exact hend
  · rintro ⟨hfile,hfull⟩
    rcases eq_or_lt_of_le hle with heq | hlt
    · obtain ⟨hroom,hend⟩ := hfile heq
      exact ⟨hroom,e+1,le_rfl,hroom,hend,fun j hlo hhi => absurd hhi (Nat.not_lt.mpr hlo)⟩
    · -- inside the file, the first terminator behind `e` ends the string
      obtain ⟨k,hk⟩ := Int.eq_ofNat_of_zero_le (show 0 ≤ f.len by omega)
      have hexists : ∃ z, e < z ∧ z < EXECPGSIZE ∧ (z : ℤ) ≤ f.len ∧ f.text z = 0 := by
        by_cases hshort : f.len < EXECPGSIZE
        · exact ⟨k,by omega,by omega,by omega,text_len hshort hk.symm⟩
        · obtain ⟨z,hz,hlim,hend⟩ := hfull (by omega)
          exact ⟨z,hz,hlim,by omega,hend⟩
      classical
      obtain ⟨hz,hlim,hread,hend⟩ := Nat.find_spec hexists
      apply terminated_of_stretch hz hlim hread hend
      intro j hlo hhi hzero
      exact Nat.find_min hexists hhi ⟨hlo,by omega,by omega,hzero⟩

theorem argEnd_of_zero (hin : interpEnd f.text < EXECPGSIZE)
    (hzero : f.text (interpEnd f.text) = 0) : argEnd f.text = interpEnd f.text := by
  apply firstStop_eq le_rfl (by omega)
  · rw [hzero]
    rfl
  · intro k hlo hhi
    omega

theorem args_stay_iff (h2 : 2 ≤ f.len) (hlen : f.len ≤ EXECPGSIZE)
    (hnl : f.text (interpEnd f.text) ≠ newline) :
    (argEnd f.text < EXECPGSIZE ∧ Terminated f (cutPage f.text) (interpBegin f.text) ∧
      Terminated f (cutPage f.text) (interpEnd f.text + 1)) ↔ HoldsLine f := by
  have hle := end_le_argEnd f.text
  have hread := interpEnd_le_len h2 hlen
  have hinterp (hin : interpEnd f.text < EXECPGSIZE) :
      Terminated f (cutPage f.text) (interpBegin f.text) :=
    interp_terminated h2 hlen hin (fun j hj => cutPage_of_ne (by omega) (by omega))
      (cutPage_interpEnd f.text)
  have hcut (hin : interpEnd f.text < EXECPGSIZE) (hzero : f.text (interpEnd f.text) = 0) :
      cutPage f.text = f.text := by
    rw [cutPage,argEnd_of_zero hin hzero,← hzero,Function.update_eq_self,Function.update_eq_self]
  constructor
  · rintro ⟨hin,-,harg⟩
    have hend : interpEnd f.text < EXECPGSIZE := by omega
    have hstop := interpEnd_stop hend
    refine ⟨hend,.inr ?_⟩
    rw [endsInterp,Bool.or_eq_true,Bool.or_eq_true,beq_iff_eq,beq_iff_eq] at hstop
    rcases hstop with (hblank | hnl') | hzero
    · exact .inl ⟨hblank,hin⟩
    · exact absurd hnl' hnl
    · rw [hcut hend hzero] at harg
      exact .inr ⟨hzero,(terminated_iff_closed hlen hread).mp harg⟩
  · rintro ⟨hend,hnl' | ⟨hblank,hin⟩ | ⟨hzero,hclosed⟩⟩
    · exact absurd hnl' hnl
    · refine ⟨hin,hinterp hend,?_⟩
      exact arg_terminated h2 hlen (lt_argEnd hend hblank) hin
        (fun j hlo hhi => cutPage_of_ne (by omega) (by omega)) (cutPage_argEnd f.text)
    · refine ⟨by rw [argEnd_of_zero hend hzero]; exact hend,hinterp hend,?_⟩
      rw [hcut hend hzero]
      exact (terminated_iff_closed hlen hread).mpr hclosed

/-- The first line of a script is read inside the page exactly when it names no interpreter
or the page holds it. -/
theorem parseScript_stays (h2 : 2 ≤ f.len) (hlen : f.len ≤ EXECPGSIZE) {s : Buffer}
    (hpage : s.page = f.text) (hin : s.Inside) :
    ((parseScript s).2.Inside ∧ ∀ start ∈ (Plan.script (parseScript s).1).starts,
      Terminated f (parseScript s).2.page start) ↔
      (interpBegin f.text = interpEnd f.text ∨ HoldsLine f) := by
  have hcases := parseScript_cases s
  rw [hpage] at hcases
  rcases hcases with ⟨hbe,hnone,hi⟩ | ⟨hlt,hnl,hstrings,hp,hi⟩ | ⟨hlt,hnl,hstrings,hp,hi⟩
  · rw [hnone,hi]
    exact iff_of_true ⟨hin,by simp [Plan.starts]⟩ (.inl hbe)
  · rw [hstrings,hi,hp,and_iff_left hin,or_iff_right hlt.ne]
    refine ⟨fun h => ⟨h.1,.inl hnl⟩,fun h => ⟨h.1,?_⟩⟩
    simp only [Plan.starts,Option.toList_none,List.mem_singleton,forall_eq]
    apply interp_terminated h2 hlen h.1
    · intro j hj
      exact Function.update_of_ne hj.ne _ _
    · exact Function.update_self _ _ _
  · rw [hstrings,hi,hp,and_iff_left hin,or_iff_right hlt.ne,← args_stay_iff h2 hlen hnl]
    simp only [Plan.starts,Option.toList_some,List.mem_cons,List.not_mem_nil,or_false,
      forall_eq_or_imp,forall_eq]

end Staying

/-- Reading a file stays inside the page, and passes on terminated strings of the file,
exactly when it is no script by the test of the source, names no interpreter, or has a
first line that the page holds. -/
theorem staysInside_iff (f : ExecFile) (h2 : 2 ≤ f.len) (hlen : f.len ≤ EXECPGSIZE) :
    StaysInside f ↔ f.isElf = true ∨ f.isScript = false ∨
      interpBegin f.text = interpEnd f.text ∨ HoldsLine f := by
  obtain ⟨s,hpage,hin,heq⟩ := execPlan_run f h2
  rw [StaysInside,heq]
  cases f.isElf with
  | true => simp [Plan.starts,hin]
  | false =>
    cases f.isScript with
    | false => simp [Plan.starts,hin]
    | true =>
      simp only [Bool.false_eq_true,if_false,if_true,false_or,Bool.true_eq_false]
      exact parseScript_stays h2 hlen hpage hin

def fullPage : ExecFile where
  opened := true
  len := 4096
  page i := if i = 0 then 0x23 else if i = 1 then 0x21 else 0x61

def shortScript : ExecFile where
  opened := true
  len := 4
  page i := if i = 0 then 0x23 else if i = 1 then 0x21 else if i = 2 then 0x61 else 0x0a

theorem staysInside_iff_shortScript : StaysInside shortScript := by
  refine (staysInside_iff shortScript (by decide) (by decide)).mpr ?_
  have hbegin : interpBegin shortScript.text = 2 := firstStop_eq le_rfl (by decide) rfl (by omega)
  have hend : interpEnd shortScript.text = 3 := by
    rw [interpEnd,hbegin]
    apply firstStop_eq (by decide) (by decide) rfl
    intro k hlo hhi
    obtain rfl : k = 2 := by omega
    rfl
  exact .inr (.inr (.inr ⟨by rw [hend]; decide,.inl (by rw [hend]; rfl)⟩))

/-- The interpreter runs to the end of the page, and the byte behind the page is read and
overwritten. -/
theorem fullPage_leaves : ¬StaysInside fullPage ∧ interpEnd fullPage.text = EXECPGSIZE := by
  have hbyte (k : ℕ) (hk : 2 ≤ k) : fullPage.text k = 0x61 := by
    rw [text_of_full (by decide)]
    simp only [fullPage]
    rw [if_neg (by omega),if_neg (by omega)]
  have hbegin : interpBegin fullPage.text = 2 :=
    firstStop_eq le_rfl (by decide) (by rw [hbyte 2 le_rfl]; rfl) (by omega)
  have hend : interpEnd fullPage.text = EXECPGSIZE := by
    rw [interpEnd,hbegin]
    apply firstStop_none
    intro k hlo hhi
    rw [hbyte k hlo]
    rfl
  refine ⟨fun h => ?_,hend⟩
  obtain ⟨s,hpage,hin,heq⟩ := execPlan_run fullPage (by decide)
  rw [StaysInside,heq,if_neg (by decide),if_pos (by decide)] at h
  rcases (parseScript_stays (by decide) (by decide) hpage hin).mp h with hempty | hline
  · rw [hbegin,hend] at hempty
    exact absurd hempty (by decide)
  · exact absurd hline.1 (by rw [hend]; exact lt_irrefl _)

end ExecScript
end VmplApps

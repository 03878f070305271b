import VmplApps.ExecArguments
import VmplApps.HostPrograms

/-! `exec_execev` from its first host call to its last. The page scan and the new
argument vector are those of `ExecScript` and `ExecArguments`; what is added is the
order of the calls, the answers they may get, and how the function ends: with an
error, with the parent's exit, or in the child that has become another program. -/
namespace VmplApps
namespace ExecFlow

open ByteMemory ExecArguments ExecScript SandboxAccesses

def ENOEXEC : CInt := 8

inductive HostCall
  | open (filename : Text)
  | read (fd : CInt)
  | close (fd : CInt)
  | fork
  | exit
  | execve (path : Text) (argv : List Text) (envp : Word)
  deriving DecidableEq, Repr

/-- `page` is the buffer as `read` leaves it, with what the stack holds behind the
data. -/
structure Reply where
  ret : CInt := 0
  errno : CInt := 0
  page : ℕ → Byte := fun _ => 0

/-- The longest string the kernel takes as an argument, `MAX_ARG_STRLEN`. -/
def maxArgStrlen : ℕ := 131072

def textFrom (m : Mem) : ℕ → ℕ → Text
  | _, 0 => []
  | a, n+1 => if m a = 0 then [] else m a::textFrom m (a+1) n

section Programs
variable {σ : Type}

/-- `fork`, and `execve` in the child. A call of `execve` that returns meets
`assert(false)`. -/
def launch (v : NewArgv) (envp : Word) : Prog σ Empty HostCall Reply CInt := do
  let status ← Prog.call .fork
  if status.ret.toInt < 0 then pure status.ret
  else if 0 < status.ret.toInt then
    let _ ← Prog.call .exit
    .halt
  else
    let _ ← Prog.call (.execve sandboxPath v.handed envp)
    .halt

/-- What follows the scan of the page. An argument count that is no `int` gets no
array. -/
def carryOut (filename : Text) (argv : List Text) (envp : Word) (junk : ℕ → Option Text)
    (plan : Plan) (page : ℕ → Byte) : Prog σ Empty HostCall Reply CInt :=
  match plan with
  | .refused | .script none => pure (-ENOEXEC)
  | .elf | .script (some _) =>
    match newArgv filename argv (fun i => textFrom page i maxArgStrlen) junk plan with
    | none => .halt
    | some v => launch v envp

/-- `exec_execev`; `junk` is what the allocated array holds before it is filled. -/
def execExecev (filename : Text) (argv : List Text) (envp : Word) (junk : ℕ → Option Text) :
    Prog σ Empty HostCall Reply CInt := do
  let fd ← Prog.call (.open filename)
  if fd.ret.toInt < 0 then pure (-fd.errno)
  else
    let len ← Prog.call (.read fd.ret)
    if len.ret.toInt < 2 then pure (-ENOEXEC)
    else
      let _ ← Prog.call (.close fd.ret)
      let scanned := execPlan len.ret.toInt ⟨len.page,[]⟩
      carryOut filename argv envp junk scanned.1 scanned.2.page

end Programs

/-- A failed `open` sets `errno` to a positive number. -/
def HostOk : HostCall → Reply → Prop
  | .open _, r => r.ret.toInt < 0 → 0 < r.errno.toInt
  | _, _ => True

/-- How the function may leave its caller behind; `argv` is the caller's vector. -/
structure Flow {σ : Type} (argv : List Text) (t : List (HostCall × Reply))
    (o : Outcome σ Empty CInt) : Prop where
  /-- Only the sandbox itself is ever executed, with the loader and the caller's
  arguments behind it. -/
  program : ∀ path argv' envp, .execve path argv' envp ∈ t.map Prod.fst →
    path = sandboxPath ∧ ∃ front, argv' = sandboxPath::ldPath::(front ++ argv)
  /-- It is executed exactly by the child of a `fork`; the parent exits. -/
  child : (∃ path argv' envp, .execve path argv' envp ∈ t.map Prod.fst) ↔
    ∃ r, (.fork,r) ∈ t ∧ r.ret.toInt = 0
  parent : .exit ∈ t.map Prod.fst ↔ ∃ r, (.fork,r) ∈ t ∧ 0 < r.ret.toInt
  /-- The caller gets nothing but errors back. -/
  failed : ∀ v s, o = .ok v s → v.toInt < 0
  /-- A descriptor that was opened stays open exactly if less than two bytes came. -/
  closed : ∀ filename r, (.open filename,r) ∈ t → 0 ≤ r.ret.toInt →
    (.close r.ret ∈ t.map Prod.fst ↔ ∃ len, (.read r.ret,len) ∈ t ∧ 2 ≤ len.ret.toInt)

section Vectors
variable {filename : Text} {argv : List Text} {page : ℕ → Text} {junk : ℕ → Option Text}

theorem newArgv_handed {plan : Plan} {v : NewArgv}
    (h : newArgv filename argv page junk plan = some v) :
    ∃ front, v.handed = sandboxPath::ldPath::(front ++ argv) := by
  cases plan with
  | refused => cases h
  | elf =>
    simp only [newArgv,build] at h
    split_ifs at h
    obtain rfl := Option.some.inj h
    refine ⟨[],?_⟩
    rw [fillElf_eq,filled_handed (by simp)]
    rfl
  | script strings =>
    cases strings with
    | none => cases h
    | some strings =>
      simp only [newArgv,build] at h
      split_ifs at h
      obtain rfl := Option.some.inj h
      have hhead : (scriptHead filename page strings).length + 1 < 7 := by
        unfold scriptHead
        cases strings.argBegin <;> simp
      rw [fillScript_eq,filled_handed (by simp only; omega)]
      exact ⟨page strings.interpBegin::((strings.argBegin.map page).toList ++ [filename]),rfl⟩

end Vectors

section Runs
variable {σ : Type} {filename : Text} {argv : List Text} {envp : Word} {junk : ℕ → Option Text}

/-- What the calls after the scan look like: a `fork`, and `exit` or `execve` by its
answer. -/
structure Tail (argv : List Text) (t : List (HostCall × Reply)) (o : Outcome σ Empty CInt) :
    Prop where
  calls : t = [] ∨ (∃ r, r.ret.toInt < 0 ∧ t = [(.fork,r)]) ∨
    (∃ r e, 0 < r.ret.toInt ∧ t = [(.fork,r),(.exit,e)]) ∨
    ∃ r e envp front, r.ret.toInt = 0 ∧
      t = [(.fork,r),(.execve sandboxPath (sandboxPath::ldPath::(front ++ argv)) envp,e)]
  failed : ∀ v s, o = .ok v s → v.toInt < 0

theorem launch_tail {v : NewArgv} {front : List Text}
    (hv : v.handed = sandboxPath::ldPath::(front ++ argv)) (s : σ) :
    Prog.wp HostOk (launch v envp) s (Tail argv) := by
  simp only [launch,Prog.wp_bind,Prog.wp_call]
  intro r _
  by_cases hneg : r.ret.toInt < 0
  · simp only [Prog.thenPost,if_pos hneg,Prog.wp_pure]
    refine ⟨.inr (.inl ⟨r,hneg,rfl⟩),fun v s h => ?_⟩
    cases h
    exact hneg
  by_cases hpos : 0 < r.ret.toInt
  · simp only [Prog.thenPost,if_neg hneg,if_pos hpos,Prog.wp_bind,Prog.wp_call,Prog.wp_halt]
    intro e _
    exact ⟨.inr (.inr (.inl ⟨r,e,hpos,rfl⟩)),by simp⟩
  · simp only [Prog.thenPost,if_neg hneg,if_neg hpos,Prog.wp_bind,Prog.wp_call,Prog.wp_halt]
    intro e _
    exact ⟨.inr (.inr (.inr ⟨r,e,envp,front,by omega,by rw [hv]; rfl⟩)),by simp⟩

theorem carryOut_tail (plan : Plan) (page : ℕ → Byte) (s : σ) :
    Prog.wp HostOk (carryOut filename argv envp junk plan page) s (Tail argv) := by
  have hrefused : Prog.wp HostOk (pure (-ENOEXEC) : Prog σ Empty HostCall Reply CInt) s (Tail argv) := by
    refine ⟨.inl rfl,fun v s h => ?_⟩
    cases h
    decide
  have hgoes (plan : Plan) : Prog.wp HostOk
      (match newArgv filename argv (fun i => textFrom page i maxArgStrlen) junk plan with
        | none => .halt
        | some v => launch v envp) s (Tail argv) := by
    cases hnew : newArgv filename argv (fun i => textFrom page i maxArgStrlen) junk plan with
    | none => exact ⟨.inl rfl,by simp⟩
    | some v =>
      obtain ⟨front,hfront⟩ := newArgv_handed hnew
      exact launch_tail hfront s
  cases plan with
  | refused => exact hrefused
  | elf => exact hgoes .elf
  | script strings =>
    cases strings with
    | none => exact hrefused
    | some strings => exact hgoes (.script (some strings))

theorem neg_toInt_lt {e : CInt} (h : 0 < e.toInt) : (-e).toInt < 0 := by
  have hlt := e.toInt_lt
  rw [BitVec.toInt_neg,Int.bmod_eq_of_le_mul_two (by omega) (by omega)]
  omega

theorem Tail.flow {t : List (HostCall × Reply)} {o : Outcome σ Empty CInt} (h : Tail argv t o)
    {fd len c : Reply} (hlen : 2 ≤ len.ret.toInt) :
    Flow argv ((.open filename,fd)::(.read fd.ret,len)::(.close fd.ret,c)::t) o := by
  obtain ⟨hcalls,hfailed⟩ := h
  have hopened : ∀ name r, (HostCall.open name,r) ∈
      (HostCall.open filename,fd)::(.read fd.ret,len)::(.close fd.ret,c)::t →
        name = filename ∧ r = fd := by
    intro name r hmem
    rcases hcalls with rfl | ⟨f,-,rfl⟩ | ⟨f,e,-,rfl⟩ | ⟨f,e,envp,front,-,rfl⟩ <;> simpa using hmem
  refine ⟨?_,?_,?_,hfailed,fun name r hmem _ => ?_⟩
  · rcases hcalls with rfl | ⟨f,-,rfl⟩ | ⟨f,e,-,rfl⟩ | ⟨f,e,envp,front,-,rfl⟩
    · simp
    · simp
    · simp
    · rintro path argv' envp' hmem
      simp only [List.map_cons,List.map_nil,List.mem_cons,reduceCtorEq,false_or,
        HostCall.execve.injEq,List.not_mem_nil,or_false] at hmem
      exact ⟨hmem.1,front,hmem.2.1⟩
  · rcases hcalls with rfl | ⟨f,hf,rfl⟩ | ⟨f,e,hf,rfl⟩ | ⟨f,e,envp,front,hf,rfl⟩
    · simp
    · simp
      omega
    · simp
      omega
    · simpa using hf
  · rcases hcalls with rfl | ⟨f,hf,rfl⟩ | ⟨f,e,hf,rfl⟩ | ⟨f,e,envp,front,hf,rfl⟩
    · simp
    · simp
      omega
    · simpa using hf
    · simp
      omega
  · obtain ⟨-,rfl⟩ := hopened name r hmem
    exact iff_of_true (by simp) ⟨len,by simp,hlen⟩

/-- `execve` of the application, whatever the file holds and however the host answers:
it never succeeds, the only program it can start is the sandbox with the loader and
the caller's arguments, the process that called it goes away, and the file stays open
exactly if it is shorter than two bytes. -/
theorem execExecev_flow (s : σ) {t : List (HostCall × Reply)} {o : Outcome σ Empty CInt}
    (h : Prog.Exec HostOk (execExecev filename argv envp junk) s t o) : Flow argv t o := by
  refine (Prog.wp_iff HostOk _ s _).mp ?_ t o h
  simp only [execExecev,Prog.wp_bind,Prog.wp_call]
  intro fd hfd
  by_cases hneg : fd.ret.toInt < 0
  · simp only [Prog.thenPost,if_pos hneg,Prog.wp_pure]
    refine ⟨by simp,by simp,by simp,fun v s h => ?_,by simp⟩
    cases h
    exact neg_toInt_lt (hfd hneg)
  simp only [Prog.thenPost,if_neg hneg,Prog.wp_bind,Prog.wp_call]
  intro len _
  by_cases hlen : len.ret.toInt < 2
  · simp only [if_pos hlen,Prog.wp_pure]
    refine ⟨by simp,by simp,by simp,fun v s h => ?_,fun name r hmem _ => ?_⟩
    · cases h
      decide
    · obtain ⟨-,rfl⟩ : name = filename ∧ r = fd := by simpa using hmem
      simpa using hlen
  simp only [Prog.thenPost,if_neg hlen,Prog.wp_bind,Prog.wp_call]
  intro c _
  exact Prog.wp_mono (carryOut_tail _ _ s) fun t o htail => htail.flow (by omega)

/-- An ELF file that the child of a `fork` goes on to run. -/
theorem execExecev_flow_elf : Flow [ls] [(.open binLs,{ret := 3}),
      (.read 3,{ret := 4, page := elfFile.page}),(.close 3,{}),(.fork,{}),
      (.execve sandboxPath [sandboxPath,ldPath,ls] 0,{})]
    (.halted : Outcome Unit Empty CInt) := by
  have hplan : (execPlan 4 ⟨elfFile.page,[]⟩).1 = .elf := by decide +kernel
  have hopened : HostOk (.open binLs) {ret := 3} := fun h => absurd h (by decide)
  have hlaunched : Prog.Exec HostOk (carryOut binLs [ls] 0 (fun _ => none)
      (execPlan 4 ⟨elfFile.page,[]⟩).1 (execPlan 4 ⟨elfFile.page,[]⟩).2.page) ()
      [(.fork,{}),(.execve sandboxPath [sandboxPath,ldPath,ls] 0,{})] .halted := by
    rw [hplan]
    exact .ask trivial (.ask trivial (.halt ()))
  have hexec : Prog.Exec HostOk (execExecev binLs [ls] 0 fun _ => none) ()
      [(.open binLs,{ret := 3}),(.read 3,{ret := 4, page := elfFile.page}),(.close 3,{}),(.fork,{}),
        (.execve sandboxPath [sandboxPath,ldPath,ls] 0,{})] .halted :=
    .ask hopened (.ask trivial (.ask trivial hlaunched))
  exact execExecev_flow () hexec

end Runs

end ExecFlow
end VmplApps

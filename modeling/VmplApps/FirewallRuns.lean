import VmplApps.FirewallMonitor
import VmplApps.FirewallParse
import VmplApps.SandboxRuns

/-! The firewall as a whole: from the text of its rules file to the calls that reach the
host. The program parses the file once and then runs the sandbox with its own monitor,
so the file decides on every `bind` and `connect` of every thread. -/
namespace VmplApps
namespace Firewall

open AppRegion ByteMemory SyscallParams Shared
open Sandbox (HostCall Reply Trap Monitor nullMonitor syscallAllow syscallHandler syscallDoForeal
  workload Traps TrapAction memoryOp memoryCall)

variable {inetAton : List Char → Option (BitVec 32)}

/-- `firewall_init` and its caller: the monitor that `main` registers, or nothing when it
gives up before the sandbox starts. -/
def main (inetAton : List Char → Option (BitVec 32)) (m : Scratch) (file : Option (List Char)) :
    Option Monitor :=
  match firewallParse inetAton m file with
  | .returned status rules =>
    if status < 0 then none else some fun mem tf => syscallMonitor mem rules tf
  | _ => none

/-- What the lines of the file say about the address that a trap names. -/
def FileAllows (lines : List (Line inetAton)) (trap : Trap) : Prop :=
  match Syscall.ofRax trap.frame.rax with
  | .bind => ∃ l ∈ lines, l.Names (sockaddrPort trap.watched trap.frame.arg1) ∨
      l.Collides (sockaddrPort trap.watched trap.frame.arg1)
  | .connect => lastAllows lines (sockaddrPort trap.watched trap.frame.arg1)
      (sinAddr trap.watched trap.frame.arg1) = true
  | _ => True

/-- A `bind` or `connect` with an IPv4 address of full length that the parameter check
lets through. -/
structure Asked (mmapBase : Word) (trap : Trap) : Prop where
  call : Syscall.ofRax trap.frame.rax = .bind ∨ Syscall.ofRax trap.frame.rax = .connect
  checked : syscallCheckParams mmapBase trap.checked trap.frame = some (0,trap.frame)
  length : addrlen trap.frame = sizeofSockaddrIn
  family : sinFamily trap.watched trap.frame.arg1 = AF_INET

/-- The host sees the call if the file allows it, and otherwise the application gets
`-EPERM`. -/
structure Verdict (lines : List (Line inetAton)) (trap : Trap) (t : List (HostCall × Reply))
    (value : Except Empty TrapFrame) : Prop where
  passed : FileAllows lines trap →
    ∃ r, t = [(.passthrough trap.frame,r)] ∧ value = .ok {trap.frame with rax := r.ret}
  refused : ¬FileAllows lines trap → t = [] ∧ value = .ok {trap.frame with rax := -EPERM}

section Monitor
variable {lines : List (Line inetAton)} {mmapBase : Word} {trap : Trap}

def monitorOf (lines : List (Line inetAton)) : Monitor :=
  fun mem tf => syscallMonitor mem (rulesOf lines).reverse tf

theorem main_fileText (lines : List (Line inetAton)) (ended : Bool)
    (hlen : ∀ l ∈ lines, l.text.length ≤ 98) (m : Scratch) :
    main inetAton m (some (fileText lines ended)) = some (monitorOf lines) := by
  rw [main,firewallParse_fileText lines ended hlen m]
  rfl

theorem permitted_iff (lines : List (Line inetAton)) (trap : Trap) :
    Permitted trap.watched (rulesOf lines).reverse trap.frame ↔ FileAllows lines trap := by
  unfold Permitted FileAllows
  cases Syscall.ofRax trap.frame.rax with
  | bind => exact firewallCheckBind_rulesOf lines
  | connect =>
    change firewallCheckConnect _ _ _ = true ↔ _
    rw [firewallCheckConnect_rulesOf]
  | _ => exact Iff.rfl

theorem monitorOf_asked (h : Asked mmapBase trap) [Decidable (FileAllows lines trap)] :
    monitorOf lines trap.watched trap.frame =
      if FileAllows lines trap then (1,trap.frame) else (0,{trap.frame with rax := -EPERM}) := by
  classical
  rw [monitorOf,syscallMonitor_eq h.call h.family]
  simp only [h.length,true_and,permitted_iff]
  by_cases hf : FileAllows lines trap
  · rw [if_neg (not_not.mpr hf),if_pos hf]
  · rw [if_pos hf,if_neg hf]

theorem memoryOp_asked (h : Asked mmapBase trap) : memoryOp trap.frame = none := by
  rcases h.call with hc | hc <;> simp [memoryOp,hc]

theorem doForeal_asked (h : Asked mmapBase trap) :
    syscallDoForeal mmapBase trap trap.frame = (do
      let r ← Prog.call (.passthrough trap.frame)
      pure {trap.frame with rax := r.ret}) := by
  unfold syscallDoForeal
  rw [memoryOp_asked h]
  rcases h.call with hc | hc <;> rw [hc]

theorem handler_asked (h : Asked mmapBase trap) [Decidable (FileAllows lines trap)] :
    syscallHandler (some (monitorOf lines)) mmapBase trap =
      if FileAllows lines trap then (do
        let r ← Prog.call (.passthrough trap.frame)
        pure {trap.frame with rax := r.ret})
      else pure {trap.frame with rax := -EPERM} := by
  simp only [syscallHandler,h.checked,syscallAllow,monitorOf_asked h]
  rw [if_neg (by decide)]
  by_cases hf : FileAllows lines trap
  · simp only [if_pos hf]
    rw [if_neg (by decide),doForeal_asked h]
  · simp only [if_neg hf,if_true]

theorem handler_asked_asks (trap : Trap) :
    (syscallHandler (some (monitorOf lines)) mmapBase trap).Asks fun c =>
      ∀ tf, c = .passthrough tf → Asked mmapBase trap → FileAllows lines trap := by
  classical
  by_cases h : Asked mmapBase trap
  · rw [handler_asked h]
    by_cases hf : FileAllows lines trap
    · rw [if_pos hf]
      exact Prog.asks_bind (Prog.asks_call fun _ _ _ => hf) fun _ => trivial
    · rw [if_neg hf]
      trivial
  · exact Prog.asks_of_forall fun c tf _ hasked => absurd hasked h

theorem handler_asked_stateless (h : Asked mmapBase trap) :
    (syscallHandler (some (monitorOf lines)) mmapBase trap).Stateless := by
  classical
  rw [handler_asked h]
  exact Prog.stateless_ite (Prog.stateless_bind (Prog.stateless_call _) fun _ => trivial) trivial

theorem verdict_of_exec (h : Asked mmapBase trap) {s : Umm.Counters} {t : List (HostCall × Reply)}
    {value : Except Empty TrapFrame}
    (hexec : Prog.Exec Sandbox.HostOk (syscallHandler (some (monitorOf lines)) mmapBase trap) s t
      (outcomeOf s value)) : Verdict lines trap t value := by
  classical
  rw [handler_asked h] at hexec
  cases value with
  | error e => exact e.elim
  | ok tf =>
    by_cases hf : FileAllows lines trap
    · refine ⟨fun _ => ?_,absurd hf⟩
      rw [if_pos hf] at hexec
      cases hexec with
      | ask _ hrest =>
        cases hrest
        exact ⟨_,rfl,rfl⟩
    · refine ⟨fun h => absurd h hf,fun _ => ?_⟩
      rw [if_neg hf] at hexec
      cases hexec
      exact ⟨rfl,rfl⟩

end Monitor

/-- The program is started with a rules file of comments, blank lines and complete
rules, none longer than the buffer. Whatever system calls any number of threads make, in
whatever order they run: no `bind` or `connect` with an IPv4 address reaches the host
unless the file allows the address the monitor saw, each that is allowed is passed on
once and unchanged, and each that is not gets `-EPERM` without a call to the host. -/
theorem firewall_enforces (lines : List (Line inetAton)) (ended : Bool)
    (hlen : ∀ l ∈ lines, l.text.length ≤ 98) (m : Scratch) (mmapBase : Word) :
    ∃ monitor, main inetAton m (some (fileText lines ended)) = some monitor ∧
      ∀ (T : Type) [DecidableEq T] (s₀ : Umm.Counters) (ls : List (TrapAction T)) (x : Traps T),
        Runs (Step (workload (some monitor) mmapBase)) {state := s₀} ls x →
        Shared.Permitted (fun trap c => ∀ tf, c = .passthrough tf → Asked mmapBase trap →
          FileAllows lines trap) ls ∧
        ∀ i trap t value, .finish i trap t value ∈ ls → Asked mmapBase trap →
          Verdict lines trap t value := by
  refine ⟨monitorOf lines,main_fileText lines ended hlen m,fun T _ s₀ ls x hrun => ⟨?_,?_⟩⟩
  · exact runs_permitted (w := workload (some (monitorOf lines)) mmapBase) handler_asked_asks hrun
  · intro i trap t value hmem hasked
    exact verdict_of_exec hasked
      (runs_detached hrun i trap t value hmem (handler_asked_stateless hasked) s₀)

/-- The address `171.66.3.9`, port 80, at the beginning of the application's mappings. -/
def webAddress : Mem := fun a =>
  if a = 0x400000000 then 2 else if a = 0x400000003 then 80 else if a = 0x400000004 then 171 else
  if a = 0x400000005 then 66 else if a = 0x400000006 then 3 else if a = 0x400000007 then 9 else 0

/-- `connect(3, addr, 16)` and `bind(4, addr, 16)` with that address. -/
def connectWeb : Trap where
  frame := {rax := 42, rdi := 3, rsi := 0x400000000, rdx := 16}
  checked := webAddress
  watched := webAddress

def bindWeb : Trap where
  frame := {rax := 49, rdi := 4, rsi := 0x400000000, rdx := 16}
  checked := webAddress
  watched := webAddress

theorem asked_connectWeb : Asked 0x400000000 connectWeb :=
  ⟨.inr (by decide),by decide +kernel,by decide,by decide⟩

theorem asked_bindWeb : Asked 0x400000000 bindWeb :=
  ⟨.inl (by decide),by decide +kernel,by decide,by decide⟩

theorem connectWeb_allowed : FileAllows ufwRules connectWeb := by
  change lastAllows ufwRules (sockaddrPort webAddress 0x400000000)
    (sinAddr webAddress 0x400000000) = true
  decide

theorem bindWeb_refused : ¬FileAllows ufwRules bindWeb := by
  change ¬∃ l ∈ ufwRules, l.Names (sockaddrPort webAddress 0x400000000) ∨
    l.Collides (sockaddrPort webAddress 0x400000000)
  decide

/-- Under the shipped rules one thread connects while another asks for a port that no
rule names. -/
theorem exists_webRun : ∃ ls x t t' v v',
    Runs (Step (workload (some (monitorOf ufwRules)) 0x400000000)) ({state := {}} : Traps Bool) ls x ∧
      .finish true connectWeb t v ∈ ls ∧ .finish false bindWeb t' v' ∈ ls := by
  classical
  have hconnect : syscallHandler (some (monitorOf ufwRules)) 0x400000000 connectWeb = _ :=
    (handler_asked asked_connectWeb).trans (if_pos connectWeb_allowed)
  have hbind : syscallHandler (some (monitorOf ufwRules)) 0x400000000 bindWeb = _ :=
    (handler_asked asked_bindWeb).trans (if_neg bindWeb_refused)
  have hfree : Sandbox.needLock (some (monitorOf ufwRules)) 0x400000000 bindWeb = false := by
    decide +kernel
  refine ⟨_,_,_,_,_,_,.next (.next (.next (.next (.next (.start _)
    (.start true connectWeb rfl fun _ => rfl))
    (.start false bindWeb rfl fun h => absurd (hfree.symm.trans h) Bool.false_ne_true))
    (.call true _ _ _ {ret := 0} rfl hconnect trivial))
    (.finish false _ _ rfl (congrArg ending hbind)))
    (.finish true _ _ rfl rfl),List.mem_cons_self,List.mem_cons_of_mem _ List.mem_cons_self⟩

theorem firewall_enforces_ufwRules :
    ∃ (ls : List (TrapAction Bool)) (t t' : List (HostCall × Reply)) (v v' : Except Empty TrapFrame),
      .finish true connectWeb t v ∈ ls ∧ .finish false bindWeb t' v' ∈ ls ∧
      Verdict ufwRules connectWeb t v ∧ Verdict ufwRules bindWeb t' v' ∧
      FileAllows ufwRules connectWeb ∧ ¬FileAllows ufwRules bindWeb := by
  obtain ⟨monitor,hmain,hall⟩ := firewall_enforces ufwRules true (by decide) emptyScratch 0x400000000
  obtain rfl : monitorOf ufwRules = monitor :=
    Option.some.inj ((main_fileText ufwRules true (by decide) emptyScratch).symm.trans hmain)
  obtain ⟨ls,x,t,t',v,v',hrun,hc,hb⟩ := exists_webRun
  have hverdict := (hall Bool {} ls x hrun).2
  exact ⟨ls,t,t',v,v',hc,hb,hverdict _ _ _ _ hc asked_connectWeb,
    hverdict _ _ _ _ hb asked_bindWeb,connectWeb_allowed,bindWeb_refused⟩

end Firewall
end VmplApps

import VmplApps.ByteMemory
import VmplApps.TrapFrame
import VmplApps.FirewallRules

/-! The firewall's system-call monitor. It reads the socket address straight from
application memory and lets the rule scans decide on `bind` and `connect`. -/
namespace VmplApps
namespace Firewall

open ByteMemory

def AF_INET : BitVec 16 := 2

def sizeofSockaddrIn : BitVec 32 := 16

def ntohs (x : BitVec 16) : BitVec 16 := (x <<< 8) ||| (x >>> 8)

def sinFamily (m : Mem) (a : Word) : BitVec 16 := load16 m a
def sinPort (m : Mem) (a : Word) : BitVec 16 := load16 m (a+2)
def sinAddr (m : Mem) (a : Word) : BitVec 32 := load32 m (a+4)

def checkBind (m : Mem) (rules : List FwRule) (addr : Word) (len : BitVec 32) : ℤ :=
  if len = sizeofSockaddrIn ∧ sinFamily m addr = AF_INET then
    if !firewallCheckBind rules (ntohs (sinPort m addr)) then 0 else 1
  else 1

def checkConnect (m : Mem) (rules : List FwRule) (addr : Word) (len : BitVec 32) : ℤ :=
  if len = sizeofSockaddrIn ∧ sinFamily m addr = AF_INET then
    if !firewallCheckConnect rules (ntohs (sinPort m addr)) (sinAddr m addr) then 0 else 1
  else 1

/-- The third argument as the `socklen_t` it is cast to. -/
def addrlen (tf : TrapFrame) : BitVec 32 := tf.arg2.setWidth 32

/-- `syscall_monitor`: its return value and the frame it leaves. -/
def syscallMonitor (m : Mem) (rules : List FwRule) (tf : TrapFrame) : ℤ × TrapFrame :=
  match Syscall.ofRax tf.rax with
  | .bind =>
    let status := checkBind m rules tf.arg1 (addrlen tf)
    (status,if status = 0 then {tf with rax := -EPERM} else tf)
  | .connect =>
    let status := checkConnect m rules tf.arg1 (addrlen tf)
    (status,if status = 0 then {tf with rax := -EPERM} else tf)
  | _ => (1,tf)

/-- The port of a socket address: two bytes, most significant first. -/
def sockaddrPort (m : Mem) (a : Word) : BitVec 16 :=
  BitVec.ofNat 16 (256*(byteAt m (a+2)).toNat + (byteAt m (a+3)).toNat)

theorem ntohs_load16 (m : Mem) (a : Word) :
    (ntohs (load16 m a)).toNat = 256*(byteAt m a).toNat + (byteAt m (a+1)).toNat := by
  have h0 := (byteAt m a).isLt
  have h1 := (byteAt m (a+1)).isLt
  have hx : (load16 m a).toNat = (byteAt m a).toNat + 256*(byteAt m (a+1)).toNat := by
    simp only [load16,loadLE,BitVec.toNat_ofNat]
    omega
  have hl : (load16 m a).toNat <<< 8 % 2^16 = (byteAt m a).toNat <<< 8 := by
    rw [hx,Nat.shiftLeft_eq,Nat.shiftLeft_eq]
    omega
  have hr : (load16 m a).toNat >>> 8 = (byteAt m (a+1)).toNat := by
    rw [hx,Nat.shiftRight_eq_div_pow]
    omega
  rw [ntohs,BitVec.toNat_or,BitVec.toNat_shiftLeft,BitVec.toNat_ushiftRight,hl,hr,
    ← Nat.shiftLeft_add_eq_or_of_lt h1,Nat.shiftLeft_eq,Nat.mul_comm]

theorem ntohs_sinPort (m : Mem) (a : Word) : ntohs (sinPort m a) = sockaddrPort m a := by
  have h0 := (byteAt m (a+2)).isLt
  have h1 := (byteAt m (a+3)).isLt
  have ha : a+2+1 = a+3 := by rw [BitVec.add_assoc]; rfl
  apply BitVec.eq_of_toNat_eq
  rw [sinPort,ntohs_load16,ha,sockaddrPort,BitVec.toNat_ofNat,Nat.mod_eq_of_lt (by omega)]

def Permitted (m : Mem) (rules : List FwRule) (tf : TrapFrame) : Prop :=
  match Syscall.ofRax tf.rax with
  | .bind => firewallCheckBind rules (sockaddrPort m tf.arg1) = true
  | .connect => firewallCheckConnect rules (sockaddrPort m tf.arg1) (sinAddr m tf.arg1) = true
  | _ => True

/-- A call goes through only if permitted; a refused call leaves `-EPERM` in
`rax` and touches no other register. -/
def Mediated (m : Mem) (rules : List FwRule) (tf : TrapFrame) : Prop :=
  ((syscallMonitor m rules tf).1 ≠ 0 → Permitted m rules tf) ∧
    (¬ Permitted m rules tf → syscallMonitor m rules tf = (0,{tf with rax := -EPERM}))

theorem syscallMonitor_eq {m : Mem} {rules : List FwRule} {tf : TrapFrame}
    [Decidable (Permitted m rules tf)]
    (hcall : Syscall.ofRax tf.rax = .bind ∨ Syscall.ofRax tf.rax = .connect)
    (hfam : sinFamily m tf.arg1 = AF_INET) :
    syscallMonitor m rules tf =
      if addrlen tf = sizeofSockaddrIn ∧ ¬ Permitted m rules tf
      then (0,{tf with rax := -EPERM}) else (1,tf) := by
  rcases hcall with hcall | hcall
  · by_cases hl : addrlen tf = sizeofSockaddrIn <;>
      cases hc : firewallCheckBind rules (sockaddrPort m tf.arg1) <;>
      simp [syscallMonitor,checkBind,Permitted,hcall,hfam,hl,hc,ntohs_sinPort]
  · by_cases hl : addrlen tf = sizeofSockaddrIn <;>
      cases hc : firewallCheckConnect rules (sockaddrPort m tf.arg1) (sinAddr m tf.arg1) <;>
      simp [syscallMonitor,checkConnect,Permitted,hcall,hfam,hl,hc,ntohs_sinPort]

/-- An IPv4 `bind` or `connect`, whatever its length, is mediated exactly when the
length is that of `struct sockaddr_in` or the rules permit the address anyway. -/
theorem syscallMonitor_mediated_iff (m : Mem) (rules : List FwRule) (tf : TrapFrame)
    (hcall : Syscall.ofRax tf.rax = .bind ∨ Syscall.ofRax tf.rax = .connect)
    (hfam : sinFamily m tf.arg1 = AF_INET) :
    Mediated m rules tf ↔ addrlen tf = sizeofSockaddrIn ∨ Permitted m rules tf := by
  classical
  unfold Mediated
  rw [syscallMonitor_eq hcall hfam]
  by_cases hl : addrlen tf = sizeofSockaddrIn <;> by_cases hp : Permitted m rules tf <;>
    simp [hl,hp]

/-- A `bind` to port 1234 with a 16-byte address and no rule is refused. -/
theorem syscallMonitor_mediated_iff_bind :
    Mediated (fun a => if a = 0x1000 then 2 else if a = 0x1002 then 4 else
      if a = 0x1003 then 0xd2 else 0) [] {rax := 49,rsi := 0x1000,rdx := 16} :=
  (syscallMonitor_mediated_iff _ [] {rax := 49,rsi := 0x1000,rdx := 16} (by decide)
    (by decide)).mpr (.inl (by decide))

/-- With no rule at all, a `bind` whose address length is 17 goes through. -/
theorem syscallMonitor_passes_longer_address :
    ¬ ∀ (m : Mem) (rules : List FwRule) (tf : TrapFrame),
      (Syscall.ofRax tf.rax = .bind ∨ Syscall.ofRax tf.rax = .connect) →
      sinFamily m tf.arg1 = AF_INET → sizeofSockaddrIn ≤ addrlen tf → Mediated m rules tf := by
  intro h
  have hbad := h (fun a => if a = 0x1000 then 2 else 0) [] {rax := 49,rsi := 0x1000,rdx := 17}
    (by decide) (by decide) (by decide)
  exact absurd (hbad.1 (by decide)) (by simp [Permitted,Syscall.ofRax,firewallCheckBind])

end Firewall
end VmplApps

import VmplApps.FirewallRules

/-! Connect rules as subnets. `firewall_check_connect` compares the address masked by the
rule's address with the address masked by the rule's mask; a subnet test compares the
network parts of the two addresses. -/
namespace VmplApps
namespace Firewall

/-- The rule's network contains the address, and its port covers the port. -/
def subnetApplies (p : FwRule) (port : BitVec 16) (ip : BitVec 32) : Bool :=
  ip &&& p.mask == p.ip &&& p.mask && (p.port == FW_PORT_ANY || p.port == port)

/-- The scan of `firewall_check_connect` over an arbitrary test. -/
def scanBy (applies : FwRule → Bool) : List FwRule → Bool
  | [] => false
  | p::ps =>
    if p.type = .connectAllow ∧ applies p then true
    else if p.type = .connectDeny ∧ applies p then false
    else scanBy applies ps

def subnetCheckConnect (rules : List FwRule) (port : BitVec 16) (ip : BitVec 32) : Bool :=
  scanBy (subnetApplies · port ip) rules

theorem firewallCheckConnect_eq_scanBy (rules : List FwRule) (port : BitVec 16)
    (ip : BitVec 32) :
    firewallCheckConnect rules port ip = scanBy (connectApplies · port ip) rules := by
  induction rules with
  | nil => rfl
  | cons p ps ih => rw [firewallCheckConnect,scanBy,ih]

def verdict : Option FwRule → Bool
  | none => false
  | some p => p.type == .connectAllow

theorem scanBy_eq_verdict (applies : FwRule → Bool) (rules : List FwRule) :
    scanBy applies rules = verdict (rules.find? fun p => p.type != .bindAllow && applies p) := by
  induction rules with
  | nil => rfl
  | cons p ps ih =>
    rw [scanBy,ih]
    rw [List.find?_cons]
    cases hgoes : p.type != .bindAllow && applies p with
    | false =>
      rcases Bool.and_eq_false_iff.mp hgoes with ht | happ
      · simp [bne_eq_false_iff_eq.mp ht]
      · simp [happ]
    | true =>
      obtain ⟨ht,happ⟩ := Bool.and_eq_true_iff.mp hgoes
      rw [bne_iff_ne] at ht
      cases hp : p.type <;> simp_all [verdict]

section Masks

/-- A connect rule for the port, where every bit of the address under the mask is one of the
rule's address. Neither test applies any other rule. -/
def candidate (port : BitVec 16) (ip : BitVec 32) (p : FwRule) : Bool :=
  p.type != .bindAllow && (p.port == FW_PORT_ANY || p.port == port) &&
    ip &&& p.mask &&& ~~~p.ip == 0

/-- The address has a bit of the rule's address outside the mask. -/
def hostBit (ip : BitVec 32) (p : FwRule) : Bool := ip &&& p.ip &&& ~~~p.mask != 0

/-- The address lacks a bit of the rule's network. -/
def netBitMissing (ip : BitVec 32) (p : FwRule) : Bool := p.ip &&& p.mask &&& ~~~ip != 0

theorem and_eq_and_iff (x y z : BitVec 32) :
    x &&& y = x &&& z ↔ x &&& z &&& ~~~y = 0 ∧ x &&& y &&& ~~~z = 0 := by
  simp only [BitVec.eq_of_getElem_eq_iff,BitVec.getElem_and,BitVec.getElem_not,← forall_and]
  refine forall₂_congr fun i hi => ?_
  cases x[i] <;> cases y[i] <;> cases z[i] <;> simp

theorem subnet_test_iff (ip a mask : BitVec 32) :
    ip &&& mask = a &&& mask ↔ ip &&& mask &&& ~~~a = 0 ∧ a &&& mask &&& ~~~ip = 0 := by
  rw [BitVec.and_comm ip,BitVec.and_comm a,and_eq_and_iff,and_comm]

variable (port : BitVec 16) (ip : BitVec 32) (p : FwRule)

theorem connectApplies_eq : (p.type != .bindAllow && connectApplies p port ip) =
    (candidate port ip p && !hostBit ip p) := by
  rw [Bool.eq_iff_iff]
  simp only [connectApplies,candidate,hostBit,Bool.and_eq_true,Bool.not_eq_true',
    bne_eq_false_iff_eq,beq_iff_eq,and_eq_and_iff]
  tauto

theorem subnetApplies_eq : (p.type != .bindAllow && subnetApplies p port ip) =
    (candidate port ip p && !netBitMissing ip p) := by
  rw [Bool.eq_iff_iff]
  simp only [subnetApplies,candidate,netBitMissing,Bool.and_eq_true,Bool.not_eq_true',
    bne_eq_false_iff_eq,beq_iff_eq,subnet_test_iff]
  tauto

end Masks

/-- The rule found has this action; without one the connection is denied. -/
def ActsLike (type : FwType) : Option FwRule → Prop
  | none => type = .connectDeny
  | some q => q.type = type

/-- Down to the first candidate of which the address has all network bits or no host bit: it
has both, or the next candidate with the other of the two has the same action. -/
def DecidesAlike (port : BitVec 16) (ip : BitVec 32) : List FwRule → Prop
  | [] => True
  | p::ps =>
    if candidate port ip p then
      match hostBit ip p, netBitMissing ip p with
      | true, true => DecidesAlike port ip ps
      | false, false => True
      | false, true => ActsLike p.type (ps.find? fun q => candidate port ip q && !netBitMissing ip q)
      | true, false => ActsLike p.type (ps.find? fun q => candidate port ip q && !hostBit ip q)
    else DecidesAlike port ip ps

section Verdicts
variable {port : BitVec 16} {ip : BitVec 32}

theorem candidate_connect {p : FwRule} (h : candidate port ip p = true) : p.type ≠ .bindAllow := by
  simp only [candidate,Bool.and_eq_true,bne_iff_ne] at h
  exact h.1.1

theorem verdict_eq_iff {p : FwRule} (hp : p.type ≠ .bindAllow) {o : Option FwRule}
    (ho : ∀ q ∈ o, q.type ≠ .bindAllow) : verdict (some p) = verdict o ↔ ActsLike p.type o := by
  cases o with
  | none => cases ht : p.type <;> simp_all [verdict,ActsLike]
  | some q =>
    have hq := ho q rfl
    cases ht : p.type <;> cases hs : q.type <;> simp_all [verdict,ActsLike]

theorem verdict_find_iff {p : FwRule} (hp : candidate port ip p = true) (flaw : FwRule → Bool)
    (ps : List FwRule) :
    verdict (some p) = verdict (ps.find? fun q => candidate port ip q && !flaw q) ↔
      ActsLike p.type (ps.find? fun q => candidate port ip q && !flaw q) := by
  refine verdict_eq_iff (candidate_connect hp) fun q hq => ?_
  have hfound := List.find?_some hq
  exact candidate_connect (Bool.and_eq_true_iff.mp hfound).1

theorem decidesAlike_iff (rules : List FwRule) :
    verdict (rules.find? fun q => candidate port ip q && !hostBit ip q) =
      verdict (rules.find? fun q => candidate port ip q && !netBitMissing ip q) ↔
      DecidesAlike port ip rules := by
  induction rules with
  | nil => exact iff_of_true rfl trivial
  | cons p ps ih =>
    rw [DecidesAlike,List.find?_cons,List.find?_cons]
    cases hcand : candidate port ip p with
    | false => exact ih
    | true =>
      cases hostBit ip p <;> cases netBitMissing ip p
      · exact iff_of_true rfl trivial
      · exact verdict_find_iff hcand (netBitMissing ip) ps
      · exact eq_comm.trans (verdict_find_iff hcand (hostBit ip) ps)
      · exact ih

end Verdicts

/-- The coded test and the subnet test differ on a candidate by one bit pattern each, and
the scan decides by subnets exactly when these settle on rules of the same action. -/
theorem firewallCheckConnect_subnet_iff (rules : List FwRule) (port : BitVec 16)
    (ip : BitVec 32) :
    firewallCheckConnect rules port ip = subnetCheckConnect rules port ip ↔
      DecidesAlike port ip rules := by
  rw [firewallCheckConnect_eq_scanBy,subnetCheckConnect,scanBy_eq_verdict,scanBy_eq_verdict]
  simp only [connectApplies_eq,subnetApplies_eq]
  exact decidesAlike_iff rules

/-- `allow connect * 171.0.0.0 255.0.0.0`, a rule of `ufw.rules`. -/
def ufwConnect : FwRule := ⟨.connectAllow,FW_PORT_ANY,0xab,0xff⟩

/-- 10.0.0.1 is outside 171.0.0.0/8, and the rule admits it. -/
theorem ufwConnect_admits_outside :
    subnetCheckConnect [ufwConnect] 80 0x0100000a = false ∧
      firewallCheckConnect [ufwConnect] 80 0x0100000a = true := by
  decide

end Firewall
end VmplApps

import VmplApps.Words

/-! The firewall's rule list and the two scans over it. The list is kept in the
order of the singly linked list, newest rule first. -/
namespace VmplApps
namespace Firewall

inductive FwType
  | bindAllow | connectAllow | connectDeny
  deriving DecidableEq, Repr

/-- One parsed rule; addresses and masks stay in network byte order. -/
structure FwRule where
  type : FwType
  port : BitVec 16
  ip : BitVec 32 := 0
  mask : BitVec 32 := 0
  deriving DecidableEq, Repr

def FW_PORT_ANY : BitVec 16 := 0

def firewallCheckBind : List FwRule → BitVec 16 → Bool
  | [], _ => false
  | p::ps, port =>
    if p.type = .bindAllow then
      if p.port = FW_PORT_ANY then true
      else if p.port = port then true
      else firewallCheckBind ps port
    else firewallCheckBind ps port

/-- The address test and the port test of a connect rule, as coded. -/
def connectApplies (p : FwRule) (port : BitVec 16) (ip : BitVec 32) : Bool :=
  ip &&& p.ip == ip &&& p.mask && (p.port == FW_PORT_ANY || p.port == port)

def firewallCheckConnect : List FwRule → BitVec 16 → BitVec 32 → Bool
  | [], _, _ => false
  | p::ps, port, ip =>
    if p.type = .connectAllow ∧ connectApplies p port ip then true
    else if p.type = .connectDeny ∧ connectApplies p port ip then false
    else firewallCheckConnect ps port ip

end Firewall
end VmplApps

import RdsProv.Frame
import RdsProv.Lib.Run

/-!
# The endpoint as a machine

An endpoint is driven by calls of the application and by what arrives: datagrams,
notifications of RDMA operations, slots and credit written into its memory. Each
is an action, carrying the environment its calls meet; a run is a list of
actions. A progress pass is made of several: a walk of the deferred queue, rounds
of polling, and one action per datagram or notification taken off the socket.

The only actions that are not always possible are notifications: an operation is
notified once, after it was accepted.
-/

/-- What can happen at an endpoint. -/
inductive EpAct where
  | send (env : Env) (iov : List Iovec) (destAddr tag data : UInt64) (context : ℕ)
      (flags : UInt64) (tagged : Bool)
  | inject (env : Env) (buf len : ℕ) (destAddr tag : UInt64) (tagged : Bool)
  | postRecv (env : Env) (iov : List Iovec) (addr tag ignore : UInt64) (context : ℕ)
      (flags : UInt64) (tagged : Bool)
  | cancel (context : ℕ)
  | rma (env : Env) (iov : List Iovec) (remoteFi remoteOff key : UInt64) (isWrite : Bool)
      (context : ℕ) (flags : UInt64)
  | injectWrite (env : Env) (buf len : ℕ) (destAddr addr key : UInt64)
  /-- A datagram is taken off the socket. -/
  | recv (env : Env) (src : SockAddr) (bytes : List UInt8)
  /-- The notification of an accepted operation is taken off the socket. -/
  | notify (env : Env) (op : RdmaOp) (status : ℤ)
  /-- The deferred queue is walked. -/
  | retry (env : Env)
  /-- One slot of a peer's ring is polled. -/
  | poll (env : Env) (addr : UInt64)
  /-- A poll pass ends. -/
  | flush (env : Env) (addr : UInt64)
  /-- A slot lands in the ring kept for a peer. -/
  | landSlot (addr : UInt64) (idx : ℕ) (slot : RingSlot)
  /-- Credit lands in the cell kept for a peer. -/
  | landCredit (addr : UInt64) (value : UInt64)
  /-- Another endpoint uses the domain. -/
  | shareDomain (domain : Domain)

namespace Ep

/-- Change a peer record in place. -/
def updPeer (ep : Ep) (addr : UInt64) (f : Peer → Peer) : Ep :=
  { ep with peers := ep.peers.modifyFirst (·.addr == addr) f }

/-- One action. -/
def act (ep : Ep) : EpAct → Ep
  | .send env iov destAddr tag data context flags tagged =>
    (rdsGenericSend env ep iov destAddr tag data context flags tagged).1
  | .inject env buf len destAddr tag tagged =>
    (rdsGenericInject env ep buf len destAddr tag tagged).1
  | .postRecv env iov addr tag ignore context flags tagged =>
    (rdsPostRecv env ep iov addr tag ignore context flags tagged).1
  | .cancel context => (rdsEpCancel ep context).1
  | .rma env iov remoteFi remoteOff key isWrite context flags =>
    (rdsRmaCommon env ep iov remoteFi remoteOff key isWrite context flags).1
  | .injectWrite env buf len destAddr addr key =>
    (rdsInjectWrite env ep buf len destAddr addr key).1
  | .recv env src bytes => rdsRecvDgram env ep src bytes
  | .notify env op status =>
    rdsHandleRdmaNotify env { ep with inflight := ep.inflight.erase op } op.token status
  | .retry env => (rdsProgressDeferred env ep).1
  | .poll env addr => (rdsRingPollSlot env ep addr).getD ep
  | .flush env addr => rdsRingFlushCredit env ep addr
  | .landSlot addr idx slot =>
    ep.updPeer addr (fun p => { p with rxRing := Function.update p.rxRing idx slot })
  | .landCredit addr value => ep.updPeer addr (fun p => { p with creditCell := value })
  | .shareDomain domain => { ep with domain := domain }

/-- An operation is notified only while it is in flight. -/
def Admits (ep : Ep) : EpAct → Prop
  | .notify _ op _ => op ∈ ep.inflight
  | _ => True

instance (ep : Ep) : ∀ a, Decidable (ep.Admits a)
  | .notify _ op _ => inferInstanceAs (Decidable (op ∈ ep.inflight))
  | .send .. | .inject .. | .postRecv .. | .cancel _ | .rma .. | .injectWrite .. | .recv ..
  | .retry _ | .poll .. | .flush .. | .landSlot .. | .landCredit .. | .shareDomain _ =>
    .isTrue trivial

/-- A run of an endpoint from its opening. -/
def Runs (cfg : EpCfg) (domain : Domain) (acts : List EpAct) : Prop :=
  Along Ep.act Ep.Admits (Ep.init cfg domain) acts

instance (cfg : EpCfg) (domain : Domain) (acts : List EpAct) :
    Decidable (Runs cfg domain acts) :=
  inferInstanceAs (Decidable (Along Ep.act Ep.Admits (Ep.init cfg domain) acts))

/-- The state a run leads to. -/
def after (cfg : EpCfg) (domain : Domain) (acts : List EpAct) : Ep :=
  acts.foldl Ep.act (Ep.init cfg domain)

end Ep

import Piezo.Error

/-!
Leases: exclusive use of channels.

A table holds the channels that are leased. Taking a channel yields a lease, and only the holder of
the lease gives the channel back. Players built on one table can therefore never drive one line at
the same time.
-/

namespace Piezo

/-- Proof of exclusive use of a channel. -/
structure Lease where
  channel : Channel
deriving DecidableEq, Repr

/-- The leased channels of one table. -/
structure Leases where
  channels : List Channel := []
  distinct : channels.Nodup := by exact List.nodup_nil
deriving DecidableEq, Repr

namespace Leases

def isLeased (t : Leases) (channel : Channel) : Bool := channel ∈ t.channels

def count (t : Leases) : Nat := t.channels.length

/-- Leases a channel, unless it is leased already. -/
def acquire (t : Leases) (channel : Channel) : Except Error (Lease × Leases) :=
  if h : channel ∈ t.channels then .error (.channelBusy channel)
  else .ok (⟨channel⟩, ⟨channel :: t.channels, List.nodup_cons.mpr ⟨h, t.distinct⟩⟩)

def release (t : Leases) (lease : Lease) : Leases :=
  ⟨t.channels.erase lease.channel, t.distinct.erase _⟩

def releaseAny (t : Leases) : Option Lease → Leases
  | none => t
  | some lease => t.release lease

/-- The lease already held, or else a new one. -/
def secure (t : Leases) (held : Option Lease) (channel : Channel) :
    Except Error (Lease × Leases) :=
  match held with
  | some lease => .ok (lease, t)
  | none => t.acquire channel

theorem mem_release (t : Leases) (lease : Lease) (channel : Channel) :
    channel ∈ (t.release lease).channels ↔
      channel ≠ lease.channel ∧ channel ∈ t.channels :=
  t.distinct.mem_erase_iff

end Leases

end Piezo

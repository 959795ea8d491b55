/-
# Rows of the connection history

One row of the history with its ownership fields, the merge of the versions of
one row during a recording, and the rule by which a UDP row takes over the
owner of the socket it matches.

A row holds no copy of its tuple: the tuple is the key under which the row is
stored.
-/

import SocketTrail.Net.Address
import SocketTrail.Net.Process

namespace SocketTrail.State

open SocketTrail.Net

/-- One row of the history. -/
structure Conn where
  state : SockState
  pid : Option ℤ
  ownerStarted : Option ℕ
  pname : Option String
  /-- The best known name: SNI before DNS, DNS before PTR. -/
  domain : Option String
  sni : Option String
  ptr : Option String
  asn : Option String
  owner : Option String
  firstSeen : ℕ
  lastSeen : ℕ
  txBytes : ℕ
  rxBytes : ℕ
  txPkts : ℕ
  rxPkts : ℕ
  /-- The connection was seen in packets only, never in the socket table. -/
  fromPacketsOnly : Bool
  closed : Bool
  scope : Scope
  udpGeneration : Option ℕ
  tcpCookie : Option ℕ
  /-- The history of the tuple holds different sockets or a disputed owner, so
  the row cannot be attributed to one process as a whole. -/
  ownerAmbiguous : Bool
  deriving DecidableEq, Repr

/-- Two known values that differ; an unknown value contradicts nothing. -/
def contradicts {α : Type*} [DecidableEq α] (old new : Option α) : Bool :=
  match old, new with
  | some a, some b => a ≠ b
  | _, _ => false

@[simp]
theorem contradicts_none_left {α : Type*} [DecidableEq α] (new : Option α) :
    contradicts none new = false := rfl

@[simp]
theorem contradicts_none_right {α : Type*} [DecidableEq α] (old : Option α) :
    contradicts old none = false := by
  cases old <;> rfl

@[simp]
theorem contradicts_some {α : Type*} [DecidableEq α] (a b : α) :
    contradicts (some a) (some b) = true ↔ a ≠ b := by
  simp [contradicts]

namespace Conn

/-- Put the ownership of a row in dispute. -/
def dispute (c : Conn) : Conn :=
  { c with ownerAmbiguous := true, pid := none, ownerStarted := none, pname := none }

@[simp] theorem dispute_ownerAmbiguous (c : Conn) : c.dispute.ownerAmbiguous = true := rfl
@[simp] theorem dispute_pid (c : Conn) : c.dispute.pid = none := rfl
@[simp] theorem dispute_ownerStarted (c : Conn) : c.dispute.ownerStarted = none := rfl
@[simp] theorem dispute_firstSeen (c : Conn) : c.dispute.firstSeen = c.firstSeen := rfl
@[simp] theorem dispute_lastSeen (c : Conn) : c.dispute.lastSeen = c.lastSeen := rfl
@[simp] theorem dispute_txPkts (c : Conn) : c.dispute.txPkts = c.txPkts := rfl
@[simp] theorem dispute_rxPkts (c : Conn) : c.dispute.rxPkts = c.rxPkts := rfl

@[simp]
theorem dispute_udpGeneration (c : Conn) : c.dispute.udpGeneration = c.udpGeneration := rfl

/-- Both versions are rows of one known UDP socket. -/
def sameUdpSocket (old current : Conn) : Bool :=
  old.udpGeneration.isSome && old.udpGeneration == current.udpGeneration

/-- The evidence against one continuous owner of two versions of a row. -/
def versionsDisagree (old current : Conn) : Bool :=
  old.ownerAmbiguous || current.ownerAmbiguous ||
    (old.firstSeen != current.firstSeen && !old.sameUdpSocket current) ||
    (old.pid.isSome && old.pid != current.pid) ||
    (old.ownerStarted.isSome && old.ownerStarted != current.ownerStarted) ||
    (old.udpGeneration.isSome && old.udpGeneration != current.udpGeneration)

/-- Merge the next version of a row into its recorded version. A reused tuple
must not carry its last owner over the whole dump, so a doubt stays to the end
of the recording. -/
def updateRecording (old current : Conn) : Conn :=
  if old.versionsDisagree current then current.dispute else current

end Conn

/-- A UDP socket of the socket table, with the generation that tells it from
other sockets and the instant from which packets may belong to it. -/
structure UdpSocket where
  entry : SockEntry
  ownerStarted : Option ℕ
  generation : ℕ
  since : ℕ
  deriving DecidableEq, Repr

/-- What the matching UDP socket says about the owner of a tuple. -/
structure UdpOwner where
  generation : ℕ
  since : ℕ
  pid : Option ℤ
  started : Option ℕ
  deriving DecidableEq, Repr

inductive UdpMatch
  | missing
  | ambiguous
  | unique (owner : UdpOwner)
  deriving DecidableEq, Repr

/-- Let a UDP row take over the owner of the socket its tuple matches. `procs`
is the process list of a poll, and `none` when a packet is applied. -/
def attributeUdp (c : Conn) (owner : UdpMatch) (procs : Option (ℤ → Option ProcInfo)) : Conn :=
  if c.ownerAmbiguous then c
  else
    match owner with
    | .unique o =>
        if c.firstSeen ≥ o.since ∧ c.udpGeneration.all (· == o.generation) then
          let bound := { c with udpGeneration := some o.generation }
          match o.pid with
          | none => bound
          | some pid =>
              { bound with
                pid := some pid
                ownerStarted := o.started.or c.ownerStarted
                pname :=
                  match procs with
                  | none => c.pname
                  | some procs => (procs pid).map ProcInfo.name }
        else c.dispute
    | .missing => if c.udpGeneration.isNone then c else c.dispute
    | .ambiguous => c.dispute

/-- What attribution can do to a row that is not disputed yet: leave it as it
is, bind it to the one matching socket and take that socket's owner, or put it
in dispute. -/
theorem attributeUdp_cases (c : Conn) (owner : UdpMatch)
    (procs : Option (ℤ → Option ProcInfo)) (hc : c.ownerAmbiguous = false) :
    (owner = .missing ∧ c.udpGeneration = none ∧ attributeUdp c owner procs = c) ∨
    (∃ o, owner = .unique o ∧ o.since ≤ c.firstSeen ∧
      (c.udpGeneration = none ∨ c.udpGeneration = some o.generation) ∧
      ∃ pname, attributeUdp c owner procs =
        { c with
          udpGeneration := some o.generation
          pid := o.pid.or c.pid
          ownerStarted := if o.pid.isSome then o.started.or c.ownerStarted else c.ownerStarted
          pname := pname }) ∨
    attributeUdp c owner procs = c.dispute := by
  cases owner with
  | missing =>
      cases hgen : c.udpGeneration with
      | none => exact .inl ⟨rfl, rfl, by simp [attributeUdp, hc, hgen]⟩
      | some g => exact .inr (.inr (by simp [attributeUdp, hc, hgen]))
  | ambiguous => exact .inr (.inr (by simp [attributeUdp, hc]))
  | unique o =>
      by_cases hfits : c.firstSeen ≥ o.since ∧ c.udpGeneration.all (· == o.generation)
      · refine .inr (.inl ⟨o, rfl, hfits.1, ?_, ?_⟩)
        · cases hgen : c.udpGeneration with
          | none => exact .inl rfl
          | some g =>
              right
              simpa [hgen] using hfits.2
        · cases hpid : o.pid with
          | none => exact ⟨c.pname, by simp [attributeUdp, hc, hfits, hpid]⟩
          | some pid =>
              refine ⟨match procs with
                | none => c.pname
                | some procs => (procs pid).map ProcInfo.name, ?_⟩
              simp [attributeUdp, hc, hfits, hpid]
      · exact .inr (.inr (by simp only [attributeUdp, hc, hfits]; rfl))

@[simp]
theorem attributeUdp_of_ambiguous {c : Conn} (hc : c.ownerAmbiguous = true) (owner : UdpMatch)
    (procs : Option (ℤ → Option ProcInfo)) : attributeUdp c owner procs = c := by
  simp [attributeUdp, hc]

end SocketTrail.State

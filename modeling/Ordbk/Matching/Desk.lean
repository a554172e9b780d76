import Ordbk.Matching.Matcher
import Ordbk.Lib.Reach

/-!
# Matching/Desk — whoever calls a matcher

A matcher is driven from outside: the caller acquires slots from the pool, fills them in, submits
them, cancels by id, and gives back the slots of orders that did not come to rest.  A `Desk` is a
matcher with such a caller; `Desk.call` is one call, refused (`none`) when the caller would use a
slot that is not in its hands.

Two fields are ghosts: `accounts` remembers every order ever submitted with the last value its slot
held, `trades` every execution returned.
-/

namespace Ordbk

/-- An order ever submitted: its slot, whether the slot is still its own, its last known value. -/
structure Account where
  /-- Where the order was written. -/
  slot : Slot
  /-- False once the slot has been given back. -/
  isLive : Bool
  /-- Followed for as long as the slot is its own. -/
  order : OrderData
  deriving DecidableEq, Repr

/-- Look at the order again; the account is closed once its slot is back on the free stack. -/
def Account.refresh (pool : Pool) (x : Account) : Account :=
  if x.isLive then ⟨x.slot, decide (x.slot ∉ pool.freeSlots), pool.storage.data x.slot⟩ else x

/-- A matcher and its caller. -/
structure Desk where
  /-- One book and the pool. -/
  matcher : Matcher
  /-- Acquired and not yet submitted. -/
  held : List Slot := []
  /-- Submitted, not at rest, not yet released. -/
  out : List Slot := []
  /-- Every order ever submitted, the latest first. -/
  accounts : List Account := []
  /-- Every execution, in the order they were returned. -/
  trades : List Trade := []

/-- What the caller can do. -/
inductive Call
  | acquire
  | write (a : Slot) (o : Order)
  | submit (a : Slot)
  | cancel (id : OrderId)
  | cancelAll
  | release (a : Slot)

namespace Desk

/-- An empty book and a fresh pool. -/
def start (instrument : InstrumentId) (capacity : ℕ) : Desk :=
  { matcher := ⟨{ instrument }, Pool.new capacity⟩ }

/-- The order in a slot. -/
def order (d : Desk) (a : Slot) : OrderData := d.matcher.pool.storage.data a

/-- The desk once the matcher has run and handed back some trades. -/
def after (d : Desk) (m : Matcher) (accounts : List Account) (trades : List Trade) : Desk :=
  { d with
    matcher := m
    accounts := accounts.map (·.refresh m.pool)
    trades := d.trades ++ trades }

/-- Submit the order in a slot; unless it comes to rest the slot is the caller's again. -/
def submit (d : Desk) (a : Slot) : Desk :=
  let (m, r) := d.matcher.submit a
  let d' := d.after m (⟨a, true, d.order a⟩ :: d.accounts) r.trades
  { d' with
    held := d.held.erase a
    out := if (d'.order a).rests then d.out else a :: d.out }

/-- **One call.**  A slot that is written, submitted or given back must be in the caller's hands,
and an order is submitted unfilled. -/
def call (d : Desk) : Call → Option Desk
  | .acquire => d.matcher.pool.acquire.map fun (a, pool) =>
      { d with matcher.pool := pool, held := a :: d.held }
  | .write a o =>
      if a ∈ d.held then
        some { d with matcher.pool.storage := Function.update d.matcher.pool.storage a o }
      else none
  | .submit a => if a ∈ d.held ∧ (d.order a).filledQty = 0 then some (d.submit a) else none
  | .cancel id => some (d.after (d.matcher.cancel id).1 d.accounts [])
  | .cancelAll => some (d.after d.matcher.cancelAll d.accounts [])
  | .release a =>
      if a ∈ d.held ++ d.out then
        some { d.after { d.matcher with pool := d.matcher.pool.release a } d.accounts [] with
          held := d.held.erase a
          out := d.out.erase a }
      else none

end Desk

end Ordbk

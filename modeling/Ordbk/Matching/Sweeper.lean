import Ordbk.Instruments.Contract
import Ordbk.Lib.Multimap
import Ordbk.Orderbook.Book

/-!
# Matching/Sweeper — the instruments that are to expire

`sweeper.hpp` and `sweeper.cpp`: the instruments by expiry, a `std::multimap`, and the expiry of
each id, a hash map.  The callback changes something outside, a state of type `ω` that is passed
along.
-/

namespace Ordbk

/-- Which instrument expires when. -/
structure Sweeper (ω : Type) where
  /-- By expiry, and in the order of registration within one. -/
  byExpiry : Multimap (fun a b : ExpiryDate => a < b) InstrumentId := .empty
  /-- The expiry an id was first registered with. -/
  idToExpiry : Finmap fun _ : InstrumentId => ExpiryDate := ∅
  /-- What is called for each instrument that has expired. -/
  callback : Option (ω → InstrumentId → ω) := none

namespace Sweeper

variable {ω : Type}

/-- The new callback may change something else. -/
def setCallback {ω' : Type} (s : Sweeper ω) (cb : ω' → InstrumentId → ω') : Sweeper ω' :=
  { byExpiry := s.byExpiry, idToExpiry := s.idToExpiry, callback := some cb }

/-- The map keeps the first expiry of an id, the multimap takes every one. -/
def registerInstrument (s : Sweeper ω) (id : InstrumentId) (expiry : ExpiryDate) : Sweeper ω :=
  { s with
    idToExpiry := emplace s.idToExpiry id expiry
    byExpiry := s.byExpiry.emplace expiry id }

/-- The loop over the range of the expiry stops at the first entry of the id. -/
def unregister (s : Sweeper ω) (id : InstrumentId) : Sweeper ω :=
  match s.idToExpiry.lookup id with
  | none => s
  | some expiry =>
    { s with
      byExpiry := s.byExpiry.eraseFirst expiry id
      idToExpiry := s.idToExpiry.erase id }

/-- `!(today < it->first)`. -/
def due (today expiry : ExpiryDate) : Bool := !decide (today < expiry)

/-- The loop of `sweep`, at the first entry that is left: what it leaves, the index, and `expired`.
-/
def collect (today : ExpiryDate) :
    List (ExpiryDate × InstrumentId) → (Finmap fun _ : InstrumentId => ExpiryDate) →
    List InstrumentId →
    List (ExpiryDate × InstrumentId) × (Finmap fun _ : InstrumentId => ExpiryDate)
      × List InstrumentId
  | [], index, expired => ([], index, expired)
  | (expiry, id) :: entries, index, expired =>
    if due today expiry then collect today entries (index.erase id) (expired ++ [id])
    else ((expiry, id) :: entries, index, expired)

/-- What the loop leaves is a tail of what there was. -/
theorem collect_suffix (today : ExpiryDate) (entries : List (ExpiryDate × InstrumentId))
    (index : Finmap fun _ : InstrumentId => ExpiryDate) (expired : List InstrumentId) :
    (collect today entries index expired).1 <:+ entries := by
  induction entries generalizing index expired with
  | nil => exact List.suffix_rfl
  | cons x entries ih =>
    rw [collect]
    split_ifs
    · exact (ih _ _).trans (List.suffix_cons x entries)
    · exact List.suffix_rfl

/-- `sweep`: the sweeper, what the callback has made of the outside, and `expired`. -/
def sweep (s : Sweeper ω) (outside : ω) (today : ExpiryDate) : Sweeper ω × ω × List InstrumentId :=
  let swept := collect today s.byExpiry.entries s.idToExpiry []
  ({ s with
      byExpiry := ⟨swept.1, s.byExpiry.sorted.sublist (collect_suffix _ _ _ _).sublist⟩
      idToExpiry := swept.2.1 },
    match s.callback with
    | none => outside
    | some cb => swept.2.2.foldl cb outside,
    swept.2.2)

def size (s : Sweeper ω) : ℕ := s.idToExpiry.keys.card

/-! ## Any calls

Whoever has a sweeper calls these, in any order. -/

/-- What is called. -/
inductive Call
  | registerInstrument (id : InstrumentId) (expiry : ExpiryDate)
  | unregister (id : InstrumentId)
  | sweep (today : ExpiryDate)

/-- One call, of a sweeper and what is outside. -/
def step (x : Sweeper ω × ω) : Call → Option (Sweeper ω × ω)
  | .registerInstrument id expiry => some (x.1.registerInstrument id expiry, x.2)
  | .unregister id => some (x.1.unregister id, x.2)
  | .sweep today => some ((x.1.sweep x.2 today).1, (x.1.sweep x.2 today).2.1)

end Sweeper

end Ordbk

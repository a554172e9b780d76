import Ordbk.Matching.Matcher

/-!
# Matching/Engine — routing by instrument

An `Engine` owns one book and matcher per instrument and refers to a pool that it may share with
other engines; the pool is passed in and out.  `bookPtrs` maps an id to the book it points to, named
by the id whose slot in `matchers` owns that book.
-/

namespace Ordbk

/-- The fields of an instrument the engine reads. -/
structure InstrumentSpec where
  id : InstrumentId

/-- What the engine reads of the registry. -/
structure InstrumentRegistry where
  instruments : List InstrumentSpec := []
  /-- An engine is built of a frozen registry only. -/
  frozen : Bool := false

def InstrumentRegistry.all (r : InstrumentRegistry) : List InstrumentSpec := r.instruments

/-- The books by instrument. -/
structure Engine where
  /-- The matchers, each told by its book. -/
  matchers : Finmap fun _ : InstrumentId => OrderBook := ∅
  /-- `book` looks here. -/
  bookPtrs : Finmap fun _ : InstrumentId => InstrumentId := ∅

namespace Engine

/-- The body of the constructor's loop. -/
def addBook (filter : InstrumentId → Bool) (e : Engine) (spec : InstrumentSpec) : Engine :=
  if filter spec.id then
    { matchers := emplace e.matchers spec.id { instrument := spec.id }
      bookPtrs := emplace e.bookPtrs spec.id spec.id }
  else e

/-- The constructor; without a filter every instrument is taken. -/
def new (registry : InstrumentRegistry) (filter : InstrumentId → Bool := fun _ => true) :
    Except String Engine :=
  if registry.frozen then .ok (registry.all.foldl (addBook filter) {})
  else .error "registry must be frozen before Engine creation"

/-- The matcher of an instrument, run on the pool. -/
def submit (e : Engine) (pool : Pool) (order : Slot) : Engine × Pool × MatchResult :=
  let i := (pool.storage order).instrument
  match e.matchers.lookup i with
  | none => (e, pool.modify order fun o => { o with status := .rejected }, ⟨order, []⟩)
  | some book =>
    let (m, result) := Matcher.submit ⟨book, pool⟩ order
    ({ e with matchers := e.matchers.insert i m.book }, m.pool, result)

/-- The matcher of the instrument cancels. -/
def cancel (e : Engine) (pool : Pool) (i : InstrumentId) (id : OrderId) : Engine × Pool × Bool :=
  match e.matchers.lookup i with
  | none => (e, pool, false)
  | some book =>
    let (m, found) := Matcher.cancel ⟨book, pool⟩ id
    ({ e with matchers := e.matchers.insert i m.book }, m.pool, found)

/-- Drain the book of the instrument, and forget matcher and book. -/
def expireInstrument (e : Engine) (pool : Pool) (i : InstrumentId) : Engine × Pool × Bool :=
  match e.matchers.lookup i with
  | none => (e, pool, false)
  | some book =>
    let m := Matcher.cancelAll ⟨book, pool⟩
    ({ matchers := e.matchers.erase i, bookPtrs := e.bookPtrs.erase i }, m.pool, true)

/-- The book of an instrument, through the pointer. -/
def book (e : Engine) (i : InstrumentId) : Option OrderBook :=
  (e.bookPtrs.lookup i).bind fun j => e.matchers.lookup j

def bookCount (e : Engine) : ℕ := e.bookPtrs.keys.card

end Engine

end Ordbk

import Ordbk.Abstract.Play
import Ordbk.Refinement.Desk
import Ordbk.Refinement.Floor
import Ordbk.Refinement.View

/-!
# Refinement/Recorded — what the callers of a matcher, or of an engine, get to see

A run of a desk or of a floor shows the calls made and their replies.  Seen so, a desk is one queue
book answering (`Desk.exists_path`), and a floor is one queue book per instrument, each answering
the calls about it and no others (`Floor.exists_paths`).
-/

namespace Ordbk

/-! ## One matcher

Seen from outside a desk is a queue book: slots, custody and the accounts do not show. -/

namespace Desk

variable {d d' : Desk} {b : QueueBook} {c : Call}

/-- The calls that are submissions and cancels, with their replies. -/
def shown (d : Desk) : Call → List Played
  | .submit a => [.submit (d.order a) ((d.matcher.submit a).1.pool.storage.data a)
      (d.matcher.submit a).2.trades]
  | .cancel id => [.cancel id (d.matcher.cancel id).2]
  | _ => []

/-- The book is not drained. -/
def Undrained (_ : Desk) : Call → Prop
  | .cancelAll => False
  | _ => True

instance (d : Desk) : (c : Call) → Decidable (d.Undrained c)
  | .cancelAll => isFalse id
  | .acquire | .write _ _ | .submit _ | .cancel _ | .release _ => isTrue trivial

/-- **A call is answered by the queue book.** -/
theorem Inv.path (h : d.Inv b) (hok : d.Undrained c) (hc : d.call c = some d') :
    Guarded.Path Answers (some b) (d.shown c) (some (d.next b c)) := by
  cases c with
  | acquire => exact .nil _
  | write a o => exact .nil _
  | release a => exact .nil _
  | cancelAll => exact hok.elim
  | submit a =>
    obtain ⟨⟨ha, h0⟩, -⟩ : (a ∈ d.held ∧ (d.order a).filledQty = 0) ∧ d.submit a = d' := by
      simpa [Desk.call] using hc
    obtain ⟨-, horder, hres⟩ := h.submit_moves ha h0
    simp only [shown, horder, hres]
    exact .cons (.submit h.wf (h.notMem ha) h0) (.nil _)
  | cancel id =>
    have hfound : (d.matcher.cancel id).2 = (b.cancel id).2.isSome := by
      obtain ⟨hl, hm⟩ | ⟨loc, e, hl, -, -, -, hm, -⟩ := cancel_moves h.rep h.wf id
      · rw [hm, QueueBook.cancel, hl]
        rfl
      · rw [hm, QueueBook.cancel, hl]
        rfl
    simp only [shown, hfound]
    exact .cons (.cancel h.wf) (.nil _)

/-- **A run of a matcher is a queue book answering.** -/
theorem exists_path {i : InstrumentId} {capacity : ℕ} {L : List Played}
    (h : Guarded.Trace Desk.call Undrained shown (start i capacity) L d) :
    ∃ b, d.Inv b ∧ Guarded.Path Answers (some ⟨i, [], [], ∅⟩) L (some b) :=
  h.invariant (I := fun L d => ∃ b, d.Inv b ∧ Guarded.Path Answers (some ⟨i, [], [], ∅⟩) L (some b))
    ⟨_, inv_start i capacity, .nil _⟩
    fun _ _ _ _ ⟨_, hb, hp⟩ hok hc => ⟨_, hb.call hc, hp.append (hb.path hok hc)⟩

/-- The book of a desk, slot addresses aside. -/
def snapshot (d : Desk) := d.matcher.book.snapshot d.matcher.pool

/-- Queue books that are alike show the same book. -/
theorem Inv.snapshot_eq {b' : QueueBook} (h : d.Inv b) (h' : d'.Inv b') (halike : b.Alike b') :
    d'.snapshot = d.snapshot :=
  h.rep.snapshot_eq h'.rep h.wf h.length_le h'.length_le halike

end Desk

/-! ## Many books

A call is about one instrument, and only that instrument's book hears of it. -/

/-- What is shown about one instrument. -/
def concerning (i : InstrumentId) (L : List (InstrumentId × Played)) : List Played :=
  (L.filter fun x => x.1 = i).map (·.2)

/-- What is shown about an instrument is shown in order. -/
theorem concerning_append (i : InstrumentId) (L M : List (InstrumentId × Played)) :
    concerning i (L ++ M) = concerning i L ++ concerning i M := by
  rw [concerning, List.filter_append, List.map_append]
  rfl

theorem concerning_singleton (i j : InstrumentId) (x : Played) :
    concerning i [(j, x)] = if j = i then [x] else [] := by
  by_cases h : j = i <;> simp [concerning, h]

namespace Floor

variable {f f' : Floor} {q : InstrumentId → QueueBook} {c : FloorCall} {i : InstrumentId}

/-- The calls to the engine, with their replies, each under its instrument. -/
def shown (f : Floor) : FloorCall → List (InstrumentId × Played)
  | .submit a => [((f.order a).instrument, .submit (f.order a)
      ((f.engine.submit f.pool a).2.1.storage.data a) (f.engine.submit f.pool a).2.2.trades)]
  | .cancel i id => [(i, .cancel id (f.engine.cancel f.pool i id).2.2)]
  | .expire i => [(i, .expire (f.engine.expireInstrument f.pool i).2.2)]
  | _ => []

/-- The queue book of an instrument, if there is one. -/
def bookOf (f : Floor) (q : InstrumentId → QueueBook) (i : InstrumentId) : Option QueueBook :=
  (f.engine.books i).map fun _ => q i

/-- Each instrument's book answers the calls about it. -/
abbrev Answer (f : Floor) (q : InstrumentId → QueueBook) (L : List (InstrumentId × Played))
    (f' : Floor) (q' : InstrumentId → QueueBook) : Prop :=
  ∀ i, Guarded.Path Answers (f.bookOf q i) (concerning i L) (f'.bookOf q' i)

/-- A call about one instrument, answered by its book. -/
theorem answer_of_touched {j : InstrumentId} {x : Played} {b : QueueBook}
    (hother : ∀ i, i ≠ j → f'.engine.books i = f.engine.books i)
    (hj : Answers (f.bookOf q j) x (f'.bookOf (Function.update q j b) j)) :
    f.Answer q [(j, x)] f' (Function.update q j b) := by
  intro i
  rw [concerning_singleton]
  by_cases hi : j = i
  · subst hi
    rw [if_pos rfl]
    exact .cons hj (.nil _)
  · rw [if_neg hi, bookOf, bookOf, hother i (Ne.symm hi), Function.update_of_ne (Ne.symm hi)]
    exact .nil _

/-- A submission is answered by the book of the order's instrument. -/
theorem Inv.answer_submit (h : f.Inv q) {a : Slot} (ha : a ∈ f.held)
    (h0 : (f.order a).filledQty = 0) :
    f.Answer q (f.shown (.submit a)) (f.submit a)
      (Function.update q (f.order a).instrument (submitOutcome f.engine q a (f.order a)).book) := by
  have ho := OrderData.sound_of_fresh h0
  obtain ⟨-, hdata, hres⟩ := h.custody.engineSubmit (e := f.engine) rfl ha rfl ho
  have ht := f.engine.touches_submit f.pool a
  refine answer_of_touched ht.other ?_
  have horder : (f.engine.submit f.pool a).2.1.storage.data a
      = (submitOutcome f.engine q a (f.order a)).order := hdata
  have htrades : (f.engine.submit f.pool a).2.2.trades
      = (submitOutcome f.engine q a (f.order a)).trades := congrArg MatchResult.trades hres
  have hsome : ((f.submit a).engine.books (f.order a).instrument).isSome
      = (f.engine.books (f.order a).instrument).isSome := ht.isSome _
  rw [horder, htrades, bookOf, bookOf, Function.update_self]
  unfold submitOutcome
  cases hb : f.engine.matchers.lookup (f.order a).instrument with
  | none =>
    have hb' : f.engine.books (f.order a).instrument = none := hb
    rw [hb'] at hsome ⊢
    rw [Option.isSome_eq_false_iff.mp hsome |> Option.isNone_iff_eq_none.mp]
    exact .submitNone
  | some hbook =>
    have hb' : f.engine.books (f.order a).instrument = some hbook := hb
    rw [hb'] at hsome ⊢
    obtain ⟨hbook', hb''⟩ := Option.isSome_iff_exists.mp hsome
    rw [hb'']
    exact .submit (h.custody.wf _) (h.custody.notMem_slots_of_held ha) h0

/-- A cancel is answered by the book it names. -/
theorem Inv.answer_cancel (h : f.Inv q) (i : InstrumentId) (id : OrderId)
    (hc : f.call (.cancel i id) = some f') :
    f.Answer q (f.shown (.cancel i id)) f' (Function.update q i ((q i).cancel id).1) := by
  have hengine : f'.engine = (f.engine.cancel f.pool i id).1 := by
    obtain rfl := Option.some.inj hc
    rfl
  have ht : Engine.Touches i f.engine f'.engine := hengine ▸ f.engine.touches_cancel f.pool i id
  refine answer_of_touched ht.other ?_
  obtain ⟨-, hfound, -⟩ := h.custody.engineCancel (e := f.engine) (i := i) rfl id
  have hsome : (f'.engine.books i).isSome = (f.engine.books i).isSome := ht.isSome i
  rw [hfound, bookOf, bookOf, Function.update_self]
  cases hb : f.engine.books i with
  | none =>
    rw [hb] at hsome
    rw [Option.isSome_eq_false_iff.mp hsome |> Option.isNone_iff_eq_none.mp,
      h.custody.cancel_of_none hb]
    exact .cancelNone
  | some hbook =>
    rw [hb] at hsome
    obtain ⟨hbook', hb'⟩ := Option.isSome_iff_exists.mp hsome
    rw [hb']
    exact .cancel (h.custody.wf i)

/-- **A call is answered by its instrument's book**, and by no other. -/
theorem Inv.answer (h : f.Inv q) (hc : f.call c = some f') :
    ∃ q', f'.Inv q' ∧ f.Answer q (f.shown c) f' q' := by
  cases c with
  | acquire =>
    obtain ⟨⟨a, pool⟩, hacq, rfl⟩ := Option.map_eq_some_iff.mp hc
    exact ⟨q, h.repool (h.custody.acquire hacq), fun i => .nil _⟩
  | write a o =>
    obtain ⟨ha, rfl⟩ : a ∈ f.held ∧ _ = f' := by simpa [Floor.call] using hc
    exact ⟨q, h.repool (h.custody.write ha o), fun i => .nil _⟩
  | submit a =>
    obtain ⟨⟨ha, h0⟩, rfl⟩ : (a ∈ f.held ∧ (f.order a).filledQty = 0) ∧ f.submit a = f' := by
      simpa [Floor.call] using hc
    obtain ⟨hinv, hdata⟩ := EngineInv.submit h ha rfl (OrderData.sound_of_fresh h0)
    rw [← hdata] at hinv
    exact ⟨_, hinv, h.answer_submit ha h0⟩
  | cancel i id =>
    refine ⟨_, ?_, h.answer_cancel i id hc⟩
    obtain rfl := Option.some.inj hc
    exact EngineInv.cancel h i id
  | expire i =>
    cases hl : f.engine.matchers.lookup i with
    | none =>
      have hfalse : (f.engine.expireInstrument f.pool i).2.2 = false := by
        simp only [Engine.expireInstrument, hl]
      obtain rfl : f = f' := by
        simpa only [Floor.call, Engine.expireInstrument, hl, Option.some.injEq] using hc
      refine ⟨q, h, ?_⟩
      have hans : f.Answer q [(i, .expire false)] f (Function.update q i (q i)) :=
        answer_of_touched (fun _ _ => rfl) ?_
      · simpa only [shown, hfalse, Function.update_eq_self] using hans
      · have hb : f.engine.books i = none := hl
        rw [bookOf, bookOf, hb]
        exact .expireNone
    | some hb =>
      have htrue : (f.engine.expireInstrument f.pool i).2.2 = true := by
        simp only [Engine.expireInstrument, hl]
      obtain rfl := Option.some.inj hc
      have hbooks : (f.engine.expireInstrument f.pool i).1.books
          = Function.update f.engine.books i none := by
        simp only [Engine.expireInstrument, hl]
        exact EngineInv.books_erase _ _ _
      refine ⟨_, EngineInv.expire h hl, ?_⟩
      simp only [shown, htrue]
      refine answer_of_touched (fun j hj => ?_) ?_
      · change (f.engine.expireInstrument f.pool i).1.books j = _
        rw [hbooks, Function.update_of_ne hj]
      · have hb' : f.engine.books i = some hb := hl
        have hnone : (f.engine.expireInstrument f.pool i).1.books i = none := by
          rw [hbooks, Function.update_self]
        change Answers _ _ (((f.engine.expireInstrument f.pool i).1.books i).map _)
        rw [bookOf, hb', hnone]
        exact .expire
  | release a =>
    obtain ⟨ha, rfl⟩ : a ∈ f.held ∧ _ = f' := by
      simpa only [Floor.call, Option.ite_none_right_eq_some, Option.some.injEq] using hc
    exact ⟨q, h.repool (h.custody.release ha), fun i => .nil _⟩

/-- **A run of an engine is its books answering**, each on its own. -/
theorem exists_paths {r : InstrumentRegistry} {filter : InstrumentId → Bool} {e : Engine}
    {capacity : ℕ} {ok : Floor → FloorCall → Prop} {L : List (InstrumentId × Played)}
    (hnew : Engine.new r filter = .ok e)
    (h : Guarded.Trace Floor.call ok shown (start e capacity) L f) :
    ∃ q, f.Inv q ∧ ∀ i, Guarded.Path Answers ((e.books i).map fun _ => ⟨i, [], [], ∅⟩)
      (concerning i L) (f.bookOf q i) :=
  h.invariant (I := fun L f => ∃ q, f.Inv q ∧ ∀ i, Guarded.Path Answers
      ((e.books i).map fun _ => ⟨i, [], [], ∅⟩) (concerning i L) (f.bookOf q i))
    ⟨_, engineInv_new hnew, fun i => .nil _⟩
    fun L f c f' ⟨q, hq, hp⟩ _ hc => by
      obtain ⟨q', hq', hans⟩ := hq.answer hc
      refine ⟨q', hq', fun i => ?_⟩
      rw [concerning_append]
      exact (hp i).append (hans i)

end Floor

end Ordbk

import Ordbk.Refinement.Engine
import Ordbk.Matching.Floor

/-!
# Refinement/Floor — the books behind any caller

Whatever the callers of an engine do, every book is a queue book and the slots in the callers' hands
are nobody else's.
-/

namespace Ordbk

namespace Floor

variable {f f' : Floor} {q : InstrumentId → QueueBook} {c : FloorCall}

abbrev Inv (f : Floor) (q : InstrumentId → QueueBook) : Prop := EngineInv f.engine f.pool q f.held

/-- **One call keeps the books in order.** -/
theorem Inv.call (h : f.Inv q) (hc : f.call c = some f') : ∃ q', f'.Inv q' := by
  cases c with
  | acquire =>
    obtain ⟨⟨a, pool⟩, hacq, rfl⟩ := Option.map_eq_some_iff.mp hc
    exact ⟨q, h.repool (h.custody.acquire hacq)⟩
  | write a o =>
    obtain ⟨ha, rfl⟩ : a ∈ f.held ∧ _ = f' := by simpa [Floor.call] using hc
    exact ⟨q, h.repool (h.custody.write ha o)⟩
  | submit a =>
    obtain ⟨⟨ha, h0⟩, rfl⟩ : (a ∈ f.held ∧ (f.order a).filledQty = 0) ∧ f.submit a = f' := by
      simpa [Floor.call] using hc
    obtain ⟨hinv, hdata⟩ := EngineInv.submit h ha rfl (OrderData.sound_of_fresh h0)
    rw [← hdata] at hinv
    exact ⟨_, hinv⟩
  | cancel i id =>
    obtain rfl := Option.some.inj hc
    exact ⟨_, EngineInv.cancel h i id⟩
  | expire i =>
    cases hl : f.engine.matchers.lookup i with
    | none =>
      obtain rfl : f = f' := by
        simpa only [Floor.call, Engine.expireInstrument, hl, Option.some.injEq] using hc
      exact ⟨q, h⟩
    | some hb =>
      obtain rfl := Option.some.inj hc
      exact ⟨_, EngineInv.expire h hl⟩
  | release a =>
    obtain ⟨ha, rfl⟩ : a ∈ f.held ∧ _ = f' := by
      simpa only [Floor.call, Option.ite_none_right_eq_some, Option.some.injEq] using hc
    exact ⟨q, h.repool (h.custody.release ha)⟩

theorem exists_inv {r : InstrumentRegistry} {filter : InstrumentId → Bool} {e : Engine}
    {capacity : ℕ} {ok : Floor → FloorCall → Prop} (hnew : Engine.new r filter = .ok e)
    (h : Guarded.Reach Floor.call ok (start e capacity) f) : ∃ q, f.Inv q :=
  h.invariant (I := fun f => ∃ q, f.Inv q) ⟨_, engineInv_new hnew⟩
    fun _ _ _ ⟨_, hq⟩ _ hc => hq.call hc

end Floor

end Ordbk

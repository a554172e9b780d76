import Ordbk.Abstract.Restore
import Ordbk.Theorems.BookShape
import Ordbk.Theorems.Futures

/-!
# Theorems/Restoring — a book is what is left of its orders

Take the orders at rest in a matcher, best bids first and then best asks, and submit what remains of
each to a fresh one (`restored_of_traces`): nobody trades, all come to rest, and from then on the
two matchers give the same replies to the same calls.
-/

namespace Ordbk

namespace Desk

variable {d d' e e' : Desk} {b : QueueBook} {R L M : List Played}

/-- What is left of the orders at rest, the bids and then the asks, best first. -/
def leftovers (d : Desk) : List OrderData :=
  (d.matcher.book.restingSlots d.matcher.pool).map fun c => (d.order c).restored

theorem Inv.leftovers_eq (h : d.Inv b) : d.leftovers = b.leftovers .buy ++ b.leftovers .sell := by
  unfold leftovers
  rw [h.rep.restingSlots_eq h.wf.sorted h.length_le, QueueBook.slots, List.map_map,
    QueueBook.resting, List.map_append]
  have hside : ∀ s, (b.side s).map ((fun c => (d.order c).restored) ∘ fun e => e.slot)
      = b.leftovers s := fun s =>
    List.map_congr_left fun e he => congrArg OrderData.restored (h.rep.data_side he)
  exact congrArg₂ _ (hside .buy) (hside .sell)

/-- **A matcher restored from what is left of its orders** is as good as the old one. -/
theorem restored_of_traces {i : InstrumentId} {capacity capacity' : ℕ}
    (hd : Guarded.Reach Desk.call (fun d c => d.FreshIds c ∧ d.DeclaredOnly c) (start i capacity) d)
    (he : Guarded.Trace Desk.call FreshIds shown (start i capacity') R e)
    (hR : R.map Played.call = d.leftovers.map .submit) :
    (∀ x ∈ R, x.trades = []) ∧ (∀ s, e.interests s = d.interests s)
      ∧ ∀ L M d' e', Guarded.Trace Desk.call Undrained shown d L d' →
        Guarded.Trace Desk.call Undrained shown e M e' →
        M.map Played.call = L.map Played.call → M = L := by
  obtain ⟨b, hb, rfl, hall⟩ := exists_inv (J := QueueBook.All Plain) (QueueBook.all_new i)
    (fun _ _ _ _ hb hall hok hc => all_plain_next hb hall hok.2 hc) hd
  have hundrained : ∀ d c, FreshIds d c → Undrained d c := fun d c hok => by
    cases c with
    | cancelAll => exact hok
    | acquire | write _ _ | submit _ | cancel _ | release _ => trivial
  obtain ⟨c, hc, hpath⟩ := exists_path (he.mono hundrained)
  rw [hb.leftovers_eq] at hR
  obtain ⟨c', hc', htrades, hinst, hint⟩ := QueueBook.restores hb.wf hall hpath hR
  obtain rfl := Option.some.inj hc'
  have hsame : ∀ s, e.interests s = d.interests s := fun s => by
    rw [hc.interests_eq, hb.interests_eq, hint]
  refine ⟨htrades, hsame, fun L M d' e' hL hM hcalls => ?_⟩
  exact (sameFuture_of_reach (hd.mono fun _ _ h => h.1) he.reach hsame hL hM hcalls).1

/-- A bid half filled and an ask behind it, each submitted again. -/
theorem restored_of_half : ∃ d e R,
    Guarded.Reach Desk.call (fun d c => d.FreshIds c ∧ d.DeclaredOnly c) (start 1 4) d
      ∧ Guarded.Trace Desk.call FreshIds shown (start 1 4) R e
      ∧ d.interests .buy = [⟨1, 100, 6⟩] ∧ d.interests .sell = [⟨3, 105, 5⟩]
      ∧ (∀ x ∈ R, x.trades = []) ∧ (∀ s, e.interests s = d.interests s)
      ∧ ∀ L M d' e', Guarded.Trace Desk.call Undrained shown d L d' →
        Guarded.Trace Desk.call Undrained shown e M e' →
        M.map Played.call = L.map Played.call → M = L := by
  have hrun : ((Guarded.run Desk.call (fun d c => d.FreshIds c ∧ d.DeclaredOnly c) (start 1 4)
      [.acquire, .write 3 { id := 1, limitPrice := 100, initialQty := 10, instrument := 1 },
        .submit 3, .acquire,
        .write 2 { id := 2, limitPrice := 99, initialQty := 4, instrument := 1, side := .sell },
        .submit 2, .acquire,
        .write 1 { id := 3, limitPrice := 105, initialQty := 5, instrument := 1, side := .sell },
        .submit 1]).bind fun d =>
      (Guarded.record Desk.call FreshIds shown (start 1 4)
        [.acquire, .write 3 { id := 1, limitPrice := 100, initialQty := 6, instrument := 1 },
          .submit 3, .acquire,
          .write 2 { id := 3, limitPrice := 105, initialQty := 5, instrument := 1, side := .sell },
          .submit 2]).map fun r =>
        decide (d.interests .buy = [⟨1, 100, 6⟩] ∧ d.interests .sell = [⟨3, 105, 5⟩]
          ∧ r.1.map Played.call = d.leftovers.map .submit)) = some true := by decide +kernel
  obtain ⟨d, hd, hrun⟩ := Option.bind_eq_some_iff.mp hrun
  obtain ⟨⟨R, e⟩, he, hval⟩ := Option.map_eq_some_iff.mp hrun
  obtain ⟨hbuy, hsell, hR⟩ := of_decide_eq_true hval
  have hd := Guarded.Reach.of_run hd
  have he := Guarded.Trace.of_record he
  exact ⟨d, e, R, hd, he, hbuy, hsell, restored_of_traces hd he hR⟩

end Desk

end Ordbk

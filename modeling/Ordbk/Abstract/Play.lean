import Ordbk.Abstract.Rename
import Ordbk.Lib.Trace

/-!
# Abstract/Play — calls into a book and what they return

`Answers s x s'`: the call and reply `x` lead a book from `s` to `s'`.  A book that has been
expired, or never was, is `none`: it rejects every order and finds nothing.  The slot an order is
put into is not part of the call, and `Answers.alike` says why it need not be: the replies do not
depend on it.
-/

namespace Ordbk

/-- A call into a book. -/
inductive BookCall
  | submit (o : OrderData)
  | cancel (id : OrderId)
  | expire
  deriving DecidableEq, Repr

/-- A call with its reply: the order afterwards and its executions, or whether there was anything
to cancel or expire. -/
inductive Played
  | submit (o after : OrderData) (trades : List Trade)
  | cancel (id : OrderId) (found : Bool)
  | expire (found : Bool)
  deriving DecidableEq, Repr

namespace Played

def call : Played → BookCall
  | submit o _ _ => .submit o
  | cancel id _ => .cancel id
  | expire _ => .expire

/-- The executions of a call. -/
def trades : Played → List Trade
  | submit _ _ trades => trades
  | _ => []

/-- The id a call submits. -/
def submitted : Played → Option OrderId
  | submit o _ _ => some o.id
  | _ => none

end Played

open QueueBook

/-- **What a book answers.** -/
inductive Answers : Option QueueBook → Played → Option QueueBook → Prop
  | submit {b : QueueBook} {a : Slot} {o : OrderData} : b.WF → a ∉ b.slots → o.filledQty = 0 →
      Answers (some b) (.submit o (b.submit a o).order (b.submit a o).trades)
        (some (b.submit a o).book)
  | cancel {b : QueueBook} {id : OrderId} : b.WF →
      Answers (some b) (.cancel id (b.cancel id).2.isSome) (some (b.cancel id).1)
  | expire {b : QueueBook} : Answers (some b) (.expire true) none
  | submitNone {o : OrderData} : Answers none (.submit o (o.withStatus .rejected) []) none
  | cancelNone {id : OrderId} : Answers none (.cancel id false) none
  | expireNone : Answers none (.expire false) none

/-- **Alike books answer alike.** -/
theorem Answers.alike {s s' t t' : Option QueueBook} {x y : Played} (hR : Option.Rel Alike s t)
    (h : Answers s x s') (h' : Answers t y t') (hc : x.call = y.call) :
    x = y ∧ Option.Rel Alike s' t' := by
  cases hR with
  | none =>
    cases h with
    | submitNone =>
      cases h' with
      | submitNone =>
        obtain rfl := BookCall.submit.inj hc
        exact ⟨rfl, .none⟩
      | cancelNone => cases hc
      | expireNone => cases hc
    | cancelNone =>
      cases h' with
      | submitNone => cases hc
      | cancelNone =>
        obtain rfl := BookCall.cancel.inj hc
        exact ⟨rfl, .none⟩
      | expireNone => cases hc
    | expireNone =>
      cases h' with
      | submitNone => cases hc
      | cancelNone => cases hc
      | expireNone => exact ⟨rfl, .none⟩
  | some halike =>
    cases h with
    | submit hw ha h0 =>
      cases h' with
      | submit _ ha' _ =>
        obtain rfl := BookCall.submit.inj hc
        obtain ⟨hbook, horder, htrades⟩ := halike.submit hw ha ha' _
        exact ⟨by rw [horder, htrades], .some hbook⟩
      | cancel => cases hc
      | expire => cases hc
    | cancel hw =>
      cases h' with
      | submit => cases hc
      | cancel _ =>
        obtain rfl := BookCall.cancel.inj hc
        obtain ⟨hbook, hfound⟩ := halike.cancel _
        exact ⟨by rw [hfound], .some hbook⟩
      | expire => cases hc
    | expire =>
      cases h' with
      | submit => cases hc
      | cancel => cases hc
      | expire => exact ⟨rfl, .none⟩

/-- **The same calls are answered the same**, and leave the same book, slot addresses aside. -/
theorem alike_of_calls {s s' t t' : Option QueueBook} {L M : List Played}
    (hR : Option.Rel Alike s t) (h : Guarded.Path Answers s L s') (h' : Guarded.Path Answers t M t')
    (hc : L.map Played.call = M.map Played.call) : L = M ∧ Option.Rel Alike s' t' := by
  obtain ⟨hB, hrel⟩ := Guarded.Path.lockstep (B := Eq)
    (fun _ _ _ _ _ _ _ hR hx hy hxy => hx.alike hR hy hxy) hR h h'
    (Guarded.forall₂_of_map_eq hc)
  exact ⟨List.forall₂_eq_eq_eq ▸ hB, hrel⟩

end Ordbk

import Ordbk.Refinement.Passes
import Ordbk.Refinement.Engine
import Ordbk.Gateway.Server

/-!
# Refinement/Threads — how far a thread has got, and what it still owes

`Debt` is what a request under way will have done when it is over: the book it leaves, the replies
and executions still to come, the slot it never gives back.  `Owes` says of each place in the
handler how the debt follows from the book as it is; it looks at that book and at the slots in the
thread's hands, and at nothing else (`Owes.frame`).
-/

namespace Ordbk

open QueueBook (Result)

/-- **What a request under way has yet to do.** -/
structure Debt where
  /-- The book as the request will leave it. -/
  book : QueueBook
  /-- What it will have told its client. -/
  reply : Session → Session
  /-- The executions it has still to make. -/
  trades : List Trade
  /-- The slots it will keep for ever. -/
  left : List Slot

/-- The same debt, seen from another book. -/
def Debt.onto (d : Debt) (b : QueueBook) : Debt := { d with book := b }

/-- The debt of a submission with this result, the executions in `rest` still to come. -/
def Ticket.debt (t : Ticket) (e : Engine) (r : Result) (rest : List Trade) : Debt where
  book := r.book
  reply s := Dispatcher.report s t.msg e r.order.status r.trades
  trades := rest
  left := if r.order.leaks then [t.order] else []

/-- A ticket with one more execution. -/
def Ticket.noted (t : Ticket) (trade : Trade) : Ticket := { t with trades := t.trades ++ [trade] }

/-- Queues in order, with distinct slots. -/
structure QueueBook.Tidy (b : QueueBook) : Prop where
  /-- The queues are in priority order. -/
  sorted : ∀ s, Priority.Sorted Resting.price (better s) (b.side s)
  /-- And no slot is in them twice. -/
  nodup : b.slots.Nodup

/-- **A book in the middle of a matching loop**, for the taker `o` in slot `a`. -/
structure Sweeping (b : QueueBook) (a : Slot) (o : OrderData) : Prop extends b.Tidy where
  /-- Whoever is on the other side can be traded with. -/
  isOpen : ∀ e ∈ b.side (opposite o.side), e.order.Open
  /-- The order is not in the book itself. -/
  out : a ∉ b.slots
  /-- And is filled no further than it wants. -/
  sound : o.Sound

namespace QueueBook.Tidy

variable {b : QueueBook} {s : Side} {c : Resting} {ms : List Resting}

/-- Without the head of a side. -/
theorem popped (h : b.Tidy) (hc : b.side s = c :: ms) : (b.popped s c ms).Tidy where
  sorted := sorted_popped h.sorted hc
  nodup := nodup_popped h.nodup hc

/-- With the head of a side rewritten. -/
theorem withHead (h : b.Tidy) (hc : b.side s = c :: ms) {c' : Resting} (hslot : c'.slot = c.slot)
    (hprice : c'.price = c.price) : (b.withSide s (c' :: ms)).Tidy :=
  ⟨sorted_withHead h.sorted hc c' hprice, (slots_withHead hc c' hslot).symm ▸ h.nodup⟩

end QueueBook.Tidy

section Sweeping

variable {b : QueueBook} {a : Slot} {o : OrderData} {c : Resting} {ms : List Resting}

/-- A maker is used up. -/
theorem Sweeping.take (h : Sweeping b a o) (hc : b.side (opposite o.side) = c :: ms)
    (hle : c.order.remaining ≤ o.remaining) :
    Sweeping (b.popped (opposite o.side) c ms) a (o.fill c.order.remaining) where
  toTidy := h.toTidy.popped hc
  isOpen m hm := by
    have hside : (b.popped (opposite o.side) c ms).side (opposite o.side) = ms := by
      rw [side_popped, if_pos (show SameSide _ _ from Iff.rfl)]
    exact h.isOpen m (hc ▸ List.mem_cons_of_mem _ (hside ▸ hm))
  out ha := h.out ((slots_popped_perm hc).mem_iff.mpr (List.mem_cons_of_mem _ ha))
  sound := h.sound.fill hle

/-- A maker is filled in part, and the taker to the end. -/
theorem Sweeping.part (h : Sweeping b a o) (hc : b.side (opposite o.side) = c :: ms)
    (hlt : o.remaining < c.order.remaining) :
    Sweeping (b.withSide (opposite o.side) (c.partly o.remaining :: ms)) a o.full where
  toTidy := h.toTidy.withHead hc rfl rfl
  isOpen m hm := by
    have hside : (b.withSide (opposite o.side) (c.partly o.remaining :: ms)).side (opposite o.side)
        = c.partly o.remaining :: ms := by
      rw [QueueBook.side_withSide, if_pos (show SameSide _ _ from Iff.rfl)]
    have hopen := h.isOpen c (hc ▸ List.mem_cons_self)
    rcases List.mem_cons.mp (hside ▸ hm) with rfl | hm
    · exact hopen.sound.open_fill hlt
    · exact h.isOpen m (hc ▸ List.mem_cons_of_mem _ hm)
  out ha := h.out (slots_withHead hc (c.partly o.remaining) rfl ▸ ha)
  sound := UInt64.le_refl _

end Sweeping

/-! ## No slot out of nowhere

Whatever a request does, the slots of its book were there before or in its hands. -/

section Slots

variable {b : QueueBook} {a : Slot} {o : OrderData} {ts : List Trade}

/-- Sweeping brings none in. -/
theorem Sweeping.slots_entered (h : Sweeping b a o) : (b.entered o).slots ⊆ b.slots := by
  intro c hc
  obtain ⟨s, m, hm, rfl⟩ := QueueBook.mem_slots.mp hc
  change m ∈ (b.swept (opposite o.side) (b.entry o)).side s at hm
  rw [QueueBook.side_swept] at hm
  split_ifs at hm with hs
  · have hmem : m.ident ∈ (b.side (opposite o.side)).map Resting.ident := by
      rw [← ident_sweep_makers h.sound h.isOpen]
      exact List.mem_map_of_mem (List.mem_append_right _ hm)
    obtain ⟨m₀, hm₀, hid⟩ := List.mem_map.mp hmem
    exact QueueBook.mem_slots.mpr ⟨_, m₀, hm₀, congrArg Prod.fst hid⟩
  · exact QueueBook.mem_slots.mpr ⟨s, m, hm, rfl⟩

/-- Coming to rest brings in the order's own. -/
theorem QueueBook.slots_concluded : (b.concluded a o ts).book.slots ⊆ a :: b.slots := by
  unfold concluded
  split_ifs
  · exact List.subset_cons_self _ _
  · exact List.subset_cons_self _ _
  · exact (QueueBook.slots_rest_perm b ⟨a, o.withStatus o.restStatus⟩).subset

theorem Sweeping.slots_onward (h : Sweeping b a o) : (b.onward a o ts).book.slots ⊆ a :: b.slots :=
  fun _ hc => List.cons_subset_cons a h.slots_entered (QueueBook.slots_concluded hc)

/-- So does a whole submission. -/
theorem slots_submitOutcome {e : Engine} (hw : b.WF) (ho : o.Sound) :
    (submitOutcome e (fun _ => b) a o).book.slots ⊆ a :: b.slots := by
  unfold submitOutcome
  cases e.matchers.lookup o.instrument with
  | none => exact List.subset_cons_self _ _
  | some hb =>
    intro c hc
    have hperm := (QueueBook.slots_submit_perm (a := a) hw ho).subset (List.mem_append_right _ hc)
    split_ifs at hperm
    · exact hperm
    · exact List.mem_cons_of_mem _ hperm

end Slots

/-! ## Places

A thread is somewhere in the handler, with some locals; from there on what it does depends on its
book alone. -/

/-- **How far a submission has got** on its way to the result `r`, and which slots it has in hand.
Which books there are is told from the engine `e`. -/
inductive Stage (e : Engine) (st : Store) (b : QueueBook) (r : Result) (t : Ticket) :
    Thread → List Slot → Prop
  | entering {o : OrderData} (data : st.data t.order = o) (fresh : o.filledQty = 0)
      (inst : o.instrument = t.msg.instrumentId) (wf : b.WF) (out : t.order ∉ b.slots)
      (none : t.trades = []) (result : r = (submitOutcome e (fun _ => b) t.order o).result) :
      Stage e st b r t (.entering t) [t.order]
  | looking {o : OrderData} (data : st.data t.order = o) (mid : Sweeping b t.order o)
      (result : r = b.onward t.order o t.trades) : Stage e st b r t (.looking t) [t.order]
  | filling {o : OrderData} {k : Resting} {ms : List Resting} (data : st.data t.order = o)
      (mid : Sweeping b t.order o) (top : b.side (opposite o.side) = k :: ms)
      (go : ¬ Stops o (k :: ms)) (result : r = b.onward t.order o t.trades) :
      Stage e st b r t (.filling t k.slot k.price (qtyMin o.remaining k.order.remaining)) [t.order]
  | hitting {o : OrderData} {k : Resting} {ms : List Resting}
      (data : st.data t.order = o.fill (qtyMin o.remaining k.order.remaining))
      (mid : Sweeping b t.order o) (top : b.side (opposite o.side) = k :: ms)
      (go : ¬ Stops o (k :: ms)) (result : r = b.onward t.order o t.trades) :
      Stage e st b r t (.hitting t k.slot k.price (qtyMin o.remaining k.order.remaining)) [t.order]
  | popping {o : OrderData} {k : Resting} {ms : List Resting} (data : st.data t.order = o)
      (tidy : b.Tidy) (top : b.side (opposite o.side) = k :: ms)
      (mid : Sweeping (b.popped (opposite o.side) k ms) t.order o)
      (result : r = (b.popped (opposite o.side) k ms).onward t.order o t.trades) :
      Stage e st b r t (.popping t k.slot) [t.order]
  | freeing {o : OrderData} {maker : Slot} (data : st.data t.order = o)
      (mid : Sweeping b t.order o) (ne : maker ≠ t.order)
      (result : r = b.onward t.order o t.trades) :
      Stage e st b r t (.freeing t maker) [maker, t.order]
  | resting {o : OrderData} (data : st.data t.order = o) (tidy : b.Tidy) (out : t.order ∉ b.slots)
      (rests : o.rests = true) (result : r = ⟨b.rest ⟨t.order, o⟩, o, t.trades⟩) :
      Stage e st b r t (.resting t) [t.order]
  | rested (mem : t.order ∈ b.slots) (rests : (st.data t.order).rests = true)
      (result : r = ⟨b, st.data t.order, t.trades⟩) : Stage e st b r t (.replying t) []
  | ended (rests : (st.data t.order).rests = false)
      (result : r = ⟨b, st.data t.order, t.trades⟩) : Stage e st b r t (.replying t) [t.order]

/-- **What a thread owes**, and which slots it has in hand. -/
inductive Owes (e : Engine) (st : Store) (b : QueueBook) : Thread → Debt → List Slot → Prop
  | idle {left : List Slot} : Owes e st b .idle ⟨b, id, [], left⟩ []
  | order {t : Ticket} {r : Result} {rest : List Trade} {th : Thread} {hands : List Slot}
      (stage : Stage e st b r t th hands) (trades : r.trades = t.trades ++ rest) :
      Owes e st b th (t.debt e r rest) hands
  | closing {t : Ticket} : Owes e st b (.closing t) ⟨b, id, [], []⟩ [t.order]
  | cancelling {m : CancelOrderMsg} (wf : b.WF) : Owes e st b (.cancelling m)
      ⟨(b.cancel m.clientOrderId).1, fun s => s.emit
        (if (b.cancel m.clientOrderId).2.isSome then .cancelled ⟨m.clientOrderId⟩
          else .orderReject ⟨m.clientOrderId, .unknown⟩), [], []⟩ []
  | returning {m : CancelOrderMsg} {o : Slot} : Owes e st b (.returning m o)
      ⟨b, fun s => s.emit (.cancelled ⟨m.clientOrderId⟩), [], []⟩ [o]

variable {e : Engine} {st st' : Store} {b : QueueBook} {r : Result} {t : Ticket} {th : Thread}
  {hands : List Slot} {d : Debt}

/-- The book and the hands are all a submission looks at. -/
theorem Stage.frame (h : Stage e st b r t th hands) (hst : ∀ c ∈ b.slots ++ hands, st' c = st c) :
    Stage e st' b r t th hands := by
  have hdata : t.order ∈ b.slots ++ hands → st'.data t.order = st.data t.order := fun hc =>
    Store.data_congr (hst _ hc)
  cases h with
  | entering data fresh inst wf out none result =>
    exact .entering ((hdata (by simp)).trans data) fresh inst wf out none result
  | looking data mid result => exact .looking ((hdata (by simp)).trans data) mid result
  | filling data mid top go result =>
    exact .filling ((hdata (by simp)).trans data) mid top go result
  | hitting data mid top go result =>
    exact .hitting ((hdata (by simp)).trans data) mid top go result
  | popping data tidy top mid result =>
    exact .popping ((hdata (by simp)).trans data) tidy top mid result
  | freeing data mid ne result => exact .freeing ((hdata (by simp)).trans data) mid ne result
  | resting data tidy out rests result =>
    exact .resting ((hdata (by simp)).trans data) tidy out rests result
  | rested mem rests result =>
    rw [← hdata (by simp [mem])] at rests result
    exact .rested mem rests result
  | ended rests result =>
    rw [← hdata (by simp)] at rests result
    exact .ended rests result

/-- **The book and the hands are all a thread looks at.** -/
theorem Owes.frame (h : Owes e st b th d hands) (hst : ∀ c ∈ b.slots ++ hands, st' c = st c) :
    Owes e st' b th d hands := by
  cases h with
  | idle => exact .idle
  | order stage trades => exact .order (stage.frame hst) trades
  | closing => exact .closing
  | cancelling wf => exact .cancelling wf
  | returning => exact .returning

/-- What is kept for ever is in hand. -/
theorem Owes.left_subset (h : Owes e st b th d hands) (hth : th ≠ .idle) : d.left ⊆ hands := by
  cases h with
  | idle => exact absurd rfl hth
  | @order t r rest _ _ stage trades =>
    change (if r.order.leaks then [t.order] else []) ⊆ hands
    cases stage with
    | rested mem rests result =>
      have hleaks : r.order.leaks = false := by
        rw [result, OrderData.leaks, rests, Bool.not_true, Bool.and_false]
      rw [hleaks, if_neg Bool.false_ne_true]
      exact List.nil_subset _
    | _ => split_ifs <;> simp
  | closing => exact List.nil_subset _
  | cancelling => exact List.nil_subset _
  | returning => exact List.nil_subset _

/-- A submission under way brings in what is in its hands. -/
theorem Stage.slots_subset (h : Stage e st b r t th hands) : r.book.slots ⊆ b.slots ++ hands := by
  have hout : ∀ {l : List Slot}, r.book.slots ⊆ t.order :: l → l ⊆ b.slots → t.order ∈ hands →
      r.book.slots ⊆ b.slots ++ hands := fun hsub hl ht c hc =>
    (List.mem_cons.mp (hsub hc)).elim (fun heq => List.mem_append_right _ (heq ▸ ht))
      fun hc => List.mem_append_left _ (hl hc)
  cases h with
  | entering data fresh inst wf _ _ result =>
    refine hout ?_ (List.Subset.refl _) (List.mem_cons_self ..)
    rw [result]
    exact slots_submitOutcome wf (OrderData.sound_of_fresh fresh)
  | looking data mid result | filling data mid _ _ result | hitting data mid _ _ result =>
    refine hout ?_ (List.Subset.refl _) (List.mem_cons_self ..)
    rw [result]
    exact mid.slots_onward
  | popping data tidy top mid result =>
    refine hout ?_ (fun c hc => (slots_popped_perm top).mem_iff.mpr (List.mem_cons_of_mem _ hc))
      (List.mem_cons_self ..)
    rw [result]
    exact mid.slots_onward
  | freeing data mid ne result =>
    refine hout ?_ (List.Subset.refl _) (List.mem_cons_of_mem _ (List.mem_cons_self ..))
    rw [result]
    exact mid.slots_onward
  | resting data tidy out rests result =>
    refine hout ?_ (List.Subset.refl _) (List.mem_cons_self ..)
    rw [result]
    exact (QueueBook.slots_rest_perm b _).subset
  | rested mem rests result | ended rests result =>
    rw [result]
    exact List.subset_append_left _ _

/-- What a thread uses is told from its book and its hands, and from which books there are. -/
theorem Owes.uses_frame (h : Owes e st b th d hands) {e' : Engine}
    (hbooks : ∀ j, (e'.matchers.lookup j).isSome = (e.matchers.lookup j).isSome)
    (hst : ∀ c ∈ b.slots ++ hands, st' c = st c) : th.uses e' st' = th.uses e st := by
  have hrests : ∀ {t : Ticket}, t.order ∈ b.slots ++ hands →
      Thread.uses e' st' (.replying t) = Thread.uses e st (.replying t) := fun hc =>
    congrArg OrderData.rests (Store.data_congr (hst _ hc))
  cases h with
  | idle => rfl
  | order stage _ =>
    cases stage with
    | entering => exact hbooks _
    | rested mem => exact hrests (List.mem_append_left _ mem)
    | ended => exact hrests (by simp)
    | _ => rfl
  | closing => rfl
  | cancelling => exact hbooks _
  | returning => rfl

/-- **Whoever is done with a book owes nothing more on it.** -/
theorem Owes.book_eq (h : Owes e st b th d hands) (hdone : th.uses e st = false)
    (habsent : ∀ i, th.instrument = some i → e.matchers.lookup i = none → b.slots = []) :
    d.book = b := by
  have hnone : ∀ {i : InstrumentId}, (e.matchers.lookup i).isSome = false →
      e.matchers.lookup i = none := fun hi => Option.not_isSome_iff_eq_none.mp (by simp [hi])
  cases h with
  | idle => rfl
  | @order t r rest _ _ stage _ =>
    cases stage with
    | entering data fresh inst wf out none result =>
      have hbook := hnone hdone
      rw [← inst] at hbook
      change r.book = b
      rw [result, submitOutcome, hbook]
      rfl
    | rested mem rests result =>
      change r.book = b
      rw [result]
    | ended rests result =>
      change r.book = b
      rw [result]
    | _ => cases hdone
  | closing => rfl
  | cancelling wf =>
    have hslots := habsent _ rfl (hnone hdone)
    exact congrArg Prod.fst (wf.cancel_of_slots_nil hslots _)
  | returning => rfl

/-- **Whoever is done with a book does not mind what becomes of it.** -/
theorem Owes.onto (h : Owes e st b th d hands) (hdone : th.uses e st = false)
    (hbook : ∀ i, th.instrument = some i → (e.matchers.lookup i).isSome = true)
    (hst : ∀ c ∈ hands, st' c = st c) (b' : QueueBook) :
    Owes e st' b' th (d.onto b') hands ∧ th.uses e st' = false := by
  have hsome : ∀ i, th.instrument = some i → (e.matchers.lookup i).isSome ≠ false := fun i hi => by
    simp [hbook i hi]
  cases h with
  | idle => exact ⟨.idle, rfl⟩
  | @order t r rest _ _ stage trades =>
    cases stage with
    | entering => exact absurd hdone (hsome _ rfl)
    | rested mem rests result =>
      change (st.data t.order).rests = false at hdone
      rw [rests] at hdone
      cases hdone
    | ended rests result =>
      have hdata : st'.data t.order = st.data t.order := Store.data_congr (hst _ (by simp))
      rw [← hdata] at rests
      refine ⟨.order (r := ⟨b', r.order, r.trades⟩) (.ended rests ?_) trades, rests⟩
      rw [result, hdata]
    | _ => cases hdone
  | closing => exact ⟨.closing, rfl⟩
  | cancelling => exact absurd hdone (hsome _ rfl)
  | returning => exact ⟨.returning, rfl⟩

/-- **A request leaves no slot in its book** but those that are there or in hand. -/
theorem Owes.slots_subset (h : Owes e st b th d hands) : d.book.slots ⊆ b.slots ++ hands := by
  cases h with
  | idle => exact List.subset_append_left _ _
  | order stage trades => exact stage.slots_subset
  | closing => exact List.subset_append_left _ _
  | @cancelling m wf =>
    refine List.Subset.trans ?_ (List.subset_append_left _ _)
    change (b.cancel m.clientOrderId).1.slots ⊆ b.slots
    unfold QueueBook.cancel
    cases hl : b.index.lookup m.clientOrderId with
    | none => exact List.Subset.refl _
    | some loc =>
      exact fun c hc => (QueueBook.slots_remove_perm wf hl).subset (List.mem_cons_of_mem _ hc)
  | returning => exact List.subset_append_left _ _

end Ordbk

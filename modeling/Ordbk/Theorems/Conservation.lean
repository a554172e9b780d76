import Ordbk.Refinement.Desk
import Ordbk.Abstract.Conserve
import Ordbk.Abstract.Indexed

/-!
# Theorems/Conservation — quantities over whole runs

An order is filled in its own submission and in any number of later ones, in a slot that is reused
afterwards.  The desk's accounts follow it: `Ledger` says that each account is filled by exactly the
executions that name it, and where what is left of it has gone.

`Carries` is what one call does to one account; `Ledger.carry` puts the accounts back together.
-/

namespace Ordbk

/-- Nothing more can happen to the order: it was cancelled, rejected, or never rests. -/
def OrderData.Dropped (o : OrderData) : Prop :=
  o.status = .cancelled ∨ o.status = .rejected ∨ o.type = .market ∨ o.tif = .ioc

instance (o : OrderData) : Decidable o.Dropped := inferInstanceAs (Decidable (_ ∨ _ ∨ _ ∨ _))

/-- An execution between two accounts: a positive quantity, two orders of opposite sides, at the
maker's price. -/
def Trade.Between (x : Trade) (accounts : List Account) : Prop :=
  0 < x.quantity ∧ x.makerId ≠ x.takerId ∧ ∃ k ∈ accounts, ∃ t ∈ accounts,
    k.order.id = x.makerId ∧ t.order.id = x.takerId
      ∧ (k.order.side = .buy ↔ t.order.side ≠ .buy) ∧ x.price = k.order.limitPrice

namespace Desk

variable {d d' : Desk} {b b' : QueueBook}

/-- The account's order is in the book. -/
def AtRest (b : QueueBook) (x : Account) : Prop := x.isLive = true ∧ x.slot ∈ b.slots

/-- **The accounts are right.** -/
structure Ledger (d : Desk) (b : QueueBook) : Prop where
  /-- No two orders have the same id. -/
  ids : (d.accounts.map (·.order.id)).Nodup
  /-- An account that is still followed is up to date, and its slot is in the book or with the
  caller. -/
  live : ∀ x ∈ d.accounts, x.isLive = true →
    x.order = d.order x.slot ∧ (x.slot ∈ b.slots ∨ x.slot ∈ d.out)
  /-- Every order of the book has an account. -/
  rest : ∀ c ∈ b.slots, ∃ x ∈ d.accounts, x.isLive = true ∧ x.slot = c
  /-- **An account is filled by what the trades that name it add up to.** -/
  filled : ∀ x ∈ d.accounts, x.order.filledQty.toNat = volume x.order.id d.trades
  /-- Nobody is filled beyond his quantity. -/
  sound : ∀ x ∈ d.accounts, x.order.Sound
  /-- Whoever is not at rest has nothing left, or what was left is gone. -/
  ended : ∀ x ∈ d.accounts, ¬ AtRest b x → x.order.remaining = 0 ∨ x.order.Dropped
  /-- Nobody trades but the orders submitted. -/
  trades : ∀ x ∈ d.trades, x.Between d.accounts
  /-- Market and immediate orders never rest. -/
  patient : b.All fun o => ¬ (o.type = .market ∨ o.tif = .ioc)

/-! ## One account

What a call does to an account is told by three things: the order keeps its identity, it is filled
by the new trades that name it, and it is afterwards where `Ledger` wants it.  An account that the
caller has given back is closed and stays as it was. -/

/-- What becomes of an account when the executions `ts` are added. -/
structure Carries (d' : Desk) (b' : QueueBook) (ts : List Trade) (x y : Account) : Prop where
  /-- The account is the same order's. -/
  ident : y.order.ident = x.order.ident
  /-- It is filled by what the call traded in its name, and by nothing else. -/
  fills : y.order.filledQty.toNat = x.order.filledQty.toNat + volume x.order.id ts
  /-- Nor by more than it wants. -/
  sound : y.order.Sound
  /-- If the account is still followed it is up to date. -/
  live : y.isLive = true → y.order = d'.order y.slot ∧ (y.slot ∈ b'.slots ∨ y.slot ∈ d'.out)
  /-- If it is not at rest afterwards, its quantity has gone somewhere. -/
  ended : ¬ AtRest b' y → y.order.remaining = 0 ∨ y.order.Dropped

/-- Accounts that come in addition leave the parties of a trade where they are. -/
theorem between_mono {xs ys : List Account} (hsub : xs ⊆ ys) {t : Trade} (h : t.Between xs) :
    t.Between ys := by
  obtain ⟨hq, hne, k, hk, y, hy, hrest⟩ := h
  exact ⟨hq, hne, k, hsub hk, y, hsub hy, hrest⟩

/-- Nor does it matter what else happens to the accounts, if they keep their identities. -/
theorem between_map {xs : List Account} {f : Account → Account}
    (hf : ∀ x ∈ xs, (f x).order.ident = x.order.ident) {t : Trade} (h : t.Between xs) :
    t.Between (xs.map f) := by
  obtain ⟨hq, hne, k, hk, y, hy, h1, h2, h3, h4⟩ := h
  have hk' := hf k hk
  have hy' := hf y hy
  have hkid : (f k).order.id = k.order.id := congrArg (·.id) hk'
  have hyid : (f y).order.id = y.order.id := congrArg (·.id) hy'
  have hkside : (f k).order.side = k.order.side := congrArg (·.side) hk'
  have hyside : (f y).order.side = y.order.side := congrArg (·.side) hy'
  have hprice : (f k).order.limitPrice = k.order.limitPrice := congrArg (·.limitPrice) hk'
  refine ⟨hq, hne, f k, List.mem_map_of_mem hk, f y, List.mem_map_of_mem hy, hkid.trans h1,
    hyid.trans h2, ?_, h4.trans hprice.symm⟩
  rw [hkside, hyside]
  exact h3

/-- **The ledger, account by account.** -/
theorem Ledger.carry (d : Desk) (xs : List Account) (ts : List Trade) (f : Account → Account)
    (hids : (xs.map (·.order.id)).Nodup)
    (hfilled : ∀ x ∈ xs, x.order.filledQty.toNat = volume x.order.id d.trades)
    (hold : ∀ t ∈ d.trades, t.Between xs) (hnew : ∀ t ∈ ts, t.Between xs)
    (haccounts : d'.accounts = xs.map f) (htrades : d'.trades = d.trades ++ ts)
    (hc : ∀ x ∈ xs, Carries d' b' ts x (f x))
    (hrest : ∀ c ∈ b'.slots, ∃ x ∈ xs, (f x).isLive = true ∧ (f x).slot = c)
    (hpatient : b'.All fun o => ¬ (o.type = .market ∨ o.tif = .ioc)) : Ledger d' b' := by
  have hmem : ∀ y ∈ d'.accounts, ∃ x ∈ xs, f x = y := fun y hy =>
    List.mem_map.mp (haccounts ▸ hy)
  refine ⟨?_, ?_, ?_, ?_, ?_, ?_, ?_, hpatient⟩
  · have hsame : (xs.map f).map (·.order.id) = xs.map (·.order.id) := by
      rw [List.map_map]
      exact List.map_congr_left fun x hx => congrArg (·.id) (hc x hx).ident
    rw [haccounts, hsame]
    exact hids
  · intro y hy
    obtain ⟨x, hx, rfl⟩ := hmem y hy
    exact (hc x hx).live
  · intro c hcb
    obtain ⟨x, hx, h1, h2⟩ := hrest c hcb
    exact ⟨f x, haccounts ▸ List.mem_map_of_mem hx, h1, h2⟩
  · intro y hy
    obtain ⟨x, hx, rfl⟩ := hmem y hy
    have hid : (f x).order.id = x.order.id := congrArg (·.id) (hc x hx).ident
    rw [(hc x hx).fills, hfilled x hx, htrades, volume_append, hid]
  · intro y hy
    obtain ⟨x, hx, rfl⟩ := hmem y hy
    exact (hc x hx).sound
  · intro y hy
    obtain ⟨x, hx, rfl⟩ := hmem y hy
    exact (hc x hx).ended
  · intro t ht
    rw [htrades] at ht
    rw [haccounts]
    exact between_map (fun x hx => (hc x hx).ident)
      ((List.mem_append.mp ht).elim (hold t) (hnew t))

/-- **An account is refreshed** to what the pool now holds. -/
theorem refresh_of_live {pool : Pool} {x : Account} (hx : x.isLive = true) :
    x.refresh pool = ⟨x.slot, decide (x.slot ∉ pool.freeSlots), pool.storage.data x.slot⟩ :=
      if_pos hx

/-- A closed account is not looked up again: its slot may be somebody else's by now. -/
theorem refresh_of_closed {pool : Pool} {x : Account} (hx : x.isLive = false) :
    x.refresh pool = x := if_neg (by simp [hx])

/-- An account whose slot was left alone stays as it is. -/
theorem refresh_of_same {pool : Pool} {x : Account}
    (hx : x.isLive = true → pool.storage.data x.slot = x.order ∧ x.slot ∉ pool.freeSlots) :
    x.refresh pool = x := by
  cases hlive : x.isLive with
  | false => exact refresh_of_closed hlive
  | true =>
    obtain ⟨h1, h2⟩ := hx hlive
    rw [refresh_of_live hlive, h1, decide_eq_true h2, ← hlive]

/-- A slot at rest, or submitted and in the caller's hands, is not free. -/
theorem Inv.notMem_free (h : d.Inv b) {c : Slot} (hc : c ∈ b.slots ∨ c ∈ d.out) :
    c ∉ d.matcher.pool.freeSlots := by
  have hnd := Custody.nodup h ()
  rw [List.append_assoc] at hnd
  refine fun hfree => List.disjoint_of_nodup_append hnd hfree ?_
  rcases hc with hc | hc
  · exact List.mem_append_right _ hc
  · exact List.mem_append_left _ (List.mem_append_right _ hc)

/-- A slot the caller has got back is not at rest. -/
theorem Inv.notMem_slots_of_out (h : d.Inv b) {c : Slot} (hc : c ∈ d.out) : c ∉ b.slots :=
  Custody.notMem_slots_of_held h (i := ()) (List.mem_append_right _ hc)

/-- Nor is it one that can be submitted. -/
theorem Inv.notMem_held_of_out (h : d.Inv b) {c : Slot} (hc : c ∈ d.out) : c ∉ d.held := by
  have hnd := (Custody.nodup h ()).of_append_left.of_append_right
  exact fun hh => List.disjoint_of_nodup_append hnd hh hc

/-! ## Calls that leave the submitted orders alone

`acquire` and `write` touch slots that no account is about. -/

/-- **A call that changes nothing about the submitted orders** keeps the ledger. -/
theorem Ledger.quiet (hl : Ledger d b) (hacc : d'.accounts = d.accounts)
    (htr : d'.trades = d.trades) (hout : d'.out = d.out)
    (hst : ∀ c, c ∈ b.slots ∨ c ∈ d.out → d'.matcher.pool.storage c = d.matcher.pool.storage c) :
    Ledger d' b := by
  refine Ledger.carry d d.accounts [] id hl.ids hl.filled hl.trades (by simp)
    (by simpa using hacc) (by simpa using htr) (fun x hx => ?_) hl.rest hl.patient
  refine ⟨rfl, rfl, hl.sound x hx, fun hlive => ?_, hl.ended x hx⟩
  obtain ⟨h1, h2⟩ := hl.live x hx hlive
  refine ⟨h1.trans (Store.data_congr (hst _ h2)).symm, ?_⟩
  rw [hout]
  exact h2

/-- An account whose order was left alone. -/
theorem Ledger.carries_same (hl : Ledger d b) {x : Account} (hx : x ∈ d.accounts)
    {ts : List Trade} (hvol : volume x.order.id ts = 0)
    (hd : x.isLive = true → d'.order x.slot = x.order ∧ (x.slot ∈ b'.slots ∨ x.slot ∈ d'.out))
    (hrest : AtRest b x → AtRest b' x) : Carries d' b' ts x x where
  ident := rfl
  fills := by rw [hvol, Nat.add_zero]
  sound := hl.sound x hx
  live hlive := ⟨(hd hlive).1.symm, (hd hlive).2⟩
  ended hnot := hl.ended x hx fun hr => hnot (hrest hr)

/-! ## The orders at rest have accounts

Ids being distinct, an id finds one account, and a resting order's id finds the account of its
slot. -/

/-- The account of a resting order. -/
theorem Ledger.exists_account (hl : Ledger d b) (h : d.Inv b) {e : Resting}
    (he : e ∈ b.resting) :
    ∃ x ∈ d.accounts, x.isLive = true ∧ x.slot = e.slot ∧ x.order = e.order := by
  obtain ⟨x, hx, hlive, hslot⟩ := hl.rest e.slot (List.mem_map_of_mem he)
  refine ⟨x, hx, hlive, hslot, ?_⟩
  rw [(hl.live x hx hlive).1, hslot]
  exact h.rep.data he

/-- Ids name accounts. -/
theorem Ledger.eq_of_id (hl : Ledger d b) {x y : Account} (hx : x ∈ d.accounts)
    (hy : y ∈ d.accounts) (hid : x.order.id = y.order.id) : x = y :=
  List.inj_on_of_nodup_map hl.ids hx hy hid

/-- The ids at rest are distinct. -/
theorem Ledger.nodup_ids (hl : Ledger d b) (h : d.Inv b) :
    (b.resting.map (·.order.id)).Nodup := by
  refine List.Nodup.map_on (fun e he f hf hid => ?_) (h.wf.nodup.of_map _)
  obtain ⟨x, hx, -, hxs, hxo⟩ := hl.exists_account h he
  obtain ⟨y, hy, -, hys, hyo⟩ := hl.exists_account h hf
  obtain rfl := hl.eq_of_id hx hy (by rw [hxo, hyo, hid])
  exact List.inj_on_of_nodup_map h.wf.nodup he hf (hxs.symm.trans hys)

/-- A fresh id is nobody's at rest. -/
theorem Ledger.id_ne (hl : Ledger d b) (h : d.Inv b) {id : OrderId}
    (hid : id ∉ d.accounts.map (·.order.id)) : ∀ e ∈ b.resting, e.order.id ≠ id := by
  rintro e he rfl
  obtain ⟨x, hx, -, -, hxo⟩ := hl.exists_account h he
  exact hid (List.mem_map.mpr ⟨x, hx, by rw [hxo]⟩)

/-- An account that shares its id with a resting order is the account of that order. -/
theorem Ledger.resting_of_id (hl : Ledger d b) (h : d.Inv b) {x : Account} (hx : x ∈ d.accounts)
    {e : Resting} (he : e ∈ b.resting) (hid : e.order.id = x.order.id) : AtRest b x := by
  obtain ⟨y, hy, hlive, hys, hyo⟩ := hl.exists_account h he
  obtain rfl := hl.eq_of_id hx hy (by rw [hyo, hid])
  exact ⟨hlive, hys ▸ List.mem_map_of_mem he⟩

/-! ## `cancel` and `release`

A cancel ends an order with what was left of it; a release takes its slot away and with it the
account's hold on it. -/

/-- **A cancelled order** is dropped with all that was left of it; the others stay as they are. -/
theorem Ledger.cancel (hl : Ledger d b) (h : d.Inv b) (id : OrderId) :
    Ledger (d.after (d.matcher.cancel id).1 d.accounts []) (b.cancel id).1 := by
  have hcall : d.call (.cancel id) = some (d.after (d.matcher.cancel id).1 d.accounts []) := rfl
  have h' : (d.after (d.matcher.cancel id).1 d.accounts []).Inv (b.cancel id).1 := h.call hcall
  -- what is not the cancelled order is left alone
  have hkeep : ∀ x ∈ d.accounts,
      (x.isLive = true → (d.matcher.cancel id).1.pool.storage.data x.slot = x.order
        ∧ (x.slot ∈ (b.cancel id).1.slots ∨ x.slot ∈ d.out)) →
      Carries (d.after (d.matcher.cancel id).1 d.accounts []) (b.cancel id).1 [] x
        (x.refresh (d.matcher.cancel id).1.pool) := by
    intro x hx hd
    have hsame : x.refresh (d.matcher.cancel id).1.pool = x :=
      refresh_of_same fun hlive => ⟨(hd hlive).1, h'.notMem_free (hd hlive).2⟩
    rw [hsame]
    refine hl.carries_same hx rfl hd fun hr => ⟨hr.1, ?_⟩
    refine (hd hr.1).2.resolve_right fun hout => h.notMem_slots_of_out hout hr.2
  have hpatient := QueueBook.all_cancel h.wf hl.patient id
  rcases cancel_moves h.rep h.wf id with ⟨hlk, hm⟩ | ⟨loc, e, hlk, he, h1, -, -, hm⟩
  · have hq : (b.cancel id).1 = b := by simp only [QueueBook.cancel, hlk]
    refine Ledger.carry d d.accounts [] _ hl.ids hl.filled hl.trades (by simp) rfl rfl
      (fun x hx => hkeep x hx fun hlive => ?_) (fun c hc => ?_) hpatient
    · rw [hm, hq]
      exact ⟨(hl.live x hx hlive).1.symm, (hl.live x hx hlive).2⟩
    · obtain ⟨x, hx, hlive, rfl⟩ := hl.rest c (hq ▸ hc)
      refine ⟨x, hx, ?_⟩
      rw [refresh_of_live hlive]
      exact ⟨decide_eq_true (h'.notMem_free (Or.inl hc)), rfl⟩
  · have hq : (b.cancel id).1 = b.remove id loc := by simp only [QueueBook.cancel, hlk]
    have hperm := QueueBook.slots_remove_perm h.wf hlk
    refine Ledger.carry d d.accounts [] _ hl.ids hl.filled hl.trades (by simp) rfl rfl
      (fun x hx => ?_) (fun c hc => ?_) hpatient
    · by_cases hxe : x.isLive = true ∧ x.slot = e.slot
      · -- the order that leaves
        obtain ⟨hlive, hslot⟩ := hxe
        have horder : x.order = e.order := by
          rw [(hl.live x hx hlive).1, hslot]
          exact h.rep.data_side he
        have hlast := hm.last e.cancelled (by simp)
        have hfree : x.slot ∈ (d.matcher.cancel id).1.pool.freeSlots := by
          rw [hm.free, hslot]
          simp [Resting.cancelled]
        have hdata : (d.matcher.cancel id).1.pool.storage.data x.slot
            = x.order.withStatus .cancelled := by
          rw [hslot, horder]
          exact hlast
        have hclosed : x.refresh (d.matcher.cancel id).1.pool
            = ⟨x.slot, false, x.order.withStatus .cancelled⟩ := by
          rw [refresh_of_live hlive, hdata, decide_eq_false (not_not.mpr hfree)]
        rw [hclosed]
        exact ⟨rfl, rfl, hl.sound x hx, fun hfalse => absurd hfalse Bool.false_ne_true,
          fun _ => Or.inr (Or.inl rfl)⟩
      · refine hkeep x hx fun hlive => ?_
        obtain ⟨ho, hown⟩ := hl.live x hx hlive
        have hne : x.slot ≠ loc.order := fun hxl => hxe ⟨hlive, hxl.trans h1.symm⟩
        rw [hq]
        rcases hown with hin | hout
        · have hin' : x.slot ∈ (b.remove id loc).slots :=
            (List.mem_cons.mp (hperm.mem_iff.mpr hin)).resolve_left hne
          obtain ⟨s, f, hf, hfx⟩ := QueueBook.mem_slots.mp hin'
          refine ⟨?_, Or.inl hin'⟩
          rw [← hfx, hm.rep.data_side hf, ho, ← hfx]
          exact (h.rep.data_side ((QueueBook.mem_side_remove h.wf hlk).mp hf).1).symm
        · refine ⟨?_, Or.inr hout⟩
          rw [ho]
          exact Store.data_congr (hm.frame _ (by simp) (h.notMem_slots_of_out hout))
    · rw [hq] at hc
      obtain ⟨x, hx, hlive, rfl⟩ := hl.rest c (hperm.mem_iff.mp (List.mem_cons_of_mem _ hc))
      refine ⟨x, hx, ?_⟩
      rw [refresh_of_live hlive]
      exact ⟨decide_eq_true (h'.notMem_free (Or.inl (hq ▸ hc))), rfl⟩

/-- **A slot given back** closes its account, which keeps the order as it ended. -/
theorem Ledger.release (hl : Ledger d b) (h : d.Inv b) {a : Slot}
    (hc : d.call (.release a) = some d') : Ledger d' b := by
  have h' : d'.Inv b := h.call hc
  obtain ⟨ha, rfl⟩ : a ∈ d.held ++ d.out ∧ _ = d' := by
    simpa only [Desk.call, Option.ite_none_right_eq_some, Option.some.injEq] using hc
  have hab : a ∉ b.slots := Custody.notMem_slots_of_held h (i := ()) ha
  refine Ledger.carry d d.accounts [] _ hl.ids hl.filled hl.trades (by simp) rfl rfl
    (fun x hx => ?_) (fun c hcb => ?_) hl.patient
  · by_cases hxa : x.isLive = true ∧ x.slot = a
    · have hclosed : x.refresh (d.matcher.pool.release a) = ⟨x.slot, false, x.order⟩ := by
        have hfree : x.slot ∈ (d.matcher.pool.release a).freeSlots := by simp [hxa.2]
        rw [refresh_of_live hxa.1, decide_eq_false (not_not.mpr hfree), (hl.live x hx hxa.1).1]
        rfl
      change Carries _ _ _ x (x.refresh (d.matcher.pool.release a))
      rw [hclosed]
      exact ⟨rfl, rfl, hl.sound x hx, fun hfalse => absurd hfalse Bool.false_ne_true,
        fun _ => hl.ended x hx fun hr => hab (hxa.2 ▸ hr.2)⟩
    · have hown : x.isLive = true → x.slot ∈ b.slots ∨ x.slot ∈ d.out.erase a := fun hlive =>
        (hl.live x hx hlive).2.imp_right fun hout =>
          (List.mem_erase_of_ne fun hxe => hxa ⟨hlive, hxe⟩).mpr hout
      have hsame : x.refresh (d.matcher.pool.release a) = x := refresh_of_same fun hlive =>
        ⟨(hl.live x hx hlive).1.symm, h'.notMem_free (hown hlive)⟩
      change Carries _ _ _ x (x.refresh (d.matcher.pool.release a))
      rw [hsame]
      exact hl.carries_same hx rfl (fun hlive => ⟨(hl.live x hx hlive).1.symm, hown hlive⟩)
        fun hr => hr
  · obtain ⟨x, hx, hlive, rfl⟩ := hl.rest c hcb
    refine ⟨x, hx, ?_⟩
    rw [refresh_of_live hlive]
    exact ⟨decide_eq_true (h'.notMem_free (Or.inl hcb)), rfl⟩

/-! ## `submit`

Three kinds of accounts: the new one, those of the makers, and those of everybody else. -/

section Submit

variable {a : Slot}

theorem opposite_eq_buy {s : Side} : opposite s = .buy ↔ s ≠ .buy := by
  unfold opposite
  split_ifs with hs
  · exact ⟨fun h => absurd h (by decide), fun h => absurd hs h⟩
  · exact ⟨fun _ => hs, fun _ => rfl⟩

/-- The executions of a submission are between the new order and resting ones. -/
theorem Ledger.between_submit (hl : Ledger d b) (h : d.Inv b) (h0 : (d.order a).filledQty = 0)
    (hid : (d.order a).id ∉ d.accounts.map (·.order.id)) {t : Trade}
    (ht : t ∈ (b.submit a (d.order a)).trades) :
    t.Between (⟨a, true, d.order a⟩ :: d.accounts) := by
  obtain ⟨k, hk, hq, hkt⟩ := QueueBook.exists_maker h.wf (OrderData.sound_of_fresh h0) ht
  obtain ⟨x, hx, -, -, hxo⟩ := hl.exists_account h (b.mem_resting.mpr ⟨_, hk⟩)
  have hmaker : t.makerId = k.order.id := by rw [hkt]; rfl
  have htaker : t.takerId = (d.order a).id := by rw [hkt]; rfl
  have hprice : t.price = k.order.limitPrice := by rw [hkt]; rfl
  refine ⟨hq, fun heq => hid ?_, x, List.mem_cons_of_mem _ hx, _, List.mem_cons_self, ?_,
    htaker.symm, ?_, ?_⟩
  · exact List.mem_map.mpr ⟨x, hx, by rw [hxo, ← hmaker, heq, htaker]⟩
  · rw [hxo, hmaker]
  · rw [hxo]
    exact (h.wf.sided _ _ hk).trans opposite_eq_buy
  · rw [hprice, hxo]

/-- An order that is not at rest takes no part in a submission of somebody else's. -/
theorem Ledger.volume_eq_zero (hl : Ledger d b) (h : d.Inv b) (h0 : (d.order a).filledQty = 0)
    (hid : (d.order a).id ∉ d.accounts.map (·.order.id)) {x : Account} (hx : x ∈ d.accounts)
    (hrest : ¬ AtRest b x) : volume x.order.id (b.submit a (d.order a)).trades = 0 := by
  refine Ordbk.volume_eq_zero fun t ht => ?_
  obtain ⟨k, hk, -, hkt⟩ := QueueBook.exists_maker h.wf (OrderData.sound_of_fresh h0) ht
  rw [hkt]
  rintro (hn | hn)
  · exact hrest (hl.resting_of_id h hx (b.mem_resting.mpr ⟨_, hk⟩) hn)
  · exact hid (List.mem_map.mpr ⟨x, hx, hn.symm⟩)

/-- An order that did not come to rest has nothing left, or is dropped. -/
theorem ended_of_not_rests {o : OrderData} (h : (b.submit a o).order.rests = false)
    (hw : b.WF) (ho : o.Sound) :
    (b.submit a o).order.remaining = 0 ∨ (b.submit a o).order.Dropped := by
  have hident := QueueBook.ident_entry hw ho
  have htype : (b.entry o).taker.type = o.type := congrArg (·.type) hident
  have htif : (b.entry o).taker.tif = o.tif := congrArg (·.tif) hident
  have hsound := QueueBook.sound_entry hw ho
  have hs := QueueBook.submitted b a o
  generalize b.submit a o = r at hs h ⊢
  cases hs with
  | rejected _ => exact Or.inr (Or.inr (Or.inl rfl))
  | filled _ hfull => exact Or.inl ((QueueBook.isFullyFilled_iff hsound).mp hfull)
  | dropped _ _ hdrop =>
    refine Or.inr (Or.inr (Or.inr ?_))
    change (b.entry o).taker.type = .market ∨ (b.entry o).taker.tif = .ioc
    rw [htype, htif]
    exact hdrop
  | rested _ _ hrest =>
    have hbool : (o.type == .market || o.tif == .ioc) = false := by simpa [not_or] using hrest
    unfold OrderData.rests at h
    rw [QueueBook.isTerminal_restStatus] at h
    change (_ && !((b.entry o).taker.type == .market || (b.entry o).taker.tif == .ioc)) = false at h
    rw [htype, htif, hbool] at h
    exact absurd h (by decide)

/-- An order that rests is in the book. -/
theorem mem_slots_of_rests {o : OrderData} (hw : b.WF) (ho : o.Sound) (ha : a ∉ b.slots)
    (hr : (b.submit a o).order.rests = true) : a ∈ (b.submit a o).book.slots := by
  have hperm := QueueBook.slots_submit_perm (a := a) hw ho
  rw [if_pos hr] at hperm
  have hmem := hperm.mem_iff.mpr (List.mem_cons_self (a := a))
  refine (List.mem_append.mp hmem).resolve_left fun hgone => ?_
  obtain ⟨e, he, hea⟩ := List.mem_map.mp hgone
  obtain ⟨m, hm, rfl⟩ := QueueBook.gone_submit hw ho he
  exact ha (hea ▸ QueueBook.mem_slots.mpr ⟨_, m, hm, rfl⟩)

/-- The slot comes back to the caller unless the order rests. -/
theorem Inv.out_submit (h : d.Inv b) (ha : a ∈ d.held) (h0 : (d.order a).filledQty = 0) :
    (d.submit a).out = if (b.submit a (d.order a)).order.rests then d.out else a :: d.out := by
  rw [← (h.submit_moves ha h0).2.1]
  rfl

/-- Once submitted, the slot is at rest or in the caller's hands. -/
theorem Inv.owned_submit (h : d.Inv b) (ha : a ∈ d.held) (h0 : (d.order a).filledQty = 0) :
    a ∈ (b.submit a (d.order a)).book.slots ∨ a ∈ (d.submit a).out := by
  rw [h.out_submit ha h0]
  split_ifs with hr
  · exact Or.inl (mem_slots_of_rests h.wf (OrderData.sound_of_fresh h0) (h.notMem ha) hr)
  · exact Or.inr List.mem_cons_self

/-- A submission keeps the desk in good order, with the queue book's own outcome. -/
theorem Inv.submit (h : d.Inv b) (ha : a ∈ d.held) (h0 : (d.order a).filledQty = 0) :
    (d.submit a).Inv (b.submit a (d.order a)).book :=
  h.call (c := .submit a) (if_pos ⟨ha, h0⟩)

/-- The account of the order submitted. -/
theorem Inv.carries_taker (h : d.Inv b) (ha : a ∈ d.held) (h0 : (d.order a).filledQty = 0) :
    Carries (d.submit a) (b.submit a (d.order a)).book (b.submit a (d.order a)).trades
      ⟨a, true, d.order a⟩ (Account.refresh (d.submit a).matcher.pool ⟨a, true, d.order a⟩) := by
  have ho := OrderData.sound_of_fresh h0
  have hd := (h.submit_moves ha h0).2.1
  obtain ⟨hident, hsound, hfill⟩ := QueueBook.filled_submit (a := a) h.wf ho
  have hfree := (h.submit ha h0).notMem_free (h.owned_submit ha h0)
  have hopen : Account.refresh (d.submit a).matcher.pool ⟨a, true, d.order a⟩
      = ⟨a, true, (b.submit a (d.order a)).order⟩ := by
    rw [refresh_of_live rfl, decide_eq_true hfree, ← hd]
    rfl
  rw [hopen]
  refine ⟨hident, ?_, hsound, fun _ => ⟨hd.symm, h.owned_submit ha h0⟩, fun hnot => ?_⟩
  · rw [volume_eq_tradedQty]
    · exact hfill
    · intro t ht
      obtain ⟨k, -, -, hkt⟩ := QueueBook.exists_maker h.wf ho ht
      rw [hkt]
      exact Or.inr rfl
  · refine ended_of_not_rests (Bool.eq_false_iff.mpr fun hr => hnot ⟨rfl, ?_⟩) h.wf ho
    exact mem_slots_of_rests h.wf ho (h.notMem ha) hr

/-- An account whose order is not at rest. -/
theorem Ledger.carries_bystander (hl : Ledger d b) (h : d.Inv b) (ha : a ∈ d.held)
    (h0 : (d.order a).filledQty = 0) (hid : (d.order a).id ∉ d.accounts.map (·.order.id))
    {x : Account} (hx : x ∈ d.accounts) (hrest : ¬ AtRest b x) :
    Carries (d.submit a) (b.submit a (d.order a)).book (b.submit a (d.order a)).trades x
      (x.refresh (d.submit a).matcher.pool) := by
  have hown : x.isLive = true → (d.submit a).order x.slot = x.order
      ∧ (x.slot ∈ (b.submit a (d.order a)).book.slots ∨ x.slot ∈ (d.submit a).out) := by
    intro hlive
    obtain ⟨horder, hown⟩ := hl.live x hx hlive
    have hout := hown.resolve_left fun hin => hrest ⟨hlive, hin⟩
    have hne : x.slot ≠ a := fun hxa => h.notMem_held_of_out hout (hxa ▸ ha)
    refine ⟨?_, Or.inr ?_⟩
    · rw [horder]
      exact Store.data_congr ((h.submit_moves ha h0).1.frame _ (by simpa using hne)
        (h.notMem_slots_of_out hout))
    · rw [h.out_submit ha h0]
      split_ifs
      · exact hout
      · exact List.mem_cons_of_mem _ hout
  have hsame : x.refresh (d.submit a).matcher.pool = x := refresh_of_same fun hlive =>
    ⟨(hown hlive).1, (h.submit ha h0).notMem_free (hown hlive).2⟩
  rw [hsame]
  exact hl.carries_same hx (hl.volume_eq_zero h h0 hid hx hrest) hown fun hr => absurd hr hrest

/-- The account of an order at rest, which may have traded. -/
theorem Ledger.carries_maker (hl : Ledger d b) (h : d.Inv b) (ha : a ∈ d.held)
    (h0 : (d.order a).filledQty = 0) (hid : (d.order a).id ∉ d.accounts.map (·.order.id))
    {x : Account} (hx : x ∈ d.accounts) (hrest : AtRest b x) :
    Carries (d.submit a) (b.submit a (d.order a)).book (b.submit a (d.order a)).trades x
      (x.refresh (d.submit a).matcher.pool) := by
  have ho := OrderData.sound_of_fresh h0
  have hm := (h.submit_moves ha h0).1
  obtain ⟨hlive, hslot⟩ := hrest
  obtain ⟨e, he, hex⟩ := List.mem_map.mp hslot
  have horder : x.order = e.order := by
    rw [(hl.live x hx hlive).1, ← hex]
    exact h.rep.data he
  obtain ⟨e', he', hident, hfill⟩ :=
    QueueBook.exists_survivor (a := a) h.wf ho (hl.nodup_ids h) (hl.id_ne h hid) he
  have hslot' : e'.slot = x.slot := (congrArg Prod.fst hident).trans hex
  have hdata : (d.submit a).matcher.pool.storage.data x.slot = e'.order := by
    rw [← hslot']
    exact (List.mem_append.mp he').elim (hm.last e') fun he' => hm.rep.data he'
  have hident' : e'.order.ident = x.order.ident := by
    rw [horder]
    exact congrArg Prod.snd hident
  rw [refresh_of_live hlive, hdata]
  rw [← horder] at hfill
  rcases List.mem_append.mp he' with hgone | hstay
  · -- filled to the last unit, and handed back
    obtain ⟨m, -, rfl⟩ := QueueBook.gone_submit h.wf ho hgone
    have hfree : x.slot ∈ (d.submit a).matcher.pool.freeSlots := by
      change x.slot ∈ (d.matcher.submit a).1.pool.freeSlots
      rw [hm.free, ← hslot']
      exact List.mem_append_left _ (List.mem_reverse.mpr (List.mem_map_of_mem hgone))
    rw [decide_eq_false (not_not.mpr hfree)]
    exact ⟨hident', hfill, UInt64.le_refl _, fun hfalse => absurd hfalse Bool.false_ne_true,
      fun _ => Or.inl (UInt64.sub_self _)⟩
  · have hin : x.slot ∈ (b.submit a (d.order a)).book.slots := hslot' ▸ List.mem_map_of_mem hstay
    have hfree := (h.submit ha h0).notMem_free (Or.inl hin)
    obtain ⟨s, hs⟩ := QueueBook.mem_resting _ |>.mp hstay
    rw [decide_eq_true hfree]
    exact ⟨hident', hfill, ((h.submit ha h0).wf.open e' hs).sound,
      fun _ => ⟨hdata.symm, Or.inl hin⟩, fun hnot => absurd ⟨rfl, hin⟩ hnot⟩

/-- **A submission keeps the ledger**, if its id is new. -/
theorem Ledger.submit (hl : Ledger d b) (h : d.Inv b) (ha : a ∈ d.held)
    (h0 : (d.order a).filledQty = 0) (hid : (d.order a).id ∉ d.accounts.map (·.order.id)) :
    Ledger (d.submit a) (b.submit a (d.order a)).book := by
  have ho := OrderData.sound_of_fresh h0
  have htrades : (d.matcher.submit a).2.trades = (b.submit a (d.order a)).trades :=
    congrArg MatchResult.trades (h.submit_moves ha h0).2.2
  refine Ledger.carry d (⟨a, true, d.order a⟩ :: d.accounts) (b.submit a (d.order a)).trades
    (·.refresh (d.submit a).matcher.pool) (List.nodup_cons.mpr ⟨hid, hl.ids⟩) (fun x hx => ?_)
    (fun t ht => between_mono (List.subset_cons_self _ _) (hl.trades t ht))
    (fun t ht => hl.between_submit h h0 hid ht) rfl (congrArg (d.trades ++ ·) htrades)
    (fun x hx => ?_) (fun c hc => ?_)
    (QueueBook.all_submit h.wf ho hl.patient fun hr => hr.patient)
  · rcases List.mem_cons.mp hx with rfl | hx
    · have hnone : volume (d.order a).id d.trades = 0 := Ordbk.volume_eq_zero fun t ht hn => by
        obtain ⟨-, -, k, hk, y, hy, h1, h2, -⟩ := hl.trades t ht
        rcases hn with hn | hn
        · exact hid (List.mem_map.mpr ⟨k, hk, h1.trans hn⟩)
        · exact hid (List.mem_map.mpr ⟨y, hy, h2.trans hn⟩)
      rw [hnone]
      exact congrArg UInt64.toNat h0
    · exact hl.filled x hx
  · rcases List.mem_cons.mp hx with rfl | hx
    · exact h.carries_taker ha h0
    by_cases hrest : AtRest b x
    · exact hl.carries_maker h ha h0 hid hx hrest
    · exact hl.carries_bystander h ha h0 hid hx hrest
  · have hfree := (h.submit ha h0).notMem_free (Or.inl hc)
    have hmem : c = a ∨ c ∈ b.slots := by
      have hin := (QueueBook.slots_submit_perm (a := a) h.wf ho).mem_iff.mp
        (List.mem_append_right _ hc)
      split_ifs at hin
      · exact List.mem_cons.mp hin
      · exact Or.inr hin
    rcases hmem with rfl | hmem
    · refine ⟨_, List.mem_cons_self, ?_⟩
      rw [refresh_of_live rfl]
      exact ⟨decide_eq_true hfree, rfl⟩
    · obtain ⟨x, hx, hlive, rfl⟩ := hl.rest c hmem
      refine ⟨x, List.mem_cons_of_mem _ hx, ?_⟩
      rw [refresh_of_live hlive]
      exact ⟨decide_eq_true hfree, rfl⟩

end Submit

/-! ## Runs

Fresh ids are a condition on the run, not on the code: nothing in `submit` looks at it.  A drain is
left out, for it moves quantities without an account of it. -/

/-- The side condition of a run: every order submitted has a fresh id, and nothing is drained. -/
def FreshIds (d : Desk) : Call → Prop
  | .submit a => (d.order a).id ∉ d.accounts.map (·.order.id)
  | .cancelAll => False
  | _ => True

instance (d : Desk) : (c : Call) → Decidable (d.FreshIds c)
  | .submit a => inferInstanceAs (Decidable ((d.order a).id ∉ _))
  | .cancelAll => isFalse id
  | .acquire | .write _ _ | .cancel _ | .release _ => isTrue trivial

/-- At first there is nobody to account for. -/
theorem ledger_start (i : InstrumentId) (capacity : ℕ) :
    Ledger (start i capacity) ⟨i, [], [], ∅⟩ where
  ids := List.nodup_nil
  live x hx := by simp [start] at hx
  rest c hc := by simp [QueueBook.slots, QueueBook.resting] at hc
  filled x hx := by simp [start] at hx
  sound x hx := by simp [start] at hx
  ended x hx := by simp [start] at hx
  trades x hx := by simp [start] at hx
  patient := QueueBook.all_new i

/-- **One call keeps the ledger.** -/
theorem Ledger.call {c : Call} (hl : Ledger d b) (h : d.Inv b) (hok : d.FreshIds c)
    (hc : d.call c = some d') : Ledger d' (d.next b c) := by
  cases c with
  | acquire =>
    obtain ⟨⟨a, pool⟩, hacq, rfl⟩ := Option.map_eq_some_iff.mp hc
    refine hl.quiet rfl rfl rfl fun c hown => ?_
    obtain ⟨hfree, -, hkeep⟩ := Pool.acquire_eq_some hacq
    refine hkeep c fun hca => h.notMem_free hown ?_
    rw [hfree, hca]
    exact List.mem_cons_self ..
  | write a o =>
    obtain ⟨ha, rfl⟩ : a ∈ d.held ∧ _ = d' := by simpa [Desk.call] using hc
    refine hl.quiet rfl rfl rfl fun c hown => Function.update_of_ne ?_ _ _
    rintro rfl
    exact hown.elim (h.notMem ha) fun hout => h.notMem_held_of_out hout ha
  | submit a =>
    obtain ⟨⟨ha, h0⟩, rfl⟩ : (a ∈ d.held ∧ (d.order a).filledQty = 0) ∧ d.submit a = d' := by
      simpa [Desk.call] using hc
    exact hl.submit h ha h0 hok
  | cancel id =>
    obtain rfl := Option.some.inj hc
    exact hl.cancel h id
  | cancelAll => exact hok.elim
  | release a => exact hl.release h hc

/-- Fresh orders come to rest beside nobody of their id. -/
theorem indexed_of_fresh (h : d.Inv b) (hl : d.Ledger b) (hi : b.Indexed) {a : Slot}
    (h0 : (d.order a).filledQty = 0) (hid : (d.order a).id ∉ d.accounts.map (·.order.id)) :
    (b.submit a (d.order a)).book.Indexed := by
  have ho := OrderData.sound_of_fresh h0
  refine QueueBook.indexed_submit hi h.wf ho fun _ e he => ?_
  have hall : (b.entered (d.order a)).All fun o => o.id ≠ (d.order a).id :=
    QueueBook.all_entered h.wf ho (hl.id_ne h hid)
  exact hall e he

/-- **Fresh ids keep the index complete.** -/
theorem Ledger.indexed {c : Call} (hl : Ledger d b) (h : d.Inv b) (hi : b.Indexed)
    (hok : d.FreshIds c) (hc : d.call c = some d') : (d.next b c).Indexed := by
  cases c with
  | submit a =>
    obtain ⟨⟨-, h0⟩, -⟩ : (a ∈ d.held ∧ (d.order a).filledQty = 0) ∧ d.submit a = d' := by
      simpa [Desk.call] using hc
    exact indexed_of_fresh h hl hi h0 hok
  | cancel id => exact QueueBook.indexed_cancel hi h.wf id
  | cancelAll => exact hok.elim
  | acquire => exact hi
  | write a o => exact hi
  | release a => exact hi

/-- **Every state of a run with fresh ids** has its queue book, its ledger and a complete index. -/
theorem exists_ledger {i : InstrumentId} {capacity : ℕ}
    (h : Guarded.Reach Desk.call FreshIds (start i capacity) d) :
    ∃ b, d.Inv b ∧ Ledger d b ∧ b.Indexed :=
  h.invariant (I := fun d => ∃ b, d.Inv b ∧ Ledger d b ∧ b.Indexed)
    ⟨_, inv_start i capacity, ledger_start i capacity, QueueBook.indexed_new i⟩
    fun _ _ _ ⟨_, hb, hl, hi⟩ hok hc => ⟨_, hb.call hc, hl.call hb hok hc, hl.indexed hb hi hok hc⟩

/-! ## Totals

Each trade names two accounts, one on each side, so the sum over the accounts of a side is the sum
over the trades. -/

/-- What the orders of one side have traded. -/
def filledBy (accounts : List Account) (p : Account → Bool) : ℕ :=
  ((accounts.filter p).map fun x => x.order.filledQty.toNat).sum

/-- If every trade names exactly one of the accounts, the accounts' volumes add up to what was
traded. -/
theorem sum_volume {xs : List Account} (hnd : xs.Nodup) {ts : List Trade}
    (hone : ∀ t ∈ ts, ∃ y ∈ xs, t.Names y.order.id ∧ ∀ z ∈ xs, t.Names z.order.id → z = y) :
    (xs.map fun x => volume x.order.id ts).sum = tradedQty ts := by
  induction ts with
  | nil => simp
  | cons t ts ih =>
    obtain ⟨y, hy, hny, huniq⟩ := hone t (by simp)
    have hhead : (xs.map fun x => if t.Names x.order.id then t.quantity.toNat else 0).sum
        = t.quantity.toNat := by
      rw [List.sum_map_eq_nsmul_single y, List.count_eq_one_of_mem hnd hy, if_pos hny, one_nsmul]
      exact fun z hz hmem => if_neg fun hnz => hz (huniq z hmem hnz)
    simp only [volume_cons]
    rw [List.sum_map_add, hhead, ih fun t' ht' => hone t' (List.mem_cons_of_mem _ ht'),
      tradedQty_cons]

/-- **A side has traded everything there was to trade**, if each execution has exactly one order
on it. -/
theorem Ledger.filledBy_eq (hl : Ledger d b) (p : Account → Bool)
    (hp : ∀ k ∈ d.accounts, ∀ t ∈ d.accounts, (k.order.side = .buy ↔ t.order.side ≠ .buy) →
      (p k = true ↔ p t = false)) : filledBy d.accounts p = tradedQty d.trades := by
  have hnd : d.accounts.Nodup := hl.ids.of_map _
  have hvol : filledBy d.accounts p
      = ((d.accounts.filter p).map fun x => volume x.order.id d.trades).sum := by
    unfold filledBy
    rw [List.map_congr_left fun x hx => hl.filled x (List.mem_filter.mp hx).1]
  rw [hvol]
  refine sum_volume (hnd.filter _) fun t ht => ?_
  obtain ⟨-, -, k, hk, y, hy, h1, h2, hside, -⟩ := hl.trades t ht
  have hpk := hp k hk y hy hside
  have hnames : ∀ z ∈ d.accounts, t.Names z.order.id → z = k ∨ z = y := by
    rintro z hz (hn | hn)
    · exact Or.inl (hl.eq_of_id hz hk (hn.symm.trans h1.symm))
    · exact Or.inr (hl.eq_of_id hz hy (hn.symm.trans h2.symm))
  cases hpkv : p k with
  | true =>
    have hpy := hpk.mp hpkv
    refine ⟨k, List.mem_filter.mpr ⟨hk, hpkv⟩, Or.inl h1.symm, fun z hz hn => ?_⟩
    obtain ⟨hz, hpz⟩ := List.mem_filter.mp hz
    refine (hnames z hz hn).resolve_right ?_
    rintro rfl
    exact Bool.false_ne_true (hpy.symm.trans hpz)
  | false =>
    have hpy : p y = true := by
      rw [← Bool.not_eq_false]
      intro hpy
      exact Bool.false_ne_true (hpkv.symm.trans (hpk.mpr hpy))
    refine ⟨y, List.mem_filter.mpr ⟨hy, hpy⟩, Or.inr h2.symm, fun z hz hn => ?_⟩
    obtain ⟨hz, hpz⟩ := List.mem_filter.mp hz
    refine (hnames z hz hn).resolve_left ?_
    rintro rfl
    exact Bool.false_ne_true (hpkv.symm.trans hpz)

/-! ## The conservation law

What an order wanted is traded, at rest, or dropped, and each of the three is counted once. -/

/-- What of the order is in the book. -/
def restingQty (d : Desk) (x : Account) : ℕ :=
  if x.isLive = true ∧ x.slot ∈ d.matcher.book.restingSlots d.matcher.pool
  then x.order.remaining.toNat else 0

/-- What of the order was dropped: cancelled, rejected, or the remainder of an order that does not
rest. -/
def droppedQty (x : Account) : ℕ := if x.order.Dropped then x.order.remaining.toNat else 0

/-- The whole of an order is traded, resting or dropped. -/
theorem Ledger.split (hl : Ledger d b) (h : d.Inv b) {x : Account} (hx : x ∈ d.accounts) :
    x.order.initialQty.toNat
      = volume x.order.id d.trades + d.restingQty x + droppedQty x := by
  have hsound := hl.sound x hx
  have hrem := hsound.toNat_remaining
  have hle := hsound.toNat_le
  rw [← hl.filled x hx, restingQty, droppedQty, h.rep.restingSlots_eq h.wf.sorted h.length_le]
  by_cases hr : x.isLive = true ∧ x.slot ∈ b.slots
  · obtain ⟨e, he, hex⟩ := List.mem_map.mp hr.2
    have horder : x.order = e.order := by
      rw [(hl.live x hx hr.1).1, ← hex]
      exact h.rep.data he
    obtain ⟨s, hs⟩ := b.mem_resting.mp he
    have hnot : ¬ x.order.Dropped := by
      have hpat : ¬ (e.order.type = .market ∨ e.order.tif = .ioc) := hl.patient e he
      have hstat := (h.wf.live s e hs).status_eq
      rw [horder]
      unfold OrderData.restStatus at hstat
      rintro (hc | hc | hc)
      · split_ifs at hstat <;> simp [hc] at hstat
      · split_ifs at hstat <;> simp [hc] at hstat
      · exact hpat hc
    rw [if_pos hr, if_neg hnot]
    omega
  · rw [if_neg hr]
    rcases hl.ended x hx hr with h0 | hdrop
    · rw [h0, UInt64.toNat_zero] at hrem
      rw [h0, UInt64.toNat_zero, ite_self]
      omega
    · rw [if_pos hdrop]
      omega

/-- **Quantities are conserved over every run.** -/
theorem conservation_of_reach {i : InstrumentId} {capacity : ℕ}
    (h : Guarded.Reach Desk.call FreshIds (start i capacity) d) :
    (∀ x ∈ d.accounts, (x.isLive = true → x.order = d.order x.slot)
      ∧ x.order.filledQty.toNat = volume x.order.id d.trades
      ∧ x.order.filledQty ≤ x.order.initialQty
      ∧ x.order.initialQty.toNat = volume x.order.id d.trades + d.restingQty x + droppedQty x)
    ∧ (∀ t ∈ d.trades, t.Between d.accounts)
    ∧ filledBy d.accounts (·.order.side = .buy) = filledBy d.accounts (·.order.side ≠ .buy) := by
  obtain ⟨b, hb, hl, -⟩ := exists_ledger h
  refine ⟨fun x hx => ⟨fun hlive => (hl.live x hx hlive).1, hl.filled x hx, hl.sound x hx,
    hl.split hb hx⟩, hl.trades, ?_⟩
  rw [hl.filledBy_eq, hl.filledBy_eq]
  · intro k _ t _ hside
    simp only [decide_eq_true_eq, decide_eq_false_iff_not, not_not]
    exact ⟨fun hk => by_contra fun ht => hk (hside.mpr ht), fun ht hk => hside.mp hk ht⟩
  · intro k _ t _ hside
    simpa using hside

/-- A bid for 5 at 10 filled in part by an offer of 3 at 9, then cancelled; an immediate bid that
meets nobody. -/
def fills : List Call :=
  [.acquire, .write 3 { id := 7, limitPrice := 10, initialQty := 5, instrument := 1 }, .submit 3,
    .acquire,
    .write 2 { id := 8, limitPrice := 9, initialQty := 3, instrument := 1, side := .sell },
    .submit 2, .release 2, .cancel 7,
    .acquire, .write 3 { id := 9, limitPrice := 9, initialQty := 1, instrument := 1, tif := .ioc },
    .submit 3]

/-- A run with one trade and a remainder that is dropped. -/
theorem conservation_of_fills :
    ∃ d, Guarded.run Desk.call FreshIds (start 1 4) fills = some d
      ∧ d.trades.length = 1 ∧ d.accounts.length = 3
      ∧ (∀ x ∈ d.accounts, x.order.filledQty.toNat = volume x.order.id d.trades)
      ∧ filledBy d.accounts (·.order.side = .buy) = filledBy d.accounts (·.order.side ≠ .buy) := by
  have hrun : (Guarded.run Desk.call FreshIds (start 1 4) fills).map (fun d =>
      (d.trades.length, d.accounts.length)) = some (1, 3) := by decide +kernel
  obtain ⟨d, hd, hval⟩ := Option.map_eq_some_iff.mp hrun
  obtain ⟨htr, hacc⟩ := Prod.mk.inj hval
  obtain ⟨h1, -, h3⟩ := conservation_of_reach (.of_run hd)
  exact ⟨d, hd, htr, hacc, fun x hx => (h1 x hx).2.1, h3⟩

end Desk

end Ordbk

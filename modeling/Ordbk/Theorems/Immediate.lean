import Ordbk.Abstract.Interest
import Ordbk.Theorems.Isolation
import Ordbk.Theorems.Traceless

/-!
# Theorems/Immediate — immediate-or-cancel is spelled with a cancel

Write every immediate limit order of a run as a good-till-cancel order with a cancel behind it.  The
executions are the same, every other call gets the reply it got, the books end up the same; and what
the two new calls return can be told from what the one returned (`spelled_of_traces`).
-/

namespace Ordbk

open QueueBook

/-! ## The spelling

The patient order does what the hasty one does, except that what is left comes to rest; the cancel
behind it takes that out again, before anybody can meet it. -/

/-- A limit order that does not rest. -/
def OrderData.Hasty (o : OrderData) : Prop := o.type = .limit ∧ o.tif = .ioc

instance (o : OrderData) : Decidable o.Hasty := inferInstanceAs (Decidable (_ ∧ _))

/-- The same order, until cancelled. -/
def OrderData.patient (o : OrderData) : OrderData := { o with tif := .gtc }

/-- What the patient order is where the hasty one ended as `after`. -/
def OrderData.lingering (after : OrderData) : OrderData :=
  after.patient.withStatus (if after.status = .cancelled then .new else after.status)

/-- Something of it was dropped. -/
def OrderData.Unmet (after : OrderData) : Prop :=
  after.status = .cancelled ∨ after.status = .partiallyFilled

instance (o : OrderData) : Decidable o.Unmet := inferInstanceAs (Decidable (_ ∨ _))

/-- **An immediate order, spelled out.** -/
def BookCall.spelled : BookCall → List BookCall
  | .submit o => if o.Hasty then [.submit o.patient, .cancel o.id] else [.submit o]
  | x => [x]

/-- The calls spelled out, with their replies. -/
def Played.spelled : Played → List Played
  | .submit o after ts =>
    if o.Hasty then [.submit o.patient after.lingering ts, .cancel o.id (decide after.Unmet)]
    else [.submit o after ts]
  | x => [x]

/-- Spelling a reply spells its call. -/
theorem Played.call_spelled (x : Played) : x.spelled.map Played.call = x.call.spelled := by
  cases x with
  | submit o after ts =>
    simp only [spelled, call, BookCall.spelled]
    split_ifs <;> rfl
  | cancel id found => rfl
  | expire found => rfl

/-! ## On a book

The two calls are one, seen from the book: the same sweep, and then nothing at rest that was not
there. -/

/-- A sweep does not look at the time in force. -/
theorem sweep_patient (t : OrderData) (ms : List Resting) :
    sweep t.patient ms = { sweep t ms with taker := (sweep t ms).taker.patient } := by
  induction ms generalizing t with
  | nil => rfl
  | cons m ms ih =>
    have hrem : t.patient.remaining = t.remaining := rfl
    have hblocked : Matcher.blocked t.patient m.price = Matcher.blocked t m.price := rfl
    have htrade : ∀ q, tradeOf t.patient m.order q = tradeOf t m.order q := fun _ => rfl
    have hfill : ∀ q, t.patient.fill q = (t.fill q).patient := fun _ => rfl
    simp only [sweep, hrem, hblocked, htrade, hfill, ih]
    split_ifs <;> rfl

namespace QueueBook

variable {b : QueueBook} {a : Slot} {o : OrderData}

/-- It is refused when the hasty one is: no check looks at haste, but for fill-or-kill orders. -/
theorem rejects_patient (ho : o.Hasty) : b.rejects o.patient = b.rejects o := by
  have hlimit : (OrderType.limit == OrderType.market) = false := rfl
  have hgtc : (TimeInForce.gtc == TimeInForce.fok) = false := rfl
  have hioc : (TimeInForce.ioc == TimeInForce.fok) = false := rfl
  simp only [rejects, OrderData.patient, ho.1, ho.2, hlimit, hgtc, hioc, Bool.false_and,
    Bool.or_false]

/-- And leaves the same book behind its sweep. -/
theorem entered_patient (b : QueueBook) (o : OrderData) : b.entered o.patient = b.entered o := by
  have hentry : b.entry o.patient = _ := sweep_patient o (b.side (opposite o.side))
  rw [entered, hentry]
  rfl

/-- An id that is not in the index is not put there by a sweep. -/
theorem lookup_entered_eq_none (hid : b.index.lookup o.id = none) :
    (b.entered o).index.lookup o.id = none := by
  change (forget b.index _).lookup o.id = none
  rw [lookup_forget, hid, ite_self]

/-- An id that is not known cannot be cancelled. -/
theorem cancel_of_lookup {id : OrderId} (h : b.index.lookup id = none) :
    b.cancel id = (b, none) := by
  rw [cancel, h]

/-- **One immediate order**: submitted without haste and cancelled, it leaves the same book. -/
theorem submit_patient (hw : b.WF) (h0 : o.filledQty = 0) (ho : o.Hasty) (ha : a ∉ b.slots)
    (hid : b.index.lookup o.id = none) :
    (b.submit a o.patient).trades = (b.submit a o).trades
      ∧ (b.submit a o.patient).order = (b.submit a o).order.lingering
      ∧ ((b.submit a o.patient).book.cancel o.id).1 = (b.submit a o).book
      ∧ ((b.submit a o.patient).book.cancel o.id).2.isSome = decide (b.submit a o).order.Unmet := by
  have hsound := OrderData.sound_of_fresh h0
  have hentry : b.entry o.patient = { b.entry o with taker := (b.entry o).taker.patient } :=
    sweep_patient o _
  have hpatient : ¬ (o.patient.type = .market ∨ o.patient.tif = .ioc) := by
    rintro (h | h)
    · rw [show o.patient.type = .limit from ho.1] at h
      cases h
    · cases h
  have hgone := lookup_entered_eq_none hid
  have hslot : a ∉ (b.entered o).slots := fun h =>
    ha ((slots_swept_perm hw hsound).mem_iff.mp (List.mem_append_right _ h))
  have htaker : (b.entry o).taker.id = o.id := congrArg (·.id) (ident_entry hw hsound)
  have hfull : (b.entry o).taker.patient.isFullyFilled = (b.entry o).taker.isFullyFilled := rfl
  simp only [submit, rejects_patient ho, entered_patient, hentry, hfull, if_neg hpatient,
    if_pos (Or.inr ho.2 : o.type = .market ∨ o.tif = .ioc)]
  split_ifs with hrej hfilled
  · rw [cancel_of_lookup hid]
    exact ⟨rfl, rfl, rfl, rfl⟩
  · rw [cancel_of_lookup hgone]
    exact ⟨rfl, rfl, rfl, rfl⟩
  · have hcancel := cancel_rest (b := b.entered o) (e := ⟨a, (b.entry o).taker.patient.withStatus
      (b.entry o).taker.patient.restStatus⟩) hslot (htaker ▸ hgone)
    have hids : ((b.entry o).taker.patient.withStatus (b.entry o).taker.patient.restStatus).id
        = o.id :=
      htaker
    simp only [hids] at hcancel
    rw [hcancel]
    have hstatus : (b.entry o).taker.patient.restStatus
        = if dropStatus (b.entry o).taker = .cancelled
          then .new else dropStatus (b.entry o).taker := by
      unfold dropStatus OrderData.restStatus OrderData.patient
      split_ifs <;> first | rfl | simp_all
    refine ⟨rfl, ?_, rfl, ?_⟩
    · rw [hstatus]
      rfl
    · refine (decide_eq_true ?_).symm
      change dropStatus _ = _ ∨ dropStatus _ = _
      unfold dropStatus
      split_ifs
      · exact .inr rfl
      · exact .inl rfl

end QueueBook

/-! ## Along a run

Both runs go on side by side; their books are the same but for the slot addresses, and by that the
replies can be compared. -/

variable {s s' t t' : Option QueueBook} {L M : List Played}

/-- **One call, spelled out**: the replies are told by the old one, and the books stay alike. -/
theorem spelled_of_answers {x : Played} {ys : List Played} (hR : Option.Rel Alike s t)
    (hx : Answers s x s') (hys : Guarded.Path Answers t ys t')
    (hcalls : ys.map Played.call = x.call.spelled)
    (hnew : ∀ id, x.submitted = some id → Gone id s) :
    ys = x.spelled ∧ Option.Rel Alike s' t' := by
  by_cases hplain : x.call.spelled = [x.call]
  · have hspelled : x.spelled = [x] := by
      cases x with
      | submit o after ts =>
        simp only [Played.call, BookCall.spelled] at hplain
        simp only [Played.spelled]
        split_ifs at hplain ⊢ with ho
        · exact absurd (congrArg List.length hplain) (by simp)
        · rfl
      | cancel id found => rfl
      | expire found => rfl
    rw [hplain] at hcalls
    obtain ⟨y, rfl, hy⟩ := List.map_eq_singleton_iff.mp hcalls
    obtain ⟨t₁, hans, hnil⟩ := hys.uncons
    cases hnil
    obtain ⟨rfl, hrel⟩ := hx.alike hR hans hy.symm
    exact ⟨hspelled.symm, hrel⟩
  cases x with
  | cancel id found => exact absurd rfl hplain
  | expire found => exact absurd rfl hplain
  | submit o after ts =>
    have ho : o.Hasty := by
      by_contra ho
      exact hplain (if_neg ho)
    simp only [Played.call, BookCall.spelled, if_pos ho] at hcalls
    obtain ⟨y₁, ys₁, rfl, hy₁, hcalls⟩ := List.map_eq_cons_iff.mp hcalls
    obtain ⟨y₂, rfl, hy₂⟩ := List.map_eq_singleton_iff.mp hcalls
    obtain ⟨t₁, h₁, hys⟩ := hys.uncons
    obtain ⟨t₂, h₂, hnil⟩ := hys.uncons
    cases hnil
    have hgone := hnew o.id rfl
    simp only [Played.spelled, if_pos ho]
    cases hx with
    | submitNone =>
      cases hR
      cases h₁ with
      | @submitNone o' =>
        have ho' : o' = o.patient := BookCall.submit.inj hy₁
        subst ho'
        cases h₂ with
        | cancelNone =>
          obtain rfl := BookCall.cancel.inj hy₂
          exact ⟨rfl, .none⟩
        | submitNone => cases hy₂
        | expireNone => cases hy₂
      | cancelNone => cases hy₁
      | expireNone => cases hy₁
    | @submit b a _ hw ha h0 =>
      cases hR with
      | @some _ c halike =>
        cases h₁ with
        | @submit _ a' o' hwc ha' _ =>
          have ho' : o' = o.patient := BookCall.submit.inj hy₁
          subst ho'
          cases h₂ with
          | cancel _ =>
            obtain rfl := BookCall.cancel.inj hy₂
            obtain ⟨hbook, horder, htrades⟩ := halike.submit hw ha ha' o
            have hid : b.index.lookup o.id = none := lookup_eq_none hw (hgone b rfl)
            have hid' : c.index.lookup o.id = none := by
              obtain ⟨π, hπ⟩ := halike
              rw [hπ.index, hid]
              rfl
            obtain ⟨htrades', horder', hcancel, hfound⟩ := submit_patient hwc h0 ho ha' hid'
            rw [htrades', horder', hfound, htrades, horder]
            refine ⟨rfl, ?_⟩
            rw [hcancel]
            exact .some hbook
          | submit => cases hy₂
          | expire => cases hy₂
        | cancel => cases hy₁
        | expire => cases hy₁

/-- **A whole run, spelled out.** -/
theorem spelled_of_paths (hR : Option.Rel Alike s t) (h : Guarded.Path Answers s L s')
    (h' : Guarded.Path Answers t M t')
    (hcalls : M.map Played.call = (L.map Played.call).flatMap BookCall.spelled)
    (hids : (L.filterMap Played.submitted).Nodup)
    (hnew : ∀ id ∈ L.filterMap Played.submitted, Gone id s) :
    M = L.flatMap Played.spelled ∧ Option.Rel Alike s' t' := by
  induction h generalizing t M with
  | nil =>
    obtain rfl := List.map_eq_nil_iff.mp hcalls
    cases h'
    exact ⟨rfl, hR⟩
  | @cons s s₁ s' x L hx hL ih =>
    rw [List.map_cons, List.flatMap_cons] at hcalls
    obtain ⟨ys, M, rfl, hys, hcalls⟩ := List.map_eq_append_iff.mp hcalls
    obtain ⟨t₁, h₁, h₂⟩ := h'.split
    have hids' : (L.filterMap Played.submitted).Nodup
        ∧ ∀ id ∈ L.filterMap Played.submitted, x.submitted ≠ some id := by
      rw [List.filterMap_cons] at hids
      cases hsub : x.submitted with
      | none => exact ⟨by rwa [hsub] at hids, by simp⟩
      | some id =>
        rw [hsub] at hids
        obtain ⟨hnot, hnodup⟩ := List.nodup_cons.mp hids
        refine ⟨hnodup, fun id' hid' heq => hnot ?_⟩
        rwa [Option.some.inj heq]
    have hmem : ∀ id, x.submitted = some id ∨ id ∈ L.filterMap Played.submitted → Gone id s := by
      intro id hid
      refine hnew id ?_
      rw [List.filterMap_cons]
      cases hsub : x.submitted with
      | none => exact hid.resolve_left (by rw [hsub]; simp)
      | some id' =>
        refine List.mem_cons.mpr (hid.imp_left fun h => ?_)
        exact (Option.some.inj (hsub.symm.trans h)).symm
    obtain ⟨rfl, hR₁⟩ := spelled_of_answers hR hx h₁ hys fun id hid => hmem id (.inl hid)
    rw [List.map_append, Played.call_spelled] at hcalls
    obtain ⟨rfl, hR'⟩ := ih hR₁ h₂ (List.append_cancel_left hcalls) hids'.1 fun id hid =>
      (hmem id (.inr hid)).step hx (hids'.2 id hid)
    exact ⟨rfl, hR'⟩

namespace Floor

variable {f g : Floor} {i : InstrumentId} {r : InstrumentRegistry} {filter : InstrumentId → Bool}
  {e : Engine} {capacity capacity' : ℕ} {L M : List (InstrumentId × Played)}

/-- **An engine without immediate limit orders would do.**  Give a second engine the same calls
about an instrument, but each immediate limit order as a good-till-cancel one and a cancel: it shows
the same replies, spelled out, and the same book. -/
theorem spelled_of_traces (hnew : Engine.new r filter = .ok e)
    (hf : Guarded.Trace Floor.call (fun _ _ => True) shown (start e capacity) L f)
    (hg : Guarded.Trace Floor.call (fun _ _ => True) shown (start e capacity') M g)
    (hids : ((concerning i L).filterMap Played.submitted).Nodup)
    (hcalls : (concerning i M).map Played.call
      = ((concerning i L).map Played.call).flatMap BookCall.spelled) :
    concerning i M = (concerning i L).flatMap Played.spelled ∧ g.snapshot i = f.snapshot i := by
  obtain ⟨q, hq, hpf⟩ := exists_paths hnew hf
  obtain ⟨p, hp, hpg⟩ := exists_paths hnew hg
  have hrefl : Option.Rel QueueBook.Alike
      ((e.books i).map fun _ => (⟨i, [], [], ∅⟩ : QueueBook))
      ((e.books i).map fun _ => ⟨i, [], [], ∅⟩) := by
    cases e.books i with
    | none => exact .none
    | some hb => exact .some (.refl _)
  have hempty : ∀ id, Gone id ((e.books i).map fun _ => (⟨i, [], [], ∅⟩ : QueueBook)) := by
    intro id b hb
    obtain ⟨-, -, rfl⟩ := Option.map_eq_some_iff.mp hb
    exact all_new i
  obtain ⟨hlog, hrel⟩ := spelled_of_paths hrefl (hpf i) (hpg i) hcalls hids fun id _ => hempty id
  exact ⟨hlog, (hq.snapshot_eq hp hrel).symm⟩

/-- A bid for five. -/
def bid : Order := { id := 3, limitPrice := 9, initialQty := 5, instrument := 1 }

/-- The bid meets an offer of three, and the rest is dropped or cancelled; the next offer meets
nobody. -/
def hurried (hasty : Bool) : List FloorCall :=
  [.acquire, .write 2 offer, .submit 2, .acquire,
    .write 1 { bid with tif := if hasty then .ioc else .gtc }, .submit 1]
    ++ (if hasty then [.acquire, .write 2 { offer with id := 4 }, .submit 2]
      else [.cancel 1 3, .acquire, .write 1 { offer with id := 4 }, .submit 1])

theorem spelled_of_hurried :
    ∃ L f M g, Guarded.Trace Floor.call (fun _ _ => True) shown
        (start ([⟨1⟩].foldl (Engine.addBook fun _ => true) {}) 3) L f
      ∧ Guarded.Trace Floor.call (fun _ _ => True) shown
        (start ([⟨1⟩].foldl (Engine.addBook fun _ => true) {}) 3) M g
      ∧ L.length = 3 ∧ M.length = 4 ∧ ((concerning 1 L).flatMap Played.trades).length = 1
      ∧ concerning 1 M = (concerning 1 L).flatMap Played.spelled ∧ g.snapshot 1 = f.snapshot 1 := by
  have hrun : ((Guarded.record Floor.call (fun _ _ => True) shown
      (start ([⟨1⟩].foldl (Engine.addBook fun _ => true) {}) 3) (hurried true)).bind fun r =>
      (Guarded.record Floor.call (fun _ _ => True) shown
        (start ([⟨1⟩].foldl (Engine.addBook fun _ => true) {}) 3) (hurried false)).map fun r' =>
        decide (r.1.length = 3 ∧ r'.1.length = 4
          ∧ ((concerning 1 r.1).flatMap Played.trades).length = 1
          ∧ ((concerning 1 r.1).filterMap Played.submitted).Nodup
          ∧ (concerning 1 r'.1).map Played.call
            = ((concerning 1 r.1).map Played.call).flatMap BookCall.spelled))
      = some true := by decide +kernel
  obtain ⟨⟨L, f⟩, hf, hrun⟩ := Option.bind_eq_some_iff.mp hrun
  obtain ⟨⟨M, g⟩, hg, hval⟩ := Option.map_eq_some_iff.mp hrun
  obtain ⟨hlen, hlen', htrades, hids, hcalls⟩ := of_decide_eq_true hval
  have hf := Guarded.Trace.of_record hf
  have hg := Guarded.Trace.of_record hg
  exact ⟨L, f, M, g, hf, hg, hlen, hlen', htrades,
    spelled_of_traces (r := ⟨[⟨1⟩], true⟩) rfl hf hg hids hcalls⟩

end Floor

end Ordbk

import Ordbk.Abstract.Bystander
import Ordbk.Refinement.Recorded

/-!
# Theorems/Traceless — an order that was never there

Submit an order, let anything happen that does not trade with it, and cancel it: every other call
gets the reply it would have got without the order, and the book ends up the same.  The two runs are
followed together in three stretches: before the order the books are alike, while it rests one book
is the other with the order in it (`Beside`), and from the cancel on they are alike again.
-/

namespace Ordbk

open QueueBook

variable {x : OrderId} {s s' t t' : Option QueueBook} {L : List Played}

/-! ## An id that nobody at rest has

The state is a queue book, or none where a book was never made; what holds of the one holds
trivially of the other. -/

/-- Nobody in the book has this id. -/
def Gone (x : OrderId) (s : Option QueueBook) : Prop := ∀ b, s = some b → b.All fun o => o.id ≠ x

/-- A call that does not submit the id does not bring it in. -/
theorem Gone.step {y : Played} (h : Gone x s) (hy : Answers s y s') (hid : y.submitted ≠ some x) :
    Gone x s' := by
  rintro b' rfl
  cases hy with
  | @submit b a o hw ha h0 =>
    exact all_submit hw (OrderData.sound_of_fresh h0) (h b rfl) fun _ ho => hid (congrArg some ho)
  | @cancel b id hw => exact all_cancel hw (h b rfl) id

/-- It stays that way until the id is submitted. -/
theorem Gone.path (h : Gone x s) (hp : Guarded.Path Answers s L s')
    (hL : ∀ y ∈ L, y.submitted ≠ some x) : Gone x s' :=
  hp.invariant (I := Gone x) (fun _ y _ hy hs hans => hs.step hans (hL y hy)) h

/-- Cancelling it finds nobody. -/
theorem Gone.cancel_eq_false (h : Gone x s) {found : Bool} (hy : Answers s (.cancel x found) s') :
    found = false := by
  cases hy with
  | @cancel b _ hw =>
    have hnone : b.index.lookup x = none := lookup_eq_none hw (h b rfl)
    rw [QueueBook.cancel, hnone]
    rfl
  | cancelNone => rfl

/-! ## While the order rests

The calls in between neither submit the id again, nor cancel it, nor trade with the order. -/

/-- A call that has nothing to do with the order `x`. -/
structure Played.Avoids (x : OrderId) (y : Played) : Prop where
  /-- Nobody else has the id. -/
  submitted : y.submitted ≠ some x
  /-- Nobody cancels it. -/
  cancelled : y.call ≠ .cancel x
  /-- Nobody trades with it. -/
  untraded : ∀ z ∈ y.trades, ¬ z.Names x

/-- The order sits in the book, if there is a book. -/
def Seated (x : OrderId) (s : Option QueueBook) : Prop := ∀ b, s = some b → b.Sits x

/-- It stays where it is. -/
theorem Seated.step {y : Played} (h : Seated x s) (hy : Answers s y s') (hav : y.Avoids x) :
    Seated x s' := by
  rintro b' rfl
  cases hy with
  | @submit b a o hw ha h0 =>
    exact ((h b rfl).submit h0 (fun ho => hav.submitted (congrArg some ho)) ha
      fun z hz hn => hav.untraded z hz (.inl hn)).1
  | @cancel b id hw =>
    exact ((h b rfl).cancel fun hid => hav.cancelled (congrArg BookCall.cancel hid)).1

/-- Cancelled, it is gone. -/
theorem Seated.cancel {found : Bool} (h : Seated x s) (hy : Answers s (.cancel x found) s') :
    Gone x s' := by
  rintro b' rfl
  cases hy with
  | @cancel b _ hw => exact (h b rfl).alone

/-- **One book is the other with the order in it**, slot addresses aside. -/
def Beside (x : OrderId) (s t : Option QueueBook) : Prop :=
  Option.Rel (fun b b' => b.Sits x ∧ Alike b' (b.without x)) s t

/-- One of the two books has it. -/
theorem Beside.seated (h : Beside x s t) : Seated x s := by
  rintro b rfl
  cases h with
  | some h => exact h.1

/-- Cancelled, it leaves the other book. -/
theorem Beside.cancel {found : Bool} (h : Beside x s t) (hy : Answers s (.cancel x found) s') :
    Option.Rel Alike t s' := by
  cases hy with
  | cancel =>
    cases h with
    | some h => exact .some h.2
  | cancelNone =>
    cases h with
    | none => exact .none

/-- **The same reply, with and without.** -/
theorem Beside.step {y z : Played} (hR : Beside x s t) (hav : y.Avoids x) (hy : Answers s y s')
    (hz : Answers t z t') (hc : y.call = z.call) : y = z ∧ Beside x s' t' := by
  unfold Beside at hR
  cases hR with
  | none =>
    obtain ⟨heq, hrel⟩ := hy.alike .none hz hc
    refine ⟨heq, ?_⟩
    cases hy <;> cases hz <;> exact .none
  | @some b b' hR =>
    obtain ⟨hsits, halike⟩ := hR
    cases hy with
    | @submit _ a o hw ha h0 =>
      cases hz with
      | @submit _ a' o' hw' ha' _ =>
        obtain rfl : o = o' := BookCall.submit.inj hc
        obtain ⟨hsits', heq⟩ := hsits.submit h0 (fun ho => hav.submitted (congrArg some ho)) ha
          fun w hw hn => hav.untraded w hw (.inl hn)
        have hout : a ∉ (b.without x).slots := fun hmem => by
          obtain ⟨loc, hl, hwithout⟩ := hsits.exists_locator
          rw [hwithout] at hmem
          exact ha ((slots_remove_perm hw hl).subset (List.mem_cons_of_mem _ hmem))
        obtain ⟨hbook, horder, htrades⟩ := halike.submit hw' ha' hout o
        rw [heq] at hbook horder htrades
        exact ⟨by rw [← horder, ← htrades], .some ⟨hsits', hbook⟩⟩
      | cancel => cases hc
      | expire => cases hc
    | @cancel _ id hw =>
      cases hz with
      | submit => cases hc
      | cancel _ =>
        obtain rfl := BookCall.cancel.inj hc
        obtain ⟨hsits', heq⟩ := hsits.cancel fun hid => hav.cancelled (congrArg BookCall.cancel hid)
        obtain ⟨hbook, hfound⟩ := halike.cancel id
        rw [heq] at hbook hfound
        exact ⟨by rw [hfound], .some ⟨hsits', hbook⟩⟩
      | expire => cases hc
    | expire =>
      cases hz with
      | submit => cases hc
      | cancel => cases hc
      | expire => exact ⟨rfl, .none⟩

/-! ## The three stretches

The order comes to rest, since it is cancelled later; it is at rest until then; and afterwards the
books are alike. -/

/-- **The order comes to rest beside the other book.**  It has traded with nobody, and it is in the
book, since it can be cancelled later. -/
theorem beside_of_submit {o after : OrderData} {ts : List Trade} (halike : Option.Rel Alike t s)
    (hgone : Gone o.id s) (hy : Answers s (.submit o after ts) s') (hts : ts = [])
    (hin : ¬ Gone o.id s') : Beside o.id s' t := by
  cases hy with
  | submitNone => exact absurd (fun b hb => by cases hb) hin
  | @submit b a _ hw ha h0 =>
    have ho := OrderData.sound_of_fresh h0
    have hrests : b.Rests o := by
      by_contra hnot
      refine hin fun b' hb' => ?_
      obtain rfl := Option.some.inj hb'
      exact all_submit hw ho (hgone b rfl) fun hr => absurd hr hnot
    have hnone : (b.entry o).trades = [] := by
      have htrades := trades_submit b a o
      rwa [hrests.accepted, if_neg Bool.false_ne_true, hts, eq_comm] at htrades
    have hlook : b.index.lookup o.id = none := lookup_eq_none hw (hgone b rfl)
    have hbook := book_of_untraded (a := a) hw hrests hnone
    have hback : ((b.submit a o).book.cancel o.id) = (b, some a) := by
      rw [hbook]
      exact cancel_rest (e := ⟨a, o.withStatus _⟩) ha hlook
    cases halike with
    | some halike =>
      refine .some ⟨⟨wf_submit hw ho ha, by rw [hback]; rfl, ?_⟩, ?_⟩
      · rw [without, hback]
        exact hgone b rfl
      · rwa [without, hback]

/-- An order that can be cancelled now has not been cancelled before. -/
theorem avoids_of_cancelled (hp : Guarded.Path Answers s L s')
    (hlast : Answers s' (.cancel x true) t) (hseated : Seated x s)
    (hids : ∀ y ∈ L, y.submitted ≠ some x) (huntraded : ∀ y ∈ L, ∀ z ∈ y.trades, ¬ z.Names x) :
    ∀ y ∈ L, y.Avoids x := by
  induction hp with
  | nil => simp
  | @cons s s₁ s₂ y L hy hp ih =>
    have hids' : ∀ z ∈ L, z.submitted ≠ some x := fun z hz => hids z (List.mem_cons_of_mem _ hz)
    have hcall : y.call ≠ .cancel x := by
      intro hc
      obtain ⟨found, rfl⟩ : ∃ found, y = .cancel x found := by
        cases y with
        | cancel id found =>
          obtain rfl := BookCall.cancel.inj hc
          exact ⟨found, rfl⟩
        | submit => cases hc
        | expire => cases hc
      cases ((hseated.cancel hy).path hp hids').cancel_eq_false hlast
    have hav : y.Avoids x := ⟨hids y (List.mem_cons_self ..), hcall,
      huntraded y (List.mem_cons_self ..)⟩
    refine List.forall_mem_cons.mpr ⟨hav, ?_⟩
    exact ih hlast (hseated.step hy hav) hids' fun z hz => huntraded z (List.mem_cons_of_mem _ hz)

/-- **Without a trace**, on queue books. -/
theorem traceless_of_paths {b₀ : QueueBook} {o after : OrderData} {ts : List Trade}
    {L₁ L₂ L₃ M : List Played}
    (h : Guarded.Path Answers (some b₀)
      (L₁ ++ .submit o after ts :: (L₂ ++ .cancel o.id true :: L₃)) s)
    (h' : Guarded.Path Answers (some b₀) M t) (h₀ : Gone o.id (some b₀))
    (hids : ∀ y ∈ L₁ ++ L₂, y.submitted ≠ some o.id)
    (hts : ts = []) (huntraded : ∀ y ∈ L₂, ∀ z ∈ y.trades, ¬ z.Names o.id)
    (hM : M.map Played.call = (L₁ ++ L₂ ++ L₃).map Played.call) :
    M = L₁ ++ L₂ ++ L₃ ∧ Option.Rel Alike t s := by
  -- cut both runs into their stretches
  obtain ⟨s₁, hL₁, h⟩ := h.split
  obtain ⟨s₂, hsubmit, h⟩ := h.uncons
  obtain ⟨s₃, hL₂, h⟩ := h.split
  obtain ⟨s₄, hcancel, hL₃⟩ := h.uncons
  rw [List.map_append, List.map_append] at hM
  obtain ⟨M₁₂, M₃, rfl, hM₁₂, hM₃⟩ := List.map_eq_append_iff.mp hM
  obtain ⟨M₁, M₂, rfl, hM₁, hM₂⟩ := List.map_eq_append_iff.mp hM₁₂
  obtain ⟨t₂, h', hp₃⟩ := h'.split
  obtain ⟨t₁, hp₁, hp₂⟩ := h'.split
  have hids₁ : ∀ y ∈ L₁, y.submitted ≠ some o.id := fun y hy => hids y (List.mem_append_left _ hy)
  have hids₂ : ∀ y ∈ L₂, y.submitted ≠ some o.id := fun y hy => hids y (List.mem_append_right _ hy)
  -- before
  obtain ⟨rfl, halike₁⟩ := alike_of_calls (.some (.refl b₀)) hp₁ hL₁ hM₁
  have hin : ¬ Gone o.id s₂ := fun hgone => by
    cases (hgone.path hL₂ hids₂).cancel_eq_false hcancel
  have hbeside := beside_of_submit halike₁ (h₀.path hL₁ hids₁) hsubmit hts hin
  -- meanwhile
  have hav := avoids_of_cancelled hL₂ hcancel hbeside.seated hids₂ huntraded
  obtain ⟨hB, hbeside'⟩ := Guarded.Path.lockstep (R := Beside o.id) (B := Eq)
    (fun _ y _ _ _ _ hy hR hs ht hc => Beside.step hR (hav y hy) hs ht hc) hbeside hL₂ hp₂
    (Guarded.forall₂_of_map_eq hM₂.symm)
  obtain rfl : L₂ = M₂ := List.forall₂_eq_eq_eq ▸ hB
  -- and after
  obtain ⟨rfl, halike⟩ := alike_of_calls (hbeside'.cancel hcancel) hp₃ hL₃ hM₃
  exact ⟨rfl, halike⟩

namespace Desk

variable {d d' : Desk}

/-- Every execution of a submission names the order submitted. -/
theorem takerId_of_answers {o after : OrderData} {ts : List Trade}
    (h : Answers s (.submit o after ts) s') : ∀ z ∈ ts, z.takerId = o.id := by
  cases h with
  | submitNone => simp
  | @submit b a _ hw ha h0 =>
    intro z hz
    rw [trades_submit] at hz
    split_ifs at hz
    · cases hz
    · obtain ⟨m, -, -, hzm, -⟩ := mem_sweep_trades (OrderData.sound_of_fresh h0) hw.open hz
      rw [hzm]
      rfl

/-- An id submitted once is submitted by nobody else. -/
theorem submitted_ne_of_nodup {o after : OrderData} {ts : List Trade} {L₁ L₂ : List Played}
    (h : ((L₁ ++ .submit o after ts :: L₂).filterMap Played.submitted).Nodup) :
    ∀ y ∈ L₁ ++ L₂, y.submitted ≠ some o.id := by
  have hsplit : (L₁ ++ .submit o after ts :: L₂).filterMap Played.submitted
      = L₁.filterMap Played.submitted ++ o.id :: L₂.filterMap Played.submitted := by
    rw [List.filterMap_append, List.filterMap_cons]
    rfl
  rw [hsplit] at h
  have hnot := (List.nodup_cons.mp (List.perm_middle.nodup_iff.mp h)).1
  intro y hy hid
  rw [← List.filterMap_append] at hnot
  exact hnot (List.mem_filterMap.mpr ⟨y, hy, hid⟩)

/-- **An untraded, cancelled order leaves no trace.** -/
theorem traceless_of_traces {i : InstrumentId} {capacity capacity' : ℕ} {L₁ L₂ L₃ M : List Played}
    {o after : OrderData} {ts : List Trade}
    (h : Guarded.Trace Desk.call Undrained shown (start i capacity)
      (L₁ ++ .submit o after ts :: (L₂ ++ .cancel o.id true :: L₃)) d)
    (hids : ((L₁ ++ .submit o after ts :: (L₂ ++ .cancel o.id true :: L₃)).filterMap
      Played.submitted).Nodup)
    (huntraded : ∀ y ∈ L₁ ++ .submit o after ts :: (L₂ ++ .cancel o.id true :: L₃),
      ∀ z ∈ y.trades, ¬ z.Names o.id)
    (h' : Guarded.Trace Desk.call Undrained shown (start i capacity') M d')
    (hM : M.map Played.call = (L₁ ++ L₂ ++ L₃).map Played.call) :
    M = L₁ ++ L₂ ++ L₃ ∧ d'.snapshot = d.snapshot := by
  obtain ⟨b, hb, hp⟩ := exists_path h
  obtain ⟨b', hb', hp'⟩ := exists_path h'
  have hts : ts = [] := by
    obtain ⟨s₁, -, htail⟩ := hp.split
    obtain ⟨s₂, hsubmit, -⟩ := htail.uncons
    refine List.eq_nil_iff_forall_not_mem.mpr fun z hz => ?_
    exact huntraded (.submit o after ts) (by simp) z hz (.inr (takerId_of_answers hsubmit z hz))
  have hone := submitted_ne_of_nodup hids
  obtain ⟨hlog, hrel⟩ := traceless_of_paths hp hp' (fun b hb => Option.some.inj hb ▸ all_new i)
    (fun y hy => hone y (by
      rcases List.mem_append.mp hy with hy | hy
      · exact List.mem_append_left _ hy
      · exact List.mem_append_right _ (List.mem_append_left _ hy)))
    hts (fun y hy => huntraded y (by simp [hy])) hM
  cases hrel with
  | some halike => exact ⟨hlog, (hb'.snapshot_eq hb halike).symm⟩

/-- A bid; another behind it at its price; an offer that fills the first; the second, if it was
there at all, cancelled; an offer that finds nobody. -/
def withAndWithout (bystander : Bool) : List Call :=
  [.acquire, .write 3 { id := 1, limitPrice := 10, initialQty := 5, instrument := 1 }, .submit 3]
    ++ (if bystander then
      [.acquire, .write 2 { id := 2, limitPrice := 10, initialQty := 6, instrument := 1 },
        .submit 2]
      else [])
    ++ [.acquire, .write (if bystander then 1 else 2)
      { id := 3, limitPrice := 9, initialQty := 5, instrument := 1, side := .sell, tif := .fok },
      .submit (if bystander then 1 else 2)]
    ++ if bystander then [.cancel 2, .cancel 7] else [.cancel 7]

theorem traceless_of_bystander :
    ∃ L₁ L₂ L₃ o after ts d M d', Guarded.Trace Desk.call Undrained shown (start 1 4)
        (L₁ ++ .submit o after ts :: (L₂ ++ .cancel o.id true :: L₃)) d
      ∧ Guarded.Trace Desk.call Undrained shown (start 1 4) M d'
      ∧ (M.flatMap Played.trades).length = 1
      ∧ M = L₁ ++ L₂ ++ L₃ ∧ d'.snapshot = d.snapshot := by
  have hrun : ((Guarded.record Desk.call Undrained shown (start 1 4) (withAndWithout true)).bind
      fun r => (Guarded.record Desk.call Undrained shown (start 1 4) (withAndWithout false)).map
        fun r' => decide (
          r.1 = r.1.take 1
            ++ .submit { id := 2, limitPrice := 10, initialQty := 6, instrument := 1 }
            { id := 2, limitPrice := 10, initialQty := 6, instrument := 1 } []
              :: ((r.1.drop 2).take 1 ++ .cancel 2 true :: r.1.drop 4)
          ∧ (r.1.filterMap Played.submitted).Nodup
          ∧ (∀ y ∈ r.1, ∀ z ∈ y.trades, ¬ z.Names 2)
          ∧ (r'.1.flatMap Played.trades).length = 1
          ∧ r'.1.map Played.call
            = (r.1.take 1 ++ (r.1.drop 2).take 1 ++ r.1.drop 4).map Played.call))
      = some true := by decide +kernel
  obtain ⟨⟨L, d⟩, hd, hrun⟩ := Option.bind_eq_some_iff.mp hrun
  obtain ⟨⟨M, d'⟩, hd', hval⟩ := Option.map_eq_some_iff.mp hrun
  obtain ⟨hL, hids, huntraded, htrades, hM⟩ := of_decide_eq_true hval
  have hd := Guarded.Trace.of_record hd
  have hd' := Guarded.Trace.of_record hd'
  simp only at hL hids huntraded htrades hM
  generalize L.take 1 = L₁ at hL hM
  generalize (L.drop 2).take 1 = L₂ at hL hM
  generalize L.drop 4 = L₃ at hL hM
  subst hL
  exact ⟨L₁, L₂, L₃, _, _, _, d, M, d', hd, hd', htrades,
    traceless_of_traces (o := { id := 2, limitPrice := 10, initialQty := 6, instrument := 1 })
      hd hids huntraded hd' hM⟩

end Desk

end Ordbk

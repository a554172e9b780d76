import Ordbk.Refinement.Recorded

/-!
# Theorems/Isolation — instruments do not interfere

Two runs of one engine, over pools of any size and with anything at all going on in other
instruments: if the calls about an instrument are the same, in the same order, then so are their
replies and so is the book they leave.  Calls about different instruments commute, and an instrument
that has expired stays expired.
-/

namespace Ordbk

/-- The call comes to nothing: a rejected order without executions, or nothing found. -/
def Played.Refused : Played → Prop
  | submit _ after trades => after.status = .rejected ∧ trades = []
  | cancel _ found => found = false
  | expire found => found = false

/-- **Once gone, a book stays gone**, and refuses everything. -/
theorem refused_of_none {s : Option QueueBook} {L : List Played}
    (h : Guarded.Path Answers none L s) : s = none ∧ ∀ x ∈ L, x.Refused := by
  induction L with
  | nil =>
    cases h
    exact ⟨rfl, by simp⟩
  | cons x L ih =>
    cases h with
    | cons hx h =>
      have hnone : x.Refused ∧ ∀ t, Answers none x t → t = none := by
        cases hx with
        | submitNone => exact ⟨⟨rfl, rfl⟩, fun t ht => by cases ht; rfl⟩
        | cancelNone => exact ⟨rfl, fun t ht => by cases ht; rfl⟩
        | expireNone => exact ⟨rfl, fun t ht => by cases ht; rfl⟩
      obtain rfl := hnone.2 _ hx
      obtain ⟨hs, hall⟩ := ih h
      exact ⟨hs, List.forall_mem_cons.mpr ⟨hnone.1, hall⟩⟩

namespace Floor

variable {f g : Floor} {q p : InstrumentId → QueueBook} {i : InstrumentId}

/-- What there is to see of an instrument's book, if it has one. -/
def snapshot (f : Floor) (i : InstrumentId) := (f.engine.book i).map (·.snapshot f.pool)

/-- Alike books, or none, look alike. -/
theorem Inv.snapshot_eq (hf : f.Inv q) (hg : g.Inv p)
    (hrel : Option.Rel QueueBook.Alike (f.bookOf q i) (g.bookOf p i)) :
    f.snapshot i = g.snapshot i := by
  unfold snapshot
  rw [Engine.book_eq (EngineInv.ptrs hf i), Engine.book_eq (EngineInv.ptrs hg i)]
  unfold bookOf at hrel
  cases hfb : f.engine.books i with
  | none =>
    cases hgb : g.engine.books i with
    | none => rfl
    | some gb =>
      rw [hfb, hgb] at hrel
      cases hrel
  | some fb =>
    cases hgb : g.engine.books i with
    | none =>
      rw [hfb, hgb] at hrel
      cases hrel
    | some gb =>
      rw [hfb, hgb] at hrel
      cases hrel with
      | some halike =>
        refine congrArg some ((hf.custody.rep i fb hfb).snapshot_eq (hg.custody.rep i gb hgb)
          (hf.custody.wf i) (hf.custody.length_slots_le i)
          (hg.custody.length_slots_le i) halike).symm

variable {r : InstrumentRegistry} {filter : InstrumentId → Bool} {e : Engine}
  {capacity capacity' : ℕ} {L M : List (InstrumentId × Played)}

/-- **The calls about an instrument** decide their replies and its book. -/
theorem same_of_calls (hnew : Engine.new r filter = .ok e)
    (hf : Guarded.Trace Floor.call (fun _ _ => True) shown (start e capacity) L f)
    (hg : Guarded.Trace Floor.call (fun _ _ => True) shown (start e capacity') M g)
    (hc : (concerning i L).map Played.call = (concerning i M).map Played.call) :
    concerning i L = concerning i M ∧ f.snapshot i = g.snapshot i := by
  obtain ⟨q, hq, hpf⟩ := exists_paths hnew hf
  obtain ⟨p, hp, hpg⟩ := exists_paths hnew hg
  have hrefl : Option.Rel QueueBook.Alike
      ((e.books i).map fun _ => (⟨i, [], [], ∅⟩ : QueueBook))
      ((e.books i).map fun _ => ⟨i, [], [], ∅⟩) := by
    cases e.books i with
    | none => exact .none
    | some hb => exact .some (.refl _)
  obtain ⟨hlog, hrel⟩ := alike_of_calls hrefl (hpf i) (hpg i) hc
  exact ⟨hlog, hq.snapshot_eq hp hrel⟩

/-- A call, under its instrument. -/
def callAt (x : InstrumentId × Played) : InstrumentId × BookCall := (x.1, x.2.call)

theorem calls_concerning (i : InstrumentId) (L : List (InstrumentId × Played)) :
    (concerning i L).map Played.call = ((L.map callAt).filter fun x => x.1 = i).map (·.2) := by
  rw [concerning, List.map_map, List.filter_map, List.map_map]
  rfl

/-- Swapping calls about different instruments is seen by neither. -/
theorem calls_of_swap {X Y : List (InstrumentId × BookCall)} {c₁ c₂ : InstrumentId × BookCall}
    (hL : L.map callAt = X ++ c₁ :: c₂ :: Y) (hM : M.map callAt = X ++ c₂ :: c₁ :: Y)
    (hne : c₁.1 ≠ c₂.1) (i : InstrumentId) :
    (concerning i L).map Played.call = (concerning i M).map Played.call := by
  rw [calls_concerning, calls_concerning, hL, hM, List.filter_append, List.filter_append]
  congr 2
  by_cases h₁ : c₁.1 = i
  · have h₂ : c₂.1 ≠ i := fun h => hne (h₁.trans h.symm)
    simp [h₁, h₂]
  · simp [List.filter_cons, h₁]

/-- What happens after an expiry. -/
theorem refused_of_expired (hnew : Engine.new r filter = .ok e)
    (hf : Guarded.Trace Floor.call (fun _ _ => True) shown (start e capacity) L f)
    {X Y : List (InstrumentId × Played)} (hL : L = X ++ (i, .expire true) :: Y) :
    (∀ x ∈ concerning i Y, x.Refused) ∧ f.engine.book i = none := by
  obtain ⟨q, hq, hpf⟩ := exists_paths hnew hf
  have hp := hpf i
  have hcons : concerning i ((i, .expire true) :: Y) = .expire true :: concerning i Y := by
    simp [concerning]
  rw [hL, concerning_append, hcons] at hp
  obtain ⟨s, -, hp⟩ := hp.split
  cases hp with
  | cons hx hp =>
    cases hx with
    | expire =>
      obtain ⟨hnone, hall⟩ := refused_of_none hp
      refine ⟨hall, ?_⟩
      rw [Engine.book_eq (EngineInv.ptrs hq i)]
      exact Option.map_eq_none_iff.mp hnone

/-- **Instruments do not interfere.** -/
theorem isolated_of_traces (hnew : Engine.new r filter = .ok e)
    (hf : Guarded.Trace Floor.call (fun _ _ => True) shown (start e capacity) L f)
    (hg : Guarded.Trace Floor.call (fun _ _ => True) shown (start e capacity') M g) :
    (∀ i, (concerning i L).map Played.call = (concerning i M).map Played.call →
      concerning i L = concerning i M ∧ f.snapshot i = g.snapshot i)
    ∧ (∀ X c₁ c₂ Y, L.map callAt = X ++ c₁ :: c₂ :: Y → M.map callAt = X ++ c₂ :: c₁ :: Y →
      c₁.1 ≠ c₂.1 → ∀ i, concerning i L = concerning i M ∧ f.snapshot i = g.snapshot i)
    ∧ ∀ i X Y, L = X ++ (i, .expire true) :: Y →
      (∀ x ∈ concerning i Y, x.Refused) ∧ f.engine.book i = none :=
  ⟨fun _ hc => same_of_calls hnew hf hg hc,
    fun _ _ _ _ hL hM hne i => same_of_calls hnew hf hg (calls_of_swap hL hM hne i),
    fun _ _ _ hL => refused_of_expired hnew hf hL⟩

/-- An offer in instrument 1. -/
def offer : Order := { id := 2, limitPrice := 8, initialQty := 3, instrument := 1, side := .sell }

/-- A bid and an offer that trade in instrument 1, and a bid in instrument 2 that expires before, or
after, the offer comes. -/
def busy (early : Bool) : List FloorCall :=
  [.acquire, .write 2 { id := 1, limitPrice := 10, initialQty := 5, instrument := 1 }, .submit 2,
    .acquire, .write 1 { id := 1, limitPrice := 9, initialQty := 7, instrument := 2 }, .submit 1,
    .acquire, .write 0 offer]
    ++ if early then [.expire 2, .submit 0, .cancel 2 1] else [.submit 0, .expire 2, .cancel 2 1]

theorem isolated_of_busy :
    ∃ L f M g, Guarded.Trace Floor.call (fun _ _ => True) shown
        (start ([⟨1⟩, ⟨2⟩].foldl (Engine.addBook fun _ => true) {}) 3) L f
      ∧ Guarded.Trace Floor.call (fun _ _ => True) shown
        (start ([⟨1⟩, ⟨2⟩].foldl (Engine.addBook fun _ => true) {}) 3) M g
      ∧ L ≠ M ∧ ((concerning 1 L).flatMap Played.trades).length = 1
      ∧ (∀ i, concerning i L = concerning i M ∧ f.snapshot i = g.snapshot i)
      ∧ f.engine.book 2 = none := by
  have hrun : ((Guarded.record Floor.call (fun _ _ => True) shown
      (start ([⟨1⟩, ⟨2⟩].foldl (Engine.addBook fun _ => true) {}) 3) (busy true)).bind fun r =>
      (Guarded.record Floor.call (fun _ _ => True) shown
        (start ([⟨1⟩, ⟨2⟩].foldl (Engine.addBook fun _ => true) {}) 3) (busy false)).map fun r' =>
        decide (r.1 ≠ r'.1 ∧ ((concerning 1 r.1).flatMap Played.trades).length = 1
          ∧ r.1 = r.1.take 2 ++ (2, .expire true) :: r.1.drop 3
          ∧ r.1.map callAt = (r.1.take 2).map callAt
            ++ (2, .expire) :: (1, .submit offer.toOrderData) :: (r.1.drop 4).map callAt
          ∧ r'.1.map callAt = (r.1.take 2).map callAt
            ++ (1, .submit offer.toOrderData) :: (2, .expire) :: (r.1.drop 4).map callAt))
      = some true := by decide +kernel
  obtain ⟨⟨L, f⟩, hf, hrun⟩ := Option.bind_eq_some_iff.mp hrun
  obtain ⟨⟨M, g⟩, hg, hval⟩ := Option.map_eq_some_iff.mp hrun
  obtain ⟨hne, htrades, hsplit, hL, hM⟩ := of_decide_eq_true hval
  have hf := Guarded.Trace.of_record hf
  have hg := Guarded.Trace.of_record hg
  obtain ⟨-, hswap, hgone⟩ := isolated_of_traces (r := ⟨[⟨1⟩, ⟨2⟩], true⟩) rfl hf hg
  exact ⟨L, f, M, g, hf, hg, hne, htrades, hswap _ _ _ _ hL hM (by decide), (hgone _ _ _ hsplit).2⟩

end Floor

end Ordbk

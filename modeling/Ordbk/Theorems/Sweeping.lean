import Ordbk.Theorems.Expiry
import Ordbk.Theorems.Pending

/-!
# Theorems/Sweeping — sweeping in steps is sweeping once

What two sweeps return, one after the other, is what the second would have returned alone, and so is
what they leave behind.  A sweep returns its instruments by date, and those of a date in the order
in which they were registered (`InOrder`); with `Engine::expire_instrument` for a callback it takes
the books of what it returns and leaves all others as they were (`sweeping_of_reach`).
-/

namespace Ordbk

namespace Sweeper

variable {ω : Type}

/-! ## Two sweeps

The entries due by the earlier date are due by the later one, and come first. -/

/-- **A sweep after a sweep** of an earlier date is a sweep. -/
def Composes (s : Sweeper ω) (outside : ω) (d₁ d₂ : ExpiryDate) : Prop :=
  let first := s.sweep outside d₁
  let second := first.1.sweep first.2.1 d₂
  let once := s.sweep outside d₂
  second.1 = once.1 ∧ second.2.1 = once.2.1 ∧ first.2.2 ++ second.2.2 = once.2.2

/-- What is due stays due. -/
theorem due_of_le {d₁ d₂ : ExpiryDate} (hd : d₁ ≤ d₂) (x : ExpiryDate × InstrumentId)
    (hx : due d₁ x.1 = true) : due d₂ x.1 = true :=
  due_iff.mpr ((due_iff.mp hx).trans hd)

section Composes

variable (s : Sweeper ω) (outside : ω) {d₁ d₂ : ExpiryDate}

/-- The second sweep returns what the first one left. -/
theorem expired_append (hd : d₁ ≤ d₂) : (s.sweep outside d₁).2.2
      ++ ((s.sweep outside d₁).1.sweep (s.sweep outside d₁).2.1 d₂).2.2
    = (s.sweep outside d₂).2.2 := by
  simp only [expired_sweep, byExpiry_sweep, Multimap.dropFront, dueEntries]
  rw [← List.map_append, Prefix.takeWhile_append_takeWhile (due_of_le hd)]

/-- **Two sweeps are one**, in what they leave as well. -/
theorem composes (hd : d₁ ≤ d₂) : s.Composes outside d₁ d₂ := by
  have hexpired := s.expired_append outside hd
  have hbyExpiry : ((s.sweep outside d₁).1.sweep (s.sweep outside d₁).2.1 d₂).1.byExpiry
      = (s.sweep outside d₂).1.byExpiry := by
    simp only [byExpiry_sweep]
    exact Multimap.ext' (Prefix.dropWhile_dropWhile (due_of_le hd) _)
  have hindex : ((s.sweep outside d₁).1.sweep (s.sweep outside d₁).2.1 d₂).1.idToExpiry
      = (s.sweep outside d₂).1.idToExpiry := by
    simp only [idToExpiry_sweep]
    rw [← List.foldl_append, hexpired]
  refine ⟨?_, ?_, hexpired⟩
  · change Sweeper.mk _ _ s.callback = Sweeper.mk _ _ s.callback
    congr 1
  · simp only [outside_sweep, callback_sweep]
    cases s.callback with
    | none => rfl
    | some cb =>
      change List.foldl cb ((s.sweep outside d₁).2.2.foldl cb outside) _ = _
      rw [← List.foldl_append]
      exact congrArg (List.foldl cb outside) hexpired

end Composes

/-! ## The order of registration

A multimap keeps entries of one key in the order they were put in.  The roll remembers that order,
which nothing in the map shows. -/

/-- **The roll**: what was registered and is still there, the oldest first. -/
def roll (s : Sweeper ω) (L : List (ExpiryDate × InstrumentId)) :
    Call → List (ExpiryDate × InstrumentId)
  | .registerInstrument id expiry => L ++ [(expiry, id)]
  | .unregister id =>
    match s.idToExpiry.lookup id with
    | none => L
    | some expiry => L.erase (expiry, id)
  | .sweep today => L.filter fun x => !due today x.1

/-- A call, and what it does to the roll. -/
def stepRoll (y : (Sweeper ω × ω) × List (ExpiryDate × InstrumentId)) (c : Call) :
    Option ((Sweeper ω × ω) × List (ExpiryDate × InstrumentId)) :=
  (step y.1 c).map fun x => (x, roll y.1.1 y.2 c)

/-- A list of what is due in order: by date, and within a date as on the roll. -/
def InOrder (L : List (ExpiryDate × InstrumentId)) (today : ExpiryDate) (ids : List InstrumentId) :
    Prop :=
  ∃ E : List (ExpiryDate × InstrumentId), ids = E.map Prod.snd ∧ E.Pairwise (fun a b => a.1 ≤ b.1)
    ∧ ∀ d, (E.filter fun x => x.1 = d) = (L.filter fun x => x.1 ≤ today).filter fun x => x.1 = d

/-- The map keeps the order of the roll, -/
theorem follows_step {x x' : Sweeper ω × ω} {L : List (ExpiryDate × InstrumentId)} {c : Call}
    (h : x.1.byExpiry.Follows L) (hstep : step x c = some x') :
    x'.1.byExpiry.Follows (roll x.1 L c) := by
  cases c with
  | registerInstrument id expiry =>
    obtain rfl := Option.some.inj hstep
    exact h.emplace expiry id
  | unregister id =>
    obtain rfl := Option.some.inj hstep
    change (x.1.unregister id).byExpiry.Follows _
    cases hid : x.1.idToExpiry.lookup id with
    | none => simpa only [unregister, roll, hid] using h
    | some expiry => simpa only [unregister, roll, hid] using h.eraseFirst expiry id
  | sweep today =>
    obtain rfl := Option.some.inj hstep
    change (x.1.sweep x.2 today).1.byExpiry.Follows _
    rw [byExpiry_sweep]
    exact h.dropFront (due_mono today)

/-- over a whole run. -/
theorem follows_of_reach {s₀ : Sweeper ω} {outside : ω} {x : Sweeper ω × ω}
    {L : List (ExpiryDate × InstrumentId)} (hnew : s₀.byExpiry = .empty)
    (h : Guarded.Reach stepRoll (fun _ _ => True) ((s₀, outside), []) (x, L)) :
    x.1.byExpiry.Follows L := by
  refine h.invariant (I := fun y => y.1.1.byExpiry.Follows y.2) ?_ fun y c y' hI _ hs => ?_
  · change s₀.byExpiry.Follows []
    rw [hnew]
    exact Multimap.follows_empty
  · obtain ⟨x', hx', rfl⟩ := Option.map_eq_some_iff.mp hs
    exact follows_step hI hx'

/-- Any run has a roll. -/
theorem exists_roll {x₀ x : Sweeper ω × ω} (h : Guarded.Reach step (fun _ _ => True) x₀ x) :
    ∃ L, Guarded.Reach stepRoll (fun _ _ => True) (x₀, []) (x, L) := by
  induction h with
  | init => exact ⟨[], .init⟩
  | step _ _ hs ih =>
    obtain ⟨L, hL⟩ := ih
    exact ⟨_, .step hL trivial (Option.map_eq_some_iff.mpr ⟨_, hs, rfl⟩)⟩

/-- **A sweep returns its instruments in order.** -/
theorem inOrder_sweep {s : Sweeper ω} {L : List (ExpiryDate × InstrumentId)}
    (h : s.byExpiry.Follows L) (outside : ω) (today : ExpiryDate) :
    InOrder L today (s.sweep outside today).2.2 := by
  refine ⟨dueEntries today s.byExpiry.entries, s.expired_sweep outside today, ?_, fun d => ?_⟩
  · exact (s.byExpiry.sorted.sublist (List.takeWhile_sublist _)).imp not_lt.mp
  · rw [dueEntries, s.byExpiry.takeWhile_eq_filter (due_mono today), List.filter_comm, h d,
      List.filter_comm]
    exact congrArg (List.filter _) (List.filter_congr fun x _ => by
      rw [Bool.eq_iff_iff, due_iff, decide_eq_true_iff])

/-! ## The books

With `expire_instrument` for its callback a sweep is a fold over what it returns. -/

/-- `eng.expire_instrument(id)`, for a callback. -/
def expireEach (x : Engine × Pool) (id : InstrumentId) : Engine × Pool :=
  ((x.1.expireInstrument x.2 id).1, (x.1.expireInstrument x.2 id).2.1)

/-- The book of an instrument is what it was, and so are its orders. -/
structure SameBook (j : InstrumentId) (x x' : Engine × Pool) : Prop where
  /-- The book is as it was. -/
  book : x'.1.book j = x.1.book j
  /-- And so are the orders in it, and their cells. -/
  orders : ∀ hb, x.1.book j = some hb → hb.restingSlots x'.2 = hb.restingSlots x.2
    ∧ ∀ a ∈ hb.restingSlots x.2, x'.2.storage a = x.2.storage a

theorem SameBook.refl (j : InstrumentId) (x : Engine × Pool) : SameBook j x x :=
  ⟨rfl, fun _ _ => ⟨rfl, fun _ _ => rfl⟩⟩

theorem SameBook.trans {j : InstrumentId} {x x' x'' : Engine × Pool} (h : SameBook j x x')
    (h' : SameBook j x' x'') : SameBook j x x'' := by
  refine ⟨h'.book.trans h.book, fun hb hj => ?_⟩
  obtain ⟨hslots, hstore⟩ := h.orders hb hj
  obtain ⟨hslots', hstore'⟩ := h'.orders hb (h.book.trans hj)
  rw [hslots] at hslots' hstore'
  exact ⟨hslots', fun a ha => (hstore' a ha).trans (hstore a ha)⟩

section Books

variable {e : Engine} {pool : Pool} {q : InstrumentId → QueueBook} {held : List Slot}

/-- **Expiring one instrument** takes its book and no other. -/
theorem expireEach_spec (h : EngineInv e pool q held) (i : InstrumentId) :
    (∃ q', EngineInv (expireEach (e, pool) i).1 (expireEach (e, pool) i).2 q' held)
      ∧ (expireEach (e, pool) i).1.book i = none
      ∧ ∀ j, j ≠ i → SameBook j (e, pool) (expireEach (e, pool) i) := by
  cases hi : e.matchers.lookup i with
  | none =>
    have hsame : expireEach (e, pool) i = (e, pool) := by
      simp only [expireEach, Engine.expireInstrument, hi]
    rw [hsame]
    exact ⟨⟨q, h⟩, (Engine.book_eq (h.ptrs i)).trans hi, fun j _ => .refl j _⟩
  | some hb =>
    have hinv := h.expire hi
    refine ⟨⟨_, hinv⟩, ?_, fun j hj => ?_⟩
    · refine (Engine.book_eq (hinv.ptrs i)).trans ?_
      rw [Engine.books, (h.expire_moves hi).1, Finmap.lookup_erase]
    · obtain ⟨hlookup, horders⟩ := h.expire_other hi hj
      have hbook : e.book j = e.matchers.lookup j := Engine.book_eq (h.ptrs j)
      exact ⟨(Engine.book_eq (hinv.ptrs j)).trans (hlookup.trans hbook.symm),
        fun hb' hj' => horders hb' (hbook.symm.trans hj')⟩

/-- **Expiring many** takes their books and no other. -/
theorem foldl_expireEach (ids : List InstrumentId) (h : EngineInv e pool q held) :
    (∀ i ∈ ids, (ids.foldl expireEach (e, pool)).1.book i = none)
      ∧ ∀ j, j ∉ ids → SameBook j (e, pool) (ids.foldl expireEach (e, pool)) := by
  induction ids generalizing e pool q with
  | nil => exact ⟨nofun, fun j _ => .refl j _⟩
  | cons i ids ih =>
    obtain ⟨⟨q', hinv⟩, hgone, hother⟩ := expireEach_spec h i
    obtain ⟨hall, hrest⟩ := ih hinv
    refine ⟨fun k hk => ?_, fun j hj => ?_⟩
    · by_cases hmem : k ∈ ids
      · exact hall k hmem
      · obtain rfl : k = i := (List.mem_cons.mp hk).resolve_right hmem
        exact (hrest k hmem).book.trans hgone
    · obtain ⟨hji, hmem⟩ := not_or.mp (mt List.mem_cons.mpr hj)
      exact (hother j hji).trans (hrest j hmem)

end Books

/-- **What sweeps do** to a sweeper that `x₀` has become, with this engine behind it. -/
structure Sweeping (x₀ x : Sweeper ω × ω) (f : Floor) : Prop where
  /-- **Sweeping in steps is sweeping once.** -/
  composes : ∀ d₁ d₂, d₁ ≤ d₂ → x.1.Composes x.2 d₁ d₂
  /-- There is a roll of what was registered, -/
  rolled : ∃ L, Guarded.Reach stepRoll (fun _ _ => True) (x₀, []) (x, L)
  /-- and sweeps return what is due in its order. -/
  inOrder : ∀ L, Guarded.Reach stepRoll (fun _ _ => True) (x₀, []) (x, L) →
    ∀ today, InOrder L today (x.1.sweep x.2 today).2.2
  /-- The books of what is returned are gone. -/
  gone : ∀ today, ∀ i ∈ ((x.1.setCallback expireEach).sweep (f.engine, f.pool) today).2.2,
    ((x.1.setCallback expireEach).sweep (f.engine, f.pool) today).2.1.1.book i = none
  /-- All others are as they were. -/
  others : ∀ today j, j ∉ ((x.1.setCallback expireEach).sweep (f.engine, f.pool) today).2.2 →
    SameBook j (f.engine, f.pool)
      ((x.1.setCallback expireEach).sweep (f.engine, f.pool) today).2.1

/-- **Sweeping**, from every reachable state of a sweeper and of an engine. -/
theorem sweeping_of_reach {cb : Option (ω → InstrumentId → ω)} {outside : ω} {x : Sweeper ω × ω}
    (h : Guarded.Reach step (fun _ _ => True) ({ callback := cb }, outside) x)
    {r : InstrumentRegistry} {filter : InstrumentId → Bool} {e : Engine} {capacity : ℕ} {f : Floor}
    (hnew : Engine.new r filter = .ok e)
    (hf : Guarded.Reach Floor.call (fun _ _ => True) (Floor.start e capacity) f) :
    Sweeping ({ callback := cb }, outside) x f := by
  obtain ⟨q, hinv⟩ := Floor.exists_inv hnew hf
  exact ⟨fun d₁ d₂ hd => x.1.composes x.2 hd, exists_roll h,
    fun L hL today => inOrder_sweep (follows_of_reach rfl hL) x.2 today,
    fun today => (foldl_expireEach _ hinv).1, fun today => (foldl_expireEach _ hinv).2⟩

/-- Two options expire in January, registered after one that expires in February; a bid rests in the
book of one of them. -/
theorem sweeping_of_january : ∃ (x : Sweeper (List InstrumentId) × List InstrumentId) (f : Floor),
    Guarded.Reach step (fun _ _ => True) ({ callback := some note }, []) x
      ∧ Guarded.Reach Floor.call (fun _ _ => True)
        (Floor.start ([⟨10⟩, ⟨11⟩, ⟨12⟩].foldl (Engine.addBook fun _ => true) {}) 2) f
      ∧ (x.1.sweep x.2 ⟨2026, 1, 17⟩).2.2 = [11, 10] ∧ f.pool.availableApprox = 1
      ∧ Sweeping ({ callback := some note }, []) x f := by
  have hrun : (Guarded.run step (fun _ _ => True) ({ callback := some note }, [])
      [.registerInstrument 12 ⟨2026, 2, 20⟩, .registerInstrument 11 ⟨2026, 1, 17⟩,
        .registerInstrument 10 ⟨2026, 1, 17⟩]).map
      (fun x => decide ((x.1.sweep x.2 ⟨2026, 1, 17⟩).2.2 = [11, 10])) = some true := by
    decide +kernel
  have hfloor : (Guarded.run Floor.call (fun _ _ => True)
      (Floor.start ([⟨10⟩, ⟨11⟩, ⟨12⟩].foldl (Engine.addBook fun _ => true) {}) 2)
      [.acquire, .write 1 { id := 7, limitPrice := 100, initialQty := 5, instrument := 11 },
        .submit 1]).map
      (fun f => decide (f.pool.availableApprox = 1)) = some true := by decide +kernel
  obtain ⟨x, hx, hlist⟩ := Option.map_eq_some_iff.mp hrun
  obtain ⟨f, hf, hfree⟩ := Option.map_eq_some_iff.mp hfloor
  have hreach := Guarded.Reach.of_run hx
  have hcalls := Guarded.Reach.of_run hf
  exact ⟨x, f, hreach, hcalls, of_decide_eq_true hlist, of_decide_eq_true hfree,
    sweeping_of_reach hreach (r := ⟨[⟨10⟩, ⟨11⟩, ⟨12⟩], true⟩) rfl hcalls⟩

end Sweeper

end Ordbk

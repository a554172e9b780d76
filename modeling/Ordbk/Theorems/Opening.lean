import Ordbk.Lib.Trace
import Ordbk.Refinement.Floor
import Ordbk.Theorems.Listing

/-!
# Theorems/Opening — from the table of instruments to the books

A frozen table answers look-ups as the list of the instruments it accepted does, and an engine built
on it (on all of it, or on the instruments a worker's filter picks) opens one book for each.  No
call opens another afterwards, and only an expiry closes one: after any calls, the instruments
served are those that were picked and have not been expired (`serving_of_trace`).
-/

namespace Ordbk

/-- An expiry closes one book at most, and answers whether there was one. -/
theorem Engine.isSome_expireInstrument (e : Engine) (pool : Pool) (i j : InstrumentId) :
    ((e.expireInstrument pool i).1.matchers.lookup j).isSome
      ↔ (e.matchers.lookup j).isSome ∧ ¬ j = i := by
  unfold Engine.expireInstrument
  cases hl : e.matchers.lookup i with
  | none =>
    refine (and_iff_left_of_imp fun hsome => ?_).symm
    rintro rfl
    simp [hl] at hsome
  | some hb =>
    by_cases hj : j = i
    · subst hj
      simp
    · simp [hj]

namespace Floor

variable {f f' : Floor} {c : FloorCall}

/-- The instruments a call expires. -/
def expired (_ : Floor) : FloorCall → List InstrumentId
  | .expire i => [i]
  | _ => []

/-- **One call closes the books it expires**, and no other; none is opened. -/
theorem isSome_call (hc : f.call c = some f') (j : InstrumentId) :
    (f'.engine.matchers.lookup j).isSome
      ↔ (f.engine.matchers.lookup j).isSome ∧ j ∉ f.expired c := by
  cases c with
  | acquire =>
    obtain ⟨_, -, rfl⟩ := Option.map_eq_some_iff.mp hc
    simp [expired]
  | write a o =>
    obtain ⟨-, rfl⟩ : a ∈ f.held ∧ _ = f' := by simpa [Floor.call] using hc
    simp [expired]
  | submit a =>
    obtain ⟨-, rfl⟩ : (a ∈ f.held ∧ (f.order a).filledQty = 0) ∧ f.submit a = f' := by
      simpa [Floor.call] using hc
    change ((f.engine.submit f.pool a).1.matchers.lookup j).isSome = true ↔ _
    rw [(f.engine.touches_submit f.pool a).isSome j]
    simp [expired]
  | cancel i id =>
    obtain rfl := Option.some.inj hc
    change ((f.engine.cancel f.pool i id).1.matchers.lookup j).isSome = true ↔ _
    rw [(f.engine.touches_cancel f.pool i id).isSome j]
    simp [expired]
  | expire i =>
    obtain rfl := Option.some.inj hc
    simp only [expired, List.mem_singleton]
    exact f.engine.isSome_expireInstrument f.pool i j
  | release a =>
    obtain ⟨-, rfl⟩ : a ∈ f.held ∧ _ = f' := by
      simpa only [Floor.call, Option.ite_none_right_eq_some, Option.some.injEq] using hc
    simp [expired]

/-- **Any calls** close the books they expire. -/
theorem isSome_of_trace {e : Engine} {capacity : ℕ} {ok : Floor → FloorCall → Prop}
    {X : List InstrumentId} (h : Guarded.Trace Floor.call ok expired (start e capacity) X f)
    (j : InstrumentId) :
    (f.engine.matchers.lookup j).isSome ↔ (e.matchers.lookup j).isSome ∧ j ∉ X := by
  induction h with
  | init => simp [start]
  | step _ _ hs ih => rw [isSome_call hs, ih, List.mem_append, not_or, and_assoc]

end Floor

namespace Instruments

namespace InstrumentRegistry

variable {reg : InstrumentRegistry} {filter : InstrumentId → Bool} {X : List InstrumentId}
  {f : Floor}

/-! ## Look-ups

The table is asked by id, by symbol and by underlying; each answer is one about the list of the
instruments that were accepted, in which no id stands twice. -/

/-- No two instruments have an id. -/
theorem Kept.nodup_ids (h : reg.Kept) : (reg.all.map InstrumentSpec.id).Nodup := by
  rw [List.nodup_iff_getElem?_ne_getElem?]
  intro i j hij hj heq
  rw [List.length_map] at hj
  have hi : i < reg.all.length := hij.trans hj
  rw [List.getElem?_map, List.getElem?_map, List.getElem?_eq_getElem hi,
    List.getElem?_eq_getElem hj, Option.map_some, Option.map_some, Option.some_inj] at heq
  have hfirst := (h.ids reg.all[i].id i).mpr ⟨_, List.getElem?_eq_getElem hi, rfl⟩
  have hsecond := (h.ids reg.all[i].id j).mpr ⟨_, List.getElem?_eq_getElem hj, heq.symm⟩
  exact hij.ne (Option.some.inj (hfirst.symm.trans hsecond))

/-- The chains there are once an option is indexed. -/
theorem isSome_indexed (reg : InstrumentRegistry) (spec : InstrumentSpec) (u : Text) :
    ((reg.indexed spec).lookup u).isSome
      ↔ (reg.optionChain u).isSome ∨ ∃ k, spec.listing = some (u, k) := by
  by_cases hu : ∃ k, spec.listing = some (u, k)
  · obtain ⟨k, hl⟩ := hu
    obtain ⟨c, -, hindexed⟩ := indexed_of_listing reg hl
    rw [hindexed, Finmap.lookup_insert]
    exact iff_of_true rfl (.inr ⟨k, hl⟩)
  · rw [lookup_indexed reg (not_exists.mp hu), optionChain]
    exact (or_iff_left hu).symm

/-- A chain stands for each underlying of a registered option. -/
def Known (reg : InstrumentRegistry) : Prop :=
  ∀ u, (reg.optionChain u).isSome ↔ ∃ spec ∈ reg.all, ∃ k, spec.listing = some (u, k)

theorem Known.step (h : reg.Known) {call : Call} {reg' : InstrumentRegistry}
    (hstep : reg.step call = some reg') : reg'.Known := by
  cases call with
  | freeze =>
    obtain rfl := Option.some.inj hstep
    exact h
  | add spec =>
    obtain rfl := Option.some.inj hstep
    rcases add_cases reg spec with heq | ⟨-, -, heq⟩
    · rwa [heq]
    · rw [heq]
      intro u
      change ((reg.indexed spec).lookup u).isSome ↔ ∃ s ∈ reg.all ++ [spec], _
      rw [isSome_indexed, h u]
      constructor
      · rintro (⟨s, hs, hk⟩ | hk)
        · exact ⟨s, List.mem_append_left _ hs, hk⟩
        · exact ⟨spec, List.mem_append_right _ (List.mem_singleton_self _), hk⟩
      · rintro ⟨s, hs, hk⟩
        rcases List.mem_append.mp hs with hs | hs
        · exact .inl ⟨s, hs, hk⟩
        · exact .inr (List.mem_singleton.mp hs ▸ hk)

theorem known_of_reach (h : Guarded.Reach step (fun _ _ => True) {} reg) : reg.Known :=
  h.invariant (fun u => by simp [optionChain, all]) fun _ _ _ hknown _ hs => hknown.step hs

/-- **The table answers as the list of its instruments does.** -/
structure Answers (reg : InstrumentRegistry) : Prop where
  /-- What is found by an id is the instrument with that id, -/
  find : ∀ id spec, reg.find id = some spec ↔ spec ∈ reg.all ∧ spec.id = id
  /-- and likewise by a symbol. -/
  findSymbol : ∀ symbol spec,
    reg.findSymbol symbol = some spec ↔ spec ∈ reg.all ∧ spec.symbol = symbol
  /-- An underlying is known from the first option on it, whether or not its chain took that option.
  -/
  underlyings : ∀ u, u ∈ reg.optionUnderlyings
    ↔ ∃ spec ∈ reg.all, spec.type = .option ∧ ∃ c, spec.option = some c ∧ c.underlying = u

theorem answers_of_reach (h : Guarded.Reach step (fun _ _ => True) {} reg) : reg.Answers where
  find id spec := (find_eq_some h id spec.symbol).1
  findSymbol symbol spec := (find_eq_some h spec.id symbol).2
  underlyings u := by
    rw [optionUnderlyings, Finmap.mem_keys, ← Finmap.lookup_isSome]
    refine (known_of_reach h u).trans (exists_congr fun spec => and_congr_right fun _ => ?_)
    simp only [InstrumentSpec.listing_eq_some]
    constructor
    · rintro ⟨k, ht, c, hc, hu, -⟩
      exact ⟨ht, c, hc, hu⟩
    · rintro ⟨ht, c, hc, hu⟩
      exact ⟨c.key, ht, c, hc, hu, rfl⟩

/-! ## The books of an engine

The filter is the one the engine was built with: everything, or the instruments of one worker.
`X` lists the instruments that have been asked to expire, registered or not. -/

/-- **What an engine serves**: the picked instruments of the table that have not been expired. -/
structure Serving (reg : InstrumentRegistry) (filter : InstrumentId → Bool)
    (X : List InstrumentId) (f : Floor) : Prop where
  /-- An instrument has a book if it was picked and is not retired. -/
  book : ∀ i, (f.engine.book i).isSome ↔ (reg.find i).isSome ∧ filter i = true ∧ i ∉ X
  /-- They are counted right. -/
  bookCount : f.engine.bookCount
    = (reg.all.filter fun spec => filter spec.id = true ∧ spec.id ∉ X).length
  /-- An order for anything else is refused: its status is all that changes. -/
  refuses : ∀ a, f.engine.book (f.order a).instrument = none →
    f.engine.submit f.pool a = (f.engine, f.pool.modify a fun o => o.withStatus .rejected, ⟨a, []⟩)
  /-- A cancel for anything else finds nothing and does nothing. -/
  misses : ∀ i, f.engine.book i = none →
    ∀ id, f.engine.cancel f.pool i id = (f.engine, f.pool, false)
  /-- An expiry answers whether there was a book to close. -/
  expires : ∀ i, (f.engine.expireInstrument f.pool i).2.2 = (f.engine.book i).isSome

theorem Answers.isSome_find (h : reg.Answers) (i : InstrumentId) :
    (reg.find i).isSome ↔ ∃ spec ∈ reg.all, spec.id = i := by
  simp only [Option.isSome_iff_exists, h.find]

/-- **Which books there are** after any calls to an engine that was built on the table. -/
theorem Answers.isSome_lookup (h : reg.Answers) {e : Engine} {capacity : ℕ}
    (hnew : Engine.new reg.view filter = .ok e)
    (hX : Guarded.Trace Floor.call (fun _ _ => True) Floor.expired (.start e capacity) X f)
    (i : InstrumentId) :
    (f.engine.matchers.lookup i).isSome ↔ (reg.find i).isSome ∧ filter i = true ∧ i ∉ X := by
  rw [Floor.isSome_of_trace hX, isSome_new hnew, h.isSome_find, Bool.and_eq_true, List.any_eq_true]
  simp only [view, Ordbk.InstrumentRegistry.all, List.mem_map, decide_eq_true_eq]
  constructor
  · rintro ⟨⟨hfilter, _, ⟨spec, hspec, rfl⟩, rfl⟩, hi⟩
    exact ⟨⟨spec, hspec, rfl⟩, hfilter, hi⟩
  · rintro ⟨⟨spec, hspec, rfl⟩, hfilter, hi⟩
    exact ⟨⟨hfilter, _, ⟨spec, hspec, rfl⟩, rfl⟩, hi⟩

/-- The pointers of a floor's engine, one for each book. -/
theorem bookCount_eq (h : reg.Kept)
    (hptrs : ∀ i, i ∈ f.engine.bookPtrs ↔ (reg.find i).isSome ∧ filter i = true ∧ i ∉ X)
    (hfind : ∀ i, (reg.find i).isSome ↔ ∃ spec ∈ reg.all, spec.id = i) :
    f.engine.bookCount
      = (reg.all.filter fun spec => filter spec.id = true ∧ spec.id ∉ X).length := by
  have hnd : ((reg.all.filter fun spec => filter spec.id = true ∧ spec.id ∉ X).map
      InstrumentSpec.id).Nodup := h.nodup_ids.sublist (List.filter_sublist.map _)
  have hkeys : f.engine.bookPtrs.keys
      = ((reg.all.filter fun spec => filter spec.id = true ∧ spec.id ∉ X).map
        InstrumentSpec.id).toFinset := by
    ext i
    rw [Finmap.mem_keys, hptrs, hfind, List.mem_toFinset]
    simp only [List.mem_map, List.mem_filter, decide_eq_true_eq]
    constructor
    · rintro ⟨⟨spec, hspec, rfl⟩, hi⟩
      exact ⟨spec, ⟨hspec, hi⟩, rfl⟩
    · rintro ⟨spec, ⟨hspec, hi⟩, rfl⟩
      exact ⟨⟨spec, hspec, rfl⟩, hi⟩
  rw [Engine.bookCount, hkeys, List.toFinset_card_of_nodup hnd, List.length_map]

/-- **From the table to the books**: a table frozen after any calls answers as the list of its
instruments does, an engine can be built on it with any filter, and whatever the engine is asked
afterwards, it serves the picked instruments that have not been expired. -/
theorem serving_of_trace (h : Guarded.Reach step (fun _ _ => True) {} reg)
    (hfrozen : reg.frozen = true) (filter : InstrumentId → Bool) :
    reg.Answers ∧ ∃ e, Engine.new reg.view filter = .ok e
      ∧ ∀ capacity X f,
        Guarded.Trace Floor.call (fun _ _ => True) Floor.expired (.start e capacity) X f →
          reg.Serving filter X f := by
  have hans := answers_of_reach h
  have hnew : Engine.new reg.view filter
      = .ok (reg.view.all.foldl (Engine.addBook filter) {}) := if_pos hfrozen
  refine ⟨hans, _, hnew, fun capacity X f hX => ?_⟩
  obtain ⟨q, hinv⟩ := Floor.exists_inv hnew hX.reach
  have hbook : ∀ i, f.engine.book i = f.engine.matchers.lookup i := fun i =>
    Engine.book_eq (hinv.ptrs i)
  have hlookup := hans.isSome_lookup hnew hX
  refine ⟨fun i => hbook i ▸ hlookup i, ?_, fun a ha => ?_, fun i hi id => ?_, fun i => ?_⟩
  · refine bookCount_eq (kept_of_reach h) (fun i => ?_) hans.isSome_find
    rw [← hlookup i, ← Finmap.lookup_isSome, hinv.ptrs i]
    split_ifs with hsome <;> simp [hsome]
  · exact Engine.submit_of_none ((hbook _).symm.trans ha)
  · rw [hbook] at hi
    simp only [Engine.cancel, hi]
  · rw [hbook]
    cases hi : f.engine.matchers.lookup i with
    | none => simp [Engine.expireInstrument, hi]
    | some hb => simp [Engine.expireInstrument, hi]

/-- Three options are accepted and one instrument is refused; a worker takes the even ids, and one
of its two instruments expires, as does one that nobody registered. -/
theorem serving_of_evenIds : ∃ reg e f, Guarded.Reach step (fun _ _ => True) {} reg
    ∧ reg.all.map InstrumentSpec.id = [10, 11, 12]
    ∧ Engine.new reg.view (fun i => i % 2 = 0) = .ok e
    ∧ Guarded.Trace Floor.call (fun _ _ => True) Floor.expired (.start e 1) [10, 9] f
    ∧ reg.Answers ∧ reg.Serving (fun i => i % 2 = 0) [10, 9] f ∧ f.engine.bookCount = 1 := by
  have hrun : (Guarded.run step (fun _ _ => True) {} [.add (aaplCall 10 (literal "A")),
      .add (aaplCall 11 (literal "B")), .add (aaplCall 11 (literal "C")),
      .add (aaplCall 12 (literal "C")), .freeze, .add (aaplCall 14 (literal "D"))]).map
      (fun reg => decide (reg.all.map InstrumentSpec.id = [10, 11, 12] ∧ reg.frozen = true))
        = some true := by decide +kernel
  obtain ⟨reg, hreg, hall⟩ := Option.map_eq_some_iff.mp hrun
  obtain ⟨hids, hfrozen⟩ := of_decide_eq_true hall
  have hreach := Guarded.Reach.of_run hreg
  obtain ⟨hans, e, hnew, hserving⟩ := serving_of_trace hreach hfrozen fun i => i % 2 = 0
  obtain ⟨f, htrace⟩ : ∃ f, Guarded.Trace Floor.call (fun _ _ => True) Floor.expired (.start e 1)
      [10, 9] f :=
    ⟨_, .step (a := FloorCall.expire 9) (.step (a := FloorCall.expire 10) .init trivial rfl)
      trivial rfl⟩
  have hserves := hserving _ _ _ htrace
  refine ⟨reg, e, f, hreach, hids, hnew, htrace, hans, hserves, hserves.bookCount.trans ?_⟩
  have hcount := congrArg (fun l => (l.filter fun i => i % 2 = 0 ∧ i ∉ [10, 9]).length) hids
  simpa [List.filter_map, Function.comp_def] using hcount

end InstrumentRegistry

end Instruments

end Ordbk

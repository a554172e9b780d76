import Ordbk.Refinement.Settled

/-!
# Refinement/Tracked — all the threads at once

`Shared` divides the slots that are in use but in no book among the threads and the list of those
nobody will ever give back.  `Tracked` says of every busy thread what it owes; the book of its
instrument is its own until it is done with it.  Any thread may take a step (`Tracked.advance`).
-/

namespace Ordbk

namespace Server

/-! ## Who has which slot

A slot in use is in a book, in the hands of one thread, or lost. What a thread will keep for good
(`left`) counts as lost from the moment it begins, so that what others see of the pool does not
change when the thread ends. -/

/-- **The slots in hand, thread by thread**; those in `left k` are kept by thread `k` for ever. -/
structure Shared (held lost : List Slot) (hands left : ℕ → List Slot) : Prop where
  /-- In use and in no book: lost, or in somebody's hands. -/
  mem : ∀ c, c ∈ held ↔ c ∈ lost ∨ ∃ k, c ∈ hands k
  /-- A slot in a thread's hands is lost if the thread is going to keep it. -/
  kept : ∀ k, ∀ c ∈ hands k, c ∈ lost ↔ c ∈ left k
  /-- No slot is in two threads' hands, -/
  disjoint : ∀ k j c, c ∈ hands k → c ∈ hands j → k = j
  /-- nor twice in one's. -/
  nodup : ∀ k, (hands k).Nodup

namespace Shared

variable {held held' lost slots l : List Slot} {hands left : ℕ → List Slot} {k : ℕ} {a c : Slot}

/-- What a thread holds is in use, -/
theorem hands_subset (h : Shared held lost hands left) (k : ℕ) : hands k ⊆ held := fun c hc =>
  (h.mem c).mpr (.inr ⟨k, hc⟩)

/-- and so is what is lost. -/
theorem lost_subset (h : Shared held lost hands left) : lost ⊆ held := fun c hc =>
  (h.mem c).mpr (.inl hc)

/-- Who holds a slot, once one thread's hands are others. -/
theorem mem_update {c : Slot} : (∃ j, c ∈ Function.update hands k l j)
    ↔ c ∈ l ∨ ∃ j, j ≠ k ∧ c ∈ hands j := by
  constructor
  · rintro ⟨j, hj⟩
    by_cases hjk : j = k
    · rw [hjk, Function.update_self] at hj
      exact .inl hj
    · rw [Function.update_of_ne hjk] at hj
      exact .inr ⟨j, hjk, hj⟩
  · rintro (hc | ⟨j, hjk, hj⟩)
    · exact ⟨k, by rwa [Function.update_self]⟩
    · exact ⟨j, by rwa [Function.update_of_ne hjk]⟩

/-- New hands for one thread. -/
theorem update (h : Shared held lost hands left) {lost' : List Slot} {left' : ℕ → List Slot}
    (hmem : ∀ c, c ∈ held' ↔ c ∈ lost' ∨ c ∈ l ∨ ∃ j, j ≠ k ∧ c ∈ hands j)
    (hkept : ∀ c ∈ l, c ∈ lost' ↔ c ∈ left' k)
    (hothers : ∀ j, j ≠ k → ∀ c ∈ hands j, (c ∈ lost' ↔ c ∈ lost) ∧ left' j = left j)
    (hout : ∀ c ∈ l, ∀ j, j ≠ k → c ∉ hands j) (hnd : l.Nodup) :
    Shared held' lost' (Function.update hands k l) left' where
  mem c := (hmem c).trans (or_congr_right mem_update.symm)
  kept j c hc := by
    by_cases hjk : j = k
    · subst hjk
      rw [Function.update_self] at hc
      exact hkept c hc
    · rw [Function.update_of_ne hjk] at hc
      obtain ⟨h1, h2⟩ := hothers j hjk c hc
      rw [h1, h2]
      exact h.kept j c hc
  disjoint i j c hi hj := by
    by_cases hik : i = k
    · by_cases hjk : j = k
      · rw [hik, hjk]
      · rw [hik, Function.update_self] at hi
        rw [Function.update_of_ne hjk] at hj
        exact absurd hj (hout c hi j hjk)
    · rw [Function.update_of_ne hik] at hi
      by_cases hjk : j = k
      · rw [hjk, Function.update_self] at hj
        exact absurd hi (hout c hj i hik)
      · rw [Function.update_of_ne hjk] at hj
        exact h.disjoint i j c hi hj
  nodup j := by
    by_cases hjk : j = k
    · rw [hjk, Function.update_self]
      exact hnd
    · rw [Function.update_of_ne hjk]
      exact h.nodup j

/-- Lost, in this thread's hands, or in another's. -/
theorem mem_iff (h : Shared held lost hands left) (k : ℕ) :
    c ∈ held ↔ c ∈ lost ∨ c ∈ hands k ∨ ∃ j, j ≠ k ∧ c ∈ hands j := by
  refine (h.mem c).trans (or_congr_right ⟨fun ⟨j, hj⟩ => ?_, ?_⟩)
  · by_cases hjk : j = k
    · exact .inl (hjk ▸ hj)
    · exact .inr ⟨j, hjk, hj⟩
  · rintro (hc | ⟨j, -, hj⟩)
    · exact ⟨k, hc⟩
    · exact ⟨j, hj⟩

/-- What one thread holds the others do not. -/
theorem notMem_other (h : Shared held lost hands left) (hc : c ∈ hands k) :
    ∀ j, j ≠ k → c ∉ hands j := fun j hjk hj => hjk (h.disjoint j k c hj hc)

/-- **A thread's step.** -/
theorem handover (h : Shared held lost hands left) (hnd : held.Nodup) (hs : ∀ c ∈ slots, c ∉ held)
    (hleft : left k ⊆ hands k) {hands' : List Slot}
    (hh : Handover held (hands k) (left k) slots held' hands') :
    Shared held' lost (Function.update hands k hands') left := by
  cases hh with
  | keep =>
    rw [Function.update_eq_self]
    exact h
  | leave heq =>
    refine h.update (fun c => ?_) (by simp) (fun _ _ _ _ => ⟨Iff.rfl, rfl⟩) (by simp) List.nodup_nil
    have hsub : c ∈ hands k → c ∈ lost := fun hc => (h.kept k c hc).mpr (heq ▸ hc)
    rw [h.mem_iff k]
    simp only [List.not_mem_nil, false_or]
    tauto
  | @gain a ha =>
    have hout : ∀ j, a ∉ hands j := fun j hj => hs a ha (h.hands_subset j hj)
    have hlost : a ∉ lost := fun hl => hs a ha (h.lost_subset hl)
    refine h.update (fun c => ?_) (fun c hc => ?_) (fun _ _ _ _ => ⟨Iff.rfl, rfl⟩)
      (fun c hc j hjk => ?_)
      (List.nodup_cons.mpr ⟨hout k, h.nodup k⟩)
    · rw [List.mem_cons, h.mem_iff k, List.mem_cons]
      tauto
    · rcases List.mem_cons.mp hc with rfl | hc
      · exact iff_of_false hlost fun hl => hout k (hleft hl)
      · exact h.kept k c hc
    · rcases List.mem_cons.mp hc with rfl | hc
      · exact hout j
      · exact h.notMem_other hc j hjk
  | @drop a ha hal =>
    have hlost : a ∉ lost := fun hl => hal ((h.kept k a ha).mp hl)
    have hout := h.notMem_other ha
    refine h.update (fun c => ?_) (fun c hc => h.kept k c (List.mem_of_mem_erase hc))
      (fun _ _ _ _ => ⟨Iff.rfl, rfl⟩) (fun c hc => h.notMem_other (List.mem_of_mem_erase hc))
      ((h.nodup k).erase a)
    rw [hnd.mem_erase_iff, (h.nodup k).mem_erase_iff, h.mem_iff k]
    by_cases hca : c = a
    · subst hca
      simp only [ne_eq, not_true_eq_false, false_and, false_or, false_iff, not_or,
        not_exists, not_and]
      exact ⟨hlost, hout⟩
    · simp only [ne_eq, hca, not_false_eq_true, true_and]

/-- A slot from the pool for a thread with empty hands. -/
theorem take (h : Shared held lost hands left) (hk : hands k = []) (ha : a ∉ held) (keeps : Bool) :
    Shared (a :: held) (if keeps then a :: lost else lost) (Function.update hands k [a])
      (Function.update left k (if keeps then [a] else [])) := by
  have hout : ∀ j, a ∉ hands j := fun j hj => ha (h.hands_subset j hj)
  have hlost : a ∉ lost := fun hl => ha (h.lost_subset hl)
  refine h.update (fun c => ?_) (fun c hc => ?_)
    (fun j hjk c hc => ⟨?_, Function.update_of_ne hjk _ _⟩)
    (fun c hc j _ => by rw [List.mem_singleton.mp hc]; exact hout j) (List.nodup_singleton a)
  · rw [List.mem_cons, h.mem_iff k, hk]
    cases keeps <;> simp <;> tauto
  · obtain rfl := List.mem_singleton.mp hc
    rw [Function.update_self]
    cases keeps <;> simp [hlost]
  · have hca : c ≠ a := fun heq => hout j (heq ▸ hc)
    cases keeps <;> simp [hca]

/-- What a thread with empty hands will keep does not matter. -/
theorem of_hands_nil (h : Shared held lost hands left) (hk : hands k = []) (l : List Slot) :
    Shared held lost hands (Function.update left k l) := by
  refine ⟨h.mem, fun j c hc => ?_, h.disjoint, h.nodup⟩
  by_cases hjk : j = k
  · rw [hjk, hk] at hc
    exact absurd hc List.not_mem_nil
  · rw [Function.update_of_ne hjk]
    exact h.kept j c hc

end Shared

/-! ## What every thread owes

The invariant of the whole server. `q` are the books as they stand, `fin` as they will be when every
thread has done what it owes; they differ only where somebody is not done with the book.  Of whoever
is done with it the debt is told on the book as it stands, whatever others make of it. -/

/-- **Every busy thread is on its way through a request**, and has the book to itself until it is
done with it.  `fin` are the books as they will be when every request under way is over. -/
structure Tracked (e : Engine) (n : ℕ) (x : Server) (q fin : InstrumentId → QueueBook)
    (held lost : List Slot) (debt : ℕ → Debt) (hands : ℕ → List Slot) : Prop where
  /-- The books are queue books, and `held` is the rest of what is in use. -/
  lodged : Lodged x.dispatcher.pool x.dispatcher.engine.books q held
  /-- The pool keeps its size, -/
  capacity : x.dispatcher.pool.capacity = n
  /-- and each of its slots is somewhere. -/
  owned : ∀ c < n, Owned x.dispatcher.pool q held c
  /-- No book comes or goes, -/
  books : ∀ j, (x.dispatcher.engine.matchers.lookup j).isSome = (e.matchers.lookup j).isSome
  /-- and no pointer to one. -/
  ptrs : x.dispatcher.engine.bookPtrs = e.bookPtrs
  /-- Only threads of accepted connections are at work. -/
  later : ∀ k, x.threads k ≠ .idle → k < x.nextSessionId
  /-- A busy thread is on its way to what it owes, on the book of its instrument. -/
  owes : ∀ k i, (x.threads k).instrument = some i →
    ∃ b, Owes e x.dispatcher.pool.storage (q i) (x.threads k) ((debt k).onto b) (hands k)
      ∧ (x.AtBook k i → b = fin i)
  /-- An idle one owes nothing. -/
  idle : ∀ k, x.threads k = .idle → hands k = [] ∧ (debt k).reply = id ∧ (debt k).trades = []
  /-- A book everybody is done with is as it will be. -/
  vacant : ∀ i, (∀ k, ¬ x.AtBook k i) → fin i = q i
  /-- A thread is at a book only where there is one, -/
  found : ∀ k i, x.AtBook k i → (e.matchers.lookup i).isSome = true
  /-- and no two threads are at one book. -/
  alone : ∀ k j i, x.AtBook k i → x.AtBook j i → k = j
  /-- The slots are divided among the threads. -/
  shared : Shared held lost hands fun k => (debt k).left
  /-- The fills that were noted are those the orders show. -/
  metered : x.Metered

/-- A thread that is busy is busy with an instrument. -/
theorem instrument_eq_none {th : Thread} : th.instrument = none ↔ th = .idle := by
  cases th <;> simp [Thread.instrument]

/-- What each thread will keep, when one of them has another debt. -/
theorem left_update (debt : ℕ → Debt) (k : ℕ) (d : Debt) :
    (fun j => (Function.update debt k d j).left)
      = Function.update (fun j => (debt j).left) k d.left := by
  ext1 j
  by_cases hjk : j = k
  · rw [hjk, Function.update_self, Function.update_self]
  · rw [Function.update_of_ne hjk, Function.update_of_ne hjk]

namespace Tracked

variable {e : Engine} {n : ℕ} {x x' : Server} {q fin : InstrumentId → QueueBook}
  {held held' lost : List Slot} {debt : ℕ → Debt} {hands : ℕ → List Slot} {k : ℕ} {i : InstrumentId}
  {a : Slot}

/-- No slot is in use twice. -/
theorem nodup_held (h : Tracked e n x q fin held lost debt hands) : held.Nodup :=
  (h.lodged.nodup 0).of_append_left.of_append_right

/-- Who is at a book is told from the threads, the store, and which books there are. -/
theorem atBook_iff (h : Tracked e n x q fin held lost debt hands) {j : ℕ} :
    x.AtBook j i ↔ (x.threads j).instrument = some i
      ∧ (x.threads j).uses e x.dispatcher.pool.storage = true :=
  and_congr_right fun hj => by
    obtain ⟨b, howes, -⟩ := h.owes j i hj
    rw [howes.uses_frame h.books fun _ _ => rfl]

/-- Where there is no book nobody is at rest. -/
theorem slots_absent (h : Tracked e n x q fin held lost debt hands)
    (hi : e.matchers.lookup i = none) : (q i).slots = [] := by
  refine h.lodged.absent i (Option.not_isSome_iff_eq_none.mp ?_)
  rw [Engine.books, h.books i, hi]
  exact Bool.false_ne_true

/-- Nothing happens to the books, the slots or the threads. -/
theorem congr (h : Tracked e n x q fin held lost debt hands) (hd : x'.dispatcher = x.dispatcher)
    (ht : x'.threads = x.threads) (hn : x.nextSessionId ≤ x'.nextSessionId)
    (hf : x'.filled = x.filled) : Tracked e n x' q fin held lost debt hands := by
  have hat : ∀ j i, x'.AtBook j i ↔ x.AtBook j i := fun j i => by
    unfold AtBook
    rw [hd, ht]
  exact {
    lodged := hd ▸ h.lodged
    capacity := hd ▸ h.capacity
    owned := hd ▸ h.owned
    books := hd ▸ h.books
    ptrs := hd ▸ h.ptrs
    later := fun k hk => lt_of_lt_of_le (h.later k (ht ▸ hk)) hn
    owes := by
      simp only [hd, ht, hat]
      exact h.owes
    idle := ht ▸ h.idle
    vacant := fun i hv => h.vacant i fun k hk => hv k ((hat k i).mpr hk)
    found := fun k i hk => h.found k i ((hat k i).mp hk)
    alone := fun k j i hk hj => h.alone k j i ((hat k i).mp hk) ((hat j i).mp hj)
    shared := h.shared
    metered := fun c => by
      rw [hd, hf]
      exact h.metered c }

/-- **A thread's step on its own book**: the others see nothing of it, or are done with the book. -/
theorem frame (h : Tracked e n x q fin held lost debt hands) {st : Store} {b' : QueueBook}
    (hi : (x.threads k).instrument = some i)
    (hst : ∀ c, c ∉ (q i).slots → c ∉ hands k → st c = x.dispatcher.pool.storage c)
    (hsame : ¬ x.AtBook k i →
      b' = q i ∧ ∀ c, c ∉ hands k → st c = x.dispatcher.pool.storage c)
    {j : ℕ} {i' : InstrumentId} (hj : (x.threads j).instrument = some i') (hjk : j ≠ k) :
    ∃ b, Owes e st (Function.update q i b' i') (x.threads j) ((debt j).onto b) (hands j)
      ∧ (x.AtBook j i' → b = fin i')
      ∧ (x.threads j).uses e st = (x.threads j).uses e x.dispatcher.pool.storage := by
  obtain ⟨b, howes, hbook⟩ := h.owes j i' hj
  have hhands : ∀ c ∈ hands j, st c = x.dispatcher.pool.storage c := fun c hc =>
    hst c (h.lodged.notMem_slots_of_held (h.shared.hands_subset j hc))
      fun hmem => hjk (h.shared.disjoint j k c hc hmem)
  have hkeep : (∀ c ∈ (q i').slots, st c = x.dispatcher.pool.storage c) →
      ∀ c ∈ (q i').slots ++ hands j, st c = x.dispatcher.pool.storage c := fun hslots c hc =>
    (List.mem_append.mp hc).elim (hslots c) (hhands c)
  have hout : ∀ c ∈ (q i').slots, c ∉ hands k := fun c hc hmem =>
    h.lodged.notMem_slots_of_held (h.shared.hands_subset k hmem) hc
  by_cases hii : i' = i
  · subst hii
    rw [Function.update_self]
    by_cases hat : x.AtBook k i'
    · -- thread `k` is at the book of thread `j`, so `j` is done with it
      have hdone : (x.threads j).uses e x.dispatcher.pool.storage = false := by
        refine Bool.eq_false_iff.mpr fun huses => hjk ?_
        exact h.alone j k i' (h.atBook_iff.mpr ⟨hj, huses⟩) hat
      have hfound : ∀ l, (x.threads j).instrument = some l →
          (e.matchers.lookup l).isSome = true := by
        intro l hl
        obtain rfl : i' = l := Option.some.inj (hj.symm.trans hl)
        exact h.found k i' hat
      obtain ⟨howes', hdone'⟩ := howes.onto hdone hfound hhands b'
      refine ⟨b', howes', fun hat' => ?_, hdone'.trans hdone.symm⟩
      exact absurd (h.alone j k i' hat' hat) hjk
    · obtain ⟨rfl, hst'⟩ := hsame hat
      have hall := hkeep fun c hc => hst' c (hout c hc)
      exact ⟨b, howes.frame hall, hbook, howes.uses_frame (fun _ => rfl) hall⟩
  · rw [Function.update_of_ne hii]
    have hall := hkeep fun c hc => hst c (fun hmem => h.lodged.apart i' i hii hc hmem) (hout c hc)
    exact ⟨b, howes.frame hall, hbook, howes.uses_frame (fun _ => rfl) hall⟩

/-! ## Any thread may take a step

On the way to the end of its request a thread is at the book of its instrument, and then done with
it; it does not come back. -/

section Advance

variable {b b' : QueueBook} {d' : Debt} {hands' : List Slot}

/-- A thread that is done with its book after the step has left it as it was going to. -/
theorem book_advanced
    (ha : x.Advanced e k i q held ((debt k).onto b) (hands k) x' b' held' d' hands')
    (hbooks : ∀ j, (x.dispatcher.engine.matchers.lookup j).isSome = (e.matchers.lookup j).isSome)
    (hdone : (x'.threads k).uses e x'.dispatcher.pool.storage = false) : b' = b := by
  refine (ha.owes.book_eq hdone fun l hl hnone => ?_).symm.trans ha.book
  rcases ha.busy with hbusy | hidle
  · obtain rfl : i = l := Option.some.inj (hbusy.symm.trans hl)
    have habsent : x'.dispatcher.engine.books i = none := by
      refine Option.not_isSome_iff_eq_none.mp ?_
      rw [Engine.books, ha.world.touches.isSome i, hbooks i, hnone]
      exact Bool.false_ne_true
    have hslots := ha.world.lodged.absent i habsent
    rwa [Function.update_self] at hslots
  · rw [instrument_eq_none.mpr hidle] at hl
    cases hl

/-- No thread gets to a book on its way. -/
theorem atBook_advanced (h : Tracked e n x q fin held lost debt hands)
    (hspares : (x.threads k).uses e x.dispatcher.pool.storage = false → x.Spares e k (hands k) x')
    (ha : x.Advanced e k i q held ((debt k).onto b) (hands k) x' b' held' d' hands')
    (hi : (x.threads k).instrument = some i) {l : InstrumentId} (hat : x'.AtBook k l) :
    l = i ∧ x.AtBook k i := by
  have hbooks : ∀ j, (x'.dispatcher.engine.matchers.lookup j).isSome
      = (e.matchers.lookup j).isSome := fun j => (ha.world.touches.isSome j).trans (h.books j)
  have huses : (x'.threads k).uses e x'.dispatcher.pool.storage = true := by
    rw [← ha.owes.uses_frame hbooks fun _ _ => rfl]
    exact hat.2
  rcases ha.busy with hbusy | hidle
  · refine ⟨Option.some.inj (hat.1.symm.trans hbusy), h.atBook_iff.mpr ⟨hi, ?_⟩⟩
    by_contra hdone
    rw [(hspares (Bool.eq_false_iff.mpr hdone)).2] at huses
    cases huses
  · rw [hidle] at huses
    cases huses

/-- A thread that is done with its book changes nothing about it. -/
theorem spared_advanced (h : Tracked e n x q fin held lost debt hands)
    (howes : Owes e x.dispatcher.pool.storage (q i) (x.threads k) ((debt k).onto b) (hands k))
    (hspares : (x.threads k).uses e x.dispatcher.pool.storage = false → x.Spares e k (hands k) x')
    (ha : x.Advanced e k i q held ((debt k).onto b) (hands k) x' b' held' d' hands')
    (hi : (x.threads k).instrument = some i) (hat : ¬ x.AtBook k i) :
    b' = q i
      ∧ ∀ c, c ∉ hands k → x'.dispatcher.pool.storage c = x.dispatcher.pool.storage c := by
  have hdone : (x.threads k).uses e x.dispatcher.pool.storage = false :=
    Bool.eq_false_iff.mpr fun huses => hat (h.atBook_iff.mpr ⟨hi, huses⟩)
  have hb : b = q i := howes.book_eq hdone fun l hl hnone =>
    h.slots_absent (Option.some.inj (hi.symm.trans hl) ▸ hnone)
  exact ⟨(book_advanced ha h.books (hspares hdone).2).trans hb, (hspares hdone).1⟩

/-- **A busy thread takes a step.** -/
theorem advance (h : Tracked e n x q fin held lost debt hands)
    (hi : (x.threads k).instrument = some i)
    (howes : Owes e x.dispatcher.pool.storage (q i) (x.threads k) ((debt k).onto b) (hands k))
    (hfin : x.AtBook k i → b = fin i)
    (hspares : (x.threads k).uses e x.dispatcher.pool.storage = false → x.Spares e k (hands k) x')
    (ha : x.Advanced e k i q held ((debt k).onto b) (hands k) x' b' held' d' hands') :
    Tracked e n x' (Function.update q i b') fin held' lost (Function.update debt k d')
      (Function.update hands k hands') := by
  have hbusy : x.threads k ≠ .idle := fun hidle => by
    rw [instrument_eq_none.mpr hidle] at hi
    cases hi
  have hbooks : ∀ j, (x'.dispatcher.engine.matchers.lookup j).isSome
      = (e.matchers.lookup j).isSome := fun j => (ha.world.touches.isSome j).trans (h.books j)
  have hsame := h.spared_advanced howes hspares ha hi
  have hframe := fun {j l} (hj : (x.threads j).instrument = some l) (hjk : j ≠ k) =>
    h.frame hi ha.world.frame hsame hj hjk
  have hothers : ∀ j l, j ≠ k → (x'.AtBook j l ↔ x.AtBook j l) := fun j l hjk => by
    unfold AtBook
    rw [ha.loc.threads j hjk]
    refine and_congr_right fun hj => ?_
    obtain ⟨b₁, howes₁, -⟩ := h.owes j l hj
    obtain ⟨b₂, howes₂, -, huses⟩ := hframe hj hjk
    rw [howes₁.uses_frame h.books fun _ _ => rfl, howes₂.uses_frame hbooks fun _ _ => rfl, huses]
  have hback : ∀ j l, x'.AtBook j l → x.AtBook j l := fun j l hat => by
    by_cases hjk : j = k
    · subst hjk
      obtain ⟨rfl, hat'⟩ := h.atBook_advanced hspares ha hi hat
      exact hat'
    · exact (hothers j l hjk).mp hat
  exact {
    lodged := ha.world.lodged
    capacity := ha.world.retains.capacity.trans h.capacity
    owned := fun c hc => ha.world.retains.owned c (h.owned c hc)
    books := hbooks
    ptrs := ha.world.touches.ptrs.trans h.ptrs
    later := fun j hj => by
      rw [ha.loc.nextSessionId]
      by_cases hjk : j = k
      · exact hjk ▸ h.later k hbusy
      · exact h.later j (ha.loc.threads j hjk ▸ hj)
    owes := fun j l hj => by
      by_cases hjk : j = k
      · subst hjk
        rcases ha.busy with hinst | hidle
        · obtain rfl : i = l := Option.some.inj (hinst.symm.trans hj)
          simp only [Function.update_self]
          exact ⟨d'.book, ha.owes, fun hat => ha.book.trans (hfin (hback j i hat))⟩
        · rw [instrument_eq_none.mpr hidle] at hj
          cases hj
      · rw [ha.loc.threads j hjk] at hj ⊢
        obtain ⟨b₂, howes₂, hbook, -⟩ := hframe hj hjk
        rw [Function.update_of_ne hjk, Function.update_of_ne hjk]
        exact ⟨b₂, howes₂, fun hat => hbook ((hothers j l hjk).mp hat)⟩
    idle := fun j hj => by
      by_cases hjk : j = k
      · subst hjk
        have hend := ha.owes
        rw [hj] at hend
        simp only [Function.update_self]
        cases hend with
        | idle => exact ⟨rfl, rfl, rfl⟩
        | order stage _ => cases stage
      · rw [Function.update_of_ne hjk, Function.update_of_ne hjk]
        exact h.idle j (ha.loc.threads j hjk ▸ hj)
    vacant := fun l hv => by
      have hv' : ∀ j, j ≠ k → ¬ x.AtBook j l := fun j hjk hat => hv j ((hothers j l hjk).mpr hat)
      by_cases hat : x.AtBook k l
      · -- the book is done with in this very step
        obtain rfl : i = l := Option.some.inj (hi.symm.trans hat.1)
        rw [Function.update_self, ← hfin hat]
        refine (book_advanced ha h.books (Bool.eq_false_iff.mpr fun huses => ?_)).symm
        rcases ha.busy with hinst | hidle
        · refine hv k ⟨hinst, ?_⟩
          rw [ha.owes.uses_frame hbooks fun _ _ => rfl]
          exact huses
        · rw [hidle] at huses
          cases huses
      · have hvacant : fin l = q l := h.vacant l fun j =>
          (eq_or_ne j k).elim (fun hjk => hjk ▸ hat) (hv' j)
        by_cases hli : l = i
        · subst hli
          rw [Function.update_self, (hsame hat).1]
          exact hvacant
        · rw [Function.update_of_ne hli]
          exact hvacant
    found := fun j l hat => h.found j l (hback j l hat)
    alone := fun j₁ j₂ l h₁ h₂ => h.alone j₁ j₂ l (hback j₁ l h₁) (hback j₂ l h₂)
    shared := by
      have hleft : (fun j => (Function.update debt k d' j).left) = fun j => (debt j).left := by
        rw [left_update, ha.left]
        exact Function.update_eq_self k fun j => (debt j).left
      rw [hleft]
      exact h.shared.handover h.nodup_held
        (fun c hc hmem => h.lodged.notMem_slots_of_held hmem hc) (howes.left_subset hbusy)
        ha.handover
    metered := ha.metered h.metered }

end Advance

/-- **The slots the books will have** are there, or in somebody's hands. -/
theorem slots_fin (h : Tracked e n x q fin held lost debt hands) (i : InstrumentId) :
    (fin i).slots ⊆ (q i).slots ++ held := by
  by_cases hv : ∀ k, ¬ x.AtBook k i
  · rw [h.vacant i hv]
    exact List.subset_append_left _ _
  · obtain ⟨k, hk⟩ := not_forall.mp hv
    obtain ⟨b, howes, hbook⟩ := h.owes k i (not_not.mp hk).1
    rw [← hbook (not_not.mp hk)]
    exact List.Subset.trans howes.slots_subset (List.append_subset.mpr
      ⟨List.subset_append_left _ _, List.subset_append_of_subset_right _ (h.shared.hands_subset k)⟩)

/-- **A free slot is in nobody's use**, nor will be. -/
theorem unused_of_free (h : Tracked e n x q fin held lost debt hands)
    (ha : a ∈ x.dispatcher.pool.freeSlots) :
    a < n ∧ a ∉ lost ∧ (∀ i, a ∉ (fin i).slots) ∧ a ∉ held ∧ ∀ i, a ∉ (q i).slots := by
  have hheld : a ∉ held := fun hmem =>
    List.disjoint_of_nodup_append (h.lodged.nodup 0).of_append_left ha hmem
  have hslots : ∀ i, a ∉ (q i).slots := fun i hmem =>
    h.lodged.notMem_of_mem_slots hmem (List.mem_append_left _ ha)
  refine ⟨?_, fun hl => hheld (h.shared.lost_subset hl), fun i hf => ?_, hheld, hslots⟩
  · rw [← h.capacity]
    exact h.lodged.bound 0 a (List.mem_append_left _ (List.mem_append_left _ ha))
  · exact (List.mem_append.mp (h.slots_fin i hf)).elim (hslots i) hheld

/-- **With the pool exhausted and nobody busy**, every slot is out of use or at rest. -/
theorem used_of_quiet (h : Tracked e n x q fin held lost debt hands)
    (hfree : x.dispatcher.pool.freeSlots = []) (hq : ∀ k, x.threads k = .idle) :
    ∀ c < n, c ∈ lost ∨ ∃ i, c ∈ (fin i).slots := by
  intro c hc
  have hfin : ∀ i, fin i = q i := fun i => h.vacant i fun k hk => by
    have hinst := hk.1
    rw [instrument_eq_none.mpr (hq k)] at hinst
    cases hinst
  rcases h.owned c hc with hmem | ⟨i, hi⟩
  · rw [hfree, List.nil_append, h.shared.mem] at hmem
    refine hmem.imp_right fun ⟨k, hk⟩ => ?_
    rw [(h.idle k (hq k)).1] at hk
    exact absurd hk List.not_mem_nil
  · exact .inr ⟨i, by rwa [hfin i]⟩

end Tracked

end Server

end Ordbk

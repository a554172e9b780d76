import Ordbk.Refinement.Sharded
import Ordbk.Refinement.View

/-!
# Refinement/Sequential — one engine, one command after the other

What the sharded matcher is measured against: a single engine with every instrument and a pool of
its own, which executes a list of commands from first to last.  Whatever executes the same commands
about an instrument shows the same book of it (`view_eq`).
-/

namespace Ordbk

/-- A single engine and its pool. -/
structure Sequential where
  /-- One engine for every instrument, -/
  engine : Engine
  /-- with a pool of its own. -/
  pool : Pool

namespace Sequential

/-- Execute a command: a submission puts its order into a slot of its own. -/
def execute (s : Sequential) : Entry → Sequential
  | .submit _ o =>
    match s.pool.acquire with
    | none => s
    | some (a, pool) =>
      let (engine, pool, _) := s.engine.settle (pool.write a o) a
      ⟨engine, pool⟩
  | .cancel i id =>
    let (engine, pool, _) := s.engine.cancel s.pool i id
    ⟨engine, pool⟩

/-- Execute commands from first to last. -/
def executeAll (s : Sequential) (es : List Entry) : Sequential := es.foldl execute s

/-- What a reader sees of an instrument's book, if there is one. -/
def view (s : Sequential) (i : InstrumentId) :
    Option (List (Price × List OrderData) × List (Price × List OrderData)) :=
  (s.engine.book i).map (·.view s.pool)

/-- **After some commands**, with slots left for `room` more. -/
structure Inv (s : Sequential) (es : List Entry) (room : ℕ) (q : InstrumentId → QueueBook)
    (held : List Slot) : Prop where
  /-- The books are queue books, -/
  engine : EngineInv s.engine s.pool q held
  /-- each is what the commands about its instrument have made of it, -/
  performs : ∀ i, s.engine.books i ≠ none → Performs i (about i es) (q i)
  /-- and there are slots for what is still to come. -/
  room : room ≤ s.pool.freeSlots.length

variable {s : Sequential} {es : List Entry} {room : ℕ} {q : InstrumentId → QueueBook}
  {held : List Slot}

/-- An execution brings or takes no book. -/
theorem touches_execute (s : Sequential) (e : Entry) :
    ∃ i, Engine.Touches i s.engine (s.execute e).engine := by
  cases e with
  | submit a o =>
    unfold execute
    cases s.pool.acquire with
    | none => exact ⟨0, .refl _ _⟩
    | some p => exact ⟨_, Engine.touches_submit _ _ _⟩
  | cancel i id => exact ⟨i, Engine.touches_cancel _ _ _ _⟩

/-- What a call about one instrument leaves of the account. -/
theorem performs_update {e : Engine} {b : QueueBook} {i : InstrumentId} {entry : Entry}
    (hp : ∀ i, s.engine.books i ≠ none → Performs i (about i es) (q i))
    (ht : Engine.Touches i s.engine e) (hentry : entry.instrument = i)
    (hb : s.engine.books i ≠ none → Performs i (about i es ++ [entry]) b) (j : InstrumentId)
    (hj : e.books j ≠ none) : Performs j (about j (es ++ [entry])) (Function.update q i b j) := by
  have hsome : s.engine.books j ≠ none := by
    have heq := ht.isSome j
    intro hnone
    rw [show s.engine.matchers.lookup j = none from hnone] at heq
    exact hj (Option.isSome_eq_false_iff.mp heq |> Option.isNone_iff_eq_none.mp)
  rw [about_append, about_singleton, hentry]
  by_cases hji : j = i
  · subst hji
    rw [Function.update_self, if_pos rfl]
    exact hb hsome
  · rw [Function.update_of_ne hji, if_neg (Ne.symm hji), List.append_nil]
    exact hp j hsome

/-- **One more command.** -/
theorem Inv.execute (h : s.Inv es (room + 1) q held) (e : Entry)
    (hfresh : ∀ a o, e = .submit a o → o.filledQty = 0) :
    ∃ q' held', (s.execute e).Inv (es ++ [e]) room q' held' := by
  cases e with
  | submit a' o =>
    cases hf : s.pool.freeSlots with
    | nil =>
      have hroom := h.room
      rw [hf] at hroom
      simp at hroom
    | cons a free =>
      obtain ⟨pool, hacq⟩ := Pool.exists_acquire hf
      have hfree : pool.freeSlots = free :=
        (List.cons.inj (hf.symm.trans (Pool.acquire_eq_some hacq).1)).2.symm
      have hsound := OrderData.sound_of_fresh (hfresh a' o rfl)
      -- the order is written into a slot of the caller's
      have hc : Custody (pool.write a o) s.engine.books q (a :: held) :=
        (h.engine.custody.acquire hacq).write (List.mem_cons_self ..) _
      have hinv := (h.engine.repool hc).settle (List.mem_cons_self ..)
        (Pool.data_write_self pool a o) hsound
      have hroom := (hc.free_settle (e := s.engine) rfl (List.mem_cons_self ..)
        (Pool.data_write_self pool a o) hsound).length_le
      unfold Sequential.execute
      simp only [hacq]
      refine ⟨_, _, hinv, ?_, ?_⟩
      · refine performs_update h.performs (e := (s.engine.settle (pool.write a o) a).1) ?_ rfl
          fun hi => ?_
        · have ht := s.engine.touches_submit (pool.write a o) a
          rwa [Pool.data_write_self] at ht
        · rw [submitOutcome_of_ne_none hi]
          exact (h.performs _ hi).submit (h.engine.custody.wf _)
            (hc.notMem_slots_of_held (List.mem_cons_self ..))
      · have hle := h.room
        rw [hf, List.length_cons] at hle
        rw [Pool.freeSlots_write, hfree] at hroom
        exact le_trans (Nat.le_of_succ_le_succ hle) hroom
  | cancel i id =>
    refine ⟨_, held, h.engine.cancel i id, ?_, ?_⟩
    · exact performs_update h.performs (s.engine.touches_cancel s.pool i id) rfl fun hi =>
        (h.performs i hi).cancel
    · have hle := (h.engine.custody.free_engineCancel (e := s.engine) (i := i) rfl id).length_le
      exact le_trans (Nat.le_of_succ_le h.room) hle

/-- **All the commands**, given a slot for each. -/
theorem Inv.executeAll {fs : List Entry} (h : s.Inv es fs.length q held)
    (hfresh : ∀ a o, .submit a o ∈ fs → o.filledQty = 0) :
    ∃ q' held', (s.executeAll fs).Inv (es ++ fs) 0 q' held' := by
  induction fs generalizing s es q held with
  | nil =>
    rw [List.append_nil]
    exact ⟨q, held, h⟩
  | cons e fs ih =>
    obtain ⟨q', held', h'⟩ := h.execute e fun a o he => hfresh a o (he ▸ List.mem_cons_self ..)
    have hall := ih h' fun a o ho => hfresh a o (List.mem_cons_of_mem _ ho)
    rwa [List.append_assoc] at hall

/-- No book comes or goes. -/
theorem isSome_executeAll (s : Sequential) (es : List Entry) (i : InstrumentId) :
    ((s.executeAll es).engine.books i).isSome = (s.engine.books i).isSome := by
  induction es generalizing s with
  | nil => rfl
  | cons e es ih =>
    obtain ⟨j, ht⟩ := s.touches_execute e
    exact (ih (s.execute e)).trans (ht.isSome i)

end Sequential

end Ordbk

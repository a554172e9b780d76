import Ordbk.Refinement.Engine
import Ordbk.Abstract.Rename
import Ordbk.Matching.Sharded
import Mathlib.Tactic.Abel

/-!
# Refinement/Sharded — what is on its way, and what it will do

The books of all shards together are one family in good custody, and a command goes through the
system in four places: the producer's log, its shard's queue, its worker's hands, the log of
executions.  `Sharding.Inv` ties them together with the list `pending` of the commands accepted and
not yet executed, in the order of the calls: each shard's share of it *is* what its worker holds and
its queue contains.
-/

namespace Ordbk

namespace Entry

/-- The shard a command goes to. -/
def shard (n : ℕ) (e : Entry) : ℕ := e.instrument.toNat % n

/-- The slot a command brings along. -/
def slot : Entry → Option Slot
  | submit a _ => some a
  | cancel _ _ => none

/-- A command is about the instrument of its entry. -/
theorem instrument_command (e : Entry) : e.command.instrument = e.instrument := by
  cases e <;> rfl

/-- The slots of one command. -/
theorem filterMap_slot (e : Entry) : [e].filterMap slot = e.slot.toList := by
  cases e <;> rfl

end Entry

/-- The commands of one shard. -/
def part (n k : ℕ) (es : List Entry) : List Entry := es.filter fun e => e.shard n = k

/-- The commands about one instrument. -/
def about (i : InstrumentId) (es : List Entry) : List Entry := es.filter fun e => e.instrument = i

/-- The commands of a shard keep their order. -/
@[simp] theorem part_append (n k : ℕ) (es fs : List Entry) :
    part n k (es ++ fs) = part n k es ++ part n k fs := List.filter_append ..

theorem part_singleton (n k : ℕ) (e : Entry) :
    part n k [e] = if e.shard n = k then [e] else [] := by
  by_cases h : e.shard n = k <;> simp [part, h]

/-- A command is in its own shard's part. -/
theorem mem_part_shard (n : ℕ) {e : Entry} {es : List Entry} (he : e ∈ es) :
    e ∈ part n (e.shard n) es :=
  List.mem_filter.mpr ⟨he, by simp⟩

/-- Taking out the first command of a shard. -/
theorem part_cut {n k : ℕ} {e : Entry} {l₁ : List Entry} (hl₁ : part n k l₁ = [])
    (hk : e.shard n = k) (l₂ : List Entry) (j : ℕ) :
    part n j (l₁ ++ e :: l₂) = (if j = k then [e] else []) ++ part n j (l₁ ++ l₂) := by
  by_cases hj : j = k
  · rw [hj, if_pos rfl, part_append, part_append, hl₁]
    simp [part, hk]
  · have hej : e.shard n ≠ j := fun h => hj (h.symm.trans hk)
    rw [if_neg hj]
    simp [part, hej]

theorem about_append (i : InstrumentId) (es fs : List Entry) :
    about i (es ++ fs) = about i es ++ about i fs := List.filter_append ..

theorem about_singleton (i : InstrumentId) (e : Entry) :
    about i [e] = if e.instrument = i then [e] else [] := by
  by_cases h : e.instrument = i <;> simp [about, h]

/-- What concerns an instrument is in its shard's part. -/
theorem about_part (n : ℕ) (i : InstrumentId) (es : List Entry) :
    about i (part n (i.toNat % n) es) = about i es := by
  unfold about part
  rw [List.filter_filter]
  refine List.filter_congr fun e _ => ?_
  by_cases h : e.instrument = i <;> simp [h, Entry.shard]

/-! ## What a list of commands makes of a book

`Performs` runs a queue book through the commands about its instrument, without any store: that is
what one engine would do with them in this order. -/

/-- **A book after some commands**, wherever their orders were put. -/
inductive Performs (i : InstrumentId) : List Entry → QueueBook → Prop
  | nil : Performs i [] ⟨i, [], [], ∅⟩
  | submit {es : List Entry} {b : QueueBook} {a a' : Slot} {o : OrderData} : Performs i es b →
      b.WF → a ∉ b.slots → Performs i (es ++ [.submit a' o]) (b.submit a o).book
  | cancel {es : List Entry} {b : QueueBook} {j : InstrumentId} {id : OrderId} : Performs i es b →
      Performs i (es ++ [.cancel j id]) (b.cancel id).1

/-- **The same commands make the same book**, slot addresses aside. -/
theorem Performs.alike {i : InstrumentId} {es : List Entry} {b b' : QueueBook}
    (h : Performs i es b) (h' : Performs i es b') : b.Alike b' := by
  induction h generalizing b' with
  | nil =>
    generalize hes : ([] : List Entry) = es at h'
    cases h' with
    | nil => exact .refl _
    | submit _ _ _ => simp at hes
    | cancel _ => simp at hes
  | @submit es b a a' o hb hw ha ih =>
    generalize hes : es ++ [Entry.submit a' o] = es' at h'
    cases h' with
    | nil => simp at hes
    | submit hb' _ ha' =>
      obtain ⟨rfl, hlast⟩ := List.append_inj' hes rfl
      obtain ⟨rfl, rfl⟩ : a' = _ ∧ o = _ := by simpa using hlast
      exact ((ih hb').submit hw ha ha' o).1
    | cancel _ =>
      obtain ⟨-, hlast⟩ := List.append_inj' hes rfl
      simp at hlast
  | @cancel es b j id hb ih =>
    generalize hes : es ++ [Entry.cancel j id] = es' at h'
    cases h' with
    | nil => simp at hes
    | submit _ _ _ =>
      obtain ⟨-, hlast⟩ := List.append_inj' hes rfl
      simp at hlast
    | cancel hb' =>
      obtain ⟨rfl, hlast⟩ := List.append_inj' hes rfl
      obtain ⟨rfl, rfl⟩ : j = _ ∧ id = _ := by simpa using hlast
      exact ((ih hb').cancel id).1

/-! ## The invariant

The orders on their way are in nobody's book and in no caller's hands, so the slots on their way are
held by the system itself. -/

namespace ShardedMatcher

/-- The book of each instrument, in whichever shard. -/
def books (sm : ShardedMatcher) : InstrumentId → Option OrderBook := fun i =>
  (sm.shards (sm.shardFor i)).engine.matchers.lookup i

/-- The books depend on the engines only. -/
theorem books_congr {sm sm' : ShardedMatcher} (hn : sm'.numShards = sm.numShards)
    (he : ∀ k, (sm'.shards k).engine = (sm.shards k).engine) : sm'.books = sm.books := by
  ext1 i
  simp only [books, shardFor, hn, he]

/-- What an update of a shard leaves alone. -/
theorem proj_setShard {β : Type} (f : Shard → β) (sm : ShardedMatcher) {k : ℕ} {s : Shard}
    (hs : f s = f (sm.shards k)) (j : ℕ) : f ((sm.setShard k s).shards j) = f (sm.shards j) := by
  change f (Function.update sm.shards k s j) = _
  by_cases hj : j = k
  · rw [hj, Function.update_self, hs]
  · rw [Function.update_of_ne hj]

/-- A push changes a queue. -/
theorem proj_push {β : Type} (f : Shard → β) (sm : ShardedMatcher)
    (hf : ∀ s queue, f { s with queue } = f s) (cmd : Command) (j : ℕ) :
    f ((sm.push cmd).1.shards j) = f (sm.shards j) :=
  sm.proj_setShard f (hf _ _) j

/-- An engine's call about one of its shard's instruments. -/
theorem books_setShard (sm : ShardedMatcher) {i : InstrumentId} {e : Engine} {pool : Pool}
    (ht : Engine.Touches i (sm.shards (sm.shardFor i)).engine e) :
    ({ sm.setShard (sm.shardFor i) { sm.shards (sm.shardFor i) with engine := e } with pool } :
    ShardedMatcher).books = Function.update sm.books i (e.matchers.lookup i) := by
  ext1 j
  change ((Function.update sm.shards (sm.shardFor i) _) (sm.shardFor j)).engine.matchers.lookup j
    = _
  by_cases hj : j = i
  · rw [hj, Function.update_self, Function.update_self]
  · rw [Function.update_of_ne hj]
    by_cases hk : sm.shardFor j = sm.shardFor i
    · rw [hk, Function.update_self]
      change e.matchers.lookup j = (sm.shards (sm.shardFor j)).engine.matchers.lookup j
      rw [hk]
      exact ht.other j hj
    · rw [Function.update_of_ne hk]
      rfl

/-- An execution changes one book of one engine, and the pool. -/
theorem execute_eq (sm : ShardedMatcher) (k : ℕ) (cmd : Command) :
    ∃ i engine pool, Engine.Touches i (sm.shards k).engine engine
      ∧ sm.execute k cmd = { sm.setShard k { sm.shards k with engine } with pool } := by
  unfold execute
  split
  · split
    · refine ⟨0, _, sm.pool, .refl _ _, ?_⟩
      simp only [setShard, Function.update_eq_self]
    · exact ⟨_, _, _, Engine.touches_submit _ _ _, rfl⟩
  · exact ⟨_, _, _, Engine.touches_cancel _ _ _ _, rfl⟩

end ShardedMatcher

namespace WorkerState

/-- The command in a worker's hands. -/
def held : WorkerState → List Command
  | hold cmd _ => [cmd]
  | _ => []

/-- Between an execution and its count. -/
def counting : WorkerState → Bool
  | count _ => true
  | _ => false

/-- Past the main loop. -/
def draining : WorkerState → Bool
  | hold _ d => d
  | count d => d
  | drain => true
  | exited => true
  | _ => false

end WorkerState

namespace Sharding

/-- **Where everything is.** -/
structure Inv (x : Sharding) (q : InstrumentId → QueueBook) (pending : List Entry)
    (lost : List Slot) : Prop where
  /-- **Every slot has one owner**: the pool, a book, the caller, a command on its way, or nobody
  any more. -/
  custody : Custody x.matcher.pool x.matcher.books q
    (x.held ++ pending.filterMap Entry.slot ++ lost)
  /-- The books are kept under their own instruments. -/
  instrument : ∀ i, (q i).instrument = i
  /-- Nobody touches an order on its way. -/
  data : ∀ a o, .submit a o ∈ pending → x.order a = o
  /-- A shard's pending commands are in its worker's hands and its queue. -/
  pipe : ∀ k, ∃ l, (x.matcher.shards k).queue.Holds l
    ∧ (x.workers k).held ++ l = (part x.matcher.numShards k pending).map Entry.command
  /-- What a shard has executed and what it has before it is what it accepted, in order. -/
  logs : ∀ k, part x.matcher.numShards k x.accepted
    = part x.matcher.numShards k (x.executed.map (·.2)) ++ part x.matcher.numShards k pending
  /-- Every command is executed by the worker of its shard. -/
  owner : ∀ p ∈ x.executed, p.1 = p.2.shard x.matcher.numShards
  /-- **A book is what the commands executed have made of it.** -/
  performs : ∀ i, x.matcher.books i ≠ none → Performs i (about i (x.executed.map (·.2))) (q i)
  /-- An order is unfilled when it is submitted. -/
  fresh : ∀ a o, .submit a o ∈ x.accepted → o.filledQty = 0

variable {x x' : Sharding} {q : InstrumentId → QueueBook} {pending : List Entry} {lost : List Slot}
  {k : ℕ}

/-- Counters, flags and states of no consequence. -/
theorem Inv.congr (h : x.Inv q pending lost) (hpool : x'.matcher.pool = x.matcher.pool)
    (hn : x'.matcher.numShards = x.matcher.numShards)
    (hengine : ∀ k, (x'.matcher.shards k).engine = (x.matcher.shards k).engine)
    (hqueue : ∀ k, (x'.matcher.shards k).queue = (x.matcher.shards k).queue)
    (hworkers : ∀ k, (x'.workers k).held = (x.workers k).held) (hheld : x'.held = x.held)
    (hacc : x'.accepted = x.accepted) (hexec : x'.executed = x.executed) :
    x'.Inv q pending lost := by
  have hbooks : x'.matcher.books = x.matcher.books := ShardedMatcher.books_congr hn hengine
  refine ⟨?_, h.instrument, fun a o ha => ?_, fun k => ?_, fun k => ?_, ?_, ?_, ?_⟩
  · rw [hbooks, hheld, hpool]
    exact h.custody
  · rw [order, hpool]
    exact h.data a o ha
  · rw [hqueue, hworkers, hn]
    exact h.pipe k
  · rw [hn, hacc, hexec]
    exact h.logs k
  · rw [hn, hexec]
    exact h.owner
  · rw [hbooks, hexec]
    exact h.performs
  · rw [hacc]
    exact h.fresh

/-- The queues have room for a power of two. -/
theorem kQueueCapacity_pow : ∃ n, kQueueCapacity = 2 ^ n := ⟨12, rfl⟩

/-! ## The producer's side

The caller acquires a slot, writes the order, and hands the command over; a command that is refused
has changed nothing. -/

/-- The producer gets a slot. -/
theorem Inv.acquire (h : x.Inv q pending lost) {a : Slot} {pool : Pool}
    (hacq : x.matcher.pool.acquire = some (a, pool)) :
    ({ x with matcher.pool := pool, held := a :: x.held } : Sharding).Inv q pending lost := by
  refine ⟨h.custody.acquire hacq, h.instrument, fun b o hb => ?_, h.pipe, h.logs, h.owner,
    h.performs, h.fresh⟩
  refine (Store.data_congr ?_).trans (h.data b o hb)
  -- the slot handed out was free, the other one is on its way
  have hmem : b ∈ x.held ++ pending.filterMap Entry.slot ++ lost :=
    List.mem_append_left _ (List.mem_append_right _ (List.mem_filterMap.mpr ⟨_, hb, rfl⟩))
  obtain ⟨hfree, -, hkeep⟩ := Pool.acquire_eq_some hacq
  refine hkeep b ?_
  rintro rfl
  have hnd := (h.custody.nodup 0).of_append_left
  rw [hfree] at hnd
  exact List.disjoint_of_nodup_append hnd (List.mem_cons_self ..) hmem

/-- The producer writes to a slot it holds. -/
theorem Inv.write (h : x.Inv q pending lost) {a : Slot} (ha : a ∈ x.held) (o : Order) :
    ({ x with matcher.pool.storage := Function.update x.matcher.pool.storage a o } : Sharding).Inv
      q pending lost := by
  have hmem : a ∈ x.held ++ pending.filterMap Entry.slot ++ lost :=
    List.mem_append_left _ (List.mem_append_left _ ha)
  refine ⟨h.custody.write hmem o, h.instrument, fun b o' hb => ?_, h.pipe, h.logs, h.owner,
    h.performs, h.fresh⟩
  refine (Store.data_congr (Function.update_of_ne ?_ _ _)).trans (h.data b o' hb)
  rintro rfl
  have hnd := (h.custody.nodup 0).of_append_left.of_append_right.of_append_left
  exact List.disjoint_of_nodup_append hnd ha (List.mem_filterMap.mpr ⟨_, hb, rfl⟩)

/-- The state after a command has been accepted. -/
abbrev afterSend (x : Sharding) (e : Entry) (held : List Slot) : Sharding :=
  { x with
    matcher := (x.matcher.push e.command).1
    held
    producer := .pushed (x.matcher.shardFor e.instrument)
    calls := x.calls ++ [(e, true)] }

/-- What is accepted is in the log. -/
theorem accepted_afterSend (x : Sharding) (e : Entry) (held : List Slot) :
    (x.afterSend e held).accepted = x.accepted ++ [e] := by
  simp [accepted]

/-- **A command is accepted**: it is on its way, in the queue of its shard. -/
theorem Inv.send (h : x.Inv q pending lost) {e : Entry} {held : List Slot}
    (hok : (x.matcher.push e.command).2 = true)
    (hheld : (held ++ e.slot.toList).Perm x.held)
    (hdata : ∀ a o, e = .submit a o → x.order a = o ∧ o.filledQty = 0) :
    (x.afterSend e held).Inv q (pending ++ [e]) lost := by
  have hk : x.matcher.shardFor e.command.instrument = e.shard x.matcher.numShards := by
    rw [e.instrument_command]
    rfl
  have hbooks : (x.matcher.push e.command).1.books = x.matcher.books :=
    ShardedMatcher.books_congr rfl (x.matcher.proj_push (·.engine) (fun _ _ => rfl) _)
  refine ⟨?_, h.instrument, fun a o ha => ?_, fun k => ?_, fun k => ?_, h.owner, ?_,
    fun a o ha => ?_⟩
  · change Custody x.matcher.pool (x.matcher.push e.command).1.books q
      (held ++ (pending ++ [e]).filterMap Entry.slot ++ lost)
    rw [hbooks]
    refine h.custody.mono (List.Perm.subperm ?_)
    rw [List.filterMap_append, e.filterMap_slot, ← Multiset.coe_eq_coe]
    rw [← Multiset.coe_eq_coe] at hheld
    simp only [← Multiset.coe_add] at hheld ⊢
    rw [← hheld]
    abel
  · rcases List.mem_append.mp ha with ha | ha
    · exact h.data a o ha
    · exact (hdata a o (List.mem_singleton.mp ha).symm).1
  · change ∃ l, (Function.update x.matcher.shards _ _ k).queue.Holds l
      ∧ (x.workers k).held ++ l = (part x.matcher.numShards k (pending ++ [e])).map Entry.command
    obtain ⟨l, hl, hpipe⟩ := h.pipe k
    rw [part_append, part_singleton, ← hk]
    by_cases hke : x.matcher.shardFor e.command.instrument = k
    · rw [hke, Function.update_self, if_pos rfl]
      refine ⟨l ++ [e.command], ?_, ?_⟩
      · subst hke
        exact hl.of_push kQueueCapacity_pow hok
      · rw [← List.append_assoc, hpipe, List.map_append]
        rfl
    · rw [Function.update_of_ne (Ne.symm hke), if_neg hke, List.append_nil]
      exact ⟨l, hl, hpipe⟩
  · rw [accepted_afterSend]
    change part x.matcher.numShards k _ = part x.matcher.numShards k _
      ++ part x.matcher.numShards k _
    rw [part_append, part_append, h.logs k, List.append_assoc]
  · intro i hi
    refine h.performs i ?_
    rw [← hbooks]
    exact hi
  · rw [accepted_afterSend] at ha
    rcases List.mem_append.mp ha with ha | ha
    · exact h.fresh a o ha
    · exact (hdata a o (List.mem_singleton.mp ha).symm).2

/-! ## The workers' side

A worker has at most one command in its hands.  Its execution is the engine's own, so the lemmas
about one engine among others apply. -/

/-- One worker and its queue move on, what is pending with the other shards stays. -/
theorem Inv.pipe_update (h : x.Inv q pending lost) {s : Shard} {w : WorkerState}
    {pending' : List Entry}
    (hk : ∀ l, (x.matcher.shards k).queue.Holds l →
      (x.workers k).held ++ l = (part x.matcher.numShards k pending).map Entry.command →
      ∃ l', s.queue.Holds l'
        ∧ w.held ++ l' = (part x.matcher.numShards k pending').map Entry.command)
    (hj : ∀ j, j ≠ k → part x.matcher.numShards j pending' = part x.matcher.numShards j pending)
    (j : ℕ) :
    ∃ l, (Function.update x.matcher.shards k s j).queue.Holds l
      ∧ (Function.update x.workers k w j).held ++ l
        = (part x.matcher.numShards j pending').map Entry.command := by
  obtain ⟨l, hl, hpipe⟩ := h.pipe j
  by_cases hjk : j = k
  · subst hjk
    rw [Function.update_self, Function.update_self]
    exact hk l hl hpipe
  · rw [Function.update_of_ne hjk, Function.update_of_ne hjk, hj j hjk]
    exact ⟨l, hl, hpipe⟩

/-- A worker takes the first command of its queue. -/
theorem Inv.pop (h : x.Inv q pending lost) (hw : (x.workers k).held = []) {cmd : Command}
    {queue : SpscRingBuffer Command kQueueCapacity}
    (hpop : (x.matcher.shards k).queue.pop = some (cmd, queue)) (draining : Bool) :
    ({ x.withWorker k (.hold cmd draining) with
        matcher := x.matcher.setShard k { x.matcher.shards k with queue } } : Sharding).Inv
      q pending lost := by
  have hbooks : (x.matcher.setShard k { x.matcher.shards k with queue }).books
      = x.matcher.books :=
    ShardedMatcher.books_congr rfl (x.matcher.proj_setShard (·.engine) rfl)
  refine ⟨?_, h.instrument, h.data, fun j => ?_, h.logs, h.owner,
    fun i hi => h.performs i ?_, h.fresh⟩
  · change Custody x.matcher.pool (x.matcher.setShard k _).books q _
    rw [hbooks]
    exact h.custody
  · refine h.pipe_update (fun l hl hpipe => ?_) (fun _ _ => rfl) j
    obtain ⟨l', rfl, hl'⟩ := hl.of_pop kQueueCapacity_pow hpop
    rw [hw] at hpipe
    exact ⟨l', hl', hpipe⟩
  · rw [← hbooks]
    exact hi

/-- What is pending was accepted. -/
theorem Inv.mem_accepted (h : x.Inv q pending lost) {e : Entry} (he : e ∈ pending) :
    e ∈ x.accepted := by
  have hacc : e ∈ part x.matcher.numShards (e.shard x.matcher.numShards) x.accepted := by
    rw [h.logs]
    exact List.mem_append_right _ (mem_part_shard _ he)
  exact (List.mem_filter.mp hacc).1

/-- The command a worker holds is the first of its shard's pending ones. -/
theorem Inv.exists_next (h : x.Inv q pending lost) {cmd : Command} {draining : Bool}
    (hw : x.workers k = .hold cmd draining) :
    ∃ e l₁ l₂, pending = l₁ ++ e :: l₂ ∧ part x.matcher.numShards k l₁ = []
      ∧ e.shard x.matcher.numShards = k ∧ e.command = cmd ∧ cmd.entry x.matcher.pool = e := by
  obtain ⟨l, -, hpipe⟩ := h.pipe k
  rw [hw] at hpipe
  change cmd :: l = _ at hpipe
  obtain ⟨e, rest, hpart, hcmd, -⟩ := List.map_eq_cons_iff.mp hpipe.symm
  obtain ⟨l₁, l₂, rfl, hl₁, he, -⟩ := List.filter_eq_cons_iff.mp hpart
  refine ⟨e, l₁, l₂, rfl, List.filter_eq_nil_iff.mpr hl₁, by simpa using he, hcmd, ?_⟩
  -- the order is still as the producer left it
  cases e with
  | submit a o =>
    rw [← hcmd]
    exact congrArg (Entry.submit a) (h.data a o (by simp))
  | cancel i id =>
    rw [← hcmd]
    rfl

/-- **A command is executed** and no longer pending: what remains is to know what the engine has
done to the book of its instrument. -/
theorem Inv.executed {l₁ l₂ : List Entry} {e : Entry} (h : x.Inv q (l₁ ++ e :: l₂) lost)
    {cmd : Command} {draining : Bool} (hw : x.workers k = .hold cmd draining)
    (hl₁ : part x.matcher.numShards k l₁ = []) (hk : e.shard x.matcher.numShards = k)
    {engine : Engine} {pool : Pool} {b : QueueBook} {lost' : List Slot}
    (ht : Engine.Touches e.instrument (x.matcher.shards k).engine engine)
    (hc : Custody pool
      (Function.update x.matcher.books e.instrument (engine.matchers.lookup e.instrument))
      (Function.update q e.instrument b) (x.held ++ (l₁ ++ l₂).filterMap Entry.slot ++ lost'))
    (hinst : b.instrument = e.instrument)
    (hst : ∀ c ∈ (l₁ ++ l₂).filterMap Entry.slot, pool.storage c = x.matcher.pool.storage c)
    (hp : x.matcher.books e.instrument ≠ none →
      Performs e.instrument (about e.instrument (x.executed.map (·.2)) ++ [e]) b) :
    ({ x.withWorker k (.count draining) with
        matcher := { x.matcher.setShard k { x.matcher.shards k with engine } with pool }
        executed := x.executed ++ [(k, e)] } : Sharding).Inv
      (Function.update q e.instrument b) (l₁ ++ l₂) lost' := by
  have hbooks : ({ x.matcher.setShard k { x.matcher.shards k with engine } with pool } :
      ShardedMatcher).books
        = Function.update x.matcher.books e.instrument (engine.matchers.lookup e.instrument) := by
    subst hk
    exact x.matcher.books_setShard ht
  have hcut := part_cut hl₁ hk l₂
  refine ⟨?_, ?_, fun a o ha => ?_, fun j => ?_, fun j => ?_, fun p hp => ?_,
    fun i hi => ?_, h.fresh⟩
  · change Custody pool (ShardedMatcher.books _) _ _
    rw [hbooks]
    exact hc
  · exact (Function.forall_update_iff q fun j b => b.instrument = j).mpr
      ⟨hinst, fun j _ => h.instrument j⟩
  · have hmem : Entry.submit a o ∈ l₁ ++ e :: l₂ := by
      rcases List.mem_append.mp ha with ha | ha
      · exact List.mem_append_left _ ha
      · exact List.mem_append_right _ (List.mem_cons_of_mem _ ha)
    exact (Store.data_congr (hst a (List.mem_filterMap.mpr ⟨_, ha, rfl⟩))).trans (h.data a o hmem)
  · refine h.pipe_update (fun l hl hpipe => ?_) (fun j hj => ?_) j
    · rw [hw, hcut, if_pos rfl] at hpipe
      exact ⟨l, hl, (List.cons.inj hpipe).2⟩
    · rw [hcut, if_neg hj, List.nil_append]
  · change part x.matcher.numShards j x.accepted
      = part x.matcher.numShards j ((x.executed ++ [(k, e)]).map (·.2))
        ++ part x.matcher.numShards j (l₁ ++ l₂)
    have hlog : part x.matcher.numShards j ((x.executed ++ [(k, e)]).map (·.2))
        = part x.matcher.numShards j (x.executed.map (·.2))
          ++ if e.shard x.matcher.numShards = j then [e] else [] := by
      rw [List.map_append, part_append]
      exact congrArg _ (part_singleton ..)
    rw [h.logs j, hlog, List.append_assoc]
    rw [hcut, hk]
    simp only [eq_comm]
  · rcases List.mem_append.mp hp with hp | hp
    · exact h.owner p hp
    · rw [List.mem_singleton.mp hp]
      exact hk.symm
  · change ShardedMatcher.books _ i ≠ none at hi
    change Performs i (about i ((x.executed ++ [(k, e)]).map (·.2))) _
    rw [hbooks] at hi
    rw [List.map_append, about_append]
    change Performs i (about i (x.executed.map (·.2)) ++ about i [e]) _
    rw [about_singleton]
    by_cases hie : i = e.instrument
    · subst hie
      rw [Function.update_self] at hi ⊢
      rw [if_pos rfl]
      refine hp fun hnone => hi ?_
      have hsome := ht.isSome e.instrument
      have hnone' : (x.matcher.shards k).engine.matchers.lookup e.instrument = none := by
        subst hk
        exact hnone
      rw [hnone'] at hsome
      simpa using hsome
    · rw [Function.update_of_ne hie] at hi ⊢
      rw [if_neg fun h => hie h.symm, List.append_nil]
      exact h.performs i hi

/-- The slots in hand and on their way, and those nobody has. -/
abbrev out (x : Sharding) (pending : List Entry) (lost : List Slot) : List Slot :=
  x.held ++ pending.filterMap Entry.slot ++ lost

/-- The state after a worker has executed the command in its hands. -/
abbrev afterExecute (x : Sharding) (k : ℕ) (cmd : Command) (draining : Bool) : Sharding :=
  { x.withWorker k (.count draining) with
    matcher := x.matcher.execute k cmd
    executed := x.executed ++ [(k, cmd.entry x.matcher.pool)] }

/-- What an execution does to the pending commands, and to the slots. -/
structure Executes (x : Sharding) (k : ℕ) (q : InstrumentId → QueueBook) (pending : List Entry)
    (lost : List Slot) (x' : Sharding) (q' : InstrumentId → QueueBook) (pending' : List Entry)
    (lost' : List Slot) : Prop where
  /-- One command less is pending with this shard. -/
  parts : ∃ e, ∀ j, part x.matcher.numShards j pending
    = (if j = k then [e] else []) ++ part x.matcher.numShards j pending'
  /-- No slot is lost otherwise. -/
  retains : Retains x.matcher.pool q (x.out pending lost) x'.matcher.pool q'
    (x'.out pending' lost')
  /-- A slot gets lost only with an order that neither rests nor has ended. -/
  lost : lost' = lost ∨ ∃ a, .submit a (x.order a) ∈ pending
    ∧ x.matcher.shardFor (x.order a).instrument = k ∧ (x.workers k).held
      = [(Entry.submit a (x.order a)).command]
    ∧ (submitOutcome (x.matcher.shards k).engine q a (x.order a)).order.leaks = true

/-- **A worker executes the command in its hands.** -/
theorem Inv.execute (h : x.Inv q pending lost) {cmd : Command} {draining : Bool}
    (hw : x.workers k = .hold cmd draining) :
    ∃ q' pending' lost', (x.afterExecute k cmd draining).Inv q' pending' lost'
      ∧ x.Executes k q pending lost (x.afterExecute k cmd draining) q' pending' lost' := by
  obtain ⟨e, l₁, l₂, rfl, hl₁, hk, rfl, hentry⟩ := h.exists_next hw
  have hparts : ∃ e, ∀ j, part x.matcher.numShards j (l₁ ++ _ :: l₂)
      = (if j = k then [e] else []) ++ part x.matcher.numShards j (l₁ ++ l₂) :=
    ⟨e, part_cut hl₁ hk l₂⟩
  unfold afterExecute
  rw [hentry]
  cases e with
  | cancel i id =>
    have he : (x.matcher.shards k).engine.matchers.lookup i = x.matcher.books i := by
      subst hk
      rfl
    obtain ⟨hc, -, hst, hown⟩ := h.custody.engineCancel he id
    have hslots : (l₁ ++ Entry.cancel i id :: l₂).filterMap Entry.slot
        = (l₁ ++ l₂).filterMap Entry.slot := by
      rw [List.filterMap_append, List.filterMap_append]
      rfl
    rw [hslots] at hc hst hown
    have hinv := h.executed hw hl₁ hk (Engine.touches_cancel _ x.matcher.pool i id) hc
      (((q i).instrument_cancel id).trans (h.instrument i))
      (fun c hcm => hst c (List.mem_append_left _ (List.mem_append_right _ hcm)))
      fun hb => (h.performs i hb).cancel
    refine ⟨_, _, _, hinv, hparts, ?_, .inl rfl⟩
    rw [out, hslots]
    exact hown
  | submit a o =>
    have hdata := h.data a o (by simp)
    have he : (x.matcher.shards k).engine.matchers.lookup o.instrument
        = x.matcher.books o.instrument := by
      subst hk
      rfl
    have hsound := OrderData.sound_of_fresh (h.fresh a o (h.mem_accepted (by simp)))
    -- the slot of the command, and the others in hand
    have hperm : (x.out (l₁ ++ Entry.submit a o :: l₂) lost).Perm (a :: x.out (l₁ ++ l₂) lost) := by
      rw [← Multiset.coe_eq_coe]
      simp only [List.filterMap_append, List.filterMap_cons, Entry.slot, ← Multiset.coe_add,
        ← Multiset.cons_coe, ← Multiset.singleton_add]
      abel
    have ha : a ∈ x.out (l₁ ++ Entry.submit a o :: l₂) lost :=
      hperm.mem_iff.mpr (List.mem_cons_self ..)
    have hnd : (a :: x.out (l₁ ++ l₂) lost).Nodup :=
      hperm.nodup_iff.mp (h.custody.nodup 0).of_append_left.of_append_right
    obtain ⟨hc, -, -, hst, hown⟩ := h.custody.settle he ha hdata hsound
    have hkept : (if (submitOutcome (x.matcher.shards k).engine q a o).order.leaks
          then x.out (l₁ ++ Entry.submit a o :: l₂) lost
          else (x.out (l₁ ++ Entry.submit a o :: l₂) lost).erase a).Perm
        (x.out (l₁ ++ l₂) (if (submitOutcome (x.matcher.shards k).engine q a o).order.leaks
          then a :: lost else lost)) := by
      split_ifs
      · exact hperm.trans (List.perm_middle.symm)
      · have herase := hperm.erase a
        rwa [List.erase_cons_head] at herase
    have hinv := h.executed hw hl₁ hk (hdata ▸ Engine.touches_submit _ x.matcher.pool a)
      (hc.mono hkept.symm.subperm)
      ((instrument_submitOutcome _ q a o).trans (h.instrument o.instrument))
      (fun c hcm => ?_) fun hb => ?_
    · refine ⟨_, _, _, hinv, hparts, ?_, ?_⟩
      · exact hown.repool_right rfl (hkept.append_left _).subset
      · by_cases hl : (submitOutcome (x.matcher.shards k).engine q a o).order.leaks = true
        · refine .inr ⟨a, ?_, ?_, ?_, ?_⟩
          · rw [hdata]
            simp
          · rw [hdata]
            exact hk
          · rw [hw, hdata]
            rfl
          · rw [hdata]
            exact hl
        · exact .inl (if_neg hl)
    · have hmem : c ∈ x.out (l₁ ++ l₂) lost :=
        List.mem_append_left _ (List.mem_append_right _ hcm)
      refine hst c (hperm.mem_iff.mpr (List.mem_cons_of_mem _ hmem)) ?_
      rintro rfl
      exact (List.nodup_cons.mp hnd).1 hmem
    · rw [submitOutcome_of_ne_none (he ▸ hb)]
      exact (h.performs _ hb).submit (h.custody.wf _) (h.custody.notMem_slots_of_held ha)

end Sharding

end Ordbk

import Ordbk.Refinement.Sweeper

/-!
# Theorems/Pending — a sweeper sweeps what is pending

`register_instrument` writes both indexes without looking: the hash map keeps the old date of an id,
the multimap gets a second entry.  As long as every id registered is one that is not pending, the
indexes agree, and a withdrawn instrument never expires (`tracks_of_reach`); an id registered while
it is pending is in the multimap twice, and one `unregister` does not withdraw it
(`not_tracks_of_twice`).
-/

namespace Ordbk

namespace Sweeper

variable {ω : Type}

/-- The call registers the id. -/
def Call.Registers (id : InstrumentId) : Call → Prop
  | .registerInstrument id' _ => id' = id
  | _ => False

/-- **What a sweeper is for**, when the later calls meet `ok`. -/
structure Tracks (ok : Sweeper ω × ω → Call → Prop) (x : Sweeper ω × ω) : Prop where
  /-- The two indexes say the same. -/
  agree : x.1.Agree
  /-- `size` counts what is pending. -/
  size : x.1.size = x.1.byExpiry.entries.length
  /-- A sweep takes all that is due, each once, -/
  sweeps : ∀ today, (x.1.sweep x.2 today).2.2.Nodup ∧ ∀ id, id ∈ (x.1.sweep x.2 today).2.2
    ↔ ∃ expiry, x.1.idToExpiry.lookup id = some expiry ∧ expiry ≤ today
  /-- and calls the callback for each, in that order. -/
  fires : ∀ today cb, x.1.callback = some cb →
    (x.1.sweep x.2 today).2.1 = (x.1.sweep x.2 today).2.2.foldl cb x.2
  /-- Until it is registered again. -/
  withdrawn : ∀ id y, Guarded.Reach step (fun y c => ok y c ∧ ¬ c.Registers id)
    (x.1.unregister id, x.2) y → ∀ today, id ∉ (y.1.sweep y.2 today).2.2

/-- An id is registered only if it is not pending. -/
def Unpending (x : Sweeper ω × ω) : Call → Prop
  | .registerInstrument id _ => x.1.idToExpiry.lookup id = none
  | _ => True

instance (x : Sweeper ω × ω) (c : Call) : Decidable (Unpending x c) := by
  cases c <;> unfold Unpending <;> infer_instance

/-- What one call keeps. -/
theorem Agree.step {x x' : Sweeper ω × ω} {c : Call} (h : x.1.Agree) (hok : Unpending x c)
    (hstep : Sweeper.step x c = some x') : x'.1.Agree := by
  cases c with
  | registerInstrument id expiry =>
    obtain rfl := Option.some.inj hstep
    exact h.registerInstrument hok expiry
  | unregister id =>
    obtain rfl := Option.some.inj hstep
    exact h.unregister id
  | sweep today =>
    obtain rfl := Option.some.inj hstep
    exact h.sweep x.2 today

theorem lookup_unregister (s : Sweeper ω) (id : InstrumentId) :
    (s.unregister id).idToExpiry.lookup id = none := by
  unfold unregister
  cases hid : s.idToExpiry.lookup id with
  | none => exact hid
  | some expiry => exact Finmap.lookup_erase _ _

theorem lookup_unregister_of_none {s : Sweeper ω} {id : InstrumentId}
    (hid : s.idToExpiry.lookup id = none)
    (id' : InstrumentId) : (s.unregister id').idToExpiry.lookup id = none := by
  unfold unregister
  cases s.idToExpiry.lookup id' with
  | none => exact hid
  | some expiry =>
    by_cases hne : id = id'
    · exact hne ▸ Finmap.lookup_erase _ _
    · exact (Finmap.lookup_erase_ne hne).trans hid

/-- An id that is not pending stays so until it is registered. -/
theorem lookup_step {x x' : Sweeper ω × ω} {c : Call} {id : InstrumentId}
    (hid : x.1.idToExpiry.lookup id = none) (hc : ¬ c.Registers id)
    (hstep : Sweeper.step x c = some x') : x'.1.idToExpiry.lookup id = none := by
  cases c with
  | registerInstrument id' expiry =>
    obtain rfl := Option.some.inj hstep
    refine (lookup_emplace x.1.idToExpiry id' expiry id).trans ?_
    rw [if_neg fun h => hc h.1.symm, hid]
  | unregister id' =>
    obtain rfl := Option.some.inj hstep
    exact lookup_unregister_of_none hid id'
  | sweep today =>
    obtain rfl := Option.some.inj hstep
    change (x.1.sweep x.2 today).1.idToExpiry.lookup id = none
    rw [idToExpiry_sweep, lookup_eraseAll, hid, ite_self]

/-- **A withdrawn instrument does not expire.** -/
theorem Agree.withdrawn {x y : Sweeper ω × ω} {id : InstrumentId} (h : x.1.Agree)
    (hreach : Guarded.Reach Sweeper.step (fun y c => Unpending y c ∧ ¬ c.Registers id)
      (x.1.unregister id, x.2) y) (today : ExpiryDate) : id ∉ (y.1.sweep y.2 today).2.2 := by
  obtain ⟨hagree, hid⟩ := hreach.invariant
    (I := fun y => y.1.Agree ∧ y.1.idToExpiry.lookup id = none)
    ⟨h.unregister id, lookup_unregister x.1 id⟩
    fun _ _ _ hI hok hs => ⟨hI.1.step hok.1 hs, lookup_step hI.2 hok.2 hs⟩
  rw [hagree.mem_expired]
  rintro ⟨expiry, he, -⟩
  rw [hid] at he
  cases he

/-- **A sweeper keeps track of what is pending**, if no id is registered while it is; and it is this
that has to be asked. -/
theorem tracks_of_reach {cb : Option (ω → InstrumentId → ω)} {outside : ω} {x : Sweeper ω × ω}
    (h : Guarded.Reach step Unpending ({ callback := cb }, outside) x) :
    Tracks Unpending x ∧ ∀ id expiry,
      (x.1.registerInstrument id expiry).Agree ↔ x.1.idToExpiry.lookup id = none := by
  have hagree : x.1.Agree := h.invariant (I := fun x => x.1.Agree) (agree_new cb)
    fun _ _ _ hI hok hs => hI.step hok hs
  refine ⟨⟨hagree, hagree.size_eq, fun today => ⟨hagree.nodup_expired x.2 today,
    hagree.mem_expired x.2 today⟩, fun today cb hcb => ?_,
      fun id y hy today => hagree.withdrawn hy today⟩,
    hagree.registerInstrument_iff⟩
  rw [outside_sweep, hcb]

/-- A callback that notes the ids. -/
def note (seen : List InstrumentId) (id : InstrumentId) : List InstrumentId := seen ++ [id]

/-- An id is registered again after it was withdrawn, and after it has expired. -/
theorem tracks_of_again : ∃ x : Sweeper (List InstrumentId) × List InstrumentId,
    Guarded.Reach step Unpending ({ callback := some note }, []) x
      ∧ x.2 = [2, 1] ∧ x.1.size = 1 ∧ Tracks Unpending x ∧ ∀ id expiry,
        (x.1.registerInstrument id expiry).Agree ↔ x.1.idToExpiry.lookup id = none := by
  have hrun : (Guarded.run step Unpending ({ callback := some note }, [])
      [.registerInstrument 1 ⟨2026, 1, 17⟩, .registerInstrument 2 ⟨2026, 1, 17⟩, .unregister 1,
        .registerInstrument 1 ⟨2026, 2, 20⟩, .sweep ⟨2026, 1, 17⟩, .sweep ⟨2026, 3, 20⟩,
        .registerInstrument 1 ⟨2026, 3, 20⟩]).map
      (fun x => decide (x.2 = [2, 1] ∧ x.1.size = 1)) = some true := by decide +kernel
  obtain ⟨x, hx, hseen⟩ := Option.map_eq_some_iff.mp hrun
  have hreach := Guarded.Reach.of_run hx
  exact ⟨x, hreach, (of_decide_eq_true hseen).1, (of_decide_eq_true hseen).2,
    tracks_of_reach hreach⟩

/-- **Registered twice, withdrawn once**: it expires on the second date. -/
theorem not_tracks_of_twice : ∃ x : Sweeper (List InstrumentId) × List InstrumentId,
    Guarded.Reach step (fun _ _ => True) ({ callback := some note }, []) x
      ∧ ¬ Tracks (fun _ _ => True) x := by
  have hrun : (Guarded.run step (fun _ _ => True) ({ callback := some note }, [])
      [.registerInstrument 1 ⟨2026, 1, 17⟩, .registerInstrument 1 ⟨2026, 2, 20⟩]).map
      (fun x : Sweeper (List InstrumentId) × List InstrumentId =>
        decide (1 ∈ ((x.1.unregister 1).sweep x.2 ⟨2026, 2, 20⟩).2.2))
          = some true := by decide +kernel
  obtain ⟨x, hx, hmem⟩ := Option.map_eq_some_iff.mp hrun
  exact ⟨x, .of_run hx, fun h => h.withdrawn 1 _ .init _ (of_decide_eq_true hmem)⟩

end Sweeper

end Ordbk

import Ordbk.Matching.Sweeper
import Ordbk.Abstract.QueueBook
import Ordbk.Lib.Reach

/-!
# Refinement/Sweeper — what a sweep takes

The loop of `sweep` takes the due entries off the front of the multimap (`collect_eq`).  The two
indexes agree (`Agree`) for as long as no id is registered twice.
-/

namespace Ordbk

namespace Sweeper

variable {ω : Type} {s : Sweeper ω}

/-! ## The loop

It goes through the multimap from the earliest date, erases from both indexes, and fires the
callback at the end. -/

/-- The entries a sweep takes. -/
def dueEntries (today : ExpiryDate) (entries : List (ExpiryDate × InstrumentId)) :
    List (ExpiryDate × InstrumentId) := entries.takeWhile fun x => due today x.1

theorem collect_eq (today : ExpiryDate) (entries : List (ExpiryDate × InstrumentId))
    (index : Finmap fun _ : InstrumentId => ExpiryDate) (expired : List InstrumentId) :
    collect today entries index expired
      = (entries.dropWhile fun x => due today x.1,
        ((dueEntries today entries).map Prod.snd).foldl (fun m id => m.erase id) index,
        expired ++ (dueEntries today entries).map Prod.snd) := by
  induction entries generalizing index expired with
  | nil => simp [collect, dueEntries]
  | cons x entries ih =>
    rw [collect, dueEntries]
    split_ifs with hdue
    · rw [ih, List.takeWhile_cons_of_pos (by exact hdue),
        List.dropWhile_cons_of_pos (by exact hdue), List.append_assoc]
      rfl
    · rw [List.takeWhile_cons_of_neg (by exact hdue), List.dropWhile_cons_of_neg (by exact hdue),
        List.map_nil, List.foldl_nil, List.append_nil]

section Sweep

variable (s : Sweeper ω) (outside : ω) (today : ExpiryDate)

theorem expired_sweep :
    (s.sweep outside today).2.2 = (dueEntries today s.byExpiry.entries).map Prod.snd :=
  congrArg (fun r => r.2.2) (collect_eq today s.byExpiry.entries s.idToExpiry [])

theorem byExpiry_sweep : (s.sweep outside today).1.byExpiry = s.byExpiry.dropFront (due today) :=
  Multimap.ext' (congrArg Prod.fst (collect_eq today s.byExpiry.entries s.idToExpiry []))

theorem idToExpiry_sweep : (s.sweep outside today).1.idToExpiry
    = (s.sweep outside today).2.2.foldl (fun m id => m.erase id) s.idToExpiry := by
  rw [expired_sweep]
  exact congrArg (fun r => r.2.1) (collect_eq today s.byExpiry.entries s.idToExpiry [])

theorem callback_sweep : (s.sweep outside today).1.callback = s.callback := rfl

/-- **The callback** is fired for what is returned, in that order. -/
theorem outside_sweep : (s.sweep outside today).2.1 = match s.callback with
    | none => outside
    | some cb => (s.sweep outside today).2.2.foldl cb outside := rfl

end Sweep

theorem due_iff {today expiry : ExpiryDate} : due today expiry = true ↔ expiry ≤ today := by
  rw [due, Bool.not_eq_true', decide_eq_false_iff_not, not_lt]

/-- What expires before something due is due. -/
theorem due_mono (today : ExpiryDate) (a b : ExpiryDate) (hab : ¬ b < a) (hb : due today b = true) :
    due today a = true :=
  due_iff.mpr ((not_lt.mp hab).trans (due_iff.mp hb))

theorem mem_dueEntries {today : ExpiryDate} {x : ExpiryDate × InstrumentId} :
    x ∈ dueEntries today s.byExpiry.entries ↔ x ∈ s.byExpiry.entries ∧ x.1 ≤ today := by
  rw [dueEntries, s.byExpiry.takeWhile_eq_filter (due_mono today), List.mem_filter, due_iff]

/-! ## The two indexes

The multimap is for the dates and the map for the ids. An id registered again is put into the first
and not into the second; from then on they disagree. -/

/-- **The indexes describe the same pairs**, each id at most once. -/
structure Agree (s : Sweeper ω) : Prop where
  /-- What the one has, the other has, -/
  pairs : ∀ id expiry, (expiry, id) ∈ s.byExpiry.entries ↔ s.idToExpiry.lookup id = some expiry
  /-- and no id is in the multimap twice. -/
  once : (s.byExpiry.entries.map Prod.snd).Nodup

theorem agree_new (cb : Option (ω → InstrumentId → ω)) : Agree { callback := cb } :=
  ⟨fun _ _ => by simp, List.nodup_nil⟩

theorem perm_registerInstrument (s : Sweeper ω) (id : InstrumentId) (expiry : ExpiryDate) :
    (s.registerInstrument id expiry).byExpiry.entries.Perm ((expiry, id) :: s.byExpiry.entries) :=
  Priority.enqueue_perm _ _

namespace Agree

/-- The size is the number of pending instruments. -/
theorem size_eq (h : s.Agree) : s.size = s.byExpiry.entries.length := by
  have hkeys : s.idToExpiry.keys = (s.byExpiry.entries.map Prod.snd).toFinset := by
    ext id
    rw [Finmap.mem_keys, ← Finmap.lookup_isSome, Option.isSome_iff_exists, List.mem_toFinset]
    simp [h.pairs]
  rw [size, hkeys, List.toFinset_card_of_nodup h.once, List.length_map]

theorem mem_iff (h : s.Agree) (id : InstrumentId) :
    id ∈ s.byExpiry.entries.map Prod.snd ↔ (s.idToExpiry.lookup id).isSome := by
  simp [Option.isSome_iff_exists, h.pairs]

theorem registerInstrument (h : s.Agree) {id : InstrumentId} (hid : s.idToExpiry.lookup id = none)
    (expiry : ExpiryDate) : (s.registerInstrument id expiry).Agree := by
  have hperm := s.perm_registerInstrument id expiry
  refine ⟨fun id' expiry' => ?_, (hperm.map Prod.snd).nodup_iff.mpr
    (List.nodup_cons.mpr ⟨?_, h.once⟩)⟩
  · refine (hperm.mem_iff.trans List.mem_cons).trans ?_
    change _ ↔ (emplace s.idToExpiry id expiry).lookup id' = some expiry'
    rw [lookup_emplace, h.pairs, Prod.mk.injEq]
    by_cases hid' : id' = id
    · subst hid'
      simp [hid, eq_comm]
    · simp [hid']
  · rw [h.mem_iff, hid]
    exact nofun

/-- **Registering keeps the indexes in agreement exactly for an id that is not pending.** -/
theorem registerInstrument_iff (h : s.Agree) (id : InstrumentId) (expiry : ExpiryDate) :
    (s.registerInstrument id expiry).Agree ↔ s.idToExpiry.lookup id = none := by
  refine ⟨fun h' => ?_, fun hid => h.registerInstrument hid expiry⟩
  have hperm := s.perm_registerInstrument id expiry
  have hnot := (List.nodup_cons.mp ((hperm.map Prod.snd).nodup_iff.mp h'.once)).1
  rwa [h.mem_iff, Option.not_isSome_iff_eq_none] at hnot

theorem unregister (h : s.Agree) (id : InstrumentId) : (s.unregister id).Agree := by
  unfold Sweeper.unregister
  cases hid : s.idToExpiry.lookup id with
  | none => exact h
  | some expiry =>
    have hnd : s.byExpiry.entries.Nodup := h.once.of_map _
    refine ⟨fun id' expiry' => ?_, h.once.sublist (List.erase_sublist.map Prod.snd)⟩
    refine (hnd.mem_erase_iff).trans ?_
    rw [h.pairs]
    change _ ↔ (s.idToExpiry.erase id).lookup id' = some expiry'
    by_cases hid' : id' = id
    · subst hid'
      rw [Finmap.lookup_erase, hid]
      refine iff_of_false (fun ⟨hne, heq⟩ => hne ?_) nofun
      rw [Option.some.inj heq]
    · rw [Finmap.lookup_erase_ne hid', and_iff_right]
      exact fun heq => hid' (congrArg Prod.snd heq)

/-- **A sweep returns what is pending and due.** -/
theorem mem_expired (h : s.Agree) (outside : ω) (today : ExpiryDate) (id : InstrumentId) :
    id ∈ (s.sweep outside today).2.2 ↔ ∃ e, s.idToExpiry.lookup id = some e ∧ e ≤ today := by
  simp only [expired_sweep, List.mem_map, mem_dueEntries, Prod.exists, exists_eq_right, h.pairs]

/-- Nothing is returned twice. -/
theorem nodup_expired (h : s.Agree) (outside : ω) (today : ExpiryDate) :
    (s.sweep outside today).2.2.Nodup := by
  rw [expired_sweep]
  exact h.once.sublist ((List.takeWhile_sublist _).map Prod.snd)

/-- The index after a sweep. -/
theorem lookup_sweep (h : s.Agree) (outside : ω) (today : ExpiryDate) (id : InstrumentId)
    (expiry : ExpiryDate) : (s.sweep outside today).1.idToExpiry.lookup id = some expiry
      ↔ s.idToExpiry.lookup id = some expiry ∧ today < expiry := by
  rw [idToExpiry_sweep, lookup_eraseAll]
  split_ifs with hdue
  · obtain ⟨e, he, hle⟩ := (h.mem_expired outside today id).mp hdue
    refine iff_of_false nofun fun ⟨he', hlt⟩ => ?_
    obtain rfl := Option.some.inj (he.symm.trans he')
    exact absurd hle (not_le.mpr hlt)
  · refine (and_iff_left_of_imp fun he => ?_).symm
    exact not_le.mp fun hle => hdue ((h.mem_expired outside today id).mpr ⟨expiry, he, hle⟩)

theorem sweep (h : s.Agree) (outside : ω) (today : ExpiryDate) :
    (s.sweep outside today).1.Agree := by
  have hentries : (s.sweep outside today).1.byExpiry.entries
      = s.byExpiry.entries.filter fun x => !due today x.1 := by
    rw [byExpiry_sweep, Multimap.entries_dropFront (due_mono today)]
  refine ⟨fun id expiry => ?_, ?_⟩
  · rw [hentries, List.mem_filter, h.pairs, h.lookup_sweep]
    refine and_congr_right fun _ => ?_
    rw [Bool.not_eq_true', ← Bool.not_eq_true, due_iff, not_le]
  · rw [hentries]
    exact h.once.sublist (List.filter_sublist.map Prod.snd)

end Agree

end Sweeper

end Ordbk

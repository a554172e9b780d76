import Mathlib.Data.List.Induction
import Mathlib.Data.List.Nodup
import Mathlib.Logic.Function.Basic

/-!
# Lib/Dll — an intrusive doubly linked list is a sequence

The cells of an intrusive list carry their own links, so a list is a pair of link functions
`prev next : α → Option α` plus its two ends.  `Linked prev next head tail xs` says that the list
so described *is* the sequence `xs`.  The two surgeries are then sequence operations:

* `Linked.pushBack` — append a cell that is in no list;
* `Linked.erase` — cut a cell out, wherever it stands.

The engine is `Seg`, a stretch of cells entered from one neighbour and left towards another:
`seg_append` splits it anywhere, and the surgeries rewrite only the two links at the split.
-/

namespace Dll

variable {α : Type*} {prev next prev' next' : α → Option α} {p n m : Option α} {xs ys : List α}

/-- The cells `xs`, linked in this order, entered from `p` and left towards `n`. -/
def Seg (prev next : α → Option α) : Option α → List α → Option α → Prop
  | _, [], _ => True
  | p, a :: xs, n => prev a = p ∧ next a = xs.head?.or n ∧ Seg prev next (some a) xs n

@[simp] theorem seg_nil : Seg prev next p [] n := trivial

theorem seg_cons {a : α} :
    Seg prev next p (a :: xs) n
      ↔ prev a = p ∧ next a = xs.head?.or n ∧ Seg prev next (some a) xs n := Iff.rfl

/-- **A stretch splits anywhere** — each half is entered and left through its neighbour in the
other. -/
theorem seg_append :
    Seg prev next p (xs ++ ys) n
      ↔ Seg prev next p xs (ys.head?.or n) ∧ Seg prev next (xs.getLast?.or p) ys n := by
  induction xs generalizing p with
  | nil => simp
  | cons a xs ih =>
    have hlast : (a :: xs).getLast?.or p = xs.getLast?.or (some a) := by
      rw [List.getLast?_cons]
      cases xs.getLast? <;> rfl
    rw [List.cons_append, seg_cons, seg_cons, ih, hlast, List.head?_append, Option.or_assoc]
    tauto

/-- A stretch depends only on the links of its own cells. -/
theorem Seg.congr (h : Seg prev next p xs n) (hp : ∀ a ∈ xs, prev' a = prev a)
    (hn : ∀ a ∈ xs, next' a = next a) : Seg prev' next' p xs n := by
  induction xs generalizing p with
  | nil => trivial
  | cons a xs ih =>
    obtain ⟨h1, h2, h3⟩ := h
    exact ⟨(hp a (by simp)).trans h1, (hn a (by simp)).trans h2,
      ih h3 (fun b hb => hp b (by simp [hb])) fun b hb => hn b (by simp [hb])⟩

variable [DecidableEq α]

/-- A write through a nullable pointer: nothing happens at null. -/
def setAt (f : α → Option α) : Option α → Option α → α → Option α
  | none, _ => f
  | some a, v => Function.update f a v

@[simp] theorem setAt_none (f : α → Option α) (v : Option α) : setAt f none v = f := rfl

@[simp] theorem setAt_some (f : α → Option α) (a : α) (v : Option α) :
    setAt f (some a) v = Function.update f a v := rfl

theorem setAt_of_ne {f : α → Option α} {v : Option α} {a : α} (h : p ≠ some a) :
    setAt f p v a = f a := by
  cases p with
  | none => rfl
  | some b => exact Function.update_of_ne (fun hab => h (congrArg some hab.symm)) _ _

/-- **The way out of a stretch is redirected by one write**, to its last cell. -/
theorem Seg.setNext (h : Seg prev next p xs n) (hnd : xs.Nodup) :
    Seg prev (setAt next xs.getLast? m) p xs m := by
  rcases List.eq_nil_or_concat xs with rfl | ⟨ys, z, rfl⟩
  · trivial
  rw [List.concat_eq_append] at h hnd ⊢
  obtain ⟨hys, hz⟩ := seg_append.mp h
  have hzys : z ∉ ys := fun hz' => List.disjoint_of_nodup_append hnd hz' (by simp)
  rw [List.getLast?_concat, setAt_some]
  refine seg_append.mpr ⟨Seg.congr hys (fun _ _ => rfl) fun a ha => ?_, ?_⟩
  · exact Function.update_of_ne (fun haz : a = z => hzys (haz ▸ ha)) _ _
  · exact ⟨hz.1, by simp, trivial⟩

/-- **The way into a stretch is redirected by one write**, to its first cell. -/
theorem Seg.setPrev (h : Seg prev next p xs n) (hnd : xs.Nodup) :
    Seg (setAt prev xs.head? m) next m xs n := by
  cases xs with
  | nil => trivial
  | cons a xs =>
    obtain ⟨-, h2, h3⟩ := h
    rw [List.head?_cons, setAt_some]
    refine ⟨by simp, h2, Seg.congr h3 (fun b hb => ?_) fun _ _ => rfl⟩
    exact Function.update_of_ne (fun hba : b = a => (List.nodup_cons.mp hnd).1 (hba ▸ hb)) _ _

omit [DecidableEq α] in
/-- **The list with these links and these two ends is the sequence `xs`.** -/
structure Linked (prev next : α → Option α) (head tail : Option α) (xs : List α) : Prop where
  /-- The ends are those of the sequence. -/
  head_eq : head = xs.head?
  /-- Both are null if it is empty. -/
  tail_eq : tail = xs.getLast?
  /-- The links lead from each of its elements to the next, and back. -/
  seg : Seg prev next none xs none
  /-- No element is in it twice. -/
  nodup : xs.Nodup

variable {head tail : Option α} {o : α}

omit [DecidableEq α] in
theorem Linked.nil : Linked prev next none none [] := ⟨rfl, rfl, trivial, List.nodup_nil⟩

omit [DecidableEq α] in
/-- **Separation**: writes to cells of other lists do not disturb this one. -/
theorem Linked.congr (h : Linked prev next head tail xs) (hp : ∀ a ∈ xs, prev' a = prev a)
    (hn : ∀ a ∈ xs, next' a = next a) : Linked prev' next' head tail xs :=
  ⟨h.head_eq, h.tail_eq, h.seg.congr hp hn, h.nodup⟩

omit [DecidableEq α] in
theorem Linked.head_isNone (h : Linked prev next head tail xs) : head = none ↔ xs = [] := by
  rw [h.head_eq, List.head?_eq_none_iff]

/-- **`push_back` appends.** -/
theorem Linked.pushBack (h : Linked prev next head tail xs) (ho : o ∉ xs) :
    Linked (Function.update prev o tail) (setAt (Function.update next o none) tail (some o))
      (if tail.isSome then head else some o) (some o) (xs ++ [o]) := by
  have hne : ∀ a ∈ xs, a ≠ o := fun a ha hao => ho (hao ▸ ha)
  have htl : tail ≠ some o := fun ht => ho (List.mem_of_getLast? (h.tail_eq.symm.trans ht))
  refine ⟨?_, List.getLast?_concat.symm, seg_append.mpr ⟨?_, ?_⟩, ?_⟩
  · rw [h.tail_eq, h.head_eq]
    cases xs with
    | nil => rfl
    | cons a xs => simp
  · rw [h.tail_eq]
    refine Seg.setNext (n := none) (Seg.congr h.seg ?_ ?_) h.nodup
    · exact fun a ha => Function.update_of_ne (hne a ha) _ _
    · exact fun a ha => Function.update_of_ne (hne a ha) _ _
  · refine ⟨by simp [h.tail_eq], ?_, trivial⟩
    rw [setAt_of_ne htl]
    simp
  · simpa [List.nodup_append, h.nodup] using fun a ha => hne a ha

/-- **`erase` cuts a cell out of its list**: its two neighbours are linked to each other. -/
theorem Linked.erase (h : Linked prev next head tail (xs ++ o :: ys)) :
    Linked (Function.update (setAt prev ys.head? xs.getLast?) o none)
      (Function.update (setAt next xs.getLast? ys.head?) o none)
      (if xs.getLast?.isSome then head else ys.head?)
      (if ys.head?.isSome then tail else xs.getLast?) (xs ++ ys) := by
  obtain ⟨hxs, hoys, hdis⟩ := List.nodup_append.mp h.nodup
  obtain ⟨hoy, hys⟩ := List.nodup_cons.mp hoys
  have hox : o ∉ xs := fun ho => hdis o ho o (by simp) rfl
  have hxy : ∀ a ∈ xs, a ∉ ys := fun a ha hay => hdis a ha a (by simp [hay]) rfl
  obtain ⟨hsx, -, -, hsy⟩ := seg_append.mp h.seg
  have hmem : ∀ a ∈ xs ++ ys, a ≠ o := by
    rintro a ha rfl
    exact (List.mem_append.mp ha).elim hox hoy
  have hlink : Seg (setAt prev ys.head? xs.getLast?) (setAt next xs.getLast? ys.head?)
      none (xs ++ ys) none := by
    refine seg_append.mpr ⟨?_, ?_⟩
    · rw [Option.or_none]
      refine Seg.congr (Seg.setNext (m := ys.head?) hsx hxs) (fun a ha => ?_) fun _ _ => rfl
      exact setAt_of_ne fun hh => hxy a ha (List.mem_of_mem_head? hh)
    · rw [Option.or_none]
      refine Seg.congr (Seg.setPrev (m := xs.getLast?) hsy hys) (fun _ _ => rfl) fun a ha => ?_
      exact setAt_of_ne fun hh => hxy a (List.mem_of_getLast? hh) ha
  refine ⟨?_, ?_, Seg.congr hlink ?_ ?_, ?_⟩
  · rw [h.head_eq]
    cases xs with
    | nil => simp
    | cons a xs => simp
  · rw [h.tail_eq]
    cases ys with
    | nil => simp
    | cons a ys => simp [List.getLast?_append]
  · exact fun a ha => Function.update_of_ne (hmem a ha) _ _
  · exact fun a ha => Function.update_of_ne (hmem a ha) _ _
  · exact List.nodup_append.mpr ⟨hxs, hys, fun a ha b hb hab => hxy a ha (hab ▸ hb)⟩

omit [DecidableEq α] in
/-- The links a cell carries: its neighbours in the sequence. -/
theorem Linked.links_eq (h : Linked prev next head tail (xs ++ o :: ys)) :
    prev o = xs.getLast? ∧ next o = ys.head? := by
  obtain ⟨-, h1, h2, -⟩ := seg_append.mp h.seg
  exact ⟨by simpa using h1, by simpa using h2⟩

/-! ## The links, cell by cell

The same condition without a walk: what each cell says of its two neighbours. It is what a reader of
the structure expects, and it excludes cycles and repetitions by itself. -/

omit [DecidableEq α] in
/-- Links that name the neighbours tell where a cell is. -/
theorem length_eq_of_links
    (hprev : ∀ ys a zs, xs = ys ++ a :: zs → prev a = ys.getLast?) (ys : List α) :
    ∀ {a : α} {zs ys' zs' : List α}, xs = ys ++ a :: zs → xs = ys' ++ a :: zs' →
      ys.length = ys'.length := by
  induction ys using List.reverseRecOn with
  | nil =>
    intro a zs ys' zs' h h'
    have heq : none = ys'.getLast? := (hprev [] a zs h).symm.trans (hprev ys' a zs' h')
    rw [List.getLast?_eq_none_iff.mp heq.symm]
  | append_singleton ys b ih =>
    intro a zs ys' zs' h h'
    have heq : some b = ys'.getLast? := by
      rw [← hprev ys' a zs' h', hprev _ a zs h, List.getLast?_concat]
    obtain ⟨ys'', rfl⟩ := List.getLast?_eq_some_iff.mp heq.symm
    rw [List.append_assoc] at h h'
    rw [List.length_append, List.length_append, ih h h']

omit [DecidableEq α] in
/-- **A list is linked** when its ends are those of the sequence and each cell names its neighbours:
that no cell comes twice need not be asked. -/
theorem linked_iff : Linked prev next head tail xs ↔ head = xs.head? ∧ tail = xs.getLast?
    ∧ ∀ ys a zs, xs = ys ++ a :: zs → prev a = ys.getLast? ∧ next a = zs.head? := by
  constructor
  · rintro h
    refine ⟨h.head_eq, h.tail_eq, ?_⟩
    rintro ys a zs rfl
    exact h.links_eq
  · rintro ⟨hhead, htail, hlinks⟩
    have hseg : ∀ ys zs, xs = ys ++ zs → Seg prev next ys.getLast? zs none := by
      intro ys zs
      induction zs generalizing ys with
      | nil => exact fun _ => trivial
      | cons a zs ih =>
        intro h
        obtain ⟨hp, hn⟩ := hlinks ys a zs h
        have hrest := ih (ys ++ [a]) (by rw [h, List.append_assoc]; rfl)
        rw [List.getLast?_concat] at hrest
        exact ⟨hp, by rw [hn, Option.or_none], hrest⟩
    refine ⟨hhead, htail, hseg [] xs rfl, List.nodup_iff_getElem?_ne_getElem?.mpr ?_⟩
    intro i j hij hj heq
    have hi : i < xs.length := Nat.lt_trans hij hj
    rw [List.getElem?_eq_getElem hi, List.getElem?_eq_getElem hj, Option.some_inj] at heq
    have hcut : ∀ k (hk : k < xs.length),
        xs = xs.take k ++ xs[k] :: xs.drop (k + 1) := fun k hk => by
      rw [List.getElem_cons_drop, List.take_append_drop]
    have hlen := length_eq_of_links (fun ys a zs h => (hlinks ys a zs h).1) _ (hcut i hi)
      (heq ▸ hcut j hj)
    rw [List.length_take_of_le (Nat.le_of_lt hi), List.length_take_of_le (Nat.le_of_lt hj)] at hlen
    exact Nat.ne_of_lt hij hlen

/-! ## Walking a list

A loop that follows `next` from the head visits the cells in the order of the sequence, and stops
behind the last one. -/

omit [DecidableEq α] in
/-- The cells visited from `cur` along `next`, at most `fuel` of them. -/
def walk (next : α → Option α) : ℕ → Option α → List α
  | 0, _ => []
  | _ + 1, none => []
  | fuel + 1, some a => a :: walk next fuel (next a)

omit [DecidableEq α] in
theorem Seg.walk_eq (h : Seg prev next p xs none) {fuel : ℕ} (hf : xs.length < fuel) :
    walk next fuel xs.head? = xs := by
  induction xs generalizing p fuel with
  | nil =>
    obtain ⟨f, rfl⟩ : ∃ f, fuel = f + 1 := ⟨fuel - 1, by omega⟩
    rfl
  | cons a xs ih =>
    obtain ⟨f, rfl⟩ : ∃ f, fuel = f + 1 := ⟨fuel - 1, by omega⟩
    obtain ⟨-, h2, h3⟩ := h
    rw [List.head?_cons, walk, h2, Option.or_none, ih h3 (by simpa using hf)]

omit [DecidableEq α] in
/-- **Iteration from `begin()` to `end()` visits exactly the sequence** — whatever fuel beyond its
length is granted. -/
theorem Linked.walk_eq (h : Linked prev next head tail xs) {fuel : ℕ} (hf : xs.length < fuel) :
    walk next fuel head = xs := by
  rw [h.head_eq]
  exact h.seg.walk_eq hf

end Dll

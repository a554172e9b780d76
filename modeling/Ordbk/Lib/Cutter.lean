import Mathlib.Algebra.BigOperators.Group.List.Basic
import Mathlib.Algebra.GroupWithZero.Nat

/-!
# Lib/Cutter — cutting a stream into messages

A parser that is given a stream piece by piece looks at the front of what it has: it waits for more,
refuses, or takes a message off.  If it never changes its mind — what it says of a stream it says of
every longer one, unless it was still waiting — then the pieces leave no trace (`Cuts.append`), and
a stream cut short gives the messages that are whole (`Cuts.take`).
-/

/-- What a parser says of the stream in front of it. -/
inductive Verdict (μ ε : Type*)
  | wait
  | bad (err : ε)
  | took (msg : μ)

/-- **A parser that does not change its mind.**  A message takes up `size` letters. -/
structure Cutter (β μ ε : Type*) where
  /-- What it makes of the letters there are. -/
  look : List β → Verdict μ ε
  /-- How many of them a message takes up. -/
  size : μ → ℕ
  /-- No message is empty, -/
  size_pos : ∀ m, 0 < size m
  /-- nor longer than what was looked at. -/
  size_le : ∀ {xs m}, look xs = .took m → size m ≤ xs.length
  /-- More letters do not change a verdict, -/
  stable : ∀ {xs} ys, look xs ≠ .wait → look (xs ++ ys) = look xs
  /-- and those of the message itself are enough for it. -/
  suffices_size : ∀ {xs m}, look xs = .took m → look (xs.take (size m)) = .took m

namespace Cutter

variable {β μ ε : Type*} {c : Cutter β μ ε} {xs ys rest rest' : List β} {m : μ} {ms ms' : List μ}
  {err err' : Option ε} {e : ε}

/-- **Looking until there is nothing more to take**: the messages, what is left, and the refusal if
that is how it ended. -/
inductive Cuts (c : Cutter β μ ε) : List β → List μ → List β → Option ε → Prop
  | wait {xs : List β} : c.look xs = .wait → Cuts c xs [] xs none
  | bad {xs : List β} {e : ε} : c.look xs = .bad e → Cuts c xs [] xs (some e)
  | took {xs rest : List β} {m : μ} {ms : List μ} {err : Option ε} : c.look xs = .took m →
      Cuts c (xs.drop (c.size m)) ms rest err → Cuts c xs (m :: ms) rest err

/-- The letters a list of messages takes up. -/
def total (c : Cutter β μ ε) (ms : List μ) : ℕ := (ms.map c.size).sum

@[simp] theorem total_nil : c.total [] = 0 := rfl

@[simp] theorem total_cons (m : μ) (ms : List μ) : c.total (m :: ms) = c.size m + c.total ms :=
  List.sum_cons

namespace Cuts

/-- There is one way to cut a stream. -/
theorem unique (h : Cuts c xs ms rest err) (h' : Cuts c xs ms' rest' err') :
    ms = ms' ∧ rest = rest' ∧ err = err' := by
  induction h generalizing ms' with
  | wait hl =>
    cases h' with
    | wait _ => exact ⟨rfl, rfl, rfl⟩
    | bad hl' => simp [hl] at hl'
    | took hl' _ => simp [hl] at hl'
  | bad hl =>
    cases h' with
    | wait hl' => simp [hl] at hl'
    | bad hl' =>
      rw [hl, Verdict.bad.injEq] at hl'
      exact ⟨rfl, rfl, congrArg some hl'⟩
    | took hl' _ => simp [hl] at hl'
  | took hl _ ih =>
    cases h' with
    | wait hl' => simp [hl] at hl'
    | bad hl' => simp [hl] at hl'
    | took hl' h' =>
      rw [hl, Verdict.took.injEq] at hl'
      subst hl'
      obtain ⟨rfl, hrest, herr⟩ := ih h'
      exact ⟨rfl, hrest, herr⟩

/-- What is left is what the messages did not take up. -/
theorem rest_eq (h : Cuts c xs ms rest err) : rest = xs.drop (c.total ms) := by
  induction h with
  | wait _ => rfl
  | bad _ => rfl
  | took _ _ ih => rw [ih, List.drop_drop, total_cons]

theorem total_le (h : Cuts c xs ms rest err) : c.total ms ≤ xs.length := by
  induction h with
  | wait _ => exact Nat.zero_le _
  | bad _ => exact Nat.zero_le _
  | took hl _ ih =>
    have hle := c.size_le hl
    rw [List.length_drop] at ih
    rw [total_cons]
    omega

/-- Without a refusal the parser is waiting. -/
theorem look_rest (h : Cuts c xs ms rest none) : c.look rest = .wait := by
  generalize herr : (none : Option ε) = err at h
  induction h with
  | wait hl => exact hl
  | bad _ => nomatch herr
  | took _ _ ih => exact ih herr

/-- A refusal is of what is left. -/
theorem look_refused (h : Cuts c xs ms rest (some e)) : c.look rest = .bad e := by
  generalize hsome : some e = err at h
  induction h with
  | wait _ => nomatch hsome
  | bad hl => exact Option.some.inj hsome ▸ hl
  | took _ _ ih => exact ih hsome

/-- The letters past a message do not matter to it, and are still there once it is taken. -/
theorem took_append (hl : c.look xs = .took m)
    (h : Cuts c (xs.drop (c.size m) ++ ys) ms rest err) : Cuts c (xs ++ ys) (m :: ms) rest err := by
  refine .took (by rw [c.stable ys (by simp [hl]), hl]) ?_
  rwa [List.drop_append_of_le_length (c.size_le hl)]

/-- **More of the stream**: go on with what was left. -/
theorem append (h : Cuts c xs ms rest none) (h' : Cuts c (rest ++ ys) ms' rest' err) :
    Cuts c (xs ++ ys) (ms ++ ms') rest' err := by
  generalize hnone : (none : Option ε) = err₀ at h
  induction h with
  | wait _ => exact h'
  | bad _ => nomatch hnone
  | took hl _ ih => exact took_append hl (ih h' hnone)

/-- **More of a stream that was refused**: nothing comes of it. -/
theorem append_refused (h : Cuts c xs ms rest (some e)) (ys : List β) :
    Cuts c (xs ++ ys) ms (rest ++ ys) (some e) := by
  generalize hsome : some e = err at h
  induction h with
  | wait _ => nomatch hsome
  | bad hl => exact .bad (by rw [c.stable ys (by simp [hl]), hl])
  | took hl _ ih => exact took_append hl (ih hsome)

end Cuts

/-- A message that is not all there is waited for. -/
theorem look_take_of_lt {k : ℕ} (hl : c.look xs = .took m) (hk : k < c.size m) :
    c.look (xs.take k) = .wait := by
  by_contra hne
  have hstable := c.stable (xs.drop k) hne
  rw [List.take_append_drop, hl] at hstable
  have hle := c.size_le hstable.symm
  rw [List.length_take] at hle
  omega

/-- A message that is all there is taken. -/
theorem look_take_of_le {k : ℕ} (hl : c.look xs = .took m) (hk : c.size m ≤ k) :
    c.look (xs.take k) = .took m := by
  have hself := c.suffices_size hl
  have hsplit : xs.take k = xs.take (c.size m) ++ (xs.drop (c.size m)).take (k - c.size m) := by
    rw [← List.take_add, Nat.add_sub_cancel' hk]
  rw [hsplit, c.stable _ (by simp [hself]), hself]

/-- **A stream cut short** gives the messages that are whole, and no complaint. -/
theorem Cuts.take (h : Cuts c xs ms rest err) {k : ℕ} (hk : k < c.total ms) :
    ∃ j rest', Cuts c (xs.take k) (ms.take j) rest' none
      ∧ c.total (ms.take j) ≤ k ∧ k < c.total (ms.take (j + 1)) := by
  induction h generalizing k with
  | wait _ => exact absurd hk (Nat.not_lt_zero _)
  | bad _ => exact absurd hk (Nat.not_lt_zero _)
  | @took xs rest m ms err hl _ ih =>
    rw [total_cons] at hk
    by_cases hle : c.size m ≤ k
    · obtain ⟨j, rest', h', hj, hj'⟩ := ih (k := k - c.size m) (by omega)
      rw [← List.drop_take] at h'
      refine ⟨j + 1, rest', .took (look_take_of_le hl hle) h', ?_, ?_⟩
      · rw [List.take_succ_cons, total_cons]
        omega
      · rw [List.take_succ_cons, total_cons]
        omega
    · have hlt := Nat.lt_of_not_le hle
      exact ⟨0, _, .wait (look_take_of_lt hl hlt), Nat.zero_le _, by simpa using hlt⟩

/-! ## Messages taken one at a time

A loop that takes messages off the front until the parser waits has, at each point, taken some and
has the rest before it. -/

/-- **Some messages are off the front**, and the rest is there to be looked at. -/
inductive Takes (c : Cutter β μ ε) : List β → List μ → List β → Prop
  | nil (xs : List β) : Takes c xs [] xs
  | took {xs rest : List β} {m : μ} {ms : List μ} : c.look xs = .took m →
      Takes c (xs.drop (c.size m)) ms rest → Takes c xs (m :: ms) rest

namespace Takes

/-- One more message. -/
theorem concat (h : Takes c xs ms rest) (hl : c.look rest = .took m) :
    Takes c xs (ms ++ [m]) (rest.drop (c.size m)) := by
  induction h with
  | nil xs => exact .took hl (.nil _)
  | took hx _ ih => exact .took hx (ih hl)

/-- More of the stream. -/
theorem append (h : Takes c xs ms rest) (ys : List β) : Takes c (xs ++ ys) ms (rest ++ ys) := by
  induction h with
  | nil xs => exact .nil _
  | took hx _ ih =>
    refine .took (by rw [c.stable ys (by simp [hx]), hx]) ?_
    rwa [List.drop_append_of_le_length (c.size_le hx)]

/-- **What is off the front comes first**, and the rest cuts into the others. -/
theorem cuts_rest (h : Takes c xs ms rest) (h' : Cuts c xs ms' rest' err) :
    ∃ more, ms' = ms ++ more ∧ Cuts c rest more rest' err := by
  induction h generalizing ms' with
  | nil xs => exact ⟨ms', rfl, h'⟩
  | took hx _ ih =>
    cases h' with
    | wait hl => simp [hx] at hl
    | bad hl => simp [hx] at hl
    | took hl h' =>
      rw [hx, Verdict.took.injEq] at hl
      subst hl
      obtain ⟨more, rfl, hmore⟩ := ih h'
      exact ⟨more, rfl, hmore⟩

/-- In a stream without a bad message none is found. -/
theorem look_ne_bad (h : Takes c xs ms rest) (h' : Cuts c (xs ++ ys) ms' rest' none) :
    c.look rest ≠ .bad e := by
  intro hbad
  obtain ⟨more, -, hmore⟩ := (h.append ys).cuts_rest h'
  have hlook : c.look (rest ++ ys) = .bad e := by rw [c.stable ys (by simp [hbad]), hbad]
  cases hmore with
  | wait hl => simp [hlook] at hl
  | took hl _ => simp [hlook] at hl

/-- With all of the stream there and the parser waiting, all its messages are off. -/
theorem eq_of_wait (h : Takes c xs ms rest) (hl : c.look rest = .wait)
    (h' : Cuts c xs ms' rest' none) : ms' = ms := by
  obtain ⟨more, rfl, hmore⟩ := h.cuts_rest h'
  obtain ⟨rfl, -, -⟩ := hmore.unique (.wait hl)
  exact List.append_nil ms

end Takes

end Cutter

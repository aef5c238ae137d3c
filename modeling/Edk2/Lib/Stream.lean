import Mathlib.Data.List.Basic

/-!
# Machines fed one element at a time

A machine takes the elements of a stream one by one. At each it goes on, is done, or fails, and it
may put something out. What it makes of a stream does not depend on how the stream is cut.

## Main results

* `feedAll_append`: the machine on a stream in two parts
-/

namespace Edk2

variable {σ ε α β : Type*}

/-- What a machine does with one element: it goes on, it is done, or it fails. -/
inductive Fed (σ ε β : Type*)
  | next (s : σ) (out : List β)
  | done (s : σ) (out : List β)
  | failed (e : ε)

/-- What a machine has made of a stream: it waits for more, it is done before the elements `rest`, or
it has failed. -/
inductive Outcome (σ ε α β : Type*)
  | more (s : σ) (out : List β)
  | done (s : σ) (out : List β) (rest : List α)
  | failed (e : ε) (out : List β)

namespace Outcome

def prepend (before : List β) : Outcome σ ε α β → Outcome σ ε α β
  | more s out => more s (before ++ out)
  | done s out rest => done s (before ++ out) rest
  | failed e out => failed e (before ++ out)

@[simp] theorem prepend_nil (o : Outcome σ ε α β) : o.prepend [] = o := by
  cases o <;> rfl

@[simp] theorem prepend_prepend (o : Outcome σ ε α β) (xs ys : List β) :
    (o.prepend ys).prepend xs = o.prepend (xs ++ ys) := by
  cases o <;> simp [prepend]

end Outcome

def feedAll (feed : σ → α → Fed σ ε β) : σ → List α → Outcome σ ε α β
  | s, [] => .more s []
  | s, x :: xs =>
    match feed s x with
    | .next s' out => (feedAll feed s' xs).prepend out
    | .done s' out => .done s' out xs
    | .failed e => .failed e []

section

variable {feed : σ → α → Fed σ ε β} {s s' : σ} {x : α} {xs ys : List α} {out : List β} {e : ε}

theorem feedAll_next (h : feed s x = .next s' out) :
    feedAll feed s (x :: xs) = (feedAll feed s' xs).prepend out := by
  simp only [feedAll, h]

theorem feedAll_done (h : feed s x = .done s' out) :
    feedAll feed s (x :: xs) = .done s' out xs := by
  simp only [feedAll, h]

theorem feedAll_failed (h : feed s x = .failed e) :
    feedAll feed s (x :: xs) = .failed e [] := by
  simp only [feedAll, h]

/-- **The machine on a stream in two parts.** -/
theorem feedAll_append (feed : σ → α → Fed σ ε β) (s : σ) (xs ys : List α) :
    feedAll feed s (xs ++ ys) =
      match feedAll feed s xs with
      | .more s' out => (feedAll feed s' ys).prepend out
      | .done s' out rest => .done s' out (rest ++ ys)
      | .failed e out => .failed e out := by
  induction xs generalizing s with
  | nil => simp [feedAll]
  | cons x xs ih =>
    rw [List.cons_append]
    cases hx : feed s x with
    | next s' out =>
      rw [feedAll_next hx, feedAll_next hx, ih]
      cases feedAll feed s' xs with
      | more s'' out' => exact Outcome.prepend_prepend ..
      | done s'' out' rest => rfl
      | failed e out' => rfl
    | done s' out => rw [feedAll_done hx, feedAll_done hx]
    | failed e => rw [feedAll_failed hx, feedAll_failed hx]

/-- Elements at which the machine goes on and puts nothing out. -/
theorem feedAll_skip (h : ∀ x ∈ xs, feed s x = .next s []) :
    feedAll feed s (xs ++ ys) = feedAll feed s ys := by
  induction xs with
  | nil => rfl
  | cons x xs ih =>
    obtain ⟨hx, hxs⟩ := List.forall_mem_cons.mp h
    rw [List.cons_append, feedAll_next hx, Outcome.prepend_nil, ih hxs]

end

end Edk2

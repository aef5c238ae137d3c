import Mathlib.Data.Nat.Notation
import Mathlib.Logic.Relation

/-!
# Commands that hand control out

A small language for code that calls back: commands act on a state, call procedures of a table and,
with `choose`, hand control to an outside function, which picks the command to go on with. A
configuration is a stack of commands and a state. Since the procedures are recursive and an outside
function may call them again, the rules below are indexed by a number of steps.

A triple speaks of every state on the way, not only of the last one: an invariant `I` holds at each
step, `U` holds whenever control is outside, and the commands give control away again after finitely
many steps of their own. It has two postconditions: `Q` if control was never handed out on the way,
and `R` if it was. Only an iteration of a loop that keeps control has to decrease a measure.

## Main results

* `Triple.act`, `Triple.get`, `Triple.seq`, `Triple.loop`, `Triple.call`, `Triple.choose`: one rule
  for each command
* `Triple.reaches`: what a triple for every number of steps says about reachable configurations
* `reaches_exec`: the interpreter follows the steps
-/

namespace Edk2

/-- Commands over the states `σ`, the procedure names `ι` and the outside choices `χ`. -/
inductive Command (σ ι χ : Type)
  | skip
  | act (f : σ → σ)
  /-- The command that the present state determines. -/
  | get (k : σ → Command σ ι χ)
  | seq (a b : Command σ ι χ)
  | loop (c : σ → Bool) (body : Command σ ι χ)
  | call (p : ι)
  /-- Control is handed out: an outside function picks the command to go on with. -/
  | choose (k : χ → Command σ ι χ)

/-- The commands still to run and the state. -/
structure Config (σ ι χ : Type) where
  stack : List (Command σ ι χ)
  state : σ

namespace Command

variable {σ ι χ : Type} (body : ι → Command σ ι χ)

/-- Control is outside: nothing is left to run, or an outside function is to choose. -/
def Outside : Config σ ι χ → Prop
  | ⟨[], _⟩ => True
  | ⟨.choose _ :: _, _⟩ => True
  | ⟨_, _⟩ => False

/-- The step of a command that does not hand control out. -/
def next : Config σ ι χ → Option (Config σ ι χ)
  | ⟨[], _⟩ => none
  | ⟨.skip :: K, s⟩ => some ⟨K, s⟩
  | ⟨.act f :: K, s⟩ => some ⟨K, f s⟩
  | ⟨.get k :: K, s⟩ => some ⟨k s :: K, s⟩
  | ⟨.seq a b :: K, s⟩ => some ⟨a :: b :: K, s⟩
  | ⟨.loop c b :: K, s⟩ => some ⟨if c s then b :: .loop c b :: K else K, s⟩
  | ⟨.call p :: K, s⟩ => some ⟨body p :: K, s⟩
  | ⟨.choose _ :: _, _⟩ => none

/-- The steps: the commands' own, and the outside choices. -/
inductive Step : Config σ ι χ → Config σ ι χ → Prop
  | next {c c' : Config σ ι χ} : next body c = some c' → Step c c'
  | choose (k : χ → Command σ ι χ) (x : χ) (K : List (Command σ ι χ)) (s : σ) :
    Step ⟨.choose k :: K, s⟩ ⟨k x :: K, s⟩

def Reaches : Config σ ι χ → Config σ ι χ → Prop := Relation.ReflTransGen (Step body)

/-- Control is outside after finitely many steps of the commands' own. -/
inductive Settles : Config σ ι χ → Prop
  | outside {c : Config σ ι χ} : Outside c → Settles c
  | next {c c' : Config σ ι χ} : next body c = some c' → Settles c' → Settles c

/-- The interpreter: `n` steps, with the outside choices from a list. -/
def exec : ℕ → List χ → Config σ ι χ → Config σ ι χ
  | 0, _, c => c
  | n + 1, xs, c =>
    match next body c with
    | some c' => exec n xs c'
    | none =>
      match c.stack, xs with
      | .choose k :: K, x :: xs => exec n xs ⟨k x :: K, c.state⟩
      | _, _ => c

variable {body}

theorem next_eq_none {c : Config σ ι χ} (h : Outside c) : next body c = none := by
  rcases c with ⟨_ | ⟨c, K⟩, s⟩
  · rfl
  · cases c <;> first | rfl | exact h.elim

theorem reaches_exec (n : ℕ) (xs : List χ) (c : Config σ ι χ) :
    Reaches body c (exec body n xs c) := by
  induction n generalizing xs c with
  | zero => exact .refl
  | succ n ih =>
    unfold exec
    split
    · rename_i c' hnext
      exact .head (.next hnext) (ih xs c')
    · split
      · rename_i k K x xs hs
        rcases c with ⟨stack, s⟩
        obtain rfl : stack = .choose k :: K := hs
        exact .head (.choose k x K s) (ih xs _)
      · exact .refl

/-! ## Conditions along the steps -/

section Fine

variable (body) (I U : σ → Prop)

/-- What is asked of every configuration on the way. -/
structure Here (c : Config σ ι χ) : Prop where
  always : I c.state
  outside : Outside c → U c.state
  settles : Settles body c

/-- The conditions hold for `n` steps. -/
def Fine : ℕ → Config σ ι χ → Prop
  | 0, c => Here body I U c
  | n + 1, c => Here body I U c ∧ ∀ c', Step body c c' → Fine n c'

variable {body I U} {n : ℕ} {c c' : Config σ ι χ}

theorem Fine.here (h : Fine body I U n c) : Here body I U c := by
  cases n with
  | zero => exact h
  | succ n => exact h.1

theorem Fine.pred (h : Fine body I U (n + 1) c) : Fine body I U n c := by
  induction n generalizing c with
  | zero => exact h.1
  | succ n ih => exact ⟨h.1, fun c' hs => ih (h.2 c' hs)⟩

theorem fine_of_next (hnext : next body c = some c') (hI : I c.state) (h : Fine body I U n c') :
    Fine body I U n c := by
  have hin : ¬ Outside c := by
    intro hout
    rw [next_eq_none hout] at hnext
    cases hnext
  have hh : Here body I U c := ⟨hI, fun hout => absurd hout hin, .next hnext h.here.settles⟩
  cases n with
  | zero => exact hh
  | succ n =>
    refine ⟨hh, fun c'' hs => ?_⟩
    cases hs with
    | next hn' =>
      -- the commands' own steps are deterministic
      obtain rfl : c' = c'' := Option.some.inj (hnext.symm.trans hn')
      exact h.pred
    | choose k x K s => cases hnext

theorem fine_choose {k : χ → Command σ ι χ} {K : List (Command σ ι χ)} {s : σ} (hI : I s)
    (hU : U s) (h : ∀ x, ∀ m < n, Fine body I U m ⟨k x :: K, s⟩) :
    Fine body I U n ⟨.choose k :: K, s⟩ := by
  have hh : Here body I U (⟨.choose k :: K, s⟩ : Config σ ι χ) :=
    ⟨hI, fun _ => hU, .outside trivial⟩
  cases n with
  | zero => exact hh
  | succ n =>
    refine ⟨hh, fun c hs => ?_⟩
    cases hs with
    | next hnext => cases hnext
    | choose k x K s => exact h x n (Nat.lt_succ_self n)

theorem Fine.reaches (h : ∀ n, Fine body I U n c) (hr : Reaches body c c') :
    Here body I U c' := by
  have ha : ∀ n, Fine body I U n c' := by
    induction hr with
    | refl => exact h
    | tail _ hs ih => exact fun n => (ih (n + 1)).2 _ hs
  exact (ha 0).here

end Fine

/-! ## Triples -/

section Triple

variable (body) (I U : σ → Prop)

/-- From a state with `P`, the command is fine for `n` steps, whatever comes after it, if what comes
after it is: with `Q` when control was not handed out on the way, and with `R`, for fewer steps,
when it was. -/
def Triple (n : ℕ) (P : σ → Prop) (c : Command σ ι χ) (Q R : σ → Prop) : Prop :=
  ∀ m ≤ n, ∀ s K, I s → P s → (∀ s', I s' → Q s' → Fine body I U m ⟨K, s'⟩) →
    (∀ m' < m, ∀ s', I s' → R s' → Fine body I U m' ⟨K, s'⟩) → Fine body I U m ⟨c :: K, s⟩

variable {body I U} {n : ℕ} {P P' Q Q' R R' M M' : σ → Prop} {a b : Command σ ι χ}

namespace Triple

theorem conseq (h : Triple body I U n P a Q R) (hP : ∀ s, I s → P' s → P s)
    (hQ : ∀ s, I s → Q s → Q' s) (hR : ∀ s, I s → R s → R' s) : Triple body I U n P' a Q' R' := by
  intro m hm s K hI hs hq hr
  exact h m hm s K hI (hP s hI hs) (fun s' hI' hs' => hq s' hI' (hQ s' hI' hs'))
    fun m' hm' s' hI' hs' => hr m' hm' s' hI' (hR s' hI' hs')

theorem pre (h : Triple body I U n P a Q R) (hP : ∀ s, I s → P' s → P s) :
    Triple body I U n P' a Q R :=
  h.conseq hP (fun _ _ hs => hs) fun _ _ hs => hs

theorem exists_pre {α : Type} {S : α → σ → Prop} (h : ∀ x, Triple body I U n (S x) a Q R) :
    Triple body I U n (fun s => ∃ x, S x s) a Q R := by
  intro m hm s K hI hs
  obtain ⟨x, hs⟩ := hs
  exact h x m hm s K hI hs

theorem skip (h : ∀ s, I s → P s → Q s) : Triple body I U n P .skip Q R := by
  intro m _ s K hI hs hq _
  exact fine_of_next rfl hI (hq s hI (h s hI hs))

theorem act {f : σ → σ} (h : ∀ s, I s → P s → I (f s) ∧ Q (f s)) :
    Triple body I U n P (.act f) Q R := by
  intro m _ s K hI hs hq _
  obtain ⟨hI', hs'⟩ := h s hI hs
  exact fine_of_next rfl hI (hq (f s) hI' hs')

theorem get {k : σ → Command σ ι χ}
    (h : ∀ s₀, I s₀ → P s₀ → Triple body I U n (fun s => s = s₀) (k s₀) Q R) :
    Triple body I U n P (.get k) Q R := by
  intro m hm s K hI hs hq hr
  exact fine_of_next rfl hI (h s hI hs m hm s K hI rfl hq hr)

theorem seq (ha : Triple body I U n P a M M') (hb : Triple body I U n M b Q R)
    (hb' : Triple body I U n M' b R R) : Triple body I U n P (.seq a b) Q R := by
  intro m hm s K hI hs hq hr
  refine fine_of_next rfl hI (ha m hm s (b :: K) hI hs ?_ ?_)
  · intro s' hI' hs'
    exact hb m hm s' K hI' hs' hq hr
  · -- control was handed out during `a`, so the rest runs for fewer steps
    intro m' hm' s' hI' hs'
    exact hb' m' (Nat.le_trans (Nat.le_of_lt hm') hm) s' K hI' hs' (hr m' hm')
      fun m'' hm'' => hr m'' (Nat.lt_trans hm'' hm')

theorem seq_inside (ha : Triple body I U n P a M fun _ => False)
    (hb : Triple body I U n M b Q R) : Triple body I U n P (.seq a b) Q R :=
  ha.seq hb fun _ _ _ _ _ hs => hs.elim

theorem seq_same (ha : Triple body I U n P a M M) (hb : Triple body I U n M b Q Q) :
    Triple body I U n P (.seq a b) Q Q :=
  ha.seq hb hb

theorem call {p : ι} (h : Triple body I U n P (body p) Q R) :
    Triple body I U n P (.call p) Q R := by
  intro m hm s K hI hs hq hr
  exact fine_of_next rfl hI (h m hm s K hI hs hq hr)

/-- Control is handed out. What follows the choice runs for fewer steps, which is what an induction
over the steps needs for the outside functions. -/
theorem choose {k : χ → Command σ ι χ} (hU : ∀ s, I s → P s → U s)
    (h : ∀ x, ∀ m < n, Triple body I U m P (k x) R R) : Triple body I U n P (.choose k) Q R := by
  intro m hm s K hI hs _ hr
  refine fine_choose hI (hU s hI hs) fun x m' hm' => ?_
  exact h x m' (Nat.lt_of_lt_of_le hm' hm) m' (Nat.le_refl _) s K hI hs (hr m' hm')
    fun m'' hm'' => hr m'' (Nat.lt_trans hm'' hm')

theorem loop {c : σ → Bool} (μ : σ → ℕ)
    (h : ∀ v, Triple body I U n (fun s => P s ∧ c s = true ∧ μ s = v) a (fun s => P s ∧ μ s < v) R)
    (h' : ∀ v, Triple body I U n (fun s => R s ∧ c s = true ∧ μ s = v) a
      (fun s => R s ∧ μ s < v) R) :
    Triple body I U n P (.loop c a) (fun s => P s ∧ c s = false) fun s => R s ∧ c s = false := by
  -- once control was handed out, `R` is the invariant
  have hR : Triple body I U n R (.loop c a) (fun s => R s ∧ c s = false)
      fun s => R s ∧ c s = false := by
    intro m
    induction m using Nat.strongRecOn with
    | _ m ihm =>
      intro hm s K
      induction hμ : μ s using Nat.strongRecOn generalizing s with
      | _ v ihv =>
        intro hI hs hq hr
        by_cases hc : c s = true
        · refine fine_of_next (by rw [next, if_pos hc]) hI
            (h' v m hm s _ hI ⟨hs, hc, hμ⟩ (fun s' hI' hs' => ?_) fun m' hm' s' hI' hs' => ?_)
          · exact ihv (μ s') hs'.2 s' rfl hI' hs'.1 hq hr
          · exact ihm m' hm' (Nat.le_trans (Nat.le_of_lt hm') hm) s' K hI' hs' (hr m' hm')
              fun m'' hm'' => hr m'' (Nat.lt_trans hm'' hm')
        · refine fine_of_next (by rw [next, if_neg hc]) hI (hq s hI ⟨hs, ?_⟩)
          simpa using hc
  intro m hm s K
  induction hμ : μ s using Nat.strongRecOn generalizing s with
  | _ v ihv =>
    intro hI hs hq hr
    by_cases hc : c s = true
    · refine fine_of_next (by rw [next, if_pos hc]) hI
        (h v m hm s _ hI ⟨hs, hc, hμ⟩ (fun s' hI' hs' => ?_) fun m' hm' s' hI' hs' => ?_)
      · exact ihv (μ s') hs'.2 s' rfl hI' hs'.1 hq hr
      · exact hR m' (Nat.le_trans (Nat.le_of_lt hm') hm) s' K hI' hs' (hr m' hm')
          fun m'' hm'' => hr m'' (Nat.lt_trans hm'' hm')
    · refine fine_of_next (by rw [next, if_neg hc]) hI (hq s hI ⟨hs, ?_⟩)
      simpa using hc

theorem loop_skip {c : σ → Bool} (h : ∀ s, I s → P s → c s = false) :
    Triple body I U n P (.loop c a) P R := by
  intro m _ s K hI hs hq _
  refine fine_of_next (by rw [next, h s hI hs, if_neg Bool.false_ne_true]) hI (hq s hI hs)

/-- **What triples say about runs**: along every run the invariant holds, `U` holds whenever control
is outside, and control is never kept forever. -/
theorem reaches {c : Config σ ι χ} {s : σ} (h : ∀ n, Triple body I U n P a Q R) (hI : I s) (hs : P s)
    (hQ : ∀ s, Q s → U s) (hR : ∀ s, R s → U s) (hr : Reaches body ⟨[a], s⟩ c) :
    Here body I U c := by
  have hd : ∀ s', I s' → U s' → ∀ n, Fine body I U n (⟨[], s'⟩ : Config σ ι χ) := by
    intro s' hI' hU n
    have hh : Here body I U (⟨[], s'⟩ : Config σ ι χ) := ⟨hI', fun _ => hU, .outside trivial⟩
    cases n with
    | zero => exact hh
    | succ n =>
      refine ⟨hh, fun c' hst => ?_⟩
      cases hst with
      | next hnext => cases hnext
  refine Fine.reaches (fun n => h n n (Nat.le_refl _) s [] hI hs (fun s' hI' hs' => ?_) ?_) hr
  · exact hd s' hI' (hQ s' hs') n
  · intro m _ s' hI' hs'
    exact hd s' hI' (hR s' hs') m

end Triple

end Triple

end Command

end Edk2

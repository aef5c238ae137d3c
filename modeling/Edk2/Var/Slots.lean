import Edk2.Var.Lookup
import Edk2.Var.Update

/-!
# The entries of one variable

What an update does is seen variable by variable. The live entries of a variable in a store, in
their order, are all that a search for it depends on. In a store that is in order they are entries
in transition followed by at most one added entry, so the value of the variable is that of the last
one. An update can retire two entries, the one it found and the last one in transition before it. A
variable is tracked where that is all there is.

This module is about the list of a store's entries: the live entries of a variable after an entry
was marked, added or reclaimed.

## Main results

* `slot_of_found`: a search of a store finds the live entries of a tracked variable
* `liveOf_reclaimed`: the live entries after a reclaim
-/

namespace Edk2.Var

open List VarRecord

variable {key : VarKey} {l l' l'' pre mid post : List VarRecord} {r t a : VarRecord}

/-! ## States -/

namespace VarRecord

theorem isAdded_iff : r.isAdded = true ↔ r.state = varAdded := by simp [isAdded]

theorem isInTransition_iff :
    r.isInTransition = true ↔ r.state = varInDeletedTransition &&& varAdded := by
  simp [isInTransition]

/-- A live entry that is marked is in transition. -/
theorem isInTransition_clearState (h : r.isLive = true) :
    (r.clearState varInDeletedTransition).isInTransition = true := by
  rw [clearState]
  rcases isLive_iff.mp h with h | h
  · rw [isAdded_iff.mp h]; rfl
  · rw [isInTransition_iff.mp h]; rfl

/-- A deleted entry is not live. -/
theorem isLive_clearState_deleted (h : r.isLive = true) :
    (r.clearState varDeleted).isLive = false := by
  rcases isLive_iff.mp h with h | h
  · simp [isLive, isAdded, isInTransition, clearState, isAdded_iff.mp h, varAdded, varDeleted,
      varInDeletedTransition]
  · simp [isLive, isAdded, isInTransition, clearState, isInTransition_iff.mp h, varAdded,
      varDeleted, varInDeletedTransition]

@[simp] theorem isAdded_asAdded : r.asAdded.isAdded = true := by simp [asAdded, isAdded]

@[simp] theorem asAdded_clearState (mask : BitVec 8) :
    (r.clearState mask).asAdded = r.asAdded := rfl

@[simp] theorem asAdded_asAdded : r.asAdded.asAdded = r.asAdded := rfl

theorem asAdded_eq_self (h : r.isAdded = true) : r.asAdded = r := by
  rw [isAdded_iff] at h
  simp [asAdded, ← h]

end VarRecord

/-! ## The live entries of a variable -/

/-- The live entries of a variable. -/
def liveOf (key : VarKey) (l : List VarRecord) : List VarRecord :=
  l.filter fun r => r.isLive && r.key == key

def valueOf (key : VarKey) (l : List VarRecord) : Option VarRecord :=
  (liveOf key l).getLast?.map asAdded

@[simp] theorem liveOf_nil : liveOf key [] = [] := rfl

@[simp] theorem liveOf_append : liveOf key (l ++ l') = liveOf key l ++ liveOf key l' :=
  filter_append ..

theorem liveOf_cons_of_live (hl : r.isLive = true) (hk : r.key = key) :
    liveOf key (r :: l) = r :: liveOf key l := by
  simp [liveOf, hl, hk]

theorem liveOf_cons_of_dead (hl : r.isLive = false) : liveOf key (r :: l) = liveOf key l := by
  simp [liveOf, hl]

theorem liveOf_cons_of_ne (hk : r.key ≠ key) : liveOf key (r :: l) = liveOf key l := by
  simp [liveOf, hk]

theorem mem_liveOf : r ∈ liveOf key l ↔ r ∈ l ∧ r.isLive = true ∧ r.key = key := by
  simp [liveOf]

theorem modify_append_cons (f : VarRecord → VarRecord) :
    (pre ++ r :: post).modify pre.length f = pre ++ f r :: post := by
  rw [modify_eq_take_cons_drop (by simp)]
  simp

/-- An entry of another variable is changed. -/
theorem liveOf_modify_of_ne {i : ℕ} {f : VarRecord → VarRecord}
    (hne : ∀ r, l[i]? = some r → r.key ≠ key) (hf : ∀ r, (f r).key = r.key) :
    liveOf key (l.modify i f) = liveOf key l := by
  rcases Nat.lt_or_ge i l.length with hi | hi
  · obtain ⟨pre, r, post, rfl, rfl⟩ : ∃ pre r post, l = pre ++ r :: post ∧ i = pre.length :=
      ⟨l.take i, l[i], l.drop (i + 1), by simp, by simp; omega⟩
    have hr : r.key ≠ key := hne r (by simp)
    rw [modify_append_cons, liveOf_append, liveOf_append, liveOf_cons_of_ne hr,
      liveOf_cons_of_ne (by rw [hf]; exact hr)]
  · rw [modify_eq_self hi]

/-! ## Shapes -/

/-- Entries in transition, then at most one added entry. -/
def OrderedList : List VarRecord → Prop
  | [] => True
  | [_] => True
  | t :: rest => t.isInTransition = true ∧ OrderedList rest

/-- Nothing, one entry, or one in transition and one added. -/
def TrackedList : List VarRecord → Prop
  | [] => True
  | [_] => True
  | [t, a] => t.isInTransition = true ∧ a.isAdded = true
  | _ => False

section

variable (key : VarKey) (l : List VarRecord)

def Ordered : Prop := OrderedList (liveOf key l)

/-- The live entries of the variable are those an update retires. -/
def Tracked : Prop := TrackedList (liveOf key l)

def Single : Prop := (liveOf key l).length ≤ 1

end

theorem orderedList_iff : OrderedList l ↔ ∀ t ∈ l.dropLast, t.isInTransition = true := by
  induction l with
  | nil => simp [OrderedList]
  | cons x l ih =>
    cases l with
    | nil => simp [OrderedList]
    | cons y l => rw [OrderedList, ih, dropLast_cons_cons, forall_mem_cons]; simp

theorem single_of_nil (h : liveOf key l = []) : Single key l := by
  rw [Single, h]
  exact Nat.zero_le 1

theorem forall_mem_of_nil {p : VarRecord → Prop} (h : liveOf key l = []) :
    ∀ r ∈ liveOf key l, p r := by
  rw [h]
  exact fun _ hr => absurd hr not_mem_nil

theorem Single.tracked (h : Single key l) : Tracked key l := by
  unfold Single at h
  unfold Tracked
  match hl : liveOf key l with
  | [] => trivial
  | [_] => trivial
  | _ :: _ :: _ => simp [hl] at h

theorem Tracked.ordered (h : Tracked key l) : Ordered key l := by
  unfold Tracked at h
  unfold Ordered
  match hl : liveOf key l, h with
  | [], _ => trivial
  | [_], _ => trivial
  | [t, a], h => exact ⟨h.1, trivial⟩

/-! ## Searching for a variable -/

/-- The search sees every live entry of the variable, and no other. -/
def Sees (sought : VarRecord → Bool) (key : VarKey) (l : List VarRecord) : Prop :=
  ∀ r ∈ l, r.isLive = true → (sought r = true ↔ r.key = key)

variable {sought : VarRecord → Bool}

theorem Sees.added_iff (h : Sees sought key l) (hr : r ∈ l) :
    SoughtAdded sought r ↔ r.isAdded = true ∧ r.key = key :=
  and_congr_right fun ha => h r hr (isLive_iff.mpr (.inl ha))

theorem Sees.inTransition_iff (h : Sees sought key l) (hr : r ∈ l) :
    SoughtInTransition sought r ↔ r.isInTransition = true ∧ r.key = key :=
  and_congr_right fun htrans => h r hr (isLive_iff.mpr (.inr htrans))

theorem liveOf_eq_nil_iff :
    liveOf key l = [] ↔ ∀ r ∈ l, r.key = key → r.isAdded = false ∧ r.isInTransition = false := by
  simp only [liveOf, filter_eq_nil_iff, Bool.and_eq_true, beq_iff_eq, not_and,
    isLive, Bool.or_eq_true]
  refine forall₂_congr fun r _ => ?_
  constructor
  · intro h hk
    by_contra hn
    refine h ?_ hk
    cases ha : r.isAdded <;> cases htrans : r.isInTransition <;> simp_all
  · intro h hl hk
    obtain ⟨ha, htrans⟩ := h hk
    simp [ha, htrans] at hl

/-- Where nothing is found, nothing is live. -/
theorem Sees.liveOf_eq_nil (h : Sees sought key l) (hs : ∀ x ∈ l', x ∈ l)
    (ha : ∀ x ∈ l', ¬ SoughtAdded sought x)
    (htrans : ∀ x ∈ l', ¬ SoughtInTransition sought x) : liveOf key l' = [] := by
  refine liveOf_eq_nil_iff.mpr fun x hx hk => ⟨?_, ?_⟩
  · by_contra hn
    exact ha x hx ((h.added_iff (hs x hx)).mpr ⟨by simpa using hn, hk⟩)
  · by_contra hn
    exact htrans x hx ((h.inTransition_iff (hs x hx)).mpr ⟨by simpa using hn, hk⟩)

/-- Where the live entries of a tracked variable are, as a search returns them. -/
inductive Slot (key : VarKey) : List VarRecord → Option ℕ → Option ℕ → Prop
  | empty {l : List VarRecord} : liveOf key l = [] → Slot key l none none
  | one {pre post : List VarRecord} {r : VarRecord} :
      liveOf key pre = [] → liveOf key post = [] → r.isLive = true → r.key = key →
      Slot key (pre ++ r :: post) (some pre.length) none
  | two {pre mid post : List VarRecord} {t a : VarRecord} :
      liveOf key pre = [] → liveOf key mid = [] → liveOf key post = [] →
      t.isInTransition = true → t.key = key → a.isAdded = true → a.key = key →
      Slot key ((pre ++ t :: mid) ++ a :: post) (some (pre ++ t :: mid).length) (some pre.length)

/-- An added entry is the last one, behind at most one. -/
theorem trackedList_added {P Q : List VarRecord} (h : TrackedList (P ++ r :: Q))
    (hr : r.isAdded = true) : Q = [] ∧ (P = [] ∨ ∃ t, P = [t]) := by
  rcases P with _ | ⟨t, _ | ⟨t', P⟩⟩
  · rcases Q with _ | ⟨x, _ | ⟨y, Q⟩⟩
    · exact ⟨rfl, .inl rfl⟩
    · have htrans : r.isInTransition = true := h.1
      rw [not_isInTransition_of_isAdded hr] at htrans
      cases htrans
    · exact h.elim
  · rcases Q with _ | ⟨x, Q⟩
    · exact ⟨rfl, .inr ⟨t, rfl⟩⟩
    · exact h.elim
  · rcases P with _ | ⟨p, P⟩ <;> exact h.elim

theorem trackedList_inTransition {P : List VarRecord} (h : TrackedList (P ++ [r]))
    (hr : r.isInTransition = true) : P = [] := by
  rcases P with _ | ⟨t, _ | ⟨t', P⟩⟩
  · rfl
  · have ha : r.isAdded = true := h.2
    rw [not_isAdded_of_isInTransition hr] at ha
    cases ha
  · rcases P with _ | ⟨p, P⟩ <;> exact h.elim

/-- **A search of a store finds the live entries of a tracked variable.** -/
theorem slot_of_found {curr inDeleted : Option ℕ} (hf : Found sought l (curr, inDeleted))
    (hs : Sees sought key l) (htr : Tracked key l) : Slot key l curr inDeleted := by
  cases hf with
  | @added pre post r d hl hr hpr hd =>
    subst hl
    obtain ⟨ha, hk⟩ := (hs.added_iff (by simp)).mp hr
    have hli : r.isLive = true := isLive_iff.mpr (.inl ha)
    unfold Tracked at htr
    rw [liveOf_append, liveOf_cons_of_live hli hk] at htr
    obtain ⟨hpo, hc⟩ := trackedList_added htr ha
    -- The twin is the last entry in transition before the added one, if there is any.
    cases hd with
    | absent hnone =>
      exact .one (hs.liveOf_eq_nil (by simp +contextual) hpr hnone) hpo hli hk
    | @present pre₁ mid t ht hm =>
      obtain ⟨htrans, htk⟩ := (hs.inTransition_iff (by simp)).mp ht
      have htl : t.isLive = true := isLive_iff.mpr (.inr htrans)
      rw [liveOf_append, liveOf_cons_of_live htl htk] at hc
      rcases hc with hnil | ⟨t', ho⟩
      · simp at hnil
      · obtain ⟨hp₁, hre⟩ : liveOf key pre₁ = [] ∧ liveOf key mid = [] := by
          cases hp : liveOf key pre₁ with
          | nil =>
            rw [hp] at ho
            exact ⟨rfl, (List.cons.inj ho).2⟩
          | cons y ys =>
            rw [hp] at ho
            have := congrArg List.length ho
            simp at this
        exact .two hp₁ hre hpo htrans htk ha hk
  | @transition pre post r hl hr ha hlast =>
    subst hl
    obtain ⟨htrans, hk⟩ := (hs.inTransition_iff (by simp)).mp hr
    have hli : r.isLive = true := isLive_iff.mpr (.inr htrans)
    have hpo : liveOf key post = [] :=
      hs.liveOf_eq_nil (by simp +contextual) (fun x hx => ha x (by simp [hx])) hlast
    unfold Tracked at htr
    rw [liveOf_append, liveOf_cons_of_live hli hk, hpo] at htr
    exact .one (trackedList_inTransition htr htrans) hpo hli hk
  | absent ha htrans => exact .empty (hs.liveOf_eq_nil (fun _ hx => hx) ha htrans)

/-- No entry follows an added one. -/
theorem orderedList_added {P Q : List VarRecord} (h : OrderedList (P ++ r :: Q))
    (hr : r.isAdded = true) : Q = [] := by
  induction P with
  | nil =>
    cases Q with
    | nil => rfl
    | cons x Q =>
      rw [nil_append, OrderedList, not_isInTransition_of_isAdded hr] at h
      · cases h.1
      · simp
  | cons p P ih =>
    refine ih ?_
    cases P <;> exact h.2

/-- **A search finds the last live entry.** -/
theorem getElem?_of_found {curr inDeleted : Option ℕ} (hf : Found sought l (curr, inDeleted))
    (hs : Sees sought key l) (ho : Ordered key l) :
    curr.bind (fun i => l[i]?) = (liveOf key l).getLast? := by
  cases hf with
  | @added pre post r d hl hr hpr hd =>
    subst hl
    obtain ⟨ha, hk⟩ := (hs.added_iff (by simp)).mp hr
    have hli : r.isLive = true := isLive_iff.mpr (.inl ha)
    unfold Ordered at ho
    rw [liveOf_append, liveOf_cons_of_live hli hk] at ho ⊢
    rw [orderedList_added ho ha]
    simp
  | @transition pre post r hl hr ha hlast =>
    subst hl
    obtain ⟨htrans, hk⟩ := (hs.inTransition_iff (by simp)).mp hr
    have hli : r.isLive = true := isLive_iff.mpr (.inr htrans)
    have hp : liveOf key post = [] :=
      hs.liveOf_eq_nil (by simp +contextual) (fun x hx => ha x (by simp [hx])) hlast
    rw [liveOf_append, liveOf_cons_of_live hli hk, hp]
    simp
  | absent ha htrans => simp [hs.liveOf_eq_nil (fun _ hx => hx) ha htrans]

/-! ## Edits that leave a variable alone -/

/-- The edit leaves the variable with its value. -/
structure Keeps (key : VarKey) (l l' : List VarRecord) : Prop where
  tracked : Tracked key l → Tracked key l'
  value : Tracked key l → valueOf key l' = valueOf key l
  single : Single key l → Single key l'
  content : ∀ r' ∈ liveOf key l', ∃ r ∈ liveOf key l, r'.asAdded = r.asAdded

namespace Keeps

theorem of_liveOf_eq (h : liveOf key l' = liveOf key l) : Keeps key l l' where
  tracked := fun ht => by unfold Tracked at ht ⊢; rwa [h]
  value := fun _ => by unfold valueOf; rw [h]
  single := fun hs => by unfold Single at hs ⊢; rwa [h]
  content := fun r hr => ⟨r, h ▸ hr, rfl⟩

theorem refl : Keeps key l l := of_liveOf_eq rfl

theorem liveOf_eq_nil (h : Keeps key l l') (hnil : liveOf key l = []) : liveOf key l' = [] := by
  by_contra hne
  obtain ⟨x, hx⟩ := exists_mem_of_ne_nil _ hne
  obtain ⟨r, hr, -⟩ := h.content x hx
  rw [hnil] at hr
  cases hr

theorem trans (h : Keeps key l l') (h' : Keeps key l' l'') : Keeps key l l'' where
  tracked := fun ht => h'.tracked (h.tracked ht)
  value := fun ht => (h'.value (h.tracked ht)).trans (h.value ht)
  single := fun hs => h'.single (h.single hs)
  content := fun r hr => by
    obtain ⟨r', hr', heq'⟩ := h'.content r hr
    obtain ⟨r'', hr'', heq''⟩ := h.content r' hr'
    exact ⟨r'', hr'', heq'.trans heq''⟩

end Keeps

/-! ## Reclaiming -/

section Reclaim

variable {updating inDeleted : Option ℕ}

/-- The entries in transition of the variable that the second pass looks at. -/
def heldBack (key : VarKey) (updating inDeleted : Option ℕ) (l : List (VarRecord × ℕ)) :
    List VarRecord :=
  (l.filter fun e => (some e.2 != updating && some e.2 != inDeleted && e.1.isInTransition) &&
    e.1.key == key).map Prod.fst

theorem liveOf_eq_filter_key (h : ∀ x ∈ l, x.isAdded = true) :
    liveOf key l = l.filter fun r => r.key == key := by
  refine filter_congr fun r hr => ?_
  rw [isLive_iff.mpr (.inl (h r hr)), Bool.true_and]

theorem liveOf_eq_nil_iff_any (h : ∀ x ∈ l, x.isAdded = true) :
    liveOf key l = [] ↔ (l.any fun a => a.key == key) = false := by
  rw [liveOf_eq_filter_key h, filter_eq_nil_iff, any_eq_false]

/-- The second pass, from a buffer of added entries on: the variable keeps what the buffer has of
it, or gets its first entry in transition. -/
theorem liveOf_foldl (l : List (VarRecord × ℕ)) {buffer : List VarRecord}
    (hb : ∀ x ∈ buffer, x.isAdded = true) :
    liveOf key (l.foldl
      (fun buffer e =>
        if some e.2 != updating && some e.2 != inDeleted && e.1.isInTransition &&
            !buffer.any fun a => a.key == e.1.key then
          buffer ++ [e.1.asAdded]
        else buffer) buffer) =
      if liveOf key buffer = [] then
        ((heldBack key updating inDeleted l).head?.map asAdded).toList
      else liveOf key buffer := by
  induction l generalizing buffer with
  | nil => cases h : liveOf key buffer <;> simp [heldBack, h]
  | cons e l ih =>
    rw [foldl_cons]
    by_cases he : (some e.2 != updating && some e.2 != inDeleted &&
        e.1.isInTransition) = true
    swap
    · have hh : heldBack key updating inDeleted (e :: l) = heldBack key updating inDeleted l := by
        rw [heldBack, filter_cons_of_neg (by simp [he]), heldBack]
      rw [if_neg (by simp [he]), ih hb, hh]
    have hh : heldBack key updating inDeleted (e :: l) =
        if e.1.key = key then e.1 :: heldBack key updating inDeleted l
        else heldBack key updating inDeleted l := by
      by_cases hk : e.1.key = key <;> simp [heldBack, he, hk]
    by_cases han : (buffer.any fun a => a.key == e.1.key) = true
    · rw [if_neg (by simp [han]), ih hb, hh]
      by_cases hk : e.1.key = key
      · have hne : liveOf key buffer ≠ [] := by
          rw [Ne, liveOf_eq_nil_iff_any hb, ← hk, han]
          simp
        rw [if_neg hne, if_neg hne]
      · rw [if_neg hk]
    · have ha : ∀ x ∈ buffer ++ [e.1.asAdded], x.isAdded = true := by
        intro x hx
        rcases mem_append.mp hx with hx | hx
        · exact hb x hx
        · rw [mem_singleton.mp hx]
          exact e.1.isAdded_asAdded
      rw [if_pos (by simp [he, han]), ih ha, hh, liveOf_append]
      by_cases hk : e.1.key = key
      · have hnil : liveOf key buffer = [] := by
          rw [liveOf_eq_nil_iff_any hb, ← hk]
          simpa using han
        rw [hnil, liveOf_cons_of_live (isLive_iff.mpr (.inl e.1.isAdded_asAdded)) hk]
        simp [hk, asAdded]
      · have hne : e.1.asAdded.key ≠ key := hk
        rw [liveOf_cons_of_ne hne, liveOf_nil, append_nil, if_neg hk]

theorem liveOf_reclaimAdded :
    liveOf key (reclaimAdded updating l) =
      (l.zipIdx.filter fun e => (some e.2 != updating && e.1.isAdded) && e.1.key == key).map
        Prod.fst := by
  rw [reclaimAdded, liveOf_eq_filter_key, filter_map, filter_filter]
  · congr 1
    refine filter_congr fun e _ => ?_
    rw [Bool.and_comm]
    rfl
  · simp +contextual

/-- What a reclaim leaves of a variable. -/
theorem liveOf_reclaimed :
    liveOf key (reclaimed updating inDeleted l) =
      if liveOf key (reclaimAdded updating l) = [] then
        ((heldBack key updating inDeleted l.zipIdx).head?.map asAdded).toList
      else liveOf key (reclaimAdded updating l) := by
  exact liveOf_foldl _ (by simp +contextual [reclaimAdded])

theorem filter_zipIdx_fst (p : VarRecord → Bool) (l : List VarRecord) :
    (l.zipIdx.filter fun e => p e.1).map Prod.fst = l.filter p := by
  have h := filter_map (f := Prod.fst) (p := p) (l := l.zipIdx)
  rw [zipIdx_map_fst] at h
  exact h.symm

/-- What a reclaim keeps of the live entries of a variable: the added ones, or else the first. -/
def survivors (l : List VarRecord) : List VarRecord :=
  if l.filter isAdded = [] then
    ((l.filter isInTransition).head?.map asAdded).toList
  else l.filter isAdded

/-- What a reclaim keeps has the value there was. -/
theorem survivors_of_tracked (hl : ∀ r ∈ l, r.isLive = true) (h : TrackedList l) :
    TrackedList (survivors l) ∧
      (survivors l).getLast?.map asAdded = l.getLast?.map asAdded ∧
      (survivors l).length ≤ 1 := by
  rcases l with _ | ⟨t, _ | ⟨a, _ | ⟨b, l⟩⟩⟩
  · exact ⟨trivial, rfl, Nat.zero_le _⟩
  · rcases isLive_iff.mp (hl t (by simp)) with ha | htrans
    · simp [survivors, ha, TrackedList]
    · simp [survivors, htrans, not_isAdded_of_isInTransition htrans, TrackedList]
  · obtain ⟨htrans, ha⟩ : t.isInTransition = true ∧ a.isAdded = true := h
    simp [survivors, ha, not_isAdded_of_isInTransition htrans, TrackedList]
  · exact h.elim

theorem mem_survivors (h : r ∈ survivors l) : ∃ r' ∈ l, r.asAdded = r'.asAdded := by
  unfold survivors at h
  split_ifs at h
  · simp only [Option.mem_toList, Option.map_eq_some_iff] at h
    obtain ⟨r', hr', rfl⟩ := h
    exact ⟨r', (mem_filter.mp (mem_of_mem_head? hr')).1, rfl⟩
  · exact ⟨r, (mem_filter.mp h).1, rfl⟩

/-- **A reclaim leaves the other variables alone.** -/
theorem keeps_reclaimed
    (hu : ∀ i r, updating = some i → l[i]? = some r → r.key ≠ key)
    (hid : ∀ i r, inDeleted = some i → l[i]? = some r → r.key ≠ key) :
    Keeps key l (reclaimed updating inDeleted l) := by
  have had : liveOf key (reclaimAdded updating l) = (liveOf key l).filter isAdded := by
    rw [liveOf_reclaimAdded, liveOf, filter_filter, ← filter_zipIdx_fst]
    congr 1
    refine filter_congr fun e he => ?_
    have hg := mem_zipIdx_iff_getElem?.mp he
    by_cases hk : e.1.key = key
    · have hne : some e.2 ≠ updating := fun h => hu e.2 e.1 h.symm hg hk
      cases hadd : e.1.isAdded <;> simp [hk, hne, hadd, isLive]
    · have hb : (e.1.key == key) = false := by simpa using hk
      simp only [hb, Bool.and_false]
  have hh : heldBack key updating inDeleted l.zipIdx =
      (liveOf key l).filter isInTransition := by
    rw [heldBack, liveOf, filter_filter, ← filter_zipIdx_fst]
    congr 1
    refine filter_congr fun e he => ?_
    have hg := mem_zipIdx_iff_getElem?.mp he
    by_cases hk : e.1.key = key
    · have hne : some e.2 ≠ updating := fun h => hu e.2 e.1 h.symm hg hk
      have hne' : some e.2 ≠ inDeleted := fun h => hid e.2 e.1 h.symm hg hk
      cases htr : e.1.isInTransition <;> simp [hk, hne, hne', htr, isLive]
    · have hb : (e.1.key == key) = false := by simpa using hk
      simp only [hb, Bool.and_false]
  have hl : liveOf key (reclaimed updating inDeleted l) = survivors (liveOf key l) := by
    rw [liveOf_reclaimed, had, hh]
    rfl
  have ha : ∀ r ∈ liveOf key l, r.isLive = true := fun r hr => (mem_liveOf.mp hr).2.1
  exact {
    tracked := fun ht => by
      unfold Tracked at ⊢
      rw [hl]
      exact (survivors_of_tracked ha ht).1
    value := fun ht => by
      unfold valueOf
      rw [hl]
      exact (survivors_of_tracked ha ht).2.1
    single := fun hs => by
      unfold Single
      rw [hl]
      exact (survivors_of_tracked ha hs.tracked).2.2
    content := fun r hr => mem_survivors (hl ▸ hr) }

/-- A reclaim retires the entries of the variable that is updated. -/
theorem liveOf_reclaimed_eq_nil
    (ha : ∀ i r, l[i]? = some r → r.key = key → r.isAdded = true → updating = some i)
    (htrans : ∀ i r, l[i]? = some r → r.key = key → r.isInTransition = true →
      updating = some i ∨ inDeleted = some i) :
    liveOf key (reclaimed updating inDeleted l) = [] := by
  have hnone : liveOf key (reclaimAdded updating l) = [] := by
    rw [liveOf_reclaimAdded, map_eq_nil_iff, filter_eq_nil_iff]
    intro e he hc
    simp only [Bool.and_eq_true, bne_iff_ne, beq_iff_eq] at hc
    obtain ⟨⟨hne, had⟩, hk⟩ := hc
    exact hne (ha e.2 e.1 (mem_zipIdx_iff_getElem?.mp he) hk had).symm
  have hh : heldBack key updating inDeleted l.zipIdx = [] := by
    rw [heldBack, map_eq_nil_iff, filter_eq_nil_iff]
    intro e he hc
    simp only [Bool.and_eq_true, bne_iff_ne, beq_iff_eq] at hc
    obtain ⟨⟨⟨hne, hne'⟩, htr⟩, hk⟩ := hc
    rcases htrans e.2 e.1 (mem_zipIdx_iff_getElem?.mp he) hk htr with h | h
    · exact hne h.symm
    · exact hne' h.symm
  rw [liveOf_reclaimed, hnone, hh]
  rfl

end Reclaim

end Edk2.Var
